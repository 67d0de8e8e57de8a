import StackEffect.Proofs.Ends
import StackEffect.Proofs.Store.Partition

/-!
# Proofs/Store/Lookup — looking up a class leaves shortcuts

    i ⟶ parent i ⟶ … ⟶ root i        i may be linked to its root, and its names registered with it

Looking something up answers what the views of the store say, and changes nothing but links and
index (`Store.Shortened`): each link, and each name, leads to where it led before, or all the way to
the root.  So the partition stays what it was, and with it everything that is said of it.
-/

namespace StackEffect

namespace Store

/-- **`t` is `s` with shortcuts.** -/
structure Shortened (s t : Store) : Prop where
  partition : t.partition = s.partition
  parent : ∀ i, t.parent i = s.parent i ∨ t.parent i = s.root i
  index : ∀ n, t.index[n]? = s.index[n]? ∨ t.index[n]? = s.classOf? n
  rest : t = { s with parents := t.parents, index := t.index }

variable {s t u : Store}

namespace Shortened

theorem refl (s : Store) : s.Shortened s := ⟨rfl, fun _ => .inl rfl, fun _ => .inl rfl, rfl⟩

/-- Shortening links changes no root, so that classes have their members and names have their
classes. -/
theorem root (h : s.Shortened t) : t.root = s.root := congrArg Partition.root h.partition

theorem classOf? (h : s.Shortened t) : t.classOf? = s.classOf? :=
  congrArg Partition.index h.partition

/-- Shortening links keeps all members. -/
theorem kept (h : s.Shortened t) : t.kept = s.kept := by
  rw [h.rest]
  rfl

theorem nesting (h : s.Shortened t) : t.nesting = s.nesting := by rw [h.rest]

theorem solution (h : s.Shortened t) : t.solution = s.solution := by rw [h.rest]

/-- Links may be shortened again. -/
theorem trans (h : s.Shortened t) (h' : t.Shortened u) : s.Shortened u where
  partition := h'.partition.trans h.partition
  parent i := by
    rcases h'.parent i with hp | hp
    · exact hp ▸ h.parent i
    · exact .inr (hp.trans (congrFun h.root i))
  index n := by
    rcases h'.index n with hn | hn
    · exact hn ▸ h.index n
    · exact .inr (hn.trans (congrFun h.classOf? n))
  rest := by
    rw [h'.rest, h.rest]

/-- The level of nesting has no part in shortcuts. -/
theorem shallower (h : s.deeper.Shortened t) : s.Shortened t.shallower where
  partition := h.partition
  parent := h.parent
  index := h.index
  rest := by
    rw [h.rest]
    rfl

end Shortened

/-- **Stores that differ in nothing but shortcuts.** -/
structure Akin (s t : Store) : Prop where
  partition : t.partition = s.partition
  rest : t = { s with parents := t.parents, index := t.index }

namespace Akin

theorem refl (s : Store) : s.Akin s := ⟨rfl, rfl⟩

theorem symm (h : s.Akin t) : t.Akin s := ⟨h.partition.symm, by rw [h.rest]⟩

theorem trans (h : s.Akin t) (h' : t.Akin u) : s.Akin u :=
  ⟨h'.partition.trans h.partition, by rw [h'.rest, h.rest]⟩

theorem kept (h : s.Akin t) : t.kept = s.kept := by
  rw [h.rest]
  rfl

end Akin

/-- Shortening links leaves the store akin. -/
theorem Shortened.akin (h : s.Shortened t) : s.Akin t := ⟨h.partition, h.rest⟩

/-- A change that has no use for links, but for changing some. -/
def Linkless (f : Store → Store) : Prop := ∀ (s : Store) parents index,
  f { s with parents := parents, index := index } =
    { f s with
      parents := (f { s with parents := parents, index := index }).parents
      index := (f { s with parents := parents, index := index }).index }

/-- **A change that does not look at links keeps stores akin.** -/
theorem Akin.map (h : s.Akin t) {f : Store → Store} (hf : Linkless f)
    (hp : (f t).partition = (f s).partition) : (f s).Akin (f t) where
  partition := hp
  rest := by
    have hrest := hf s t.parents t.index
    rwa [← h.rest] at hrest

/-- A link that leads to a root. -/
theorem shortened_link (h : s.partition.Shaped) {id : Nat} (hid : id < s.parents.size) :
    s.Shortened (s.link id (s.root id)) where
  partition := partition_link_root h hid
  parent i := by
    rw [parent_link hid]
    split
    · next hi => exact .inr (hi ▸ rfl)
    · exact .inl rfl
  index _ := .inl rfl
  rest := rfl

/-- A name that is registered with a root. -/
theorem shortened_settle (h : s.partition.Shaped) {name : String} {id : Nat}
    (hid : s.classOf? name = some id) : s.Shortened (s.settle name id) where
  partition := partition_settle_root h hid
  parent _ := .inl rfl
  index n := by
    change (s.index.insert name id)[n]? = _ ∨ (s.index.insert name id)[n]? = _
    rw [index_insert]
    split
    · next hn => exact .inr (hn ▸ hid.symm)
    · exact .inl rfl
  rest := rfl

end Store

namespace Site

open Store

variable {s : Store} {id : Nat} {name : String} {E : Fault → Store → Prop}

/-- Climbing follows the links, and changes nothing. -/
theorem ends_climb_iff {turns : Nat} {Q : Nat → Store → Prop} :
    Ends (climb turns id : Pass Nat) s Q E ↔ Q (follow s.parents turns id) s := by
  induction turns generalizing id with
  | zero =>
    rw [climb, Ends.bind_iff, ends_look_iff]
    split <;> rfl
  | succ turns ih =>
    rw [climb, Ends.bind_iff, ends_look_iff, follow]
    change Ends (if s.parent id = id then pure id else climb turns (s.parent id)) s Q E ↔
      Q (if s.parent id = id then id else follow s.parents turns (s.parent id)) s
    split
    · rfl
    · exact ih

/-- Shortening the links on the way to a root leaves shortcuts. -/
theorem ends_shorten (h : s.partition.Shaped) {r : Nat} (hr : s.root id = r) (turns : Nat) :
    Ends (shorten r turns id : Pass Unit) s
      (fun _ t => s.Shortened t ∧ (0 < turns → t.parent id = r)) E := by
  induction turns generalizing s id with
  | zero =>
    rw [shorten, Ends.bind_iff, ends_look_iff]
    split <;> exact ⟨.refl s, fun h => absurd h (Nat.lt_irrefl _)⟩
  | succ turns ih =>
    rw [shorten, Ends.bind_iff, ends_look_iff]
    dsimp only
    split
    · next hup => exact ⟨.refl s, fun _ => hup⟩
    next hup =>
    have hid : id < s.parents.size := by
      by_contra hge
      have hge := Nat.le_of_not_lt hge
      exact hup ((parent_of_size_le hge).trans ((root_of_size_le hge).symm.trans hr))
    have hlink : s.Shortened (s.link id r) := hr ▸ shortened_link h hid
    have hroot : (s.link id r).root (s.parent id) = r := by
      rw [hlink.root]
      exact (Forest.root_parent h.rooted id).trans hr
    rw [Ends.bind_iff, ends_alter_iff]
    refine (ih (hlink.partition.symm ▸ h) hroot).mono
      (fun _ t ht => ⟨hlink.trans ht.1, fun _ => ?_⟩) fun _ _ he => he
    rcases ht.1.parent id with hp | hp
    · rw [hp, parent_link hid, if_pos rfl]
    · rw [hp, hlink.root, hr]

/-- **Finding the root of a class leaves shortcuts.** -/
theorem ends_find (h : s.partition.Shaped) (id : Nat) : Ends (find id : Pass Nat) s
    (fun r t => r = s.root id ∧ s.Shortened t ∧ t.parent id = s.root id) E := by
  rw [find, Ends.bind_iff, ends_look_iff, Ends.bind_iff, ends_climb_iff, Ends.bind_iff]
  refine (ends_shorten h rfl s.parents.size).mono (fun _ t ht => ⟨rfl, ht.1, ?_⟩) fun _ _ he => he
  rcases Nat.eq_zero_or_pos s.parents.size with hzero | hpos
  · have hge : s.parents.size ≤ id := hzero ▸ Nat.zero_le id
    rcases ht.1.parent id with hp | hp
    · rw [hp, parent_of_size_le hge, root_of_size_le hge]
    · exact hp
  · exact ht.2 hpos

/-- **Finding the class of a name leaves shortcuts.** -/
theorem ends_classOf (h : s.partition.Shaped) (name : String) : Ends (classOf name : Pass _) s
    (fun r t => r = s.classOf? name ∧ s.Shortened t ∧ t.index[name]? = s.classOf? name) E := by
  rw [classOf, Ends.bind_iff, ends_look_iff]
  split
  · next hnone =>
    have hclass : s.classOf? name = none := by rw [classOf?, hnone]; rfl
    exact ⟨hclass.symm, .refl s, hnone.trans hclass.symm⟩
  · next i hi =>
    have hclass : s.classOf? name = some (s.root i) := by rw [classOf?, hi]; rfl
    rw [Ends.bind_iff]
    refine (ends_find h i).mono (fun r t ht => ?_) fun _ _ he => he
    obtain ⟨rfl, hst, -⟩ := ht
    rw [Ends.bind_iff, ends_alter_iff, Ends.pure_iff]
    have hshaped : t.partition.Shaped := hst.partition.symm ▸ h
    refine ⟨hclass.symm, hst.trans (shortened_settle hshaped ?_), ?_⟩
    · rw [hst.classOf?, hclass]
    · change (t.index.insert name (s.root i))[name]? = _
      rw [index_insert, if_pos rfl, hclass]

/-- Whether a class has a member is found out, and links are shortened on the way. -/
theorem ends_holds (h : s.partition.Shaped) (id : Nat) (k : Kind) : Ends (holds id k : Pass Bool) s
    (fun b t => (b = true ↔ k ∈ s.partition.members id) ∧ s.Shortened t) E := by
  rw [holds, Ends.bind_iff]
  refine (ends_find h id).mono (fun r t ht => ?_) fun _ _ he => he
  obtain ⟨rfl, hst, -⟩ := ht
  rw [Ends.bind_iff, ends_look_iff, Ends.pure_iff, hst.kept]
  refine ⟨?_, hst⟩
  change (s.membersOf id).contains k = true ↔ k ∈ (s.membersOf id).toList
  rw [Array.contains_iff_mem, Array.mem_toList_iff]

theorem ends_memberAt? (h : s.partition.Shaped) (id i : Nat) :
    Ends (memberAt? id i : Pass (Option Kind)) s
      (fun k t => k = (s.partition.members id)[i]? ∧ s.Shortened t) E := by
  rw [memberAt?, Ends.bind_iff]
  refine (ends_find h id).mono (fun r t ht => ?_) fun _ _ he => he
  obtain ⟨rfl, hst, -⟩ := ht
  rw [Ends.bind_iff, ends_look_iff, Ends.pure_iff, hst.kept]
  refine ⟨?_, hst⟩
  change (s.membersOf id)[i]? = (s.membersOf id).toList[i]?
  rw [Array.getElem?_toList]

end Site

/-! ## What comes after looking something up -/

namespace Ends

open Store

variable {α : Type} {s : Store} {id : Nat} {Q : α → Store → Prop} {E : Fault → Store → Prop}

/-- What comes after finding a root may be seen from where links are shortened. -/
theorem of_find (hs : s.partition.Shaped) {f : Nat → Pass α}
    (h : ∀ t : Store, s.Shortened t → Ends (f (t.root id)) t Q E) :
    Ends (Site.find id >>= f) s Q E := by
  refine (Site.ends_find hs id).bind ?_
  rintro _ t ⟨rfl, ht, -⟩
  exact ht.root ▸ h t ht

theorem of_classOf (hs : s.partition.Shaped) {name : String} {f : Option Nat → Pass α}
    (h : ∀ t : Store, s.Shortened t → Ends (f (t.partition.index name)) t Q E) :
    Ends (Site.classOf name >>= f) s Q E := by
  refine (Site.ends_classOf hs name).bind ?_
  rintro _ t ⟨rfl, ht, -⟩
  exact ht.classOf? ▸ h t ht

theorem of_holds (hs : s.partition.Shaped) {k : Kind} {f : Bool → Pass α}
    (h : ∀ (b : Bool) (t : Store), (b = true ↔ k ∈ t.partition.members id) → s.Shortened t →
      Ends (f b) t Q E) : Ends (Site.holds id k >>= f) s Q E := by
  refine (Site.ends_holds hs id k).bind ?_
  rintro b t ⟨hb, ht⟩
  exact h b t (ht.partition.symm ▸ hb) ht

theorem of_memberAt? (hs : s.partition.Shaped) {i : Nat} {f : Option Kind → Pass α}
    (h : ∀ t : Store, s.Shortened t → Ends (f (t.partition.members id)[i]?) t Q E) :
    Ends (Site.memberAt? id i >>= f) s Q E := by
  refine (Site.ends_memberAt? hs id i).bind ?_
  rintro _ t ⟨rfl, ht⟩
  exact ht.partition ▸ h t ht

end Ends

/-! ## Answers -/

namespace Store

variable {s : Store} {E : Fault → Store → Prop}

/-- Looking up one thing after another. -/
theorem ends_filterM {α : Type} {f : α → Pass Bool} {g : α → Bool}
    (hf : ∀ a (t : Store), s.Shortened t → Ends (f a) t (fun b u => b = g a ∧ s.Shortened u) E)
    (l : List α) : Ends (l.filterM f) s (fun r t => r = l.filter g ∧ s.Shortened t) E := by
  have haux : ∀ (acc : List α) (t : Store), s.Shortened t → Ends (l.filterAuxM f acc) t
      (fun r u => r = (l.filter g).reverse ++ acc ∧ s.Shortened u) E := by
    induction l with
    | nil => exact fun acc t ht => ⟨rfl, ht⟩
    | cons a l ih =>
      intro acc t ht
      refine (hf a t ht).bind ?_
      rintro _ u ⟨rfl, hu⟩
      refine (ih _ u hu).mono (fun r v hv => ⟨hv.1.trans ?_, hv.2⟩) fun _ _ he => he
      cases hg : g a <;> simp [hg]
  refine (haux [] s (.refl s)).bind ?_
  rintro _ t ⟨rfl, ht⟩
  exact ⟨by rw [List.append_nil, List.reverse_reverse], ht⟩

/-- **The classes that are left are found**, and links are shortened on the way. -/
theorem ends_findLive (h : s.partition.Shaped) :
    Ends (findLive : Pass _) s (fun ids t => ids = s.liveClasses ∧ s.Shortened t) E := by
  refine Ends.bind_iff.2 (Site.ends_look_iff.2 (ends_filterM (fun id t ht => ?_) _))
  refine .of_find (ht.partition.symm ▸ h) fun u hu => ⟨?_, ht.trans hu⟩
  rw [(ht.trans hu).root]

/-- So are the names of a class. -/
theorem ends_findNames (h : s.partition.Shaped) (id : Nat) :
    Ends (findNames id : Pass _) s (fun names t => names = s.classNames id ∧ s.Shortened t) E := by
  refine Ends.bind_iff.2 (Site.ends_look_iff.2 (ends_filterM (fun name t ht => ?_) _))
  refine .of_classOf (ht.partition.symm ▸ h) fun u hu => ⟨?_, ht.trans hu⟩
  rw [(ht.trans hu).partition]
  rfl

/-- **The members of a class are found**, and shortcuts left. -/
theorem ends_findMembers (h : s.partition.Shaped) (name : String) :
    Ends (findMembers name : Pass _) s (fun r t => r = s.classMembers? name ∧ s.Shortened t) E := by
  refine .of_classOf h fun t ht => ?_
  have hclass : t.partition.index name = s.classOf? name := congrFun ht.classOf? name
  rw [hclass, classMembers?]
  cases hid : s.classOf? name with
  | none => exact ⟨rfl, ht⟩
  | some id =>
    have hroot : s.root id = id := h.index_root hid
    refine Ends.bind_iff.2 (Site.ends_look_iff.2 ⟨?_, ht⟩)
    change _ = if (s.kept (s.root id)).isEmpty then none else some (s.kept (s.root id))
    rw [hroot, ht.kept]

/-- **Whether two names belong to one class is found out**, and shortcuts left. -/
theorem ends_findSame (h : s.partition.Shaped) (a b : String) :
    Ends (findSame a b : Pass _) s (fun r t => r = s.sameClass a b ∧ s.Shortened t) E := by
  refine .of_classOf h fun t ht => .of_classOf (ht.partition.symm ▸ h) fun u hu => ⟨?_, ht.trans hu⟩
  rw [hu.partition, ht.partition]
  change ((s.classOf? a).isSome && s.classOf? a == s.classOf? b) = s.sameClass a b
  unfold sameClass
  cases s.classOf? a <;> cases s.classOf? b <;> simp

/-- **The store is written as text**, and shortcuts left. -/
theorem ends_findText (h : s.partition.Shaped) :
    Ends (findText : Pass _) s (fun r t => r = s.text ∧ s.Shortened t) E := by
  refine (ends_findLive h).bind ?_
  rintro _ t ⟨rfl, ht⟩
  refine Ends.bind_iff.2 (Site.ends_look_iff.2 ⟨?_, ht⟩)
  rw [ht.kept, text]
  refine congrArg String.join (List.filterMap_congr fun id hid => ?_)
  have hroot : s.root id = id := beq_iff_eq.1 (List.mem_filter.1 hid).2
  change _ = if (s.kept (s.root id)).isEmpty then none
    else some (equationText (s.kept (s.root id)) ++ "\n")
  rw [hroot]

end Store

end StackEffect
