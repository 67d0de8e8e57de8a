import StackEffect.Proofs.Unify.Calls

/-!
# Proofs/Unify/Shallow — calls that need few levels of nesting

    ['R]  ≡  w        the walk, 'R and the stack, 'R and its slot, a member that joins

Calls are nested deep where members of a class are compared, and their slots bring about further
calls.  If a class never has two members to compare (`Theory.Single`), a variable is bound two levels
down, and a call in which a stack variable faces all that there is succeeds wherever four levels are
left (`Store.Under.succeeds_unifyStacks`).
-/

namespace StackEffect

variable {st : Option Subtyping} {lenient : Bool} {T U : Theory st lenient}

/-- **A class has one effect and one stack** at most. -/
def Theory.Single (T : Theory st lenient) : Prop :=
  ∀ {n k l}, T.eqn n k → T.eqn n l → k.Alike l → k = l

theorem Theory.Single.and (h : T.Single) : (T.and U).Single := fun hk hl => h hk.1 hl.1

namespace Unify

variable {α : Type} {s : Store} {name : String} {k : Kind} {id src dst width room : Nat}

/-- **A step that succeeds**, and ends at the level of nesting at which it began. -/
def Succeeds (p : Pass α) (s : Store) : Prop :=
  Ends p s (fun _ t => t.nesting = s.nesting) fun _ _ => False

theorem Succeeds.nested {p : Pass α} (h : ∀ s', s'.partition = s.partition → Succeeds p s') :
    Succeeds (Unify.nested p) s :=
  ends_nested_iff.2 ((h s.deeper rfl).mono (fun _ _ ht => congrArg (· - 1) ht) fun _ _ he => he)

/-! ## Joining a class -/

/-- A sweep that meets nobody it is compared with leaves nothing but shortcuts. -/
theorem ends_sweep_unlike {equate : Stack → Stack → Pass Unit} {n i : Nat}
    (hs : s.partition.Shaped) (h : ∀ l ∈ s.partition.members id, ¬ k.Alike l) :
    Ends (sweep id (meet equate k) n i) s (fun _ t => s.Shortened t) fun _ _ => False := by
  induction n generalizing s i with
  | zero =>
    refine .of_memberAt? hs fun t ht => ?_
    split <;> exact ht
  | succ n ih =>
    refine .of_memberAt? hs fun t ht => ?_
    rw [← ht.partition] at hs h
    split
    · exact ht
    · next m hm =>
      rw [meet_of_not_alike (h m (List.mem_of_getElem? hm)), pure_bind]
      exact (ih hs h).mono (fun _ _ hu => ht.trans hu) fun _ _ he => he

/-- A kind meets nobody in a class that does not have it. -/
theorem ends_meetAll_unlike (hT : T.Single) (hg : T.Good s.partition)
    (hk : T.Admits s.partition id k) (hnot : k ∉ s.partition.members id)
    {equate : Stack → Stack → Pass Unit} : Ends (meetAll equate width id k) s
      (fun _ t => s.Shortened t) fun _ _ => False := by
  have hunlike : ∀ l ∈ s.partition.members id, ¬ k.Alike l := by
    obtain ⟨n, hn, hnk⟩ := hk
    rintro l hl halike
    exact hnot (hT hnk (hg.member hn hl) halike ▸ hl)
  cases k with
  | effect | stack => exact ends_sweep_unlike hg.toShaped hunlike
  | _ => exact .refl s

/-- **A member joins within one level**, unless it is a variable of another class. -/
theorem succeeds_join (hT : T.Single) (hg : T.Good s.partition) (hk : T.Admits s.partition id k)
    (hplace : ∀ n i, k.varName? = some n → s.partition.index n = some i →
      s.partition.root i = s.partition.root id) : Succeeds (join width (room + 1) id k) s := by
  rw [join_succ]
  refine .nested fun s' hs' => .of_holds (hs' ▸ hg.toShaped) fun b t hb ht => ?_
  rw [← hs', ← ht.partition] at hg hk hplace
  split
  · exact ht.nesting
  next hb' =>
  have hnot : k ∉ t.partition.members id := fun hmem => hb' (hb.2 hmem)
  refine Ends.bind_iff.2 ((ends_meetAll_unlike hT hg hk hnot).mono ?_ fun _ _ he => he)
  intro _ t₁ ht₁
  refine .of_find (ht₁.partition ▸ hg.toShaped) fun u hu => ?_
  replace hu := ht₁.trans hu
  rw [← hu.partition] at hg hk hplace hnot
  refine .of_holds hg.toShaped fun b v hb hv => ?_
  have hnest : v.nesting = s'.nesting := hv.nesting.trans (hu.nesting.trans ht.nesting)
  rw [← hv.partition] at hg hk hplace hnot
  rw [show u.root id = v.root id from congrFun hv.root.symm id] at hb ⊢
  have hroot : v.root (v.root id) = v.root id := hg.root_root id
  have hnot' : k ∉ v.partition.members (v.root id) := hg.members_root id ▸ hnot
  rw [if_neg fun hb' => hnot' (hb.1 hb'), Ends.bind_iff, Site.ends_alter_iff]
  have hk' := hk.congr hroot.symm
  have hpart := partition_append hg hk' hroot
  unfold bringClass
  split
  · exact hnest
  next n hn =>
  have hshaped : (v.append (v.root id) k).partition.Shaped :=
    hpart ▸ hg.toShaped.append (hk'.lt hg.toShaped) hnot'
  refine .of_classOf hshaped fun w hw => ?_
  have hw' := hw.partition.trans hpart
  split
  · next other hother =>
    refine (ends_merge_self (hw'.symm ▸ hpart ▸ hshaped) ?_).mono
      (fun _ _ hx => hx.nesting.trans (hw.nesting.trans hnest)) fun _ _ he => he
    rw [hw'] at hother
    have hwr : w.root = v.root := congrArg Partition.root hw'
    rw [hwr, hroot]
    exact hplace n other hn hother
  · exact hw.nesting.trans hnest

/-! ## Merging classes -/

/-- The variables of a class that is drained are names of the class that absorbed it. -/
theorem succeeds_drain (hT : T.Single) (hj : Joins T (join width (room + 1))) {ks : List Kind}
    (h : Draining T s.partition src dst ks)
    (hvar : ∀ k ∈ ks, ∀ n, k.varName? = some n → s.partition.Names n dst) :
    Succeeds (drain src (join width (room + 1) dst) ks.length) s := by
  induction ks generalizing s with
  | nil => exact h.ends_nil rfl
  | cons k ks ih =>
    rw [List.forall_mem_cons] at hvar
    obtain ⟨hks, hk⟩ := h.takeFirst
    have hpart := h.partition_takeFirst
    refine h.ends_cons (((hj hks.good hk).and (succeeds_join hT hks.good hk ?_)).mono ?_
      fun _ _ he => he.2)
    · intro n i hn hi
      rw [hpart] at hi ⊢
      obtain ⟨j, hj', hji⟩ := hvar.1 n hn
      obtain rfl : j = i := Option.some.inj (hj'.symm.trans hi)
      exact hji
    · rintro _ t ⟨⟨ht, hstep, -⟩, hnest⟩
      refine (ih (hks.step ht hstep) fun l hl n hn => hstep.grows.names ?_).mono
        (fun _ u hu => hu.trans hnest) fun _ _ he => he
      rw [hpart]
      exact hvar.2 l hl n hn

/-- **Classes are merged within one level**, and are one afterwards. -/
theorem succeeds_merge (hT : T.Single) (hj : Joins T (join width (room + 1)))
    (h : Merging T s.partition src dst) : Ends (merge (join width (room + 1)) src dst) s
      (fun _ t => t.nesting = s.nesting ∧ t.partition.root src = t.partition.root dst)
      fun _ _ => False := by
  refine ends_merge h (fun t ht heq => ?_) fun t line ht hne hdrain => ?_
  · exact ⟨ht.nesting, ht.partition.symm ▸ heq⟩
  have hsrc : s.partition.root (s.root src) = s.root src := h.root_root src
  have hdst : s.partition.root (s.root dst) = s.root dst := h.root_root dst
  have hpart := h.partition_link ht.partition hne line
  have hnest : ((t.note line).link (s.root src) (s.root dst)).nesting = s.nesting := by
    rw [← ht.nesting, Store.link, Store.note]
    split <;> rfl
  refine ((ends_drain hj hdrain).and (succeeds_drain hT hj hdrain fun k hk n hn => ?_)).mono ?_
    fun _ _ he => he.2
  · have hnames : s.partition.Names n (s.root src) := by
      rcases h.var hk hn with hn | ⟨hn, -⟩
      · exact hn
      · exact hn.congr hsrc.symm
    rw [hpart]
    exact (Partition.names_absorb hsrc hdst hnames).congr
      ((Partition.root_absorb_src hsrc).trans (Partition.root_absorb_dst hdst).symm)
  · rintro _ u ⟨⟨-, hstep, -⟩, hnest'⟩
    have hd : (s.partition.absorb (s.root src) (s.root dst)).root dst = s.root dst :=
      Partition.root_absorb_dst rfl
    rw [hpart] at hstep
    exact ⟨hnest'.trans hnest, hstep.grows.root ((Partition.root_absorb_src rfl).trans hd.symm)⟩

/-! ## Constraining a variable -/

section

variable (hT : T.Single) (hw : ∀ P, T.Good P → ∀ i, (P.members i).length ≤ width)

include hT hw

theorem succeeds_constrain_of_ne (hg : T.Good s.partition) (hk : T.call name k)
    (hslot : ∀ slot, k ≠ .stack [slot]) : Succeeds (constrain width (room + 2) name k) s := by
  have hj : Joins T (join width (room + 1)) := (contract hw _).joins
  by_cases hself : k.varName? = some name
  · rw [constrain_self hself]
    exact .nested fun _ _ => rfl
  rw [constrain_succ hself hslot]
  refine .nested fun s' hs' => ?_
  rw [← hs'] at hg
  have hfor : Ends (classFor name) s' (fun _ t => t.nesting = s'.nesting) fun _ _ => False := by
    refine .of_classOf hg.toShaped fun t ht => ?_
    split <;> exact ht.nesting
  refine Ends.bind_iff.2 ((hfor.and (ends_classFor (E := fun _ _ => True) hg)).mono ?_
    fun _ _ he => he.1)
  rintro id t ⟨hnest, ht, -, hn, -⟩
  have hkt := T.eqn_of_call hk hslot
  have hbring : Ends (bringClass (join width (room + 1)) false id k) t
      (fun _ u => u.nesting = t.nesting ∧ ∀ n i, k.varName? = some n →
        u.partition.index n = some i → u.partition.root i = u.partition.root id)
      fun _ _ => False := by
    unfold bringClass
    split
    · next hnone => exact ⟨rfl, fun n i hn => by simp [hnone] at hn⟩
    next m hm =>
    refine .of_classOf ht.toShaped fun t' ht' => ?_
    have hgood := ht'.partition.symm ▸ ht
    rw [← ht'.nesting]
    split
    · next other ho =>
      have hmerging := merging_of_index hgood (ht'.partition.symm ▸ hn) hkt hm ho
      refine (Ends.and (runs_merge hj hmerging) (succeeds_merge hT hj hmerging)).mono ?_
        fun _ _ he => he.2
      rintro _ u ⟨⟨hu, hstep, -⟩, hnest', hroot⟩
      refine ⟨hnest', fun n i hkn hi => ?_⟩
      obtain rfl : m = n := Option.some.inj (hm.symm.trans hkn)
      obtain ⟨j, hj', hji, -⟩ := hstep.grows.index ho
      obtain rfl : j = i := Option.some.inj (hj'.symm.trans hi)
      exact hji.trans hroot
    · next hnone =>
      refine ⟨rfl, fun n i hkn hi => ?_⟩
      obtain rfl : m = n := Option.some.inj (hm.symm.trans hkn)
      cases hnone.symm.trans hi
  refine Ends.bind_iff.2 ((Ends.and (runs_bringClass hj ht hn hkt) hbring).mono ?_
    fun _ _ he => he.2)
  rintro _ u ⟨⟨hu, hstep, -⟩, hnest', hplace⟩
  exact (succeeds_join hT hu ⟨name, hstep.grows.names hn, hkt⟩ hplace).mono
    (fun _ _ hv => hv.trans (hnest'.trans hnest)) fun _ _ he => he

/-- **A variable is bound within three levels** to a kind with no more than one stack of one slot
around it. -/
theorem succeeds_constrain (hg : T.Good s.partition) (hk : T.call name k)
    (hflat : ∀ slot, k = .stack [slot] → ∀ inner, slot ≠ .stack [inner]) :
    Succeeds (constrain width (room + 3) name k) s := by
  by_cases hslot : ∃ slot, k = .stack [slot]
  · obtain ⟨slot, rfl⟩ := hslot
    rw [constrain_slot]
    exact .nested fun s' hs' => succeeds_constrain_of_ne hT hw (hs' ▸ hg) (T.call_slot hk)
      (hflat slot rfl)
  · exact succeeds_constrain_of_ne hT hw hg hk (not_exists.1 hslot)

/-- **A stack variable takes all that it faces within four levels.** -/
theorem succeeds_unifyStacks (hg : T.Good s.partition) {v w : Stack} (hvw : T.par v w)
    (hflat : ∀ slot ∈ v ++ w, ∀ inner, slot ≠ .stack [inner])
    (hvar : (∃ a, v = [.stackVar a]) ∨ ∃ a, w = [.stackVar a]) :
    Succeeds (unifyStacks width (room + 4) v w) s := by
  have haligned := T.par_aligned hvw
  have hc : Constrains T (constrain width (room + 3)) := (contract hw _).constrains
  have hcall : ∀ {s' : Store} {a r}, T.Good s'.partition → T.call a (.stack r) →
      (∀ slot ∈ r, ∀ inner, slot ≠ .stack [inner]) →
      Succeeds (constrain width (room + 3) a (.stack r)) s' := by
    intro s' a r hg' ha hr
    refine succeeds_constrain hT hw hg' ha fun slot hslot => hr slot ?_
    rw [Kind.stack.inj hslot]
    exact List.mem_cons_self
  have hempty : ∀ {s' : Store} {a}, T.Good s'.partition → lenient = true ∨ T.call a (.stack []) →
      Succeeds (do unless (← Site.look).lenient do constrain width (room + 3) a (.stack [])) s' := by
    intro s' a hg' ha
    have hl : s'.lenient = lenient := hg'.lenient
    refine Ends.bind_iff.2 (Site.ends_look_iff.2 ?_)
    split
    · exact rfl
    · next hs => exact hcall hg' (ha.resolve_left (hl ▸ hs)) fun _ h => absurd h List.not_mem_nil
  rw [List.forall_mem_append] at hflat
  refine .nested fun s' hs' => ?_
  rw [← hs'] at hg
  fun_cases Aligned (lenient = true ∨ T.mayClash) (fun a => lenient = true ∨ T.call a (.stack []))
    T.call (SlotAsk st T.mayClash T.call T.par) v w with
  | case1 a r b r' =>
    refine Ends.bind_iff.2 ((Ends.and (hc hg haligned.1)
      (hcall hg haligned.1 hflat.2)).mono ?_ fun _ _ he => he.2)
    rintro _ t ⟨⟨ht, -⟩, hnest⟩
    exact (hcall ht haligned.2 hflat.1).mono (fun _ _ hu => hu.trans hnest) fun _ _ he => he
  | case2 a r l r' hl =>
    rw [walk.eq_2 _ _ _ _ _ _ _ _ hl]
    rw [Aligned.eq_2 _ _ _ _ _ _ _ _ hl] at haligned
    exact hcall hg haligned hflat.2
  | case3 k r b r' hk =>
    rw [walk.eq_3 _ _ _ _ _ _ _ _ hk]
    rw [Aligned.eq_3 _ _ _ _ _ _ _ _ hk] at haligned
    exact hcall hg haligned hflat.1
  | case4 k r l r' _ hk hl =>
    rcases hvar with ⟨a, ha⟩ | ⟨a, ha⟩
    · exact (hk a (List.cons.inj ha).1).elim
    · exact (hl a (List.cons.inj ha).1).elim
  | case5 => exact rfl
  | case6 a => exact hempty hg haligned
  | case7 a => exact hempty hg haligned
  | case8 v w h₁ h₂ h₃ h₄ h₅ h₆ h₇ =>
    rcases hvar with ⟨a, rfl⟩ | ⟨a, rfl⟩
    · rcases w with - | ⟨l, w⟩
      · exact (h₆ a rfl rfl).elim
      · exact (h₂ a [] l w rfl rfl).elim
    · rcases v with - | ⟨k, v⟩
      · exact (h₇ a rfl rfl).elim
      · exact (h₃ k v a [] rfl rfl).elim

end

end Unify

/-! ## Calls on the store -/

namespace Store

open Unify

variable {s : Store} {v w : Stack}

theorem Under.succeeds_unifyStacks (h : s.Under T) (hT : T.Single) (hroom : 4 ≤ s.room)
    (hvw : T.par v w) (hflat : ∀ slot ∈ v ++ w, ∀ inner, slot ≠ .stack [inner])
    (hvar : (∃ a, v = [.stackVar a]) ∨ ∃ a, w = [.stackVar a]) :
    Succeeds (Store.unifyStacks v w) s := by
  obtain ⟨L, hL, hsub, hmass, hgood⟩ := h.allows
    ((Kind.closed_slotsParts v).append (Kind.closed_slotsParts w))
    (by rw [List.length_append, Kind.length_slotsParts, Kind.length_slotsParts])
  have hv := hsub (List.mem_append_left _ (Kind.stack_mem_slotsParts v))
  have hw := hsub (List.mem_append_right _ (Kind.stack_mem_slotsParts w))
  obtain ⟨room, hroom⟩ := Nat.exists_eq_add_of_le' hroom
  refine ends_handIn_iff.2 ?_
  have hroom' : ∀ m, { s with mass := m }.room = room + 4 := fun _ => hroom
  rw [hroom']
  exact Unify.succeeds_unifyStacks hT.and (fun P hP i => Nat.le_trans (Theory.length_members_le hL
    hP.toShaped (Theory.good_and_iff.1 hP).2.toHolds i) hmass) hgood ⟨hvw, hv, hw⟩ hflat hvar

/-- **Calls in which a stack variable faces all that there is all succeed.** -/
theorem Under.performAll_succeeds (h : s.Under T) (hT : T.Single) (hroom : 4 ≤ s.room)
    {cs : List Call} (hcs : ∀ c ∈ cs, ∃ v w, c = .onStacks v w ∧ T.par v w ∧
      (∀ slot ∈ v ++ w, ∀ inner, slot ≠ .stack [inner]) ∧
      ((∃ a, v = [.stackVar a]) ∨ ∃ a, w = [.stackVar a])) :
    ∃ t, Store.performAll cs s = ([], t) := by
  induction cs generalizing s with
  | nil => exact ⟨s, rfl⟩
  | cons c cs ih =>
    rw [List.forall_mem_cons] at hcs
    obtain ⟨⟨v, w, rfl, hvw, hflat, hvar⟩, hcs⟩ := hcs
    have hcall := Ends.and (h.performs_unifyStacks hvw)
      (h.succeeds_unifyStacks hT hroom hvw hflat hvar)
    obtain ⟨_, t, ht, ⟨hunder, -⟩, hnest⟩ := (hcall.mono (fun _ _ ht => ht)
      fun _ _ he => he.2).exists_ok
    obtain ⟨u, hu⟩ := ih hunder (by rwa [Store.room, hnest]) hcs
    refine ⟨u, ?_⟩
    rw [Store.performAll, Call.perform, ht]
    exact hu

end Store

end StackEffect
