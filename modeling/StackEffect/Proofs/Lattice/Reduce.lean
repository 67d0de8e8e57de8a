import Mathlib.Algebra.Group.Nat.Even
import Mathlib.Data.List.Induction
import Mathlib.Data.List.Perm.Subperm
import StackEffect.Proofs.Kind.Relabel
import StackEffect.Proofs.Lattice.Order

/-!
# Proofs/Lattice/Reduce — when the order of names does not matter

    lower a b        the subtype, or the top type if neither is a subtype of the other
    reduce ns        one name after the other, from the top type on

Two unrelated names go up to the top type, and the next name comes down from there again.  So the
order does not matter if one name is a subtype of all the others, or if no name is a subtype of
another and their number is even, whence they go up and down in pairs; and in no other case
(`reduce_perm_iff`).
-/

namespace StackEffect.Lattice

/-- **The names of a lattice are ordered**, up to aliases, and the top type is the greatest. -/
structure Ordered (l : Lattice) : Prop where
  greatest : ∀ a, l.isSubtypeOf a l.top = true
  trans : ∀ {a b c}, l.isSubtypeOf a b = true → l.isSubtypeOf b c = true → l.isSubtypeOf a c = true
  antisymm : ∀ {a b},
    l.isSubtypeOf a b = true → l.isSubtypeOf b a = true → l.canonical a = l.canonical b

/-- Neither name is a subtype of the other. -/
def Unrelated (l : Lattice) (a b : String) : Prop :=
  l.isSubtypeOf a b = false ∧ l.isSubtypeOf b a = false

/-- The subtype of two names, or the top type. -/
def lower (l : Lattice) (a b : String) : String :=
  if l.isSubtypeOf a b then a else if l.isSubtypeOf b a then b else l.top

/-- **Reduces names from left to right**, from the top type on. -/
def reduce (l : Lattice) (ns : List String) : String := ns.foldl l.lower l.top

/-- The names that do not stand for the top type, each once. -/
def proper (l : Lattice) (ns : List String) : List String :=
  ns.eraseDups.filter fun n => l.canonical n ≠ l.top

/-- Apart from the top type, none of the names is a subtype of another, and their number is even. -/
def EvenlyUnrelated (l : Lattice) (ns : List String) : Prop :=
  (l.proper ns).Pairwise l.Unrelated ∧ Even (l.proper ns).length

instance (l : Lattice) (a b : String) : Decidable (l.Unrelated a b) :=
  inferInstanceAs (Decidable (_ ∧ _))

instance (l : Lattice) (ns : List String) : Decidable (l.EvenlyUnrelated ns) :=
  inferInstanceAs (Decidable (_ ∧ _))

variable {l : Lattice} {a b m n r u x y : String} {ns ms s t : List String}

/-- The names of a valid lattice are ordered if the top type is no alias and has no supertypes. -/
theorem ordered_of_valid (hv : l.validate = .ok ()) (htop : l.canonical l.top = l.top)
    (hnone : l.supertypes l.top = []) : l.Ordered where
  greatest := forall_isSubtypeOf_top_iff.2 htop
  trans := (isSubtypeOf_trans_iff hv).2 (fun _ => hnone) _ _ _
  antisymm := (isSubtypeOf_antisymm_iff hv).2 (fun _ => hnone) _ _

theorem ordered_default : default.Ordered :=
  ordered_of_valid validate_default (by decide +kernel) (by decide +kernel)

theorem Unrelated.symm (h : l.Unrelated a b) : l.Unrelated b a := ⟨h.2, h.1⟩

theorem isSubtypeOf_of_canonical_eq (h : l.canonical a = l.canonical b) :
    l.isSubtypeOf a b = true :=
  isSubtypeOf_iff.2 (.inr (h ▸ .refl))

theorem Unrelated.canonical_ne (h : l.Unrelated a b) : l.canonical a ≠ l.canonical b := fun he =>
  Bool.false_ne_true (h.1.symm.trans (isSubtypeOf_of_canonical_eq he))

/-! ## Two names -/

theorem lower_of_le (h : l.isSubtypeOf a b = true) : l.lower a b = a := if_pos h

theorem lower_of_unrelated (h : l.Unrelated a b) : l.lower a b = l.top := by
  simp [lower, h.1, h.2]

theorem lower_cases (l : Lattice) (a b : String) :
    (l.isSubtypeOf a b = true ∧ l.lower a b = a) ∨ (l.isSubtypeOf b a = true ∧ l.lower a b = b) ∨
      (l.Unrelated a b ∧ l.lower a b = l.top) := by
  unfold lower Unrelated
  cases l.isSubtypeOf a b <;> cases l.isSubtypeOf b a <;> simp

theorem isSubtypeOf_congr (h : l.canonical a = l.canonical b) (n : String) :
    l.isSubtypeOf a n = l.isSubtypeOf b n ∧ l.isSubtypeOf n a = l.isSubtypeOf n b := by
  simp only [isSubtypeOf, h, and_self]

theorem Unrelated.congr (h : l.canonical a = l.canonical b) (hn : l.Unrelated a n) :
    l.Unrelated b n := by
  obtain ⟨hleft, hright⟩ := isSubtypeOf_congr h n
  exact ⟨hleft ▸ hn.1, hright ▸ hn.2⟩

theorem lower_congr (h : l.canonical a = l.canonical b) (n : String) :
    l.canonical (l.lower a n) = l.canonical (l.lower b n) := by
  obtain ⟨hleft, hright⟩ := isSubtypeOf_congr h n
  unfold lower
  rw [hleft, hright]
  split
  · exact h
  · rfl

theorem foldl_lower_congr (h : l.canonical a = l.canonical b) (ns : List String) :
    l.canonical (ns.foldl l.lower a) = l.canonical (ns.foldl l.lower b) := by
  induction ns generalizing a b with
  | nil => exact h
  | cons n ns ih => exact ih (lower_congr h n)

theorem reduce_concat (ns : List String) (n : String) :
    l.reduce (ns ++ [n]) = l.lower (l.reduce ns) n := List.foldl_concat ..

theorem reduce_eq_top_or_mem (ns : List String) : l.reduce ns = l.top ∨ l.reduce ns ∈ ns := by
  induction ns using List.reverseRecOn with
  | nil => exact .inl rfl
  | append_singleton ns n ih =>
    rw [reduce_concat]
    rcases l.lower_cases (l.reduce ns) n with ⟨-, he⟩ | ⟨-, he⟩ | ⟨-, he⟩ <;> rw [he]
    · exact ih.imp_right (List.mem_append_left _)
    · exact .inr (List.mem_append_right _ List.mem_cons_self)
    · exact .inl rfl

/-! ## Names that are told more than once -/

theorem proper_perm (hms : ms.Perm ns) : (l.proper ms).Perm (l.proper ns) := by
  refine List.Perm.filter _ ((List.perm_ext_iff_of_nodup (Kind.nodup_eraseDups _)
    (Kind.nodup_eraseDups _)).2 fun n => ?_)
  rw [List.mem_eraseDups, List.mem_eraseDups, hms.mem_iff]

theorem mem_proper : n ∈ l.proper ns ↔ n ∈ ns ∧ l.canonical n ≠ l.top := by
  simp [proper]

theorem nodup_proper (ns : List String) : (l.proper ns).Nodup := (Kind.nodup_eraseDups _).filter _

/-- Every order of the proper names is that of some order of all names. -/
theorem exists_perm_of_proper (hs : s.Perm (l.proper ns)) : ∃ ms, ms.Perm ns ∧ l.proper ms = s := by
  let once := s ++ ns.eraseDups.filter fun n => !decide (l.canonical n ≠ l.top)
  have honce : once.Perm ns.eraseDups := (hs.append_right _).trans (List.filter_append_perm _ _)
  have hnodup : once.Nodup := honce.nodup_iff.2 (Kind.nodup_eraseDups ns)
  have hmem : ∀ n, n ∈ once ↔ n ∈ ns := fun n => honce.mem_iff.trans List.mem_eraseDups
  obtain ⟨first, hfirst, hsub⟩ := hnodup.subperm fun n hn => (hmem n).1 hn
  obtain ⟨again, hagain⟩ := hsub.exists_perm_append
  have hperm : (once ++ again).Perm ns := (hfirst.symm.append_right again).trans hagain.symm
  refine ⟨once ++ again, hperm, ?_⟩
  have hnone : again.removeAll once = [] := List.filter_eq_nil_iff.2 fun n hn => by
    simpa using (hmem n).2 (hperm.subset (List.mem_append_right _ hn))
  have hproper : ∀ n ∈ s, decide (l.canonical n ≠ l.top) = true := fun n hn =>
    (List.mem_filter.1 (hs.subset hn)).2
  rw [proper, List.eraseDups_append, hnone, Kind.eraseDups_of_nodup hnodup, List.eraseDups_nil,
    List.append_nil, List.filter_append, List.filter_eq_self.2 hproper, List.filter_filter]
  simp

/-! ## Lattices whose names are ordered -/

section

variable (h : l.Ordered)

include h

theorem canonical_top : l.canonical l.top = l.top := forall_isSubtypeOf_top_iff.1 h.greatest

theorem top_isSubtypeOf_iff : l.isSubtypeOf l.top n = true ↔ l.canonical n = l.top :=
  ⟨fun hn => (h.antisymm (h.greatest n) hn).trans (canonical_top h),
    fun hn => isSubtypeOf_iff.2 (.inl hn)⟩

/-- From the top type every other name comes down. -/
theorem lower_top (hn : l.canonical n ≠ l.top) : l.lower l.top n = n := by
  rw [lower, if_neg fun hle => hn ((top_isSubtypeOf_iff h).1 hle), if_pos (h.greatest n)]

theorem reduce_cons (a : String) (ns : List String) :
    l.canonical (l.reduce (a :: ns)) = l.canonical (ns.foldl l.lower a) := by
  refine foldl_lower_congr ?_ ns
  by_cases ha : l.canonical a = l.top
  · rw [lower_of_le ((top_isSubtypeOf_iff h).2 ha), canonical_top h, ha]
  · rw [lower_top h ha]

/-- Names that stand for the top type change nothing. -/
theorem foldl_lower_filter (r : String) (ns : List String) :
    (ns.filter fun n => l.canonical n ≠ l.top).foldl l.lower r = ns.foldl l.lower r := by
  induction ns generalizing r with
  | nil => rfl
  | cons n ns ih =>
    by_cases hn : l.canonical n = l.top
    · have hr := h.trans (h.greatest r) ((top_isSubtypeOf_iff h).2 hn)
      rw [List.filter_cons_of_neg (by simpa using hn), List.foldl_cons, lower_of_le hr, ih]
    · rw [List.filter_cons_of_pos (by simpa using hn), List.foldl_cons, List.foldl_cons, ih]

theorem reduce_proper (ns : List String) : l.reduce (l.proper ns) = l.reduce ns.eraseDups :=
  foldl_lower_filter h l.top ns.eraseDups

/-! ## One name below the others -/

theorem isSubtypeOf_lower (ha : l.isSubtypeOf m a = true) (hb : l.isSubtypeOf m b = true) :
    l.isSubtypeOf m (l.lower a b) = true := by
  rcases l.lower_cases a b with ⟨-, he⟩ | ⟨-, he⟩ | ⟨-, he⟩ <;> rw [he]
  exacts [ha, hb, h.greatest m]

/-- **A name that is a subtype of all the others is what is left.**  Nothing goes below it, and once
it is met nothing goes above it. -/
theorem canonical_foldl_lower (hle : ∀ n ∈ ns, l.isSubtypeOf m n = true)
    (hr : l.isSubtypeOf m r = true) (hm : m ∈ ns ∨ l.isSubtypeOf r m = true) :
    l.canonical (ns.foldl l.lower r) = l.canonical m := by
  induction ns generalizing r with
  | nil => exact h.antisymm (hm.resolve_left List.not_mem_nil) hr
  | cons n ns ih =>
    rw [List.forall_mem_cons] at hle
    refine ih hle.2 (isSubtypeOf_lower h hr hle.1) ?_
    rcases hm with hm | hm
    · rcases List.mem_cons.1 hm with rfl | hm
      · right
        rcases l.lower_cases r m with ⟨hrm, he⟩ | ⟨-, he⟩ | ⟨hu, -⟩
        · rwa [he]
        · rw [he]
          exact isSubtypeOf_self l m
        · exact absurd hr (Bool.eq_false_iff.1 hu.2)
      · exact .inl hm
    · right
      rwa [lower_of_le (h.trans hm hle.1)]

theorem canonical_reduce_of_least (hm : m ∈ ns) (hle : ∀ n ∈ ns, l.isSubtypeOf m n = true) :
    l.canonical (l.reduce ns) = l.canonical m :=
  canonical_foldl_lower h hle (h.greatest m) (.inl hm)

/-! ## Unrelated names -/

/-- **Unrelated names go up to the top type in pairs.** -/
theorem reduce_of_even (hns : ns.Pairwise l.Unrelated) (hproper : ∀ n ∈ ns, l.canonical n ≠ l.top)
    (heven : Even ns.length) : l.reduce ns = l.top := by
  induction ns using List.twoStepInduction with
  | nil => rfl
  | singleton a => cases heven with | intro k hk => simp at hk; omega
  | cons_cons a b ns ih _ =>
    rw [List.forall_mem_cons, List.forall_mem_cons] at hproper
    rw [List.pairwise_cons, List.pairwise_cons] at hns
    have hpair : l.lower (l.lower l.top a) b = l.top := by
      rw [lower_top h hproper.1, lower_of_unrelated (hns.1 b List.mem_cons_self)]
    rw [reduce, List.foldl_cons, List.foldl_cons, hpair]
    exact ih hns.2.2 hproper.2.2 (by simpa [Nat.even_add, parity_simps] using heven)

/-- One more comes down again. -/
theorem reduce_concat_of_even (hns : ns.Pairwise l.Unrelated)
    (hproper : ∀ n ∈ ns, l.canonical n ≠ l.top) (heven : Even ns.length)
    (ha : l.canonical a ≠ l.top) : l.reduce (ns ++ [a]) = a := by
  rw [reduce_concat, reduce_of_even h hns hproper heven, lower_top h ha]

/-- An odd number of unrelated names comes down to the last one. -/
theorem exists_orders_of_odd (hns : ns.Pairwise l.Unrelated)
    (hproper : ∀ n ∈ ns, l.canonical n ≠ l.top) (hodd : ¬ Even ns.length)
    (hleast : ¬ ∃ m ∈ ns, ∀ n ∈ ns, l.isSubtypeOf m n = true) :
    ∃ s t, s.Perm ns ∧ t.Perm ns ∧ l.canonical (l.reduce s) ≠ l.canonical (l.reduce t) := by
  rcases ns with _ | ⟨a, _ | ⟨b, rest⟩⟩
  · exact absurd Even.zero hodd
  · exact absurd ⟨a, by simp, by simpa using isSubtypeOf_self l a⟩ hleast
  · have heven : Even (rest.length + 1) := by simpa [Nat.even_add_one] using hodd
    have hab : l.Unrelated a b := (List.pairwise_cons.1 hns).1 b List.mem_cons_self
    have hlast : ∀ c d, (d :: rest).Sublist (a :: b :: rest) → c ∈ a :: b :: rest →
        l.reduce (d :: rest ++ [c]) = c := fun c d hd hc =>
      reduce_concat_of_even h (hns.sublist hd) (fun n hn => hproper n (hd.subset hn)) heven
        (hproper c hc)
    refine ⟨b :: rest ++ [a], a :: rest ++ [b], List.perm_append_singleton .., ?_, ?_⟩
    · exact (List.perm_append_singleton ..).trans (.swap ..)
    · rw [hlast a b (by simp) (by simp), hlast b a (by simp) (by simp)]
      exact hab.canonical_ne

/-! ## Other names -/

/-- Below every name of a list there is one that none of the others is below. -/
theorem exists_minimal (u : String) (ns : List String) : ∃ x ∈ u :: ns, l.isSubtypeOf x u = true ∧
    ∀ z ∈ u :: ns, l.isSubtypeOf z x = true → l.isSubtypeOf x z = true := by
  induction ns with
  | nil => exact ⟨u, by simp, isSubtypeOf_self l u, by simp⟩
  | cons a ns ih =>
    obtain ⟨x, hx, hxu, hmin⟩ := ih
    have hperm : (u :: a :: ns).Perm (a :: u :: ns) := .swap ..
    simp only [hperm.mem_iff]
    by_cases ha : l.isSubtypeOf a x = true ∧ l.isSubtypeOf x a = false
    · refine ⟨a, List.mem_cons_self, h.trans ha.1 hxu, List.forall_mem_cons.2 ⟨fun hz => hz, ?_⟩⟩
      intro z hz hza
      have hxz := hmin z hz (h.trans hza ha.1)
      exact absurd (h.trans hxz hza) (Bool.eq_false_iff.1 ha.2)
    · refine ⟨x, List.mem_cons_of_mem a hx, hxu, List.forall_mem_cons.2 ⟨fun hax => ?_, hmin⟩⟩
      exact Bool.not_eq_false _ ▸ fun hxa => ha ⟨hax, hxa⟩

/-- From a name that is related to `x`, the last one of `x`, `y` and `m` decides. -/
theorem canonical_ne_of_related (hmin : l.isSubtypeOf r x = true → l.isSubtypeOf x r = true)
    (hy : l.canonical y ≠ l.top) (hxy : l.isSubtypeOf x y = true) (hxm : l.Unrelated x m)
    (hrx : ¬ l.Unrelated r x) : l.canonical (l.lower (l.lower (l.lower r x) y) m) ≠
      l.canonical (l.lower (l.lower (l.lower r x) m) y) := by
  have hx : l.canonical (l.lower r x) = l.canonical x := by
    rcases l.lower_cases r x with ⟨hle, he⟩ | ⟨-, he⟩ | ⟨hu, -⟩
    · rw [he]
      exact h.antisymm hle (hmin hle)
    · rw [he]
    · exact absurd hu hrx
  have hm := lower_of_unrelated (hxm.congr hx.symm)
  have hle : l.isSubtypeOf (l.lower r x) y = true := h.trans (isSubtypeOf_of_canonical_eq hx) hxy
  rw [lower_of_le hle, hm, lower_top h hy, canonical_top h]
  exact hy.symm

/-- From a name that is not related to `x`, the first one of `x` and `m` decides. -/
theorem canonical_ne_of_unrelated (hx : l.canonical x ≠ l.top) (hy : l.canonical y ≠ l.top)
    (hm : l.canonical m ≠ l.top) (hxy : l.isSubtypeOf x y = true) (hxm : l.Unrelated x m)
    (hrx : l.Unrelated r x) : l.canonical (l.lower (l.lower (l.lower r x) m) y) ≠
      l.canonical (l.lower (l.lower (l.lower r m) x) y) := by
  -- on the left `m` is left, or the top type
  have hleft : l.lower m y = m ∨ l.lower m y = l.top := by
    rcases l.lower_cases m y with ⟨-, he⟩ | ⟨hym, -⟩ | ⟨-, he⟩
    · exact .inl he
    · exact absurd (h.trans hxy hym) (Bool.eq_false_iff.1 hxm.1)
    · exact .inr he
  -- and on the right a name that `x` is below, but not the top type
  have hright : l.lower (l.lower (l.lower r m) x) y = x ∨
      l.lower (l.lower (l.lower r m) x) y = y := by
    have hstep : l.lower (l.lower r m) x = l.top ∨ l.lower (l.lower r m) x = x := by
      rcases l.lower_cases r m with ⟨-, he⟩ | ⟨-, he⟩ | ⟨-, he⟩ <;> rw [he]
      · exact .inl (lower_of_unrelated hrx)
      · exact .inl (lower_of_unrelated hxm.symm)
      · exact .inr (lower_top h hx)
    rcases hstep with he | he <;> rw [he]
    · exact .inr (lower_top h hy)
    · exact .inl (lower_of_le hxy)
  have habove : l.isSubtypeOf x (l.lower (l.lower (l.lower r m) x) y) = true ∧
      l.canonical (l.lower (l.lower (l.lower r m) x) y) ≠ l.top := by
    rcases hright with he | he <;> rw [he]
    exacts [⟨isSubtypeOf_self l x, hx⟩, ⟨hxy, hy⟩]
  rw [lower_of_unrelated hrx, lower_top h hm]
  intro he
  rcases hleft with hm' | hm' <;> rw [hm'] at he
  · exact Bool.eq_false_iff.1 hxm.1 (h.trans habove.1 (isSubtypeOf_of_canonical_eq he.symm))
  · exact habove.2 (he.symm.trans (canonical_top h))

/-- **A name below another, and a third one apart from it**: the order of the three matters. -/
theorem exists_orders_of_related {rest : List String} (hperm : (x :: y :: m :: rest).Perm ns)
    (hproper : ∀ n ∈ ns, l.canonical n ≠ l.top)
    (hmin : ∀ z ∈ ns, l.isSubtypeOf z x = true → l.isSubtypeOf x z = true)
    (hxy : l.isSubtypeOf x y = true) (hxm : l.Unrelated x m) :
    ∃ s t, s.Perm ns ∧ t.Perm ns ∧ l.canonical (l.reduce s) ≠ l.canonical (l.reduce t) := by
  have horder : ∀ o : List String, o.Perm [x, y, m] → (rest ++ o).Perm ns := fun o ho =>
    (List.perm_append_comm.trans (ho.append_right rest)).trans hperm
  have hreduce : ∀ a b c, l.reduce (rest ++ [a, b, c]) =
      l.lower (l.lower (l.lower (l.reduce rest) a) b) c := fun a b c => List.foldl_append ..
  have hproper' : ∀ n ∈ [x, y, m], l.canonical n ≠ l.top := fun n hn =>
    hproper n (hperm.subset (List.mem_append_left rest hn))
  simp only [List.forall_mem_cons] at hproper'
  obtain ⟨hx, hy, hm, -⟩ := hproper'
  by_cases hrx : l.Unrelated (l.reduce rest) x
  · refine ⟨rest ++ [x, m, y], rest ++ [m, x, y], horder _ (.cons x (.swap ..)),
      horder _ ((List.Perm.swap ..).trans (.cons x (.swap ..))), ?_⟩
    rw [hreduce, hreduce]
    exact canonical_ne_of_unrelated h hx hy hm hxy hxm hrx
  · refine ⟨rest ++ [x, y, m], rest ++ [x, m, y], horder _ (.refl _),
      horder _ (.cons x (.swap ..)), ?_⟩
    rw [hreduce, hreduce]
    refine canonical_ne_of_related h (fun hle => ?_) hy hxy hxm hrx
    rcases reduce_eq_top_or_mem (l := l) rest with he | hmem
    · rw [he]
      exact h.greatest x
    · exact hmin _ (hperm.subset (by simp [hmem])) hle

/-- Where some names are related but none is below all others, there are three such names. -/
theorem exists_triple (hnodup : ns.Nodup) (hns : ¬ ns.Pairwise l.Unrelated)
    (hleast : ¬ ∃ m ∈ ns, ∀ n ∈ ns, l.isSubtypeOf m n = true) :
    ∃ x y m rest, (x :: y :: m :: rest).Perm ns ∧
      (∀ z ∈ ns, l.isSubtypeOf z x = true → l.isSubtypeOf x z = true) ∧
      l.isSubtypeOf x y = true ∧ l.Unrelated x m := by
  obtain ⟨u, hu, v, hv, huv, hle⟩ : ∃ u ∈ ns, ∃ v ∈ ns, u ≠ v ∧ l.isSubtypeOf u v = true := by
    by_contra hno
    push Not at hno
    refine hns (hnodup.pairwise_of_forall_ne fun a ha b hb hab => ⟨?_, ?_⟩)
    · exact Bool.eq_false_iff.2 (hno a ha b hb hab)
    · exact Bool.eq_false_iff.2 (hno b hb a ha hab.symm)
  have hcons : ∀ z, z ∈ u :: ns ↔ z ∈ ns := fun z =>
    ⟨fun hz => (List.mem_cons.1 hz).elim (· ▸ hu) id, List.mem_cons_of_mem u⟩
  obtain ⟨x, hx, hxu, hmin⟩ := exists_minimal h u ns
  simp only [hcons] at hx hmin
  -- `x` is below both, and is not both of them
  obtain ⟨y, hy, hyx, hxy⟩ : ∃ y ∈ ns, y ≠ x ∧ l.isSubtypeOf x y = true := by
    by_cases hux : u = x
    · exact ⟨v, hv, hux ▸ huv.symm, h.trans hxu hle⟩
    · exact ⟨u, hu, hux, hxu⟩
  obtain ⟨m, hm, hxm⟩ : ∃ m ∈ ns, l.isSubtypeOf x m = false := by
    by_contra hno
    push Not at hno
    exact hleast ⟨x, hx, fun n hn => Bool.not_eq_false _ ▸ hno n hn⟩
  have hne : ∀ z, l.isSubtypeOf x z = true → m ≠ z := by
    rintro z hz rfl
    exact Bool.false_ne_true (hxm.symm.trans hz)
  have hmx : l.isSubtypeOf m x = false := Bool.eq_false_iff.2 fun hmx =>
    Bool.false_ne_true (hxm.symm.trans (hmin m hm hmx))
  have hy' : y ∈ ns.erase x := (List.mem_erase_of_ne hyx).2 hy
  have hmx' : m ≠ x := hne x (isSubtypeOf_self l x)
  have hm' : m ∈ (ns.erase x).erase y :=
    (List.mem_erase_of_ne (hne y hxy)).2 ((List.mem_erase_of_ne hmx').2 hm)
  refine ⟨x, y, m, ((ns.erase x).erase y).erase m, ?_, hmin, hxy, hxm, hmx⟩
  exact (((List.perm_cons_erase hm').symm.cons y).trans (List.perm_cons_erase hy').symm).cons x
    |>.trans (List.perm_cons_erase hx).symm

/-- **When the order of names does not matter**: one is a subtype of all the others, or no one is a
subtype of another and their number is even. -/
theorem reduce_perm_iff (hnodup : ns.Nodup) (hproper : ∀ n ∈ ns, l.canonical n ≠ l.top) :
    (∀ ms, ms.Perm ns → l.canonical (l.reduce ms) = l.canonical (l.reduce ns)) ↔
      (∃ m ∈ ns, ∀ n ∈ ns, l.isSubtypeOf m n = true) ∨
        (ns.Pairwise l.Unrelated ∧ Even ns.length) := by
  constructor
  · intro hsame
    by_contra hno
    rw [not_or, not_and] at hno
    obtain ⟨hleast, hodd⟩ := hno
    obtain ⟨s, t, hs, ht, hne⟩ : ∃ s t, s.Perm ns ∧ t.Perm ns ∧
        l.canonical (l.reduce s) ≠ l.canonical (l.reduce t) := by
      by_cases hns : ns.Pairwise l.Unrelated
      · exact exists_orders_of_odd h hns hproper (hodd hns) hleast
      · obtain ⟨x, y, m, rest, hperm, hmin, hxy, hxm⟩ := exists_triple h hnodup hns hleast
        exact exists_orders_of_related h hperm hproper hmin hxy hxm
    exact hne ((hsame s hs).trans (hsame t ht).symm)
  · rintro (⟨m, hm, hle⟩ | ⟨hns, heven⟩) ms hms
    · rw [canonical_reduce_of_least h hm hle, canonical_reduce_of_least h (hms.mem_iff.2 hm)
        fun n hn => hle n (hms.mem_iff.1 hn)]
    · rw [reduce_of_even h hns hproper heven, reduce_of_even h
        ((hms.pairwise_iff Unrelated.symm).2 hns) (fun n hn => hproper n (hms.mem_iff.1 hn))
        (hms.length_eq ▸ heven)]

/-! ## All names -/

/-- Names that are evenly unrelated are so in every order. -/
theorem EvenlyUnrelated.reduce_eq (he : l.EvenlyUnrelated ns) (hms : ms.Perm ns) :
    l.reduce ms.eraseDups = l.top := by
  have hperm := proper_perm (l := l) hms
  rw [← reduce_proper h]
  exact reduce_of_even h ((hperm.pairwise_iff Unrelated.symm).2 he.1)
    (fun n hn => (mem_proper.1 hn).2) (hperm.length_eq ▸ he.2)

/-- **When the order in which names are told does not matter.** -/
theorem reduce_eraseDups_perm_iff :
    (∀ ms : List String, ms.Perm ns →
      l.canonical (l.reduce ms.eraseDups) = l.canonical (l.reduce ns.eraseDups)) ↔
      (∃ m ∈ ns, ∀ n ∈ ns, l.isSubtypeOf m n = true) ∨ l.EvenlyUnrelated ns := by
  have hproper : ∀ n ∈ l.proper ns, l.canonical n ≠ l.top := fun n hn => (mem_proper.1 hn).2
  have hsame : (∀ ms : List String, ms.Perm ns →
      l.canonical (l.reduce ms.eraseDups) = l.canonical (l.reduce ns.eraseDups)) ↔
      ∀ ms : List String, ms.Perm (l.proper ns) →
        l.canonical (l.reduce ms) = l.canonical (l.reduce (l.proper ns)) := by
    simp only [← reduce_proper h]
    constructor
    · rintro hall s hs
      obtain ⟨ms, hms, rfl⟩ := exists_perm_of_proper hs
      exact hall ms hms
    · exact fun hall ms hms => hall _ (proper_perm hms)
  rw [hsame, reduce_perm_iff h (nodup_proper ns) hproper]
  constructor
  · rintro (⟨m, hm, hle⟩ | heven)
    · refine .inl ⟨m, (mem_proper.1 hm).1, fun n hn => ?_⟩
      by_cases htop : l.canonical n = l.top
      · exact isSubtypeOf_iff.2 (.inl htop)
      · exact hle n (mem_proper.2 ⟨hn, htop⟩)
    · exact .inr heven
  · rintro (⟨m, hm, hle⟩ | heven)
    · by_cases htop : l.canonical m = l.top
      · -- then all names stand for the top type
        have hnil : l.proper ns = [] := List.eq_nil_iff_forall_not_mem.2 fun n hn => by
          obtain ⟨hn, hne⟩ := mem_proper.1 hn
          exact hne ((h.antisymm (hle n hn) (isSubtypeOf_iff.2 (.inl htop))).symm.trans htop)
        exact .inr (by simp [hnil])
      · exact .inl ⟨m, mem_proper.2 ⟨hm, htop⟩, fun n hn => hle n (mem_proper.1 hn).1⟩
    · exact .inr heven

end

end StackEffect.Lattice
