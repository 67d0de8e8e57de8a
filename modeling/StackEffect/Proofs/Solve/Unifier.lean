import StackEffect.Proofs.Kind.Shape
import StackEffect.Proofs.Solve.Agreement

/-!
# Proofs/Solve/Unifier — solving makes the sides of a call equal

    resolve θ (stack v) = resolve θ (stack w)

Over plain kinds, without an order of nominal types and with sizes that matter, the solution makes
the sides of all calls equal, if no class leads back to itself and the members of each class that
are no variables are of one form (`solution_unifies`).
-/

namespace StackEffect

namespace Kind

mutual
/-- **Plain kinds**: no nominal type is the top type, effects are pure, and nothing refers to the
function being defined. -/
def plain : Kind → Bool
  | simple name => name != Subtyping.defaultTop
  | typeVar _ | stackVar _ => true
  | stack s => slotsPlain s
  | effect c p i => !i && slotsPlain c && slotsPlain p
  | self | foreign .. | absent => false
/-- The same for a stack. -/
def slotsPlain : List Kind → Bool
  | [] => true
  | k :: s => plain k && slotsPlain s
end

theorem isSome_effect?_iff {k : Kind} : k.effect?.isSome = true ↔ ∃ c p i, k = effect c p i := by
  cases k <;> simp [effect?]

/-- Plain tidy kinds are made of plain tidy kinds. -/
theorem closed_plain (sort : String → VarSort) : Closed fun k => k.Tidy sort ∧ k.plain = true where
  slot h := ⟨(closed_tidy sort).slot h.1, (Bool.and_eq_true_iff.1 h.2).1⟩
  rest h := ⟨(closed_tidy sort).rest h.1, (Bool.and_eq_true_iff.1 h.2).2⟩
  consumed h := ⟨(closed_tidy sort).consumed h.1,
    (Bool.and_eq_true_iff.1 (Bool.and_eq_true_iff.1 h.2).1).2⟩
  produced h := ⟨(closed_tidy sort).produced h.1, (Bool.and_eq_true_iff.1 h.2).2⟩

theorem slotsWeight_eq (s : Stack) : slotsWeight s = listWeight weight s + 1 := by
  induction s with
  | nil => rfl
  | cons k s ih =>
    rw [slotsWeight, ih, listWeight]
    omega

/-- Effects agree up to a bound if their stacks do so below it. -/
theorem sameUpTo_effect {bound : Nat} {c p d q : Stack} {i : Bool}
    (h : ∀ b < bound, SameUpTo (listWeight weight) b c d)
    (h' : ∀ b < bound, SameUpTo (listWeight weight) b p q) :
    SameUpTo weight bound (effect c p i) (effect d q i) := by
  intro hw
  simp only [weight, slotsWeight_eq] at hw
  rcases hw with hw | hw
  · rw [h _ (by omega) (.inl (Nat.le_refl _)), h' _ (by omega) (.inl (Nat.le_refl _))]
  · rw [h _ (by omega) (.inr (Nat.le_refl _)), h' _ (by omega) (.inr (Nat.le_refl _))]

/-- Nominal types other than the top type are compatible with themselves only. -/
theorem eq_of_compatible {k l : Kind} (h : Unify.compatible none k l = true)
    (hk : k.plain = true) (hl : l.plain = true) (hs : k.isSimple = true ∨ l.isSimple = true)
    (hvk : k.isVar = false) (hvl : l.isVar = false) : k = l := by
  have hbelow : ∀ {k l : Kind}, l.plain = true → Subtyping.le none k l = true → k = l := by
    intro k l hl h
    cases l <;> simp_all [Subtyping.le, plain]
  have hcmp : Subtyping.le none k l = true ∨ Subtyping.le none l k = true := by
    rcases hs with hs | hs <;> simpa [Unify.compatible, hs, hvk, hvl] using h
  exact hcmp.elim (hbelow hl) fun h => (hbelow hk h).symm

end Kind

/-! ## Classes of one form -/

/-- **A class of one form**: its members that are no variables are effects, or stacks if no name of
the class stands for one slot, or one kind. -/
structure Partition.OneForm (P : Partition) (sort : String → VarSort) (i : Nat) : Prop where
  alike : ∀ {k l}, k ∈ P.members i → l ∈ P.members i → k.isVar = false → l.isVar = false →
    k = l ∨ k.Alike l
  names : ∀ {v n}, .stack v ∈ P.members i → P.Names n i → sort n ≠ .slot

namespace Outcome

variable {sort : String → VarSort} {L : Kind → Prop} {P : Partition} {θ : String → Option Kind}
  {i bound : Nat} {k l r : Kind}

/-- Effects whose stacks are settled agree as far as settled stacks do. -/
theorem sameUpTo_of_settled_effects (h : Outcome sort L P θ) (hplain : ∀ k, L k → k.plain = true)
    (hbelow : AgreeBelow L P θ id Kind.weight bound) {c p d q : Stack} {j j' : Bool}
    (hk : L (.effect c p j)) (hl : L (.effect d q j')) (hc : P.Settled c d) (hp : P.Settled p q) :
    SameUpTo Kind.weight bound ((Kind.effect c p j).resolve θ)
      ((Kind.effect d q j').resolve θ) := by
  have hpure : ∀ {c p : Stack} {j : Bool}, L (.effect c p j) → j = false := fun hk => by
    have := hplain _ hk
    simp only [Kind.plain, Bool.and_eq_true, Bool.not_eq_true'] at this
    exact this.1.1
  cases hpure hk
  cases hpure hl
  have hbelow' := fun b hb v w => by simpa [shown] using hbelow b hb v w
  exact Kind.sameUpTo_effect
    (fun b hb => hbelow' b hb c d (h.closed.consumed hk) (h.closed.consumed hl) hc)
    fun b hb => hbelow' b hb p q (h.closed.produced hk) (h.closed.produced hl) hp

/-- Effects of a class agree as far as settled stacks do, if the class is of one form. -/
theorem sameUpTo_of_linked_effects (h : Outcome sort L P θ) (hplain : ∀ k, L k → k.plain = true)
    (hbelow : AgreeBelow L P θ id Kind.weight bound) (hform : P.OneForm sort i) {c p : Stack}
    {j : Bool} (hk : .effect c p j ∈ P.members i) (hkl : P.Linked i k l) :
    SameUpTo Kind.weight bound (k.resolve θ) (l.resolve θ) := by
  refine hkl.lift ((SameUpTo.equivalence _ _).comap _) fun k' l' hk' hl' hagree => ?_
  match k', l', hagree with
  | .effect .., .effect .., hagree =>
    exact h.sameUpTo_of_settled_effects hplain hbelow (h.member hk') (h.member hl') hagree.1
      hagree.2
  | .stack v, .stack _, _ =>
    -- no stack is in the class of an effect
    simpa [Kind.Alike] using hform.alike hk hk' rfl rfl

/-- **A slot of a class agrees with what represents the class**, which is resolved to a slot then.
-/
theorem slot_agrees (h : Outcome sort L P θ) (hac : P.Acyclic) (hplain : ∀ k, L k → k.plain = true)
    (hform : P.OneForm sort i) (hbelow : AgreeBelow L P θ id Kind.weight bound)
    (hr : P.rep i = some r) (hk : k ∈ P.members i) (hslot : k.isSlot = true) :
    SameUpTo Kind.weight bound (r.resolve θ) (k.resolve θ) ∧ ∀ v, r.resolve θ ≠ .stack v := by
  have hrep := h.represents hr
  have hrank := hrep.rank_le k hk
  cases k with
  | typeVar a =>
    have hname := h.sound.member_var hk rfl
    refine ⟨fun _ => (h.resolve_var hac hname hr rfl).symm, fun v hv => ?_⟩
    cases r with
    | typeVar m | stackVar m => simp [h.resolve_rep hr rfl] at hv
    | stack u =>
      exact hform.names (h.rep_mem hr rfl) hname (Kind.tidy_typeVar_iff.1 (h.tidy (h.member hk)))
    | _ => simp [Kind.resolve] at hv
  | simple a =>
    have hra : r = .simple a := by
      rcases hrep.mem with hmem | ⟨x, y, hx, hy, hxy, -⟩
      · have hvar : r.isVar = false := by cases r <;> simp_all [Kind.rank, Kind.isVar]
        rcases hform.alike hmem hk hvar rfl with heq | hlike
        · exact heq
        · cases r <;> simp [Kind.Alike] at hlike
      · rcases hform.alike hx hy rfl rfl with heq | hlike
        · simp [heq, Unify.compatible, Subtyping.le_refl] at hxy
        · simp [Kind.Alike] at hlike
    rw [hra]
    exact ⟨fun _ => rfl, by simp [Kind.resolve]⟩
  | effect c p j =>
    obtain ⟨d, q, j', rfl⟩ : ∃ d q j', r = .effect d q j' := by
      cases r <;> simp [Kind.rank] at hrank
      exact ⟨_, _, _, rfl⟩
    have hmem := h.rep_mem hr rfl
    refine ⟨?_, by simp [Kind.resolve]⟩
    exact h.sameUpTo_of_linked_effects hplain hbelow hform hmem (h.linked i _ _ hmem hk trivial)
  | self | foreign => simpa [Kind.plain] using hplain _ (h.member hk)
  | absent => simpa [Kind.plain] using hplain _ (h.member hk)
  | stack | stackVar => simp [Kind.isSlot] at hslot

/-- A variable agrees with a slot that it is bound to. -/
theorem sameUpTo_of_bound_slot (h : Outcome sort L P θ) (hac : P.Acyclic)
    (hplain : ∀ k, L k → k.plain = true) (hform : ∀ i, P.OneForm sort i)
    (hbelow : AgreeBelow L P θ id Kind.weight bound) {a : String} (hslot : k.isSlot = true)
    (hb : P.Bound a k) :
    SameUpTo Kind.weight bound ((Kind.typeVar a).resolve θ) (k.resolve θ) := by
  have hunwrap : k.unwrap = k := by cases k <;> first | rfl | simp [Kind.isSlot] at hslot
  rw [Partition.Bound, hunwrap] at hb
  rcases hb with hself | ⟨i, hi, hmem⟩
  · cases k <;>
      simp only [Kind.varName?, Kind.isSlot, Option.some.injEq, reduceCtorEq] at hself hslot
    rw [hself]
    exact fun _ => rfl
  · obtain ⟨r, hr⟩ := h.exists_rep hmem
    rw [h.resolve_var hac (Partition.names_of_index hi) hr (k := .typeVar a) rfl]
    exact (h.slot_agrees hac hplain (hform i) hbelow hr hmem hslot).1

theorem slotsAgree (h : Outcome sort L P θ) (hac : P.Acyclic) (hst : P.subtyping = none)
    (hplain : ∀ k, L k → k.plain = true) (hform : ∀ i, P.OneForm sort i) :
    SlotsAgree L P θ id Kind.weight := by
  intro bound hbelow k l hk hl hks hls hkl
  have hbound := fun {a : String} {k : Kind} =>
    h.sameUpTo_of_bound_slot (k := k) (a := a) hac hplain hform hbelow
  obtain ⟨hleft, hright, heffects, hcompat⟩ := (P.settledSlot_iff k l).1 hkl
  rw [hst, or_false] at hcompat
  have hpk := hplain k hk
  have hpl := hplain l hl
  match k, l with
  | .typeVar a, l => exact hbound hls (hleft a rfl)
  | k, .typeVar b => exact (hbound hks (hright b rfl)).symm
  | .effect c p j, .effect d q j' =>
    obtain ⟨hc, hp⟩ := heffects c p j d q j' rfl rfl
    exact h.sameUpTo_of_settled_effects hplain hbelow hk hl hc hp
  | .simple a, .simple _ | .simple a, .effect .. =>
    rw [Kind.eq_of_compatible hcompat hpk hpl (.inl rfl) rfl rfl]
    exact fun _ => rfl
  | .effect .., .simple b =>
    rw [Kind.eq_of_compatible hcompat hpk hpl (.inr rfl) rfl rfl]
    exact fun _ => rfl

theorem membersAgree (h : Outcome sort L P θ) (hac : P.Acyclic) (hstrict : P.lenient = false)
    (hst : P.subtyping = none) (hplain : ∀ k, L k → k.plain = true)
    (hform : ∀ i, P.OneForm sort i) : MembersAgree sort L P θ id Kind.weight := by
  intro bound hbelow i _ _ _ r k hr hk hne
  have hslot : k.isSlot = true → SameUpTo (listWeight Kind.weight) bound
      ((r.resolve θ).asSlots.map id) (shown id θ k.asSlots) := fun hks => by
    obtain ⟨hagree, hstack⟩ := h.slot_agrees hac hplain (hform i) hbelow hr hk hks
    rw [Kind.asSlots_eq_singleton hstack, Kind.asSlots_eq_singleton (by rintro v rfl; simp at hks),
      shown_cons hne]
    exact hagree.singleton
  match k with
  | .stackVar a => exact absurd rfl (hne a)
  | .stack v =>
    have hrank := (h.represents hr).rank_le _ hk
    have hmem := h.rep_mem hr (by cases r <;> simp_all [Kind.rank, Kind.isSimple])
    obtain ⟨u, rfl⟩ : ∃ u, r = .stack u := by
      have hvar : r.isVar = false := by cases r <;> simp_all [Kind.rank, Kind.isVar]
      rcases (hform i).alike hmem hk hvar rfl with rfl | hlike
      · exact ⟨v, rfl⟩
      · cases r <;> simp [Kind.Alike] at hlike
        exact ⟨_, rfl⟩
    exact h.sameUpTo_of_linked hstrict (h.slotsAgree hac hst hplain hform) hbelow
      (h.linked i _ _ hmem hk trivial)
  | .simple _ | .typeVar _ | .effect .. | .self | .foreign .. | .absent => exact hslot rfl

end Outcome

/-! ## The sides of a call -/

/-- **A live class of one form**: its members that are no variables are effects, or stacks if all
names of the class are stack variables, or one nominal type. -/
def Store.OneForm (s : Store) (sort : String → VarSort) (id : Nat) : Prop :=
  let ks := (s.membersOf id).toList.filter (!·.isVar)
  (∀ k ∈ ks, k.effect?.isSome = true) ∨
    (∀ k ∈ ks, k.isStack = true) ∧ (∀ n ∈ s.classNames id, sort n = .stack) ∨
    ks.length = 1 ∧ ∀ k ∈ ks, k.isSimple = true

instance (s : Store) (sort : String → VarSort) (id : Nat) : Decidable (s.OneForm sort id) :=
  inferInstanceAs (Decidable (_ ∨ _ ∨ _))

theorem Store.mem_classNames {s : Store} (hs : s.partition.Shaped) {n : String} {i : Nat}
    (hn : s.partition.Names n i) : n ∈ s.classNames (s.root i) := by
  obtain ⟨j, hj, hji⟩ := hn
  have hclass : s.classOf? n = some (s.root i) :=
    hj.trans (congrArg some ((hs.index_root hj).symm.trans hji))
  exact List.mem_filter.2 ⟨hs.mem_names.2 (hj ▸ rfl), beq_iff_eq.2 hclass⟩

theorem Store.OneForm.partition {s : Store} {sort : String → VarSort}
    (h : ∀ id ∈ s.liveClasses, s.OneForm sort id) (hs : s.partition.Shaped) (i : Nat) :
    s.partition.OneForm sort i := by
  by_cases hi : i < s.partition.size
  · have hlive : s.root i ∈ s.liveClasses :=
      List.mem_filter.2 ⟨List.mem_range.2 (hs.root_lt hi), beq_iff_eq.2 (hs.root_root i)⟩
    have hmem : ∀ {k}, k ∈ s.partition.members i → k.isVar = false →
        k ∈ (s.membersOf (s.root i)).toList.filter (!·.isVar) := fun {k} hk hv => by
      have hk' : k ∈ s.partition.members (s.partition.root i) := hs.members_root i ▸ hk
      exact List.mem_filter.2 ⟨hk', by rw [hv]; rfl⟩
    refine ⟨fun {k l} hk hl hvk hvl => ?_, fun {v n} hv hn hslot => ?_⟩
    · rcases h _ hlive with hform | ⟨hform, -⟩ | ⟨hone, -⟩
      · obtain ⟨c, p, j, rfl⟩ := Kind.isSome_effect?_iff.1 (hform k (hmem hk hvk))
        obtain ⟨d, q, j', rfl⟩ := Kind.isSome_effect?_iff.1 (hform l (hmem hl hvl))
        exact .inr trivial
      · obtain ⟨v, rfl⟩ := Kind.isStack_iff.1 (hform k (hmem hk hvk))
        obtain ⟨w, rfl⟩ := Kind.isStack_iff.1 (hform l (hmem hl hvl))
        exact .inr trivial
      · obtain ⟨m, hm⟩ := List.length_eq_one_iff.1 hone
        have hkm := List.mem_singleton.1 (hm ▸ hmem hk hvk)
        have hlm := List.mem_singleton.1 (hm ▸ hmem hl hvl)
        exact .inl (hkm.trans hlm.symm)
    · rcases h _ hlive with hform | ⟨-, hnames⟩ | ⟨-, hform⟩
      · simpa [Kind.effect?] using hform _ (hmem hv rfl)
      · simp [hnames n (mem_classNames hs hn)] at hslot
      · simpa [Kind.isSimple] using hform _ (hmem hv rfl)
  · have hnil := hs.members_of_ge (Nat.le_of_not_lt hi)
    exact ⟨fun hk => by simp [hnil] at hk, fun hv => by simp [hnil] at hv⟩

/-- **Solving makes the sides of all calls equal.**  The calls are over plain tidy stacks, nominal
types are not ordered, and sizes matter.  If all calls succeed, solving does; and if then each class
is of one form and none leads back to itself, both sides of each call are resolved to the same
stack. -/
theorem solution_unifies (logging : Logging) (sort : String → VarSort)
    (pairs : List (Stack × Stack))
    (hplain : ∀ p ∈ pairs, ∀ v ∈ [p.1, p.2], (Kind.stack v).Tidy sort ∧ (Kind.stack v).plain = true)
    (s : Store) (hs : Store.performAll (pairs.map fun p => .onStacks p.1 p.2)
      (.empty none false logging) = ([], s))
    (hform : ∀ id ∈ s.liveClasses, s.OneForm sort id) (hac : s.Acyclic) :
    ∃ t, Store.solve s = .ok () t ∧
      ∀ p ∈ pairs, t.resolveKind (.stack p.1) = t.resolveKind (.stack p.2) := by
  obtain ⟨hst, hstrict, hsettled, t, ht, h⟩ := Store.outcome_of_performAll (Kind.closed_plain sort)
    (fun _ hk => hk.1)
    (List.forall_mem_map.2 fun p hp => by simpa [Call.sides] using hplain p hp) hs
  have hac' := hac.partition h.sound.toShaped
  have hform' := Store.OneForm.partition hform h.sound.toShaped
  refine ⟨t, ht, fun p hp => ?_⟩
  have heq := h.shown_eq hstrict hac' (h.slotsAgree hac' hst (fun _ hk => hk.2) hform')
    (h.membersAgree hac' hstrict hst (fun _ hk => hk.2) hform') (hplain p hp p.1 (by simp))
    (hplain p hp p.2 (by simp)) (hsettled _ (List.mem_map_of_mem hp))
  rw [shown, shown, List.map_id, List.map_id] at heq
  exact congrArg Kind.stack heq

/-- The stacks `'R 'a` and `'S int` are equal, so are `'S` and `'b int`, and `'b` is an effect: `'R
'a` and `'S int` are resolved to one stack. -/
theorem solution_unifies_chain :
    let pairs : List (Stack × Stack) := [
      ([.typeVar "'a", .stackVar "'R"], [.simple "int", .stackVar "'S"]),
      ([.stackVar "'S"], [.simple "int", .typeVar "'b"]),
      ([.typeVar "'b"], [.effect [.stackVar "'T"] [.typeVar "'a", .stackVar "'T"] false])]
    let sort := fun n => if n = "'a" ∨ n = "'b" then VarSort.slot else .stack
    let r := Store.performAll (pairs.map fun p => .onStacks p.1 p.2) (.empty none false .silent)
    r.1 = [] ∧ (∀ id ∈ r.2.liveClasses, r.2.OneForm sort id) ∧ r.2.Acyclic ∧
      ∃ t, Store.solve r.2 = .ok () t ∧
        ∀ p ∈ pairs, t.resolveKind (.stack p.1) = t.resolveKind (.stack p.2) := by
  intro pairs sort r
  have hnil : r.1 = [] := by decide +kernel
  have hform : ∀ id ∈ r.2.liveClasses, r.2.OneForm sort id := by decide +kernel
  have hac : r.2.Acyclic :=
    Store.acyclic_of_rank (fun id => [0, 2, 1].getD id 0) (by decide +kernel)
  exact ⟨hnil, hform, hac, solution_unifies .silent sort pairs (by decide) r.2
    (Prod.ext hnil rfl) hform hac⟩

end StackEffect
