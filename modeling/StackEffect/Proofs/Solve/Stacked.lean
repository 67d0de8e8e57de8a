import StackEffect.Proofs.Solve.Idempotent
import StackEffect.Proofs.Solve.Outcome
import StackEffect.Proofs.Unify.Unroll

/-!
# Proofs/Solve/Stacked — what chains of bindings are resolved to

    'A ↦ int 'B,  'B ↦ bool 'C,  'C ↦ 'D        'A is resolved to int bool 'D

The class of a variable at the end of a chain has no stacks, so all variables of that class are resolved
to one variable.  Every variable that unrolls down to it is resolved to slots on that variable
(`exists_resolved`).  Which slots these are depends on which of the stacks of a class represents it, but
they have the value of the variable, whatever values are (`Layers`).
-/

namespace StackEffect

open Kind (slotsConcrete stackVar)

namespace Kind

variable {σ : String → Option Kind} {k : Kind} {s t : Stack}

theorem resolve_of_concrete (hk : k.concrete = true) : k.resolve σ = k :=
  Done.resolve_eq fun _ hv => absurd (vars_of_concrete hk ▸ hv) List.not_mem_nil

theorem resolveSlots_append_of_concrete (hs : slotsConcrete s = true) :
    resolveSlots σ (s ++ t) = s ++ resolveSlots σ t := by
  induction s with
  | nil => rfl
  | cons k s ih =>
    rw [slotsConcrete_cons] at hs
    rw [List.cons_append, resolveSlots_cons, spread_eq_singleton (ne_stackVar_of_concrete hs.1),
      resolve_of_concrete hs.1, ih hs.2]
    rfl

/-- Only the variable below concrete slots is replaced. -/
theorem resolveSlots_snoc (hs : slotsConcrete s = true) (a : String) :
    resolveSlots σ (s ++ [stackVar a]) = s ++ ((stackVar a).resolve σ).asSlots := by
  rw [resolveSlots_append_of_concrete hs, resolveSlots_cons, resolveSlots, List.append_nil, spread]

end Kind

namespace Partition.Stacked

variable {sort : String → VarSort} {L : Kind → Prop} {P : Partition} {θ : String → Option Kind}
  {height : String → ℤ} {a b n m : String} {i : Nat} {r : Kind}
  {s : Stack}

/-! ## No class leads back to itself -/

theorem rep_mem (h : P.Stacked height) (ho : Outcome sort L P θ) (hn : P.Names n i)
    (hr : P.rep i = some r) : r ∈ P.members i := by
  rcases (ho.represents hr).mem with hmem | ⟨a, _, ha, -⟩
  · exact hmem
  · rcases h.member hn ha with ⟨_, ha⟩ | ⟨_, _, ha, -⟩ <;> cases ha

/-- What a representative mentions is the variable that it is, or further down. -/
theorem mentions (h : P.Stacked height) (ho : Outcome sort L P θ) (hnm : P.Mentions n m) :
    P.repOf n = some (stackVar m) ∧ P.Same n m ∨ height m < height n := by
  obtain ⟨-, r, hr, v, hv, rfl⟩ := hnm
  obtain ⟨i, hi, hri⟩ := Option.bind_eq_some_iff.1 hr
  have hn := names_of_index hi
  have hmem := h.rep_mem ho hn hri
  rcases h.member hn hmem with ⟨m, rfl⟩ | ⟨s, m, rfl, hne, hs, hheight⟩
  · obtain rfl := List.mem_singleton.1 hv
    exact .inl ⟨hr, .inr ⟨i, hn, h.member_var hmem rfl⟩⟩
  · have hlead : P.Leads n v.name := ⟨i, _, hn, hmem, rfl, v, hv, .inl rfl⟩
    exact .inr (h.leads_lt hlead)

theorem acyclic (h : P.Stacked height) (ho : Outcome sort L P θ) : P.Acyclic := by
  have hdown : ∀ {n m}, Relation.TransGen P.Mentions n m →
      P.repOf n = some (stackVar m) ∨ height m < height n := by
    intro n m hnm
    induction hnm with
    | single hnm => exact (h.mentions ho hnm).imp_left And.left
    | @tail x m _ hxm ih =>
      rcases ih with hrep | hlt
      · -- a variable that represents a class represents itself
        obtain ⟨i, hi, hri⟩ := Option.bind_eq_some_iff.1 hrep
        have hself := ho.repOf_rep hri rfl
        obtain ⟨-, r, hr, v, hv, rfl⟩ := hxm
        obtain rfl := Option.some.inj (hself.symm.trans hr)
        obtain rfl := List.mem_singleton.1 hv
        exact .inl hrep
      · refine .inr ((h.mentions ho hxm).elim (fun hsame => ?_) fun h' => h'.trans hlt)
        rw [← h.height_of_same hsame.2]
        exact hlt
  intro n m i hnm hn hm
  rcases hdown hnm with hrep | hlt
  · exact ⟨_, hrep, rfl⟩
  · exact absurd (h.level hn hm) hlt.ne'

/-! ## Chains -/

/-- The names of a bare variable are resolved to one variable. -/
theorem exists_resolved_bare (h : P.Stacked height) (ho : Outcome sort L P θ) (hb : P.Bare b) :
    ∃ v, ∀ a, P.Same a b → (stackVar a).resolve θ = stackVar v := by
  by_cases hreg : (P.index b).isSome
  · obtain ⟨i, k, hi, hk, -⟩ := ho.called hreg
    have hn := names_of_index hi
    obtain ⟨r, hr⟩ := ho.exists_rep hk
    obtain ⟨v, rfl⟩ | ⟨s, m, rfl, -⟩ := h.member hn (h.rep_mem ho hn hr)
    · refine ⟨v, fun a hab => ?_⟩
      rw [ho.resolve_var (h.acyclic ho) (hab.names hn) hr rfl, ho.resolve_rep hr rfl]
    · exact absurd (h.rep_mem ho hn hr) (hb i _ hn)
  · refine ⟨b, fun a hab => ?_⟩
    obtain rfl : a = b := by
      rcases hab with rfl | ⟨i, -, j, hj, -⟩
      · rfl
      · exact absurd (hj ▸ rfl) hreg
    obtain ⟨order, hsol⟩ := ho.solution
    have hnone : θ a = none := hsol.eq_none fun hm => hreg (hsol.mem_order.1 hm)
    rw [Kind.resolve, hnone, Option.getD_none]

variable {st : Option Subtyping} {clash : Prop} {lenient : Bool} {D : Layers st clash}
  {val : String → D.Value}

/-- **What unrolls down to a bare variable is resolved to slots on one variable**, and these have its
value. -/
theorem exists_resolved (h : P.Stacked height) (ho : Outcome sort L P θ)
    (hD : (D.theory val lenient).Holds P) (hb : P.Bare b) : ∃ v, ∀ a u, P.Unrolls a u b →
      ∃ s, ((stackVar a).resolve θ).asSlots = s ++ [stackVar v] ∧ D.Piled s (val a) (val b) := by
  obtain ⟨v, hv⟩ := h.exists_resolved_bare ho hb
  refine ⟨v, fun a u hu => ?_⟩
  -- variables further down unroll to fewer slots
  induction hlen : u.length using Nat.strong_induction_on generalizing a u with
  | _ len ih =>
    subst hlen
    cases hu with
    | same hab => exact ⟨[], by rw [hv a hab]; rfl, (Unrolls.same hab).piled hD⟩
    | @step _ c _ i s t ha hs ht =>
      obtain ⟨r, hr⟩ := ho.exists_rep hs
      have hmem := h.rep_mem ho ha hr
      obtain ⟨_, rfl⟩ | ⟨w, x, rfl, hne, hw, hheight⟩ := h.member ha hmem
      · have hrank := (ho.represents hr).rank_le _ hs
        simp [Kind.rank] at hrank
      obtain ⟨y, hy⟩ := h.exists_unrolls hb (.step ha hs ht) ha hmem
      have hlt : y.length < (s ++ t).length := by
        have hya := h.height_of_unrolls hy
        have hua := h.height_of_unrolls (.step ha hs ht)
        have := List.length_pos_iff.2 hne
        omega
      obtain ⟨z, hz, hpiled⟩ := ih _ hlt x y hy rfl
      refine ⟨w ++ z, ?_, ?_⟩
      · rw [ho.resolve_var (h.acyclic ho) ha hr rfl, Kind.resolve, Kind.resolveSlots_snoc hw, hz,
          List.append_assoc]
        rfl
      · have hpiledw := (Unrolls.step ha hmem (.same (.inl rfl))).piled hD
        rw [List.append_nil] at hpiledw
        exact hpiledw.append hpiled

/-- **What the values of stacks tell of their slots.**  If a variable unrolls to a slot for each of its
places, then all stacks on variables that unroll as far down are resolved to the slots in their places,
where the same is put and taken. -/
theorem exists_resolveSlots {val : String → List (Cell st)} (h : P.Stacked height)
    (ho : Outcome sort L P θ) (hP : ((Layers.cells st).theory val lenient).Holds P)
    (hn : P.Unrolls n s b) (hs : s.length = (val n).length) :
    ∃ v, ∀ a u q z, P.Unrolls a u b → (Layers.cells st).Piled q z (val a) →
      z.map Cell.produced = z.map Cell.consumed →
      Kind.resolveSlots θ (q ++ [stackVar a]) = z.map Cell.produced ++ [stackVar v] := by
  have hb : val b = [] := Layers.eq_nil_of_piled_cells hs (hn.piled hP)
  obtain ⟨v, hv⟩ := h.exists_resolved ho hP (bare_of_cells hP hb)
  refine ⟨v, fun a u q z ha hq hz => ?_⟩
  obtain ⟨t, ht, hpiled⟩ := hv a u ha
  rw [hb] at hpiled
  rw [Kind.resolveSlots_snoc hq.concrete, ht, ← List.append_assoc,
    Layers.eq_of_piled_cells hz (hq.append hpiled)]

end Partition.Stacked

end StackEffect
