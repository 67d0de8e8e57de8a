import StackEffect.Proofs.Solve.Flat
import StackEffect.Proofs.Solve.Ground
import StackEffect.Proofs.Unify.Valuation

/-!
# Proofs/Solve/Exact — exact solutions lose nothing and add nothing

    Maps (resolve t f) x y   ↔   f consumes x and produces y under a valuation that solves the calls

Solving widens nominal types, prefers one of two types to the other, and may put a stack in the place
of a slot.  A solution is exact if it does none of that: it makes the two sides of every call the same,
and of every variable of one slot a slot.  An effect under an exact solution relates the stacks that it
relates under the valuations that solve the calls (`Store.Exact.maps_iff`).
-/

namespace StackEffect

/-! ## Valuations that come from a solution -/

namespace Valuation

variable {τ : Valuation} {θ : String → Option Kind} {k : Kind}

theorem proper_value (hτ : τ.Proper) (hk : k.wellFormed = true) : Stack.Proper (τ.value k) := by
  rw [← values_asSlots]
  refine proper_values hτ ?_
  cases k with
  | stack s => exact Stack.proper_of_wellFormed hk
  | stackVar a => exact .inr ⟨⟨a, rfl⟩, rfl⟩
  | _ => exact .inl ⟨rfl, trivial⟩

/-- **Names have the value of what they are resolved to.** -/
def resolved (τ : Valuation) (θ : String → Option Kind) : Valuation where
  slot a := if ((Kind.typeVar a).resolve θ).isSlot then
    (τ.value ((Kind.typeVar a).resolve θ)).headD .absent else .absent
  rest a := if ((Kind.stackVar a).resolve θ).wellFormed then
    τ.value ((Kind.stackVar a).resolve θ) else []

theorem proper_resolved (hτ : τ.Proper) (θ : String → Option Kind) : (τ.resolved θ).Proper where
  slot a := by
    dsimp only [resolved]
    split
    · next h =>
      obtain ⟨x, hx, hslot⟩ := exists_value_slot hτ h
      rw [hx]
      exact hslot
    · rfl
  rest a := by
    dsimp only [resolved]
    split
    · next h => exact proper_value hτ h
    · trivial

theorem value_resolved_var (hτ : τ.Proper) {v : Var}
    (hslot : v.sort = .slot → (v.kind.resolve θ).isSlot = true)
    (hwf : (v.kind.resolve θ).wellFormed = true) :
    τ.value (v.kind.resolve θ) = (τ.resolved θ).value v.kind := by
  rcases v with ⟨_ | _, a⟩
  · have hslot : ((Kind.typeVar a).resolve θ).isSlot = true := hslot rfl
    obtain ⟨x, hx, -⟩ := exists_value_slot hτ hslot
    simp only [Var.kind, value, resolved, hslot, hx, if_true, List.headD_cons]
  · exact (if_pos hwf).symm

end Valuation

/-! ## The shape of exact solutions -/

/-- Tidy kinds that have no other variables than these. -/
def Kind.TidyOver (sort : String → VarSort) (vs : List Var) (k : Kind) : Prop :=
  k.Tidy sort ∧ k.vars ⊆ vs

theorem Kind.closed_tidyOver (sort : String → VarSort) (vs : List Var) :
    Closed (TidyOver sort vs) where
  slot h := ⟨(closed_tidy sort).slot h.1, List.Subset.trans (List.subset_append_right _ _) h.2⟩
  rest h := ⟨(closed_tidy sort).rest h.1, List.Subset.trans (List.subset_append_left _ _) h.2⟩
  consumed h := ⟨(closed_tidy sort).consumed h.1, List.Subset.trans (List.subset_append_left _ _) h.2⟩
  produced h := ⟨(closed_tidy sort).produced h.1, List.Subset.trans (List.subset_append_right _ _) h.2⟩

theorem Kind.tidyOver_varKind {sort : String → VarSort} {vs : List Var} {v : Var}
    (hvs : ∀ v ∈ vs, sort v.name = v.sort) (hv : v ∈ vs) : v.kind.TidyOver sort vs := by
  have hvars : ∀ w ∈ v.kind.vars, w = v := fun w hw => by
    rwa [vars_varKind, List.mem_singleton] at hw
  refine ⟨⟨?_, fun w hw => hvars w hw ▸ hvs v hv⟩, fun w hw => hvars w hw ▸ hv⟩
  rcases v with ⟨_ | _, a⟩ <;> rfl

namespace Outcome

variable {sort : String → VarSort} {vs : List Var} {P : Partition} {θ : String → Option Kind}
  {order : List String} {k : Kind} {n : String}

theorem vars_repOf_subset (h : Outcome sort (Kind.TidyOver sort vs) P θ) {r : Kind}
    (hr : P.repOf n = some r) : r.vars ⊆ vs := by
  obtain ⟨i, -, hri⟩ := Option.bind_eq_some_iff.1 hr
  cases hs : r.isSimple with
  | false => exact (h.member (h.rep_mem hri hs)).2
  | true => cases r <;> simp_all [Kind.isSimple, Kind.vars]

theorem uses_subset (h : Outcome sort (Kind.TidyOver sort vs) P θ) (hk : k.vars ⊆ vs)
    (hn : P.Uses order k n) : ∃ v ∈ vs, v.name = n := by
  cases hn with
  | own hv => exact ⟨_, hk hv, rfl⟩
  | through _ hm _ =>
    obtain ⟨-, r, hr, v, hv, rfl⟩ := hm
    exact ⟨v, h.vars_repOf_subset hr hv, rfl⟩

/-- **If slots are resolved to slots, variables are replaced smoothly.** -/
theorem smooth (h : Outcome sort (Kind.TidyOver sort vs) P θ)
    (hvs : ∀ v ∈ vs, sort v.name = v.sort)
    (hslots : ∀ v ∈ vs, v.sort = .slot → (v.kind.resolve θ).isSlot = true) {v : Var}
    (hv : v ∈ vs) : Kind.Smooth θ v := by
  obtain ⟨order, hsol⟩ := h.solution
  have hvars : (Kind.stack [v.kind]).vars = [v] := by
    rw [Kind.vars, Kind.slotVars, Kind.slotVars, Kind.vars_varKind, List.nil_append]
  have htidy : (Kind.stack [v.kind]).Tidy sort := by
    refine Kind.tidy_cons_iff.2 ⟨?_, (Kind.tidyOver_varKind hvs hv).1, Kind.tidy_nil⟩
    rcases v with ⟨_ | _, a⟩ <;> rfl
  have hflat : ((Kind.stack [v.kind]).resolve θ).flat = true := by
    refine (h.flat_resolve_iff_uses hsol htidy rfl).2 fun n hn hslot r hr => ?_
    obtain ⟨w, hw, rfl⟩ := h.uses_subset (by simpa [hvars] using hv) hn
    obtain ⟨pre, post, hord⟩ := List.append_of_mem (hsol.mem_order.2 (Partition.isSome_of_repOf hr))
    obtain ⟨r', hr', hθ⟩ := hsol.eq_some hord
    obtain rfl := Option.some.inj (hr.symm.trans hr')
    have hwslot := hslots w hw ((hvs w hw).symm.trans hslot)
    rw [Kind.resolve_varKind, hθ, Option.getD_some] at hwslot
    cases r with
    | stack s => simp [Kind.resolve] at hwslot
    | _ => rfl
  exact (Kind.flat_resolve_iff (Kind.wellFormed_iff.1 htidy.1).2.1 rfl).1 hflat v
    (hvars ▸ List.mem_singleton_self v)

/-- Solutions use names in their sorts. -/
theorem sort_solution {L : Kind → Prop} (h : Outcome sort L P θ) (n : String) (u : Kind)
    (hu : θ n = some u) : ∀ v ∈ u.vars, sort v.name = v.sort := by
  obtain ⟨order, hsol⟩ := h.solution
  refine hsol.forall_solved (I := fun _ u => ∀ v ∈ u.vars, sort v.name = v.sort)
    (fun n r hr θ' hθ' v hv => ?_) n u hu
  obtain ⟨w, hw, hvw⟩ := Kind.mem_vars_of_resolve hv
  cases hθ : θ' w.name with
  | none =>
    rw [hθ, Option.getD_none, Kind.vars_varKind, List.mem_singleton] at hvw
    exact hvw ▸ h.sort_of_mem_vars hr hw
  | some u =>
    rw [hθ, Option.getD_some] at hvw
    exact hθ' _ u hθ v hvw

/-- **If slots are resolved to slots, tidy kinds are resolved to tidy kinds.** -/
theorem tidy_resolve (h : Outcome sort (Kind.TidyOver sort vs) P θ)
    (hvs : ∀ v ∈ vs, sort v.name = v.sort)
    (hslots : ∀ v ∈ vs, v.sort = .slot → (v.kind.resolve θ).isSlot = true)
    (hk : k.TidyOver sort vs) : (k.resolve θ).Tidy sort := by
  obtain ⟨⟨hwf, hsort⟩, hsub⟩ := hk
  obtain ⟨hbottomed, hflat, hknown⟩ := Kind.wellFormed_iff.1 hwf
  refine ⟨Kind.wellFormed_iff.2 ⟨?_, ?_, ?_⟩, fun v hv => ?_⟩
  · exact (Kind.bottomed_resolve h.bottomed_solution hbottomed hsort).1
  · cases hvar : k.varName? with
    | none => exact (Kind.flat_resolve_iff hflat hvar).2 fun v hv => h.smooth hvs hslots (hsub hv)
    | some a =>
      obtain ⟨v, -, rfl⟩ := Kind.eq_varKind_of_varName? hvar
      exact (h.smooth hvs hslots (hsub (by rw [Kind.vars_varKind]; exact List.mem_singleton_self v))).1
  · exact Kind.all_resolve
      (h.all_solution (fun k hk => (Kind.wellFormed_iff.1 hk.1.1).2.2) rfl) hknown
  · obtain ⟨w, hw, hvw⟩ := Kind.mem_vars_of_resolve hv
    cases hθ : θ w.name with
    | none =>
      rw [hθ, Option.getD_none, Kind.vars_varKind, List.mem_singleton] at hvw
      exact hvw ▸ hsort w hw
    | some u =>
      rw [hθ, Option.getD_some] at hvw
      exact h.sort_solution _ u hθ v hvw

end Outcome

/-! ## Exact solutions -/

/-- **An exact solution** of calls over variables: it makes the two sides of every call the same, and
of every variable of one slot a slot. -/
structure Store.Exact (t : Store) (vs : List Var) (cs : List Call) : Prop where
  sides : ∀ c ∈ cs, t.resolveKind c.sides.1 = t.resolveKind c.sides.2
  slots : ∀ v ∈ vs, v.sort = .slot → (t.resolveKind v.kind).isSlot = true

instance (t : Store) (vs : List Var) (cs : List Call) : Decidable (t.Exact vs cs) :=
  decidable_of_iff ((∀ c ∈ cs, t.resolveKind c.sides.1 = t.resolveKind c.sides.2) ∧
    ∀ v ∈ vs, v.sort = .slot → (t.resolveKind v.kind).isSlot = true)
    ⟨fun h => ⟨h.1, h.2⟩, fun h => ⟨h.1, h.2⟩⟩

/-- **What an effect relates under an exact solution**: the stacks that it relates under the valuations
that solve the calls. -/
theorem Store.Exact.maps_iff {sort : String → VarSort} {vs : List Var} {cs : List Call}
    {u s t : Store} (ht : t.Exact vs cs) (hvs : ∀ v ∈ vs, sort v.name = v.sort)
    (hcs : ∀ c ∈ cs, c.sides.1.TidyOver sort vs ∧ c.sides.2.TidyOver sort vs)
    (hs : performAll cs u.reset = ([], s)) (hst : solve s = .ok () t) {f : Effect}
    (hf : f.kind.TidyOver sort vs) :
    (t.resolveEffect f).kind.Tidy sort ∧ ∀ x y, (t.resolveEffect f).Maps x y ↔
      ∃ σ : Valuation, σ.Proper ∧ σ.Solves cs ∧ σ.values f.consumed = x ∧
        σ.values f.produced = y := by
  obtain ⟨-, -, -, t', ht', hout⟩ :=
    outcome_of_performAll_reset (Kind.closed_tidyOver sort vs) (fun _ hk => hk.1) hcs hs
  obtain rfl : t' = t := by
    rw [ht'] at hst
    cases hst
    rfl
  refine ⟨hout.tidy_resolve hvs ht.slots hf, fun x y => ⟨?_, ?_⟩⟩
  · rintro ⟨τ, hτ, rfl, rfl⟩
    -- the names of the calls have the values of what they are resolved to
    have hvalue : ∀ {k : Kind}, k.vars ⊆ vs →
        τ.value (t'.resolveKind k) = (τ.resolved fun n => t'.solution[n]?).value k := fun hk =>
      Valuation.value_resolve_of fun v hv => Valuation.value_resolved_var hτ
        (ht.slots v (hk hv)) (hout.tidy_resolve hvs ht.slots (Kind.tidyOver_varKind hvs (hk hv))).1
    refine ⟨τ.resolved fun n => t'.solution[n]?, Valuation.proper_resolved hτ _, fun c hc => ?_, ?_, ?_⟩
    · rw [← hvalue (hcs c hc).1.2, ← hvalue (hcs c hc).2.2, ht.sides c hc]
    · exact (hvalue (k := .stack f.consumed) (List.Subset.trans (List.subset_append_left _ _) hf.2)).symm
    · exact (hvalue (k := .stack f.produced) (List.Subset.trans (List.subset_append_right _ _) hf.2)).symm
  · rintro ⟨σ, hσ, hsolves, rfl, rfl⟩
    obtain ⟨order, hsol⟩ := hout.solution
    obtain ⟨hc, hp⟩ := Kind.tidy_effect_iff.1 hf.1
    have hvalue := fun {k : Kind} (hk : k.Tidy sort) =>
      hsolves.value_resolveKind (fun c hc => ⟨(hcs c hc).1.1, (hcs c hc).2.1⟩) hs hsol hk
    exact ⟨σ, hσ, hvalue hc, hvalue hp⟩

end StackEffect
