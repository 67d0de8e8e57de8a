import StackEffect.Proofs.Solve.Outcome
import StackEffect.Proofs.Unify.Ground

/-!
# Proofs/Solve/Ground — solving loses no ground solution

    value σ (resolve θ k) = value σ k

If the calls have a ground solution at all, none of them fails for another reason than its depth,
the constraints can be solved, and what a kind is resolved to has the value of that kind under every
ground solution of the calls (`ground_solutions_survive`).
-/

namespace StackEffect

namespace Valuation

variable {σ : Valuation} {sort : String → VarSort} {θ : String → Option Kind} {k : Kind}
  {s : Stack}

theorem values_asSlots (k : Kind) : σ.values k.asSlots = σ.value k := by
  cases k with
  | stack s => rfl
  | _ => exact List.append_nil _

/-- The slots that take the place of a slot have the value of what it is resolved to. -/
theorem values_spread (θ : String → Option Kind) (k : Kind) :
    σ.values (k.spread θ) = σ.value (k.resolve θ) := by
  cases k with
  | stackVar a => exact values_asSlots _
  | _ => exact List.append_nil _

theorem values_resolveSlots_of {τ : Valuation} (h : ∀ k ∈ s, τ.value (k.resolve θ) = σ.value k) :
    τ.values (Kind.resolveSlots θ s) = σ.values s := by
  induction s with
  | nil => rfl
  | cons k s ih =>
    rw [List.forall_mem_cons] at h
    rw [Kind.resolveSlots_cons, values_append, values_spread, h.1, ih h.2, values]

/-- **A kind has the value that its variables give it**, also where the values are those of what the
variables are resolved to. -/
theorem value_resolve_of {τ : Valuation}
    (h : ∀ v ∈ k.vars, τ.value (v.kind.resolve θ) = σ.value v.kind) :
    τ.value (k.resolve θ) = σ.value k := by
  induction k using Kind.slotInduction with
  | typeVar a | stackVar a => exact h _ List.mem_cons_self
  | stack s ih =>
    exact values_resolveSlots_of fun k hk => ih k hk fun v hv => h v (Kind.mem_slotVars.2 ⟨k, hk, hv⟩)
  | effect c p i hc hp =>
    obtain ⟨hvc, hvp⟩ := List.forall_mem_append.1 h
    rw [Kind.resolve, value, value,
      values_resolveSlots_of fun k hk => hc k hk fun v hv => hvc v (Kind.mem_slotVars.2 ⟨k, hk, hv⟩),
      values_resolveSlots_of fun k hk => hp k hk fun v hv => hvp v (Kind.mem_slotVars.2 ⟨k, hk, hv⟩)]
  | _ => rfl

/-- **Replacing names by kinds of their value keeps the value.** -/
theorem value_resolve (hθ : ∀ n u, θ n = some u → σ.value u = σ.nameValue sort n)
    (hk : k.Tidy sort) : σ.value (k.resolve θ) = σ.value k := by
  refine value_resolve_of fun v hv => ?_
  rw [Kind.resolve_varKind]
  cases ha : θ v.name with
  | none => rfl
  | some u =>
    rw [Option.getD_some, hθ v.name u ha, nameValue, hk.2 v hv]

variable {st : Option Subtyping} {lenient : Bool} {P : Partition}

/-- The representative of a class has the value of its names. -/
theorem value_repOf (hP : (σ.theory sort st lenient).Good P) {n : String} {r : Kind}
    (hr : P.repOf n = some r) : r.Tidy sort ∧ σ.value r = σ.nameValue sort n := by
  obtain ⟨i, hi, hrep⟩ := Option.bind_eq_some_iff.1 hr
  have hmem : ∀ k ∈ P.members i, σ.Equates sort n k := fun k hk =>
    hP.member (Partition.names_of_index hi) hk
  have hreps := Partition.represents_of_rep hrep fun k hk => (hmem k hk).1.isOrdinary
  rcases hreps.mem with hr | ⟨a, b, ha, hb, hab, -⟩
  · exact ⟨(hmem r hr).1, (hmem r hr).2.symm⟩
  · have hvalue := (hmem _ ha).2.symm.trans (hmem _ hb).2
    rw [compatible_of_value_eq (s := []) (t := []) _ hvalue rfl rfl] at hab
    cases hab

end Valuation

/-- A call whose sides have one value relates stacks that have one value. -/
theorem Call.relates_of_value_eq {σ : Valuation} {sort : String → VarSort} {c : Call}
    (h₁ : c.sides.1.Tidy sort) (h₂ : c.sides.2.Tidy sort)
    (h : σ.value c.sides.1 = σ.value c.sides.2) : c.Relates (σ.EquatesStacks sort) := by
  cases c with
  | onStacks v w => exact ⟨h₁, h₂, h⟩
  | onEffects f g =>
    rintro _ _ _ _ _ _ rfl rfl
    exact Valuation.equatesStacks_of_effect h₁ h₂ h

/-! ## Calls that have a solution -/

namespace Valuation

variable {σ : Valuation} {sort : String → VarSort} {cs : List Call} {u s t : Store}

/-- Both sides of each call have one value. -/
def Solves (σ : Valuation) (cs : List Call) : Prop :=
  ∀ c ∈ cs, σ.value c.sides.1 = σ.value c.sides.2

/-- The theory of a valuation relates the calls that it solves. -/
theorem Solves.relates (hσ : σ.Solves cs)
    (htidy : ∀ c ∈ cs, c.sides.1.Tidy sort ∧ c.sides.2.Tidy sort) (st : Option Subtyping)
    (lenient : Bool) : ∀ c ∈ cs, c.Relates (σ.theory sort st lenient).par := fun c hc =>
  Call.relates_of_value_eq (htidy c hc).1 (htidy c hc).2 (hσ c hc)

/-- **What a kind is resolved to has its value** under every valuation that solves the calls. -/
theorem Solves.value_resolveKind (hσ : σ.Solves cs)
    (htidy : ∀ c ∈ cs, c.sides.1.Tidy sort ∧ c.sides.2.Tidy sort)
    (hs : Store.performAll cs u.reset = ([], s)) {order : List String}
    (hsol : s.partition.Solution order fun n => t.solution[n]?) {k : Kind} (hk : k.Tidy sort) :
    σ.value (t.resolveKind k) = σ.value k := by
  have hgood := (Store.performAll_reset id (hσ.relates htidy _ _) hs).1.good
  refine value_resolve (fun n v hv => ?_) hk
  refine hsol.forall_solved (I := fun n v => σ.value v = σ.nameValue sort n) (fun n r hr θ hθ => ?_) n v hv
  obtain ⟨hrt, hrv⟩ := value_repOf hgood hr
  exact (value_resolve hθ hrt).trans hrv

end Valuation

/-- **Solving loses no ground solution.**  Of calls over tidy kinds that have a ground solution none
reports a mismatch.  If none was nested too deep either, solving succeeds, and every tidy kind is
resolved to a kind that has its value under every ground solution of the calls. -/
theorem ground_solutions_survive (st : Option Subtyping) (lenient : Bool) (logging : Logging)
    (sort : String → VarSort) (cs : List Call)
    (htidy : ∀ c ∈ cs, c.sides.1.Tidy sort ∧ c.sides.2.Tidy sort)
    (hsolvable : ∃ σ : Grounding, ∀ c ∈ cs, σ.value c.sides.1 = σ.value c.sides.2)
    (faults : List Fault) (s : Store)
    (hs : Store.performAll cs (.empty st lenient logging) = (faults, s)) :
    (∀ m, Fault.mismatch m ∉ faults) ∧
      (Fault.tooDeep ∉ faults → ∃ t, Store.solve s = .ok () t ∧
        ∀ σ : Grounding, (∀ c ∈ cs, σ.value c.sides.1 = σ.value c.sides.2) →
          ∀ k : Kind, k.Tidy sort → σ.value (t.resolveKind k) = σ.value k) := by
  obtain ⟨σ₀, hσ₀⟩ := hsolvable
  obtain ⟨-, hdeep, hcomplete⟩ :=
    Store.performAll_reset (u := .empty st lenient logging) id
      (Valuation.Solves.relates hσ₀ htidy st lenient) hs
  refine ⟨fun m hm => by simpa using hdeep _ hm, fun hno => ?_⟩
  obtain rfl : faults = [] := List.eq_nil_iff_forall_not_mem.2 fun e he => hno (hdeep e he ▸ he)
  obtain ⟨t, ht, -, order, hsol⟩ := (hcomplete rfl).exists_solution fun _ _ hk => hk.1
  exact ⟨t, ht, fun σ hσ k hk =>
    Valuation.Solves.value_resolveKind (u := .empty st lenient logging) hσ htidy hs hsol hk⟩

/-- The ground solution in which every name stands for one and the same slot. -/
def Grounding.uniform (k : Kind) (h : k.Ground) : Grounding where
  slot _ := k
  rest _ := [k]
  slot_ground _ := h
  rest_ground _ _ hl := List.mem_singleton.1 hl ▸ h

/-- The stacks `'R 'a` and `'S int` are equal, and so are `'S` and `'b`: all of it is solved, and
`'R` and `'b` keep one value. -/
theorem ground_solutions_survive_merge :
    let cs : List Call := [
      .onStacks [.typeVar "'a", .stackVar "'R"] [.simple "int", .stackVar "'S"],
      .onStacks [.stackVar "'S"] [.typeVar "'b"]]
    let sort := fun n => if n = "'a" ∨ n = "'b" then VarSort.slot else .stack
    let r := Store.performAll cs (.empty none false .silent)
    r.1 = [] ∧ ∃ t, Store.solve r.2 = .ok () t ∧
      ∀ σ : Grounding, (∀ c ∈ cs, σ.value c.sides.1 = σ.value c.sides.2) →
        ∀ k : Kind, k.Tidy sort → σ.value (t.resolveKind k) = σ.value k := by
  intro cs sort r
  have h := ground_solutions_survive none false .silent sort cs (by decide)
    ⟨.uniform (.simple "int") ⟨rfl, nofun⟩, by simp [cs, Call.sides, Valuation.value,
      Valuation.values, Grounding.uniform]⟩ r.1 r.2 rfl
  have hnil : r.1 = [] := by decide +kernel
  exact ⟨hnil, h.2 (by simp [hnil])⟩

end StackEffect
