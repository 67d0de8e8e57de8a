import StackEffect.Proofs.Solve.Ground
import StackEffect.Proofs.Unify.Places

/-!
# Proofs/Solve/Places — kinds are resolved to kinds in their places

    Lies s x   →   Lies (resolve θ s) x

If calls relate stacks that lie in the same places, none of them fails for another reason than its
depth, and what a stack is resolved to lies where the stack does (`Placing.Solves.keeps`,
`Placing.Lies.resolve`).
-/

namespace StackEffect

namespace Placing

variable {st : Option Subtyping} {lenient : Bool} {V : Placing} {sort : String → VarSort}
  {θ : String → Option Kind} {k : Kind} {s : Stack} {x : List Place}

/-! ## Resolving -/

/-- Names are replaced by kinds in their places. -/
def Keeps (V : Placing) (st : Option Subtyping) (sort : String → VarSort)
    (θ : String → Option Kind) : Prop :=
  ∀ n u, θ n = some u → V.LiesAt st u (V.places ⟨sort n, n⟩)

/-- A variable is resolved to a kind in its places. -/
theorem Keeps.liesAt_var (hθ : V.Keeps st sort θ) (hk : k.Tidy sort) {n : String}
    (hn : k.varName? = some n) (h : V.LiesAt st k x) : V.LiesAt st (k.resolve θ) x := by
  rw [(liesAt_var_iff hk hn).1 h]
  obtain ⟨v, rfl, rfl⟩ := Kind.eq_varKind_of_varName? hn
  rw [Kind.resolve_varKind]
  cases hu : θ v.name with
  | none => exact (liesAt_var_iff hk hn).2 rfl
  | some u => exact hθ v.name u hu

theorem Lies.resolve_of (h : V.Lies st s x)
    (hs : ∀ k ∈ s, ∀ x, V.LiesAt st k x → V.LiesAt st (k.resolve θ) x) :
    V.Lies st (Kind.resolveSlots θ s) x := by
  induction s generalizing x with
  | nil => exact h
  | cons k s ih =>
    rw [List.forall_mem_cons] at hs
    obtain ⟨y, z, rfl, hk, hrest⟩ := h
    rw [Kind.resolveSlots_cons]
    refine lies_append.2 ⟨y, z, rfl, ?_, ih hrest hs.2⟩
    cases k with
    | stackVar a => exact lies_asSlots.2 (hs.1 y hk)
    | _ => exact lies_singleton.2 (hs.1 y hk)

/-- **A kind is resolved to a kind in its places.** -/
theorem LiesAt.resolve (h : V.LiesAt st k x) (hθ : V.Keeps st sort θ)
    (hsort : ∀ v ∈ k.vars, sort v.name = v.sort) : V.LiesAt st (k.resolve θ) x := by
  induction k using Kind.slotInduction generalizing x with
  | typeVar a => exact hθ.liesAt_var (Kind.tidy_typeVar_iff.2 (hsort _ List.mem_cons_self)) rfl h
  | stackVar a => exact hθ.liesAt_var (Kind.tidy_stackVar_iff.2 (hsort _ List.mem_cons_self)) rfl h
  | stack s ih =>
    exact Lies.resolve_of h fun k hk _ hx => ih k hk hx fun v hv =>
      hsort v (Kind.mem_slotVars.2 ⟨k, hk, hv⟩)
  | effect c p i hc hp =>
    obtain ⟨hsc, hsp⟩ := List.forall_mem_append.1 hsort
    obtain ⟨d, rfl, hi, hlc, hlp⟩ := h
    refine ⟨d, rfl, hi, hlc.resolve_of fun k hk _ hx => hc k hk hx fun v hv => ?_,
      hlp.resolve_of fun k hk _ hx => hp k hk hx fun v hv => ?_⟩
    · exact hsc v (Kind.mem_slotVars.2 ⟨k, hk, hv⟩)
    · exact hsp v (Kind.mem_slotVars.2 ⟨k, hk, hv⟩)
  | _ => exact h

theorem Lies.resolve (h : V.Lies st s x) (hθ : V.Keeps st sort θ)
    (hsort : ∀ v ∈ Kind.slotVars s, sort v.name = v.sort) : V.Lies st (Kind.resolveSlots θ s) x :=
  LiesAt.resolve (k := .stack s) h hθ hsort

/-- The representative of a class lies where its names do. -/
theorem equates_repOf {P : Partition} (hP : (V.theory sort st lenient).Good P) {n : String} {r : Kind}
    (hr : P.repOf n = some r) : V.Equates st sort n r := by
  obtain ⟨i, hi, hrep⟩ := Option.bind_eq_some_iff.1 hr
  have hmem : ∀ k ∈ P.members i, V.Equates st sort n k := fun k hk =>
    hP.member (Partition.names_of_index hi) hk
  have hreps := Partition.represents_of_rep hrep fun k hk => (hmem k hk).1.isOrdinary
  rcases hreps.mem with hr | ⟨a, b, ha, hb, hab, -⟩
  · exact hmem r hr
  · -- nominal types of one class are in one place
    have hb := (hmem _ hb).2
    obtain ⟨d, hd⟩ := hb.exists_eq rfl
    rw [hd] at hb
    have hcompatible := compatible_of_liesAt (hd ▸ (hmem _ ha).2) hb rfl rfl
    rw [hP.subtyping, hcompatible] at hab
    cases hab

/-! ## Solved calls -/

variable {cs : List Call} {t p : Store} {order : List String}

/-- **The stacks of each call lie in the same places.** -/
def Solves (V : Placing) (st : Option Subtyping) (cs : List Call) : Prop :=
  ∀ c ∈ cs, c.Relates (V.Meet st)

/-- The theory of a placing relates the calls that it solves. -/
theorem Solves.relates (h : V.Solves st cs)
    (htidy : ∀ c ∈ cs, c.sides.1.Tidy sort ∧ c.sides.2.Tidy sort) (lenient : Bool) :
    ∀ c ∈ cs, c.Relates (V.theory sort st lenient).par := by
  intro c hc
  obtain ⟨h₁, h₂⟩ := htidy c hc
  have hmeet := h c hc
  cases c with
  | onStacks v w => exact ⟨h₁, h₂, hmeet⟩
  | onEffects f g =>
    rintro c p i d q j rfl rfl
    obtain ⟨hcd, hpq⟩ := hmeet c p i d q j rfl rfl
    obtain ⟨hc, hp⟩ := Kind.tidy_effect_iff.1 h₁
    obtain ⟨hd, hq⟩ := Kind.tidy_effect_iff.1 h₂
    exact ⟨⟨hc, hd, hcd⟩, hp, hq, hpq⟩

/-- **Solving keeps the places** of names, if the stacks of calls lie in the same places. -/
theorem Solves.keeps {s : Store} (h : V.Solves p.subtyping cs)
    (htidy : ∀ c ∈ cs, c.sides.1.Tidy sort ∧ c.sides.2.Tidy sort)
    (hs : Store.performAll cs p.reset = ([], s))
    (hsol : s.partition.Solution order fun n => t.solution[n]?) :
    V.Keeps p.subtyping sort fun n => t.solution[n]? := by
  have hgood := (Store.performAll_reset id (h.relates htidy _) hs).1.good
  refine hsol.forall_solved
    (I := fun n u => V.LiesAt p.subtyping u (V.places ⟨sort n, n⟩)) fun n r hr θ hθ => ?_
  obtain ⟨htidy, hlies⟩ := equates_repOf hgood hr
  exact hlies.resolve hθ htidy.2

end Placing

end StackEffect
