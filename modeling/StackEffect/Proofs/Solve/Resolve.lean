import StackEffect.Constraint.Solve
import StackEffect.Proofs.Kind.WellFormed

/-!
# Proofs/Solve/Resolve — replacing the variables of a kind

    resolveSlots σ (k :: s) = spread σ k ++ resolveSlots σ s

A stack variable may be replaced by any number of slots, every other slot by one.  Only the
variables that occur matter (`resolve_congr`).
-/

namespace StackEffect.Kind

variable {σ τ : String → Option Kind} {k : Kind} {s : Stack} {a : String}

/-- The slots that a kind amounts to where a stack is expected. -/
def asSlots : Kind → List Kind
  | stack t => t
  | k => [k]

theorem asSlots_eq_singleton (h : ∀ t, k ≠ stack t) : asSlots k = [k] := by
  cases k with
  | stack t => exact absurd rfl (h t)
  | _ => rfl

/-- The slots that take the place of a slot. -/
def spread (σ : String → Option Kind) : Kind → List Kind
  | stackVar a => asSlots (resolve σ (stackVar a))
  | k => [resolve σ k]

theorem resolveSlots_cons (σ : String → Option Kind) (k : Kind) (s : Stack) :
    resolveSlots σ (k :: s) = spread σ k ++ resolveSlots σ s := by
  cases k with
  | stackVar a =>
    rw [resolveSlots, spread, resolve]
    cases σ a with
    | none => rfl
    | some u => cases u <;> rfl
  | _ => rfl

/-- **Slots are resolved one by one**, and spread. -/
theorem resolveSlots_eq_flatMap (σ : String → Option Kind) (s : Stack) :
    resolveSlots σ s = s.flatMap (spread σ) := by
  induction s with
  | nil => rfl
  | cons k s ih => rw [resolveSlots_cons, ih, List.flatMap_cons]

/-- Only a stack variable is spread over slots. -/
theorem spread_eq_singleton (h : ∀ a, k ≠ stackVar a) : spread σ k = [resolve σ k] := by
  cases k with
  | stackVar a => exact absurd rfl (h a)
  | _ => rfl

theorem spread_congr (h : resolve σ k = resolve τ k) : spread σ k = spread τ k := by
  unfold spread
  split <;> rw [h]

theorem resolveSlots_congr_of (h : ∀ k ∈ s, resolve σ k = resolve τ k) :
    resolveSlots σ s = resolveSlots τ s := by
  induction s with
  | nil => rfl
  | cons k s ih =>
    rw [List.forall_mem_cons] at h
    rw [resolveSlots_cons, resolveSlots_cons, spread_congr h.1, ih h.2]

/-- **Only the variables that occur matter.** -/
theorem resolve_congr (h : ∀ v ∈ vars k, σ v.name = τ v.name) : resolve σ k = resolve τ k := by
  induction k using Kind.slotInduction with
  | typeVar a | stackVar a => rw [resolve, resolve, h _ List.mem_cons_self]
  | stack s ih =>
    rw [resolve, resolve, resolveSlots_congr_of fun k hk => ih k hk fun v hv =>
      h v (mem_slotVars.2 ⟨k, hk, hv⟩)]
  | effect c p i hc hp =>
    rw [resolve, resolve, resolveSlots_congr_of fun k hk => hc k hk fun v hv =>
      h v (List.mem_append_left _ (mem_slotVars.2 ⟨k, hk, hv⟩)),
      resolveSlots_congr_of fun k hk => hp k hk fun v hv =>
      h v (List.mem_append_right _ (mem_slotVars.2 ⟨k, hk, hv⟩))]
  | _ => rfl

/-- A variable is resolved to what it stands for, or stays. -/
theorem resolve_varKind (v : Var) : v.kind.resolve σ = (σ v.name).getD v.kind := by
  rcases v with ⟨_ | _, a⟩ <;> rfl

/-- A variable that is replaced by itself, or not at all, stays as it is. -/
theorem resolve_of_varName? (h : k.varName? = some a) (hσ : ∀ u, σ a = some u → u = k) :
    k.resolve σ = k := by
  obtain ⟨v, rfl, rfl⟩ := eq_varKind_of_varName? h
  rw [resolve_varKind]
  cases hv : σ v.name with
  | none => rfl
  | some u => exact hσ u hv

/-- **The variables of a resolved kind** come from what replaced one of its variables, or were not
replaced. -/
theorem mem_vars_of_resolve {v : Var} (h : v ∈ (k.resolve σ).vars) :
    ∃ w ∈ k.vars, v ∈ ((σ w.name).getD w.kind).vars := by
  have hspread : ∀ {k l : Kind}, l ∈ spread σ k → v ∈ l.vars → v ∈ (k.resolve σ).vars := by
    intro k l hl hv
    unfold spread at hl
    split at hl
    · generalize resolve σ _ = u at hl ⊢
      cases u with
      | stack t => exact mem_slotVars.2 ⟨l, hl, hv⟩
      | _ => rwa [List.mem_singleton.1 hl] at hv
    · rwa [List.mem_singleton.1 hl] at hv
  have hslots : ∀ s : Stack, (∀ k ∈ s, v ∈ (k.resolve σ).vars →
      ∃ w ∈ k.vars, v ∈ ((σ w.name).getD w.kind).vars) → v ∈ slotVars (resolveSlots σ s) →
      ∃ w ∈ slotVars s, v ∈ ((σ w.name).getD w.kind).vars := by
    intro s ih hv
    obtain ⟨l, hl, hvl⟩ := mem_slotVars.1 hv
    rw [resolveSlots_eq_flatMap] at hl
    obtain ⟨k, hk, hlk⟩ := List.mem_flatMap.1 hl
    obtain ⟨w, hw, hvw⟩ := ih k hk (hspread hlk hvl)
    exact ⟨w, mem_slotVars.2 ⟨k, hk, hw⟩, hvw⟩
  induction k using Kind.slotInduction with
  | typeVar a | stackVar a => exact ⟨_, List.mem_cons_self, h⟩
  | stack s ih => exact hslots s ih h
  | effect c p i hc hp =>
    rcases List.mem_append.1 h with h | h
    · obtain ⟨w, hw, hvw⟩ := hslots c hc h
      exact ⟨w, List.mem_append_left _ hw, hvw⟩
    · obtain ⟨w, hw, hvw⟩ := hslots p hp h
      exact ⟨w, List.mem_append_right _ hw, hvw⟩
  | _ => exact absurd h List.not_mem_nil

end StackEffect.Kind
