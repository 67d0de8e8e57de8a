import StackEffect.Kind.Vars
import StackEffect.Proofs.Kind.Induction

/-!
# Proofs/Kind/WellFormed — kinds that a signature could write

    wellFormed       a stack variable only at the bottom of a stack, no stack inside a stack
    Tidy sort        well-formed, and every name used in the sort that `sort` gives it

The parts of a tidy kind are tidy (`tidy_cons_iff`, `tidy_effect_iff`).
-/

namespace StackEffect.Kind

/-- Whether a kind may lie on top of a stack: no stack may, and a stack variable only on an empty
one. -/
def fitsOn : Kind → List Kind → Bool
  | stack _, _ => false
  | stackVar _, s => s.isEmpty
  | _, _ => true

mutual
/-- **Whether a kind is well-formed.** -/
def wellFormed : Kind → Bool
  | stack s => slotsWellFormed s
  | effect c p _ => slotsWellFormed c && slotsWellFormed p
  | foreign .. | absent => false
  | _ => true
/-- The same for a stack. -/
def slotsWellFormed : List Kind → Bool
  | [] => true
  | k :: s => fitsOn k s && wellFormed k && slotsWellFormed s
end

/-- **A well-formed kind whose names are used in the sorts that they have.** -/
def Tidy (sort : String → VarSort) (k : Kind) : Prop :=
  k.wellFormed = true ∧ ∀ v ∈ k.vars, sort v.name = v.sort

instance (sort : String → VarSort) (k : Kind) : Decidable (Tidy sort k) :=
  inferInstanceAs (Decidable (_ ∧ _))

variable {sort : String → VarSort} {k : Kind} {s c p : Stack} {i : Bool} {a : String}

/-- The variables of a stack are those of its slots. -/
theorem mem_slotVars {v : Var} : v ∈ slotVars s ↔ ∃ k ∈ s, v ∈ vars k := by
  induction s with
  | nil => simp [slotVars]
  | cons k s ih => simp [slotVars, ih, or_comm]

/-- What has a name is a variable. -/
theorem eq_varKind_of_varName? (h : k.varName? = some a) : ∃ v : Var, v.name = a ∧ k = v.kind := by
  cases k with
  | typeVar b => exact ⟨⟨.slot, b⟩, Option.some.inj h, rfl⟩
  | stackVar b => exact ⟨⟨.stack, b⟩, Option.some.inj h, rfl⟩
  | _ => simp [varName?] at h

theorem vars_varKind (v : Var) : v.kind.vars = [v] := by
  rcases v with ⟨_ | _, a⟩ <;> rfl

theorem tidy_typeVar_iff : Tidy sort (typeVar a) ↔ sort a = .slot :=
  ⟨fun h => h.2 ⟨.slot, a⟩ List.mem_cons_self, fun h => ⟨rfl, List.forall_mem_singleton.2 h⟩⟩

theorem tidy_stackVar_iff : Tidy sort (stackVar a) ↔ sort a = .stack :=
  ⟨fun h => h.2 ⟨.stack, a⟩ List.mem_cons_self, fun h => ⟨rfl, List.forall_mem_singleton.2 h⟩⟩

theorem tidy_nil : Tidy sort (stack []) := ⟨rfl, fun _ hv => absurd hv List.not_mem_nil⟩

/-- **A stack is tidy if its slots are, and fit on what lies below them.** -/
theorem tidy_cons_iff :
    Tidy sort (stack (k :: s)) ↔ fitsOn k s = true ∧ Tidy sort k ∧ Tidy sort (stack s) := by
  simp only [Tidy, wellFormed, slotsWellFormed, vars, slotVars, Bool.and_eq_true, List.mem_append,
    or_imp, forall_and]
  exact ⟨fun ⟨⟨⟨hf, hk⟩, hs⟩, hsv, hkv⟩ => ⟨hf, ⟨hk, hkv⟩, hs, hsv⟩,
    fun ⟨hf, ⟨hk, hkv⟩, hs, hsv⟩ => ⟨⟨⟨hf, hk⟩, hs⟩, hsv, hkv⟩⟩

/-- **A function is tidy if both its stacks are.** -/
theorem tidy_effect_iff :
    Tidy sort (effect c p i) ↔ Tidy sort (stack c) ∧ Tidy sort (stack p) := by
  simp only [Tidy, wellFormed, vars, Bool.and_eq_true, List.mem_append, or_imp, forall_and]
  exact and_and_and_comm

/-- A slot that fits is no stack. -/
theorem ne_stack_of_fitsOn (h : fitsOn k s = true) (t : Stack) : k ≠ stack t := by
  rintro rfl
  simp [fitsOn] at h

/-- A stack variable lies at the bottom. -/
theorem eq_nil_of_fitsOn (h : fitsOn (stackVar a) s = true) : s = [] := by
  simpa [fitsOn] using h

theorem Tidy.not_foreign {x y : String} (h : Tidy sort k) : k ≠ foreign x y := by
  rintro rfl
  exact Bool.false_ne_true h.1

theorem Tidy.not_absent (h : Tidy sort k) : k ≠ absent := by
  rintro rfl
  exact Bool.false_ne_true h.1

end StackEffect.Kind
