import StackEffect.Kind.Basic

/-!
# Kind/Vars — the variables of a kind

The variables of a kind are listed in the order a reader meets them in a signature: bottom first,
consumption before production (`Kind.vars`).  Fresh names are handed out in the order in which the
slots are stored, top first (`Kind.storedVars`).  `Kind.subst` replaces every variable.
-/

namespace StackEffect

/-- The two sorts of variables: of one slot, and of a stack. -/
inductive VarSort where
  | slot
  | stack
  deriving DecidableEq, Repr, Inhabited

/-- A variable: its sort and its name. -/
structure Var where
  sort : VarSort
  name : String
  deriving DecidableEq, Repr, Inhabited

/-- The kind a variable is. -/
def Var.kind (v : Var) : Kind :=
  match v.sort with
  | .slot => .typeVar v.name
  | .stack => .stackVar v.name

namespace Kind

mutual
/-- Every occurrence of a variable, bottom first, consumption before production. -/
def vars : Kind → List Var
  | typeVar name => [⟨.slot, name⟩]
  | stackVar name => [⟨.stack, name⟩]
  | stack s => slotVars s
  | effect c p _ => slotVars c ++ slotVars p
  | _ => []
/-- The same for the slots of a stack. -/
def slotVars : List Kind → List Var
  | [] => []
  | k :: s => slotVars s ++ vars k
end

mutual
/-- Every occurrence of a variable, top first, consumption before production. -/
def storedVars : Kind → List Var
  | typeVar name => [⟨.slot, name⟩]
  | stackVar name => [⟨.stack, name⟩]
  | stack s => storedSlotVars s
  | effect c p _ => storedSlotVars c ++ storedSlotVars p
  | _ => []
/-- The same for the slots of a stack. -/
def storedSlotVars : List Kind → List Var
  | [] => []
  | k :: s => storedVars k ++ storedSlotVars s
end

/-- **The free variables of a kind**: their names, in order of first appearance. -/
def freeVars (k : Kind) : List String := (k.vars.map Var.name).eraseDups

/-- Whether a variable of this name occurs in a kind. -/
def mentions (k : Kind) (name : String) : Bool := k.vars.any fun v => v.name == name

mutual
/-- Replaces every variable by the kind `f` gives for it. -/
def subst (f : Var → Kind) : Kind → Kind
  | typeVar name => f ⟨.slot, name⟩
  | stackVar name => f ⟨.stack, name⟩
  | stack s => stack (substSlots f s)
  | effect c p i => effect (substSlots f c) (substSlots f p) i
  | k => k
/-- Replaces every variable in the slots of a stack. -/
def substSlots (f : Var → Kind) : List Kind → List Kind
  | [] => []
  | k :: s => subst f k :: substSlots f s
end

theorem substSlots_eq_map (f : Var → Kind) (s : List Kind) : substSlots f s = s.map (subst f) := by
  induction s with
  | nil => rfl
  | cons k s ih => rw [substSlots, ih, List.map_cons]

end Kind

/-- Replaces every variable of an effect. -/
def Effect.subst (f : Var → Kind) (e : Effect) : Effect :=
  ⟨Kind.substSlots f e.consumed, Kind.substSlots f e.produced, e.impure⟩

@[simp] theorem Effect.kind_subst (f : Var → Kind) (e : Effect) :
    (e.subst f).kind = e.kind.subst f := rfl

end StackEffect
