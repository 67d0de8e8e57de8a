/-!
# Kind/Basic — kinds of stack slots, stacks and stack effects

    slot ::= name | 'a | 'R | self | [ slot … ] | ( slot … -> slot … )

A stack is a list of kinds with the **top first**; signatures write it bottom first.  A stack
variable stands for a whole stack and belongs at the bottom of one.  Equality of kinds is decided
by `Kind.beq`, which is equality (`Kind.beq_eq_true_iff`).
-/

namespace StackEffect

/-- What a stack slot, a stack, or the whole of a stack's lower part may be. -/
inductive Kind where
  /-- A nominal type. -/
  | simple (name : String)
  /-- A variable that stands for one slot. -/
  | typeVar (name : String)
  /-- A variable that stands for a stack. -/
  | stackVar (name : String)
  /-- The effect of the function being defined. -/
  | self
  /-- A stack, top first. -/
  | stack (slots : List Kind)
  /-- An effect: what it consumes, what it produces (top first), and whether it has side
  effects. -/
  | effect (consumed produced : List Kind) (impure : Bool)
  /-- A kind that inference knows nothing of: the name of its sort, and its own name. -/
  | foreign (sort name : String)
  /-- No kind at all. -/
  | absent
  deriving Repr, Inhabited

/-- A stack, top first. -/
abbrev Stack := List Kind

/-- **A stack effect**: the stack it consumes, the stack it leaves in its place, and whether it has
side effects. -/
structure Effect where
  consumed : Stack
  produced : Stack
  impure : Bool
  deriving Repr, Inhabited

/-- An effect, as the kind of a slot. -/
def Effect.kind (f : Effect) : Kind := .effect f.consumed f.produced f.impure

namespace Kind

/-! ## Sorts of kinds -/

/-- The name of the sort a kind belongs to. -/
def sortName : Kind → String
  | simple _ => "Simple"
  | typeVar _ => "TypeVar"
  | stackVar _ => "StackVar"
  | self => "Self"
  | stack _ => "Vector"
  | effect .. => "Function"
  | foreign sort _ => sort
  | absent => "nil"

/-- Type variables and stack variables. -/
def isVar : Kind → Bool
  | typeVar _ | stackVar _ => true
  | _ => false

/-- Kinds that are made of others. -/
def isComposite : Kind → Bool
  | stack _ | effect .. | self => true
  | _ => false

/-- Kinds of slots that hold a function. -/
def isEffect : Kind → Bool
  | effect .. | self => true
  | _ => false

/-- Nominal types. -/
def isSimple : Kind → Bool
  | simple _ => true
  | _ => false

/-- The name of a variable. -/
def varName? : Kind → Option String
  | typeVar name | stackVar name => some name
  | _ => none

/-- The effect a kind is, if it is one. -/
def effect? : Kind → Option Effect
  | effect c p i => some ⟨c, p, i⟩
  | _ => none

@[simp] theorem effect?_kind (f : Effect) : f.kind.effect? = some f := rfl

theorem varName?_isSome (k : Kind) : k.varName?.isSome = k.isVar := by cases k <;> rfl

/-! ## Equality -/

mutual
/-- Decides whether two kinds are equal. -/
def beq : Kind → Kind → Bool
  | simple a, simple b => a == b
  | typeVar a, typeVar b => a == b
  | stackVar a, stackVar b => a == b
  | self, self => true
  | stack s, stack t => beqSlots s t
  | effect c p i, effect d q j => i == j && beqSlots c d && beqSlots p q
  | foreign s a, foreign t b => s == t && a == b
  | absent, absent => true
  | _, _ => false
/-- Decides whether two stacks are equal, slot by slot. -/
def beqSlots : List Kind → List Kind → Bool
  | [], [] => true
  | a :: s, b :: t => beq a b && beqSlots s t
  | _, _ => false
end

mutual
theorem beq_self : ∀ k : Kind, beq k k = true
  | simple _ | typeVar _ | stackVar _ => by simp [beq]
  | self | absent => rfl
  | foreign _ _ => by simp [beq]
  | stack s => by simp [beq, beqSlots_self s]
  | effect c p _ => by simp [beq, beqSlots_self c, beqSlots_self p]
theorem beqSlots_self : ∀ s : List Kind, beqSlots s s = true
  | [] => rfl
  | k :: s => by simp [beqSlots, beq_self k, beqSlots_self s]
end

mutual
theorem eq_of_beq : ∀ {k l : Kind}, beq k l = true → k = l
  | simple _, l, h | typeVar _, l, h | stackVar _, l, h | self, l, h | foreign _ _, l, h
  | absent, l, h => by cases l <;> simp_all [beq]
  | stack s, l, h => by
      cases l <;> simp only [beq, Bool.false_eq_true] at h
      rw [eq_of_beqSlots h]
  | effect c p i, l, h => by
      cases l <;> simp only [beq, Bool.and_eq_true, beq_iff_eq, Bool.false_eq_true] at h
      obtain ⟨⟨rfl, hc⟩, hp⟩ := h
      rw [eq_of_beqSlots hc, eq_of_beqSlots hp]
theorem eq_of_beqSlots : ∀ {s t : List Kind}, beqSlots s t = true → s = t
  | [], t, h => by cases t <;> simp_all [beqSlots]
  | a :: s, t, h => by
      cases t <;> simp only [beqSlots, Bool.and_eq_true, Bool.false_eq_true] at h
      rw [eq_of_beq h.1, eq_of_beqSlots h.2]
end

/-- **`beq` is equality.** -/
theorem beq_eq_true_iff {k l : Kind} : beq k l = true ↔ k = l :=
  ⟨eq_of_beq, fun h => h ▸ beq_self k⟩

instance : DecidableEq Kind := fun k l =>
  if h : beq k l = true then isTrue (eq_of_beq h)
  else isFalse fun e => h (beq_eq_true_iff.2 e)

end Kind

instance : DecidableEq Effect := fun f g =>
  if h : f.kind = g.kind then
    isTrue (by cases f; cases g; simp_all [Effect.kind])
  else isFalse fun e => h (e ▸ rfl)

end StackEffect
