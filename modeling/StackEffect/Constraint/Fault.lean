import StackEffect.Kind.Printer

/-!
# Constraint/Fault — why constraints cannot be met

A mismatch is a fact about the kinds that were given.  All other faults say that the constraint
store itself gave up.
-/

namespace StackEffect

/-- Two kinds that cannot be equal, and why. -/
structure Mismatch where
  left : Kind
  right : Kind
  reason : String
  deriving DecidableEq, Repr, Inhabited

namespace Mismatch

/-- Neither of two types is a subtype of the other. -/
def incompatible : String := "incompatible types"

/-- Two stacks have different sizes and the longer one is not open. -/
def size : String := "stacks differ in size"

/-- The text of a mismatch; one without a reason is an incompatibility. -/
def message (m : Mismatch) : String :=
  "Failed to unify " ++ m.left.slotText ++ " with " ++ m.right.slotText ++ ": "
    ++ (if m.reason = "" then incompatible else m.reason)

end Mismatch

/-- The deepest nesting of constraints that one call may bring about. -/
def nestingLimit : Nat := 1000

/-- Why the constraint store refuses a call. -/
inductive Fault where
  /-- Two kinds cannot be equal. -/
  | mismatch (m : Mismatch)
  /-- No rule says which of two kinds represents both. -/
  | unsupported (left right : Kind)
  /-- Constraints brought about further constraints beyond `nestingLimit`. -/
  | tooDeep
  /-- A class without members has names. -/
  | emptyClass (names : List String)
  /-- No member of a class represents it. -/
  | noRepresentative (names : List String)
  /-- A name belongs to a class that has no representative. -/
  | missingRepresentative (name : String)
  deriving DecidableEq, Repr, Inhabited

namespace Fault

/-- The text of a fault of the store itself. -/
def defect (what : String) : String := "Internal inference error: " ++ what

/-- Names as a bracketed list. -/
def listed (names : List String) : String := "[" ++ " ".intercalate names ++ "]"

/-- The text of a fault. -/
def message : Fault → String
  | mismatch m => m.message
  | unsupported l r =>
    "Unsupported kinds " ++ l.label ++ ":" ++ l.sortName ++ " and " ++ r.label ++ ":" ++ r.sortName
  | tooDeep => defect ("constraint depth limit (" ++ toString nestingLimit ++ ") exceeded")
  | emptyClass names => defect ("empty equivalence class for " ++ listed names)
  | noRepresentative names => defect ("no representative for " ++ listed names)
  | missingRepresentative name => defect ("missing representative for " ++ name)

end Fault

end StackEffect
