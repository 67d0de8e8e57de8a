import StackEffect.Kind.Basic
import StackEffect.Lattice.Basic

/-!
# Subtyping — the order of nominal types, lifted to kinds

A `Subtyping` orders names below a top name; a lattice is one.  On kinds only nominal types have
subtypes: every function is below the nominal type `function`, and everything is below the top.
Without an ordering of names, a kind is below itself and below `any`.
-/

namespace StackEffect

/-- An order of nominal types with a greatest one. -/
structure Subtyping where
  top : String
  isSubtypeOf : String → String → Bool

/-- The order a lattice declares. -/
def Lattice.subtyping (l : Lattice) : Subtyping := ⟨l.top, l.isSubtypeOf⟩

namespace Subtyping

/-- The top type where no order is given. -/
def defaultTop : String := "any"

/-- The nominal type of all functions. -/
def functionName : String := "function"

/-- The name of the top type. -/
def topOf : Option Subtyping → String
  | none => defaultTop
  | some st => st.top

/-- The name that stands for a kind among nominal types: its own, that of all functions, or the
top. -/
def standIn (st : Subtyping) : Kind → String
  | .simple name => name
  | .effect .. | .self => functionName
  | _ => st.top

/-- **Subtyping of kinds.** -/
def le (st : Option Subtyping) (sub super : Kind) : Bool :=
  sub == super ||
    match super, st with
    | .simple name, none => name == defaultTop
    | .simple name, some st => st.isSubtypeOf (st.standIn sub) name
    | _, _ => false

theorem le_refl (st : Option Subtyping) (k : Kind) : le st k k = true := by simp [le]

end Subtyping

end StackEffect
