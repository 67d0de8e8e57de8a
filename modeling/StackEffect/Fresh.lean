import StackEffect.Kind.Vars

/-!
# Fresh — names that were not used before

A fresh name is a base name with a number.  The numbers are those of a counter of 64 bits, so that
fresh names repeat only after 2⁶⁴ of them.
-/

namespace StackEffect

/-- The counter of fresh names. -/
structure Fresh where
  next : UInt64
  deriving DecidableEq, Repr, Inhabited

namespace Fresh

/-- No name was given yet. -/
def start : Fresh := ⟨0⟩

/-- **A fresh name.** -/
def name (base : String) (c : Fresh) : String × Fresh :=
  (base ++ "_" ++ toString c.next.toNat, ⟨c.next + 1⟩)

/-- A fresh variable of the sort and with the base name of another. -/
def variant (v : Var) (c : Fresh) : Var × Fresh :=
  let (n, c) := name v.name c
  (⟨v.sort, n⟩, c)

/-- Fresh variables for the names of `vs`: one for each name, of the sort it has first. -/
def rename : List Var → List (String × Var) → Fresh → List (String × Var) × Fresh
  | [], table, c => (table, c)
  | v :: vs, table, c =>
    if (table.lookup v.name).isSome then rename vs table c
    else
      let (w, c) := variant v c
      rename vs ((v.name, w) :: table) c

/-- The renaming that a table describes. -/
def apply (table : List (String × Var)) (v : Var) : Kind :=
  ((table.lookup v.name).getD v).kind

/-- **An instance of a kind**: its variables are replaced by fresh ones. -/
def instantiate (k : Kind) (c : Fresh) : Kind × Fresh :=
  let (table, c) := rename k.storedVars [] c
  (k.subst (apply table), c)

/-- An instance of an effect. -/
def instantiateEffect (f : Effect) (c : Fresh) : Effect × Fresh :=
  let (table, c) := rename f.kind.storedVars [] c
  (f.subst (apply table), c)

end Fresh

end StackEffect
