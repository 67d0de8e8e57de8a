import StackEffect.Kind.Vars

/-!
# Kind/Canonical — the canonical names of a kind's variables

The variables of a kind are renamed in order of first appearance: those of one slot to
`'a`, `'b`, …, `'z`, `'a1`, …, those of a stack to `'A`, `'B`, …  Two kinds that differ only in the
names of their variables have the same canonical form.
-/

namespace StackEffect

/-- The `i`-th name in a row that starts with the letter `first`: 26 letters, then the same letters
with a number. -/
def letterName (first : Char) (i : Nat) : String :=
  let letter := Char.ofNat (first.toNat + i % 26)
  "'" ++ letter.toString ++ (if i < 26 then "" else toString (i / 26))

namespace Kind

/-- The names that stand for a stack somewhere in a kind. -/
def stackNames (k : Kind) : List String :=
  (k.vars.filter fun v => v.sort == .stack).map Var.name

/-- Pairs each name with its canonical variable, when so many of either sort are used already. -/
def canonicalVars (isStack : String → Bool) : List String → Nat → Nat → List (String × Var)
  | [], _, _ => []
  | name :: names, singles, rests =>
    if isStack name then
      (name, ⟨.stack, letterName 'A' rests⟩) :: canonicalVars isStack names singles (rests + 1)
    else
      (name, ⟨.slot, letterName 'a' singles⟩) :: canonicalVars isStack names (singles + 1) rests

/-- The canonical variable for each free variable of a kind. -/
def canonicalTable (k : Kind) : List (String × Var) :=
  canonicalVars (fun name => k.stackNames.contains name) k.freeVars 0 0

/-- **The canonical form of a kind.**  A name that stands for a stack somewhere does so
everywhere. -/
def generalize (k : Kind) : Kind :=
  let table := k.canonicalTable
  k.subst fun v => ((table.lookup v.name).getD v).kind

end Kind

/-- The canonical form of an effect. -/
def Effect.generalize (f : Effect) : Effect :=
  let table := f.kind.canonicalTable
  f.subst fun v => ((table.lookup v.name).getD v).kind

@[simp] theorem Effect.kind_generalize (f : Effect) : f.generalize.kind = f.kind.generalize := rfl

end StackEffect
