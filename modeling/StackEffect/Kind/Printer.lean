import StackEffect.Kind.Basic

/-!
# Kind/Printer — kinds as signatures write them

Stacks are written bottom first with one blank between slots, effects in parentheses with a blank on
either side of the arrow.  Only a stack inside another one is bracketed.
-/

namespace StackEffect

namespace Kind

mutual
/-- The text of a slot.  A foreign kind leaves no trace. -/
def slotText : Kind → String
  | simple name | typeVar name | stackVar name => name
  | self => "self"
  | stack s => "[" ++ " ".intercalate (slotTexts s).reverse ++ "]"
  | effect c p i =>
    "(" ++ " ".intercalate (slotTexts c).reverse ++ (if i then " ~> " else " -> ")
      ++ " ".intercalate (slotTexts p).reverse ++ ")"
  | foreign .. => ""
  | absent => "<nil>"
/-- The texts of the slots of a stack, top first. -/
def slotTexts : List Kind → List String
  | [] => []
  | k :: s => slotText k :: slotTexts s
end

theorem slotTexts_eq_map (s : List Kind) : slotTexts s = s.map slotText := by
  induction s with
  | nil => rfl
  | cons k s ih => rw [slotTexts, ih, List.map_cons]

end Kind

/-- **A stack, written bottom first.** -/
def Stack.text (s : Stack) : String := " ".intercalate (Kind.slotTexts s).reverse

namespace Kind

/-- **A kind as a signature writes it**: an outermost stack has no brackets. -/
def text : Kind → String
  | stack s => Stack.text s
  | k => k.slotText

/-- A kind by its own name: as `text`, and a foreign kind is named. -/
def label : Kind → String
  | foreign _ name => name
  | k => k.text

end Kind

/-- An effect as a signature writes it. -/
def Effect.text (f : Effect) : String := f.kind.text

end StackEffect
