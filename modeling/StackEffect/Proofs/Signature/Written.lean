import StackEffect.Proofs.Kind.Renaming
import StackEffect.Signature.Reader

/-!
# Proofs/Signature/Written — the kinds that signatures write

    Written k        k is bottomed and flat, and all its names can be written

The name of a variable tells its sort (`sortOf`), so that a written kind uses no name in two sorts.
-/

namespace StackEffect

namespace Text

/-- Whether characters make an identifier. -/
def isIdentifier : List Char → Bool
  | [] => false
  | c :: cs => isIdentifierStart c && cs.all isIdentifierPart

end Text

namespace Signature

/-- The names of nominal types that signatures can write. -/
def isTypeName (name : String) : Bool := Text.isIdentifier name.toList && name != "self"

/-- The names of variables: an identifier behind an apostrophe. -/
def isVarName (name : String) : Bool :=
  match name.toList with
  | c :: cs => c == '\x27' && Text.isIdentifier cs
  | [] => false

/-- The sort of a variable, by its name. -/
def sortOf (name : String) : VarSort :=
  match name.toList with
  | _ :: c :: _ => if Text.isUppercase c then .stack else .slot
  | _ => .slot

theorem varKind_eq (name : String) : varKind name = (⟨sortOf name, name⟩ : Var).kind := by
  unfold varKind sortOf
  rcases name.toList with - | ⟨_, - | ⟨c, _⟩⟩
  · rfl
  · rfl
  · by_cases hc : Text.isUppercase c = true <;> simp [hc, Var.kind]

end Signature

namespace Kind

open Signature

/-- The parts that signatures can write. -/
def writable : Kind → Bool
  | simple name => isTypeName name
  | typeVar name => isVarName name && sortOf name == .slot
  | stackVar name => isVarName name && sortOf name == .stack
  | self => true
  | _ => false

/-- **The kinds that signatures write.** -/
def Written (k : Kind) : Prop := k.bottomed = true ∧ k.flat = true ∧ k.all writable = true

instance (k : Kind) : Decidable k.Written := inferInstanceAs (Decidable (_ ∧ _))

variable {k : Kind} {s c p : Stack} {i : Bool}

theorem writable_var {v : Var} :
    v.kind.writable = true ↔ isVarName v.name = true ∧ sortOf v.name = v.sort := by
  rcases v with ⟨_ | _, name⟩ <;> simp [Var.kind, writable]

theorem Written.wellFormed (h : k.Written) : k.wellFormed = true := by
  refine wellFormed_iff.2 ⟨h.1, h.2.1, all_mono (fun l hl => ?_) h.2.2⟩
  cases l <;> first | rfl | simp [writable] at hl

/-- **A written kind is tidy.** -/
theorem Written.tidy (h : k.Written) : k.Tidy sortOf :=
  ⟨h.wellFormed, fun _ hv => (writable_var.1 (all_var h.2.2 hv)).2⟩

theorem written_nil : Written (stack []) := ⟨rfl, rfl, rfl⟩

/-- **A stack is written if its slots are, and fit on what lies below them.** -/
theorem written_cons_iff :
    Written (stack (k :: s)) ↔ fitsOn k s = true ∧ Written k ∧ Written (stack s) := by
  simp only [Written, bottomed, flat, all, slotsBottomed, slotsFlat, slotsAll, Bool.and_eq_true]
  have hfit : fitsOn k s = true ↔ (!k.isStackVar || s.isEmpty) = true ∧ (!k.isStack) = true := by
    cases k <;> simp [fitsOn, isStackVar, isStack]
  rw [hfit]
  constructor
  · rintro ⟨⟨⟨hvar, hb⟩, hbs⟩, ⟨⟨hstack, hf⟩, hfs⟩, ha, has⟩
    exact ⟨⟨hvar, hstack⟩, ⟨hb, hf, ha⟩, hbs, hfs, has⟩
  · rintro ⟨⟨hvar, hstack⟩, ⟨hb, hf, ha⟩, hbs, hfs, has⟩
    exact ⟨⟨⟨hvar, hb⟩, hbs⟩, ⟨⟨hstack, hf⟩, hfs⟩, ha, has⟩

theorem Written.slot (h : Written (stack s)) (hk : k ∈ s) : Written k ∧ k.isStack = false := by
  obtain ⟨hb, hf, ha⟩ := h
  have hflat := slotsFlat_iff.1 hf k hk
  exact ⟨⟨(slotsBottomed_iff.1 hb).1 k hk, hflat.2, slotsAll_iff.1 ha k hk⟩, hflat.1⟩

theorem written_effect_iff :
    Written (effect c p i) ↔ Written (stack c) ∧ Written (stack p) := by
  simp only [Written, bottomed, flat, all, Bool.and_eq_true]
  constructor
  · rintro ⟨⟨hbc, hbp⟩, ⟨hfc, hfp⟩, hac, hap⟩
    exact ⟨⟨hbc, hfc, hac⟩, hbp, hfp, hap⟩
  · rintro ⟨⟨hbc, hfc, hac⟩, hbp, hfp, hap⟩
    exact ⟨⟨hbc, hbp⟩, ⟨hfc, hfp⟩, hac, hap⟩

theorem written_var {v : Var} (h : isVarName v.name = true) (hs : sortOf v.name = v.sort) :
    v.kind.Written := by
  rcases v with ⟨_ | _, name⟩ <;> exact ⟨rfl, rfl, writable_var.2 ⟨h, hs⟩⟩

end Kind

end StackEffect
