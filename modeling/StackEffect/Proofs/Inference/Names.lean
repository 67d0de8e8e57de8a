import StackEffect.Fresh
import StackEffect.Proofs.Signature.Written

/-!
# Proofs/Inference/Names — fresh and canonical names can be written

    'a   ⟶   'a_7        an instance
    'a_7 ⟶   'b          a canonical form

Both replace variables by variables of the same sort whose names can be written (`Table.renames`),
so that instances of written kinds are written (`written_instantiateEffect`), and the canonical form
of a kind is made of what signatures write if the kind is (`reshaped_generalize`).
-/

namespace StackEffect

/-! ## Names with numbers -/

namespace Text

theorem isIdentifier_append {cs ds : List Char} (hcs : isIdentifier cs = true)
    (hds : ds.all isIdentifierPart = true) : isIdentifier (cs ++ ds) = true := by
  cases cs with
  | nil => simp [isIdentifier] at hcs
  | cons c cs =>
    obtain ⟨hc, hcs⟩ := Bool.and_eq_true_iff.1 hcs
    rw [List.cons_append, isIdentifier, hc, List.all_append, hcs, hds]
    rfl

/-- The digits of a number may be part of an identifier. -/
theorem all_isIdentifierPart_toString (n : Nat) :
    (toString n).toList.all isIdentifierPart = true := by
  have hdigits : ∀ m ∈ List.range' 48 10, isIdentifierPart (Char.ofNat m) = true := by
    decide +kernel
  rw [List.all_eq_true]
  intro c hc
  rw [Nat.toString_eq_ofList_toDigits, String.toList_ofList] at hc
  have hdigit := Nat.isDigit_of_mem_toDigits (by decide) (by decide) hc
  have hmem : c.toNat ∈ List.range' 48 10 := by
    simp only [Char.isDigit, Bool.and_eq_true, decide_eq_true_eq, ge_iff_le, UInt32.le_iff_toNat_le]
      at hdigit
    exact List.mem_range'_1.2 ⟨hdigit.1, Nat.lt_succ_of_le hdigit.2⟩
  rw [← Char.ofNat_toNat c]
  exact hdigits _ hmem

end Text

namespace Signature

/-- What goes on with a name keeps its sort. -/
theorem isVarName_append {a b : String} (ha : isVarName a = true)
    (hb : b.toList.all Text.isIdentifierPart = true) :
    isVarName (a ++ b) = true ∧ sortOf (a ++ b) = sortOf a := by
  unfold isVarName at ha
  rw [isVarName, sortOf, sortOf, String.toList_append]
  generalize a.toList = as at ha ⊢
  rcases as with - | ⟨c, - | ⟨d, ds⟩⟩
  · simp at ha
  · simp [Text.isIdentifier] at ha
  · obtain ⟨hc, hd⟩ := Bool.and_eq_true_iff.1 ha
    exact ⟨Bool.and_eq_true_iff.2 ⟨hc, Text.isIdentifier_append hd hb⟩, rfl⟩

end Signature

namespace Fresh

open Signature

/-- **A fresh name can be written if its base can, and has the same sort.** -/
theorem isVarName_name {base : String} (h : isVarName base = true) (c : Fresh) :
    isVarName (name base c).1 = true ∧ sortOf (name base c).1 = sortOf base := by
  obtain ⟨h₁, hs₁⟩ := isVarName_append h (b := "_") (by decide +kernel)
  obtain ⟨h₂, hs₂⟩ := isVarName_append h₁ (Text.all_isIdentifierPart_toString c.next.toNat)
  exact ⟨h₂, hs₂.trans hs₁⟩

end Fresh

/-! ## Tables of variables -/

namespace Kind

open Signature

variable {k : Kind} {table : List (String × Var)}

/-- Every name in a table has a variable of its own sort that can be written. -/
def Table (table : List (String × Var)) : Prop :=
  ∀ a w, table.lookup a = some w → w.sort = sortOf a ∧ w.kind.writable = true

theorem Table.renames {p : Kind → Bool} (h : Table table)
    (hp : ∀ v : Var, p v.kind = v.kind.writable) :
    Renames p fun v => ((table.lookup v.name).getD v).kind := by
  intro v hv
  rw [hp] at hv
  cases hw : table.lookup v.name with
  | none => exact ⟨v, by simp [hw], rfl, (hp v).trans hv⟩
  | some w =>
    obtain ⟨hsort, hwrite⟩ := h _ _ hw
    exact ⟨w, by simp [hw], hsort.trans (writable_var.1 hv).2, (hp w).trans hwrite⟩

theorem mem_storedVars {v : Var} : v ∈ k.storedVars ↔ v ∈ k.vars := by
  have hslots : ∀ s : Stack, (∀ k ∈ s, v ∈ k.storedVars ↔ v ∈ k.vars) →
      (v ∈ storedSlotVars s ↔ v ∈ slotVars s) := by
    intro s hs
    induction s with
    | nil => rfl
    | cons k s ih =>
      rw [List.forall_mem_cons] at hs
      rw [storedSlotVars, slotVars, List.mem_append, List.mem_append, hs.1, ih hs.2, or_comm]
  induction k using Kind.slotInduction with
  | stack s ih => exact hslots s ih
  | effect c p i hc hp =>
    rw [storedVars, vars, List.mem_append, List.mem_append, hslots c hc, hslots p hp]
  | _ => rfl

end Kind

/-! ## Instances -/

namespace Fresh

open Signature Kind

theorem table_rename {vs : List Var} {table : List (String × Var)} (h : Table table)
    (hvs : ∀ v ∈ vs, v.kind.writable = true) (c : Fresh) : Table (rename vs table c).1 := by
  induction vs generalizing table c with
  | nil => exact h
  | cons v vs ih =>
    rw [List.forall_mem_cons] at hvs
    rw [rename]
    split
    · exact ih h hvs.2 c
    · refine ih (fun a w hw => ?_) hvs.2 _
      rw [List.lookup_cons] at hw
      split at hw
      · next ha =>
        obtain ⟨hname, hsort⟩ := writable_var.1 hvs.1
        obtain ⟨hfresh, hfreshSort⟩ := isVarName_name hname c
        rw [beq_iff_eq.1 ha, ← Option.some.inj hw]
        exact ⟨hsort.symm, writable_var.2 ⟨hfresh, hfreshSort.trans hsort⟩⟩
      · exact h a w hw

/-- **Instances of written effects are written.** -/
theorem written_instantiateEffect {f : Effect} (h : f.kind.Written) (c : Fresh) :
    (c.instantiateEffect f).1.kind.Written := by
  have htable : Table (rename f.kind.storedVars [] c).1 :=
    table_rename (fun a w hw => by simp at hw) (fun v hv => all_var h.2.2 (mem_storedVars.1 hv)) c
  have hshape := (htable.renames fun _ => rfl).reshaped h.2.2
  exact ⟨hshape.bottomed h.1, hshape.flat.trans h.2.1, hshape.all⟩

end Fresh

/-! ## Canonical forms -/

namespace Kind

open Signature

variable {k : Kind} {top : String}

/-- A canonical name can be written, and its letter tells its sort. -/
theorem isVarName_letterName {first : Char} {sort : VarSort} (h : ∀ i < 26,
      Text.isIdentifierStart (Char.ofNat (first.toNat + i)) = true ∧
        (if Text.isUppercase (Char.ofNat (first.toNat + i)) then VarSort.stack else .slot) = sort)
    (i : Nat) : isVarName (letterName first i) = true ∧ sortOf (letterName first i) = sort := by
  obtain ⟨hstart, hsort⟩ := h (i % 26) (Nat.mod_lt i (by decide))
  have hletter : isVarName ("'" ++ (Char.ofNat (first.toNat + i % 26)).toString) = true ∧
      sortOf ("'" ++ (Char.ofNat (first.toNat + i % 26)).toString) = sort := by
    simp [isVarName, sortOf, Text.isIdentifier, hstart, hsort]
  have hnumber : (if i < 26 then "" else toString (i / 26)).toList.all Text.isIdentifierPart
      = true := by
    split
    · rfl
    · exact Text.all_isIdentifierPart_toString _
  obtain ⟨hname, hnameSort⟩ := isVarName_append hletter.1 hnumber
  exact ⟨hname, hnameSort.trans hletter.2⟩

theorem writable_slotLetter (i : Nat) : (⟨.slot, letterName 'a' i⟩ : Var).kind.writable = true := by
  have hletters : ∀ i < 26, Text.isIdentifierStart (Char.ofNat ('a'.toNat + i)) = true ∧
      (if Text.isUppercase (Char.ofNat ('a'.toNat + i)) then VarSort.stack else .slot) =
        .slot := by
    decide +kernel
  exact writable_var.2 (isVarName_letterName hletters i)

theorem writable_stackLetter (i : Nat) :
    (⟨.stack, letterName 'A' i⟩ : Var).kind.writable = true := by
  have hletters : ∀ i < 26, Text.isIdentifierStart (Char.ofNat ('A'.toNat + i)) = true ∧
      (if Text.isUppercase (Char.ofNat ('A'.toNat + i)) then VarSort.stack else .slot) =
        .stack := by
    decide +kernel
  exact writable_var.2 (isVarName_letterName hletters i)

theorem lookup_canonicalVars {isStack : String → Bool} {names : List String} {i j : Nat}
    {a : String} {w : Var} (h : (canonicalVars isStack names i j).lookup a = some w) :
    a ∈ names ∧ w.sort = (if isStack a then .stack else .slot) ∧ w.kind.writable = true := by
  induction names generalizing i j with
  | nil => simp [canonicalVars] at h
  | cons name names ih =>
    rw [canonicalVars] at h
    split at h <;> rw [List.lookup_cons] at h <;> split at h
    · next hstack _ ha =>
      rw [beq_iff_eq.1 ha, ← Option.some.inj h, hstack]
      exact ⟨List.mem_cons_self, rfl, writable_stackLetter j⟩
    · exact (ih h).imp_left (List.mem_cons_of_mem _)
    · next hstack _ ha =>
      rw [beq_iff_eq.1 ha, ← Option.some.inj h, if_neg hstack]
      exact ⟨List.mem_cons_self, rfl, writable_slotLetter i⟩
    · exact (ih h).imp_left (List.mem_cons_of_mem _)

/-- What signatures write, or the top type. -/
def writableOr (top : String) (k : Kind) : Bool := k.writable || k == simple top

theorem writableOr_var (v : Var) : writableOr top v.kind = v.kind.writable := by
  rcases v with ⟨_ | _, a⟩ <;> simp [writableOr, Var.kind]

/-- Canonical variables are of the sort of the names that they are given to, and can be written. -/
theorem sort_canonicalTable {sort : String → VarSort} (hsort : ∀ v ∈ k.vars, sort v.name = v.sort)
    {v w : Var} (hv : v ∈ k.vars) (hw : k.canonicalTable.lookup v.name = some w) :
    w.sort = v.sort ∧ w.kind.writable = true := by
  obtain ⟨-, hws, hwrite⟩ := lookup_canonicalVars hw
  have hstack : k.stackNames.contains v.name = true ↔ v.sort = .stack := by
    simp only [stackNames, List.contains_iff_mem, List.mem_map, List.mem_filter, beq_iff_eq]
    constructor
    · rintro ⟨u, ⟨hu, hus⟩, huv⟩
      rw [← hsort v hv, ← huv, hsort u hu, hus]
    · exact fun hvs => ⟨v, ⟨hv, hvs⟩, rfl⟩
  refine ⟨hws.trans ?_, hwrite⟩
  cases hvs : v.sort with
  | stack => exact if_pos (hstack.2 hvs)
  | slot => exact if_neg fun hc => by simp [hstack.1 hc] at hvs

theorem table_canonicalTable (h : k.all (writableOr top) = true) : Table k.canonicalTable := by
  intro a w hw
  obtain ⟨v, hv, rfl⟩ := List.mem_map.1 (List.mem_eraseDups.1 (lookup_canonicalVars hw).1)
  have hsorts : ∀ v ∈ k.vars, sortOf v.name = v.sort := fun v hv =>
    (writable_var.1 ((writableOr_var v).symm.trans (all_var h hv))).2
  rw [hsorts v hv]
  exact sort_canonicalTable hsorts hv hw

/-- **A canonical form has the shape of the kind**, and its parts can be written. -/
theorem reshaped_generalize (h : k.all (writableOr top) = true) :
    Reshaped (writableOr top) k k.generalize :=
  ((table_canonicalTable h).renames writableOr_var).reshaped h

end Kind

end StackEffect
