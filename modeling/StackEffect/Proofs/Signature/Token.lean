import StackEffect.Kind.Printer
import StackEffect.Proofs.Signature.Written

/-!
# Proofs/Signature/Token — the tokens of what is printed

    symbolsOf (text of a stack)  =  the symbols of its slots, bottom first

A token ends where the characters stop that may belong to it; a symbol that stands whole before
other characters is read there, and nothing else (`Symbol.Whole.tokensFrom_eq`).  Names are followed
by a blank, a closing parenthesis or nothing, so that every name that is printed is read as one
token (`spells_of_written`).  Conversely, the names that are read can be written (`legible_read`).
-/

namespace StackEffect

namespace Text

theorem mem_of_inRanges {ranges : List (Nat × Nat)} {c : Char} (h : inRanges ranges c = true) :
    c.toNat ∈ ranges.flatMap fun r => List.range' r.1 (r.2 + 1 - r.1) := by
  obtain ⟨r, hr, hc⟩ := List.any_eq_true.1 h
  rw [Bool.and_eq_true, decide_eq_true_eq, decide_eq_true_eq] at hc
  exact List.mem_flatMap.2 ⟨r, hr, List.mem_range'_1.2 (by omega)⟩

/-- White space does not go on with an identifier. -/
theorem isIdentifierPart_eq_false_of_blank {c : Char} (h : isBlank c = true) :
    isIdentifierPart c = false := by
  have hcodes : ∀ n ∈ blanks.flatMap fun r => List.range' r.1 (r.2 + 1 - r.1),
      isIdentifierPart (Char.ofNat n) = false := by
    decide +kernel
  have hc := hcodes c.toNat (mem_of_inRanges h)
  rwa [Char.ofNat_toNat] at hc

theorem isBlank_eq_false_of_part {c : Char} (h : isIdentifierPart c = true) : isBlank c = false :=
  Bool.eq_false_iff.2 fun hb =>
    Bool.false_ne_true ((isIdentifierPart_eq_false_of_blank hb).symm.trans h)

/-- White space begins no identifier. -/
theorem isBlank_eq_false_of_start {c : Char} (h : isIdentifierStart c = true) :
    isBlank c = false := isBlank_eq_false_of_part (isIdentifierPart_of_start h)

end Text

/-! ## The symbols of a text -/

/-- The symbols of characters. -/
def symbolsOf (cs : List Char) : List Symbol := (tokensFrom 0 0 cs).map Token.symbol

/-- What is skipped is not read. -/
theorem tokensFrom_skip (pos skip : Nat) (cs : List Char) :
    tokensFrom pos skip cs = tokensFrom (pos + skip) 0 (cs.drop skip) := by
  induction cs generalizing pos skip with
  | nil => simp [tokensFrom]
  | cons c cs ih =>
    cases skip with
    | zero => rfl
    | succ skip => rw [tokensFrom, ih, List.drop_succ_cons, Nat.add_right_comm, Nat.add_assoc]

/-- Positions do not matter, and what is skipped is not read. -/
theorem map_symbol_tokensFrom (pos skip : Nat) (cs : List Char) :
    (tokensFrom pos skip cs).map Token.symbol = symbolsOf (cs.drop skip) := by
  have hpos : ∀ cs pos pos' skip, (tokensFrom pos skip cs).map Token.symbol =
      (tokensFrom pos' 0 (cs.drop skip)).map Token.symbol := by
    intro cs
    induction cs with
    | nil => simp [tokensFrom]
    | cons c cs ih =>
      intro pos pos' skip
      cases skip with
      | succ skip => exact ih (pos + 1) pos' skip
      | zero =>
        rw [List.drop_zero, tokensFrom, tokensFrom]
        split
        · exact ih (pos + 1) (pos' + 1) 0
        · simp only [List.map_cons]
          rw [ih (pos + 1) 0, ih (pos' + 1) 0]
  exact hpos cs pos 0 skip

theorem symbolsOf_blank {c : Char} {cs : List Char} (h : Text.isBlank c = true) :
    symbolsOf (c :: cs) = symbolsOf cs := by
  rw [symbolsOf, tokensFrom, if_pos h, map_symbol_tokensFrom, List.drop_zero]

/-! ## Names -/

/-- Characters that do not go on with a name. -/
def Apart (rest : List Char) : Prop := ∀ c ∈ rest.head?, Text.isIdentifierPart c = false

theorem takeWhile_append_apart {cs rest : List Char} (hcs : cs.all Text.isIdentifierPart = true)
    (hrest : Apart rest) : (cs ++ rest).takeWhile Text.isIdentifierPart = cs := by
  rw [List.takeWhile_append_of_pos (List.all_eq_true.1 hcs)]
  cases rest with
  | nil => simp
  | cons c rest => simp [hrest c rfl]

theorem read_start {c : Char} (cs : List Char) (h : Text.isIdentifierStart c = true) :
    Symbol.read c cs = .ident (String.ofList (c :: cs.takeWhile Text.isIdentifierPart)) := by
  unfold Symbol.read
  split <;> first | (exfalso; revert h; decide) | skip
  exact if_pos h

/-! ## Symbols that stand whole -/

namespace Symbol

variable {c : Char} {rest : List Char} {s : Symbol}

/-- **A character that begins no symbol** before other characters. -/
structure Stray (c : Char) (rest : List Char) : Prop where
  visible : Text.isBlank c = false
  nameless : Text.isIdentifierStart c = false
  punctuation : c ≠ '(' ∧ c ≠ ')' ∧ c ≠ '='
  headless : c = '-' ∨ c = '~' → rest.head? ≠ some '>'
  unquoting : c = '\x27' → ∀ d ∈ rest.head?, Text.isIdentifierStart d = false

/-- **A symbol stands whole** before other characters: a name does not go on there, and an illegal
character begins nothing. -/
def Whole (rest : List Char) : Symbol → Prop
  | ident name => Text.isIdentifier name.toList = true ∧ Apart rest
  | var name => Signature.isVarName name = true ∧ Apart rest
  | illegal c => Stray c rest
  | _ => True

theorem read_of_stray (h : Stray c rest) : read c rest = .illegal c := by
  unfold read
  split
  case h_1 => exact absurd rfl h.punctuation.1
  case h_2 => exact absurd rfl h.punctuation.2.1
  case h_3 => exact absurd rfl h.punctuation.2.2
  case h_4 => exact absurd rfl (h.headless (.inl rfl))
  case h_5 => exact absurd rfl (h.headless (.inr rfl))
  case h_6 d ds => exact if_neg (by simp [h.unquoting rfl d rfl])
  case h_7 => exact if_neg (by simp [h.nameless])

/-- **A symbol that stands whole is what is read.** -/
theorem Whole.read_eq (h : s.Whole rest) : ∃ c cs, s.spelling.toList = c :: cs ∧
    Text.isBlank c = false ∧ read c (cs ++ rest) = s := by
  cases s with
  | lparen => exact ⟨'(', [], rfl, by decide, rfl⟩
  | rparen => exact ⟨')', [], rfl, by decide, rfl⟩
  | arrow => exact ⟨'-', ['>'], rfl, by decide, rfl⟩
  | sideArrow => exact ⟨'~', ['>'], rfl, by decide, rfl⟩
  | equals => exact ⟨'=', [], rfl, by decide, rfl⟩
  | illegal c => exact ⟨c, [], by simp [spelling], h.visible, read_of_stray h⟩
  | ident name =>
    obtain ⟨hname, hrest⟩ := h
    obtain ⟨cs, rfl⟩ : ∃ cs, name = String.ofList cs := ⟨name.toList, String.ofList_toList.symm⟩
    rw [String.toList_ofList] at hname
    cases cs with
    | nil => simp [Text.isIdentifier] at hname
    | cons c cs =>
      obtain ⟨hc, hcs⟩ := Bool.and_eq_true_iff.1 hname
      refine ⟨c, cs, by simp [spelling], Text.isBlank_eq_false_of_start hc, ?_⟩
      rw [read_start _ hc, takeWhile_append_apart hcs hrest]
  | var name =>
    obtain ⟨hname, hrest⟩ := h
    obtain ⟨cs, rfl⟩ : ∃ cs, name = String.ofList cs := ⟨name.toList, String.ofList_toList.symm⟩
    rw [Signature.isVarName, String.toList_ofList] at hname
    rcases cs with - | ⟨c, - | ⟨d, ds⟩⟩
    · simp at hname
    · simp [Text.isIdentifier] at hname
    · simp only [Text.isIdentifier, Bool.and_eq_true, beq_iff_eq] at hname
      obtain ⟨rfl, hd, hds⟩ := hname
      refine ⟨'\x27', d :: ds, by simp [spelling], by decide, ?_⟩
      simp [read, hd, takeWhile_append_apart hds hrest]

/-- **A symbol that stands whole is the next token.** -/
theorem Whole.tokensFrom_eq (h : s.Whole rest) (pos : Nat) :
    tokensFrom pos 0 (s.spelling.toList ++ rest) =
      ⟨pos, s⟩ :: tokensFrom (pos + s.spelling.length) 0 rest := by
  obtain ⟨c, cs, hcs, hblank, hread⟩ := h.read_eq
  have hlength : s.spelling.length = cs.length + 1 := by
    rw [← String.length_toList, hcs, List.length_cons]
  have hnext : tokensFrom (pos + 1) (s.spelling.length - 1) (cs ++ rest) =
      tokensFrom (pos + s.spelling.length) 0 rest := by
    rw [tokensFrom_skip, hlength, Nat.add_sub_cancel, List.drop_left, Nat.add_assoc, Nat.add_comm 1]
  rw [hcs, List.cons_append, tokensFrom, if_neg (by simp [hblank]), hread]
  exact congrArg _ hnext

theorem Whole.symbolsOf_eq (h : s.Whole rest) :
    symbolsOf (s.spelling.toList ++ rest) = s :: symbolsOf rest := by
  rw [symbolsOf, h.tokensFrom_eq, List.map_cons, map_symbol_tokensFrom, List.drop_zero]

end Symbol

theorem symbolsOf_lparen (cs : List Char) : symbolsOf ('(' :: cs) = .lparen :: symbolsOf cs :=
  Symbol.Whole.symbolsOf_eq (s := .lparen) trivial

theorem symbolsOf_rparen (cs : List Char) : symbolsOf (')' :: cs) = .rparen :: symbolsOf cs :=
  Symbol.Whole.symbolsOf_eq (s := .rparen) trivial

theorem symbolsOf_arrow (cs : List Char) : symbolsOf ('-' :: '>' :: cs) = .arrow :: symbolsOf cs :=
  Symbol.Whole.symbolsOf_eq (s := .arrow) trivial

theorem symbolsOf_sideArrow (cs : List Char) :
    symbolsOf ('~' :: '>' :: cs) = .sideArrow :: symbolsOf cs :=
  Symbol.Whole.symbolsOf_eq (s := .sideArrow) trivial

/-- **A printed identifier is read as one token.** -/
theorem symbolsOf_ident {name : String} {rest : List Char}
    (h : Text.isIdentifier name.toList = true) (hrest : Apart rest) :
    symbolsOf (name.toList ++ rest) = .ident name :: symbolsOf rest :=
  Symbol.Whole.symbolsOf_eq (s := .ident name) ⟨h, hrest⟩

/-- **A printed variable is read as one token.** -/
theorem symbolsOf_var {name : String} {rest : List Char} (h : Signature.isVarName name = true)
    (hrest : Apart rest) : symbolsOf (name.toList ++ rest) = .var name :: symbolsOf rest :=
  Symbol.Whole.symbolsOf_eq (s := .var name) ⟨h, hrest⟩

/-- Symbols whose names can be written. -/
def Symbol.legible : Symbol → Bool
  | .ident name => Text.isIdentifier name.toList
  | .var name => Signature.isVarName name
  | _ => true

theorem legible_read (c : Char) (cs : List Char) : (Symbol.read c cs).legible = true := by
  unfold Symbol.read
  split
  case h_6 d ds =>
    split
    · next hd =>
      simp [Symbol.legible, Signature.isVarName, Text.isIdentifier, hd, -List.all_eq_true]
    · rfl
  case h_7 =>
    split
    · next hc => simp [Symbol.legible, Text.isIdentifier, hc, -List.all_eq_true]
    · rfl
  all_goals rfl

/-- **The names that are read can be written.** -/
theorem legible_of_mem_tokensFrom {pos skip : Nat} {cs : List Char} {t : Token}
    (h : t ∈ tokensFrom pos skip cs) : t.symbol.legible = true := by
  fun_induction tokensFrom pos skip cs with
  | case1 => simp at h
  | case2 _ _ _ _ ih => exact ih h
  | case3 _ _ _ _ ih => exact ih h
  | case4 pos c cs _ symbol ih =>
    rcases List.mem_cons.1 h with rfl | h
    · exact legible_read c cs
    · exact ih h

/-! ## Printed kinds -/

theorem Stack.text_cons {k : Kind} {s : Stack} (hs : s ≠ []) :
    Stack.text (k :: s) = Stack.text s ++ " " ++ k.slotText := by
  have hne : (Kind.slotTexts s).reverse ≠ [] := by
    rw [Kind.slotTexts_eq_map]
    simpa using hs
  rw [Stack.text, Kind.slotTexts, List.reverse_cons,
    String.intercalate_append_of_ne_nil hne (by simp), String.intercalate_singleton]
  rfl

namespace Kind

mutual
/-- The symbols of a kind that is not a stack. -/
def symbols : Kind → List Symbol
  | simple name => [.ident name]
  | typeVar name | stackVar name => [.var name]
  | self => [.ident "self"]
  | effect c p i =>
    .lparen ::
      (stackSymbols c ++ (if i then .sideArrow else .arrow) :: (stackSymbols p ++ [.rparen]))
  | stack _ | foreign .. | absent => []
/-- The symbols of a stack, bottom first. -/
def stackSymbols : List Kind → List Symbol
  | [] => []
  | k :: s => stackSymbols s ++ symbols k
end

/-- The text of a kind is read as its symbols, unless the name at its end goes on. -/
def Spells (k : Kind) : Prop :=
  ∀ rest, Apart rest → symbolsOf (k.slotText.toList ++ rest) = k.symbols ++ symbolsOf rest

theorem symbolsOf_stackText {s : Stack} (hs : ∀ k ∈ s, k.Spells) {rest : List Char}
    (hrest : Apart rest) :
    symbolsOf ((Stack.text s).toList ++ rest) = stackSymbols s ++ symbolsOf rest := by
  induction s generalizing rest with
  | nil => rfl
  | cons k s ih =>
    rw [List.forall_mem_cons] at hs
    by_cases hnil : s = []
    · subst hnil
      have htext : Stack.text [k] = k.slotText := String.intercalate_singleton
      rw [htext, hs.1 rest hrest]
      rfl
    · have hblank : Apart (' ' :: (k.slotText.toList ++ rest)) := by
        rintro c ⟨⟩
        decide
      have hspace : symbolsOf (' ' :: (k.slotText.toList ++ rest)) =
          k.symbols ++ symbolsOf rest := by
        rw [symbolsOf_blank (by decide), hs.1 rest hrest]
      rw [Stack.text_cons hnil, String.toList_append, String.toList_append, List.append_assoc,
        List.append_assoc, show " ".toList ++ (k.slotText.toList ++ rest) =
          ' ' :: (k.slotText.toList ++ rest) from rfl, ih hs.2 hblank, hspace, stackSymbols,
        List.append_assoc]

/-- **What is printed is read as its symbols.** -/
theorem spells_of_written {k : Kind} (h : k.Written) (hk : k.isStack = false) : k.Spells := by
  induction k using Kind.slotInduction with
  | simple name =>
    intro rest hrest
    exact symbolsOf_ident (Bool.and_eq_true_iff.1 h.2.2).1 hrest
  | typeVar name | stackVar name =>
    intro rest hrest
    exact symbolsOf_var (Bool.and_eq_true_iff.1 h.2.2).1 hrest
  | self =>
    intro rest hrest
    exact @symbolsOf_ident "self" rest (by decide) hrest
  | effect c p i hc hp =>
    intro rest hrest
    obtain ⟨hwc, hwp⟩ := written_effect_iff.1 h
    have hspells : ∀ {s : Stack}, (∀ k ∈ s, k.Written → k.isStack = false → k.Spells) →
        (stack s).Written → ∀ k ∈ s, k.Spells := fun hs hw k hk =>
      hs k hk (hw.slot hk).1 (hw.slot hk).2
    have hclose : symbolsOf ((Stack.text p).toList ++ ')' :: rest) =
        stackSymbols p ++ .rparen :: symbolsOf rest := by
      rw [symbolsOf_stackText (hspells hp hwp) (by rintro c ⟨⟩; decide), symbolsOf_rparen]
    have harrow : symbolsOf ((if i then " ~> " else " -> ").toList ++
        ((Stack.text p).toList ++ ')' :: rest)) = (if i then .sideArrow else .arrow) ::
          (stackSymbols p ++ .rparen :: symbolsOf rest) := by
      cases i
      · exact (symbolsOf_blank (by decide)).trans ((symbolsOf_arrow _).trans
          (congrArg _ ((symbolsOf_blank (by decide)).trans hclose)))
      · exact (symbolsOf_blank (by decide)).trans ((symbolsOf_sideArrow _).trans
          (congrArg _ ((symbolsOf_blank (by decide)).trans hclose)))
    have hapart : Apart ((if i then " ~> " else " -> ").toList ++
        ((Stack.text p).toList ++ ')' :: rest)) := by
      cases i <;> (rintro c ⟨⟩; decide)
    have htext : (effect c p i).slotText.toList ++ rest = '(' :: ((Stack.text c).toList ++
        ((if i then " ~> " else " -> ").toList ++ ((Stack.text p).toList ++ ')' :: rest))) := by
      simp [slotText, Stack.text]
    rw [htext, symbolsOf_lparen, symbolsOf_stackText (hspells hc hwc) hapart, harrow, symbols]
    simp
  | stack => simp [isStack] at hk
  | foreign | absent => simp [Written, all, writable] at h

end Kind

end StackEffect
