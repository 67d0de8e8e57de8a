import Mathlib.Data.List.Sort
import StackEffect.Proofs.Signature.Token

/-!
# Proofs/Signature/Tiling — tokens cover a text but for its white space

    ( int -> 'a )        each token spells the characters from its position on
    ^ ^^^ ^^ ^^ ^

The tokens of a text stand whole side by side (`Symbol.Whole`), with nothing but white space between
them, and no other tokens do (`TokenList.Tiles.tokens_eq`).  Token by token, a text is laid out like
this:

    Tiling pos cs ts        cs, which begins at pos, is white space and the tokens ts

Wherever a symbol stands whole, it also does with white space behind it.  So tokens can be told
apart by single blanks as well (`symbolsOf_spaced`).
-/

namespace StackEffect

namespace Symbol

variable {c : Char} {cs rest rest' : List Char} {s : Symbol}

theorem apart_dropWhile (cs : List Char) : Apart (cs.dropWhile Text.isIdentifierPart) := by
  intro c hc
  have hhead := List.head?_dropWhile_not Text.isIdentifierPart cs
  rw [hc] at hhead
  simpa using hhead

/-- **What is read stands whole** before the characters that are left. -/
theorem exists_whole_read (cs : List Char) (h : Text.isBlank c = false) :
    ∃ rest, c :: cs = (read c cs).spelling.toList ++ rest ∧ (read c cs).Whole rest := by
  unfold read
  split
  case h_1 | h_2 | h_3 => exact ⟨cs, rfl, trivial⟩
  case h_4 rest | h_5 rest => exact ⟨rest, rfl, trivial⟩
  case h_6 d ds =>
    split
    · next hd =>
      refine ⟨ds.dropWhile Text.isIdentifierPart, by simp [spelling], ?_, apart_dropWhile ds⟩
      simp [Signature.isVarName, Text.isIdentifier, hd, -List.all_eq_true]
    · next hd =>
      refine ⟨d :: ds, by simp [spelling], h, by decide, by decide, by simp, ?_⟩
      simpa using hd
  case h_7 hopen hclose hequals harrow hside hquote =>
    split
    · next hc =>
      refine ⟨cs.dropWhile Text.isIdentifierPart, by simp [spelling], ?_, apart_dropWhile cs⟩
      simp [Text.isIdentifier, hc, -List.all_eq_true]
    · next hc =>
      refine ⟨cs, by simp [spelling], h, Bool.eq_false_iff.2 hc, ⟨hopen, hclose, hequals⟩, ?_, ?_⟩
      · rintro hc hhead
        obtain ⟨tail, rfl⟩ := List.head?_eq_some_iff.1 hhead
        exact hc.elim (harrow tail · rfl) (hside tail · rfl)
      · rintro hc d hd
        obtain ⟨ds, rfl⟩ := List.head?_eq_some_iff.1 hd
        exact (hquote d ds hc rfl).elim

/-- A symbol that stands whole somewhere stands whole before white space, and at the end. -/
theorem Whole.before_blank (h : s.Whole rest) (hrest : ∀ c ∈ rest'.head?, Text.isBlank c = true) :
    s.Whole rest' := by
  have hapart : Apart rest' := fun c hc => Text.isIdentifierPart_eq_false_of_blank (hrest c hc)
  cases s with
  | ident name | var name => exact ⟨h.1, hapart⟩
  | illegal c =>
    refine { h with headless := fun _ hhead => ?_, unquoting := fun _ d hd => ?_ }
    · exact absurd (hrest '>' hhead) (by decide)
    · refine Bool.eq_false_iff.2 fun hstart => ?_
      exact absurd (hrest d hd) (Bool.eq_false_iff.1 (Text.isBlank_eq_false_of_start hstart))
  | _ => trivial

theorem isBlank_of_mem_identifier (h : Text.isIdentifier cs = true) (hc : c ∈ cs) :
    Text.isBlank c = false := by
  cases cs with
  | nil => cases hc
  | cons d ds =>
    obtain ⟨hd, hds⟩ := Bool.and_eq_true_iff.1 h
    rcases List.mem_cons.1 hc with rfl | hc
    · exact Text.isBlank_eq_false_of_start hd
    · exact Text.isBlank_eq_false_of_part (List.all_eq_true.1 hds c hc)

/-- The characters of a symbol are not white space. -/
theorem Whole.isBlank_eq_false (h : s.Whole rest) (hc : c ∈ s.spelling.toList) :
    Text.isBlank c = false := by
  cases s with
  | ident name => exact isBlank_of_mem_identifier h.1 hc
  | var name =>
    have hname := h.1
    unfold Signature.isVarName at hname
    change c ∈ name.toList at hc
    split at hname
    · next d ds hds =>
      obtain ⟨hd, hds'⟩ := Bool.and_eq_true_iff.1 hname
      rw [hds] at hc
      rcases List.mem_cons.1 hc with rfl | hc
      · obtain rfl := eq_of_beq hd
        decide
      · exact isBlank_of_mem_identifier hds' hc
    · cases hname
  | illegal d =>
    obtain rfl : c = d := by simpa [spelling] using hc
    exact h.visible
  | _ =>
    refine Bool.eq_false_iff.2 (List.any_eq_false.1 ?_ c hc)
    decide

/-- **At most one symbol stands whole** at the beginning of a text. -/
theorem Whole.eq_of_append_eq {s' : Symbol} (h : s.Whole rest) (h' : s'.Whole rest')
    (heq : s.spelling.toList ++ rest = s'.spelling.toList ++ rest') : s = s' := by
  obtain ⟨c, cs, hcs, -, hread⟩ := h.read_eq
  obtain ⟨c', cs', hcs', -, hread'⟩ := h'.read_eq
  rw [hcs, hcs', List.cons_append, List.cons_append] at heq
  obtain ⟨rfl, hrest⟩ := List.cons.inj heq
  rw [← hread, ← hread', hrest]

theorem Whole.length_pos (h : s.Whole rest) : 0 < s.spelling.length := by
  obtain ⟨c, cs, hcs, -⟩ := h.read_eq
  rw [← String.length_toList, hcs]
  exact Nat.succ_pos _

end Symbol

/-! ## Token by token -/

/-- The position behind a token. -/
def Token.stop (t : Token) : Nat := t.pos + t.symbol.spelling.length

/-- **Characters from a position on, laid out as tokens**: a token stands whole before what is
behind it. -/
inductive Tiling : Nat → List Char → List Token → Prop where
  | done {pos : Nat} : Tiling pos [] []
  | blank {pos : Nat} {c : Char} {cs : List Char} {ts : List Token} :
      Text.isBlank c = true → Tiling (pos + 1) cs ts → Tiling pos (c :: cs) ts
  | token {pos : Nat} {s : Symbol} {rest : List Char} {ts : List Token} :
      s.Whole rest → Tiling (pos + s.spelling.length) rest ts →
      Tiling pos (s.spelling.toList ++ rest) (⟨pos, s⟩ :: ts)

namespace Tiling

variable {pos i : Nat} {c : Char} {cs : List Char} {ts : List Token} {t : Token}

theorem tiling_tokensFrom (pos : Nat) (cs : List Char) : Tiling pos cs (tokensFrom pos 0 cs) := by
  induction hn : cs.length using Nat.strongRecOn generalizing pos cs with
  | ind n ih =>
    cases cs with
    | nil => exact .done
    | cons c cs =>
      by_cases hc : Text.isBlank c = true
      · rw [tokensFrom, if_pos hc]
        exact .blank hc (ih _ (by simp [← hn]) _ _ rfl)
      · obtain ⟨rest, hrest, hs⟩ := Symbol.exists_whole_read cs (Bool.eq_false_iff.2 hc)
        have hlength := congrArg List.length hrest
        have hpos := hs.length_pos
        rw [List.length_append, String.length_toList] at hlength
        rw [hrest, hs.tokensFrom_eq]
        exact .token hs (ih _ (by omega) _ _ rfl)

/-- **Every token spells the characters from its position on.** -/
theorem spelled (h : Tiling pos cs ts) (ht : t ∈ ts) : ∃ before after,
    cs = before ++ t.symbol.spelling.toList ++ after ∧ t.pos = pos + before.length ∧
      t.symbol.Whole after := by
  induction h with
  | done => cases ht
  | @blank pos c cs ts hc _ ih =>
    obtain ⟨before, after, rfl, hpos, hwhole⟩ := ih ht
    refine ⟨c :: before, after, rfl, ?_, hwhole⟩
    rw [hpos, List.length_cons]
    omega
  | @token pos s rest ts hs _ ih =>
    rcases List.mem_cons.1 ht with rfl | ht
    · exact ⟨[], rest, rfl, rfl, hs⟩
    · obtain ⟨before, after, rfl, hpos, hwhole⟩ := ih ht
      refine ⟨s.spelling.toList ++ before, after, by simp, ?_, hwhole⟩
      rw [hpos, List.length_append, String.length_toList]
      omega

theorem le_pos (h : Tiling pos cs ts) (ht : t ∈ ts) : pos ≤ t.pos := by
  obtain ⟨before, -, -, hpos, -⟩ := h.spelled ht
  omega

theorem pairwise (h : Tiling pos cs ts) : ts.Pairwise fun t u => t.stop ≤ u.pos := by
  induction h with
  | done => exact .nil
  | blank _ _ ih => exact ih
  | token _ hrest ih => exact .cons (fun _ => hrest.le_pos) ih

/-- **White space is what belongs to no token.** -/
theorem isBlank_iff (h : Tiling pos cs ts) (hi : cs[i]? = some c) :
    Text.isBlank c = true ↔ ∀ t ∈ ts, pos + i < t.pos ∨ t.stop ≤ pos + i := by
  induction h generalizing i with
  | done => cases hi
  | @blank pos d cs ts hd hrest ih =>
    cases i with
    | zero =>
      obtain rfl : d = c := Option.some.inj hi
      refine iff_of_true hd fun t ht => .inl ?_
      exact hrest.le_pos ht
    | succ i =>
      rw [ih hi, Nat.add_right_comm, Nat.add_assoc]
  | @token pos s rest ts hs hrest ih =>
    by_cases hlt : i < s.spelling.toList.length
    · rw [List.getElem?_append_left hlt] at hi
      have hc := hs.isBlank_eq_false (List.mem_of_getElem? hi)
      refine iff_of_false (Bool.eq_false_iff.1 hc) fun hout => ?_
      have hin := hout _ List.mem_cons_self
      rw [String.length_toList] at hlt
      simp only [Token.stop] at hin
      omega
    · rw [List.getElem?_append_right (Nat.le_of_not_lt hlt)] at hi
      rw [String.length_toList] at hlt hi
      have hbehind : pos + s.spelling.length ≤ pos + i := by omega
      rw [ih hi, Nat.add_assoc, Nat.add_sub_cancel' (Nat.le_of_not_lt hlt), List.forall_mem_cons]
      exact (and_iff_right (.inr hbehind)).symm

end Tiling

/-! ## All tokens of a text -/

namespace TokenList

/-- **Tokens tile a text.**  They follow one another up to its end, each spells the characters from
its position on and stands whole there; none reaches into the next, and white space is what belongs
to no token. -/
structure Tiles (list : TokenList) (src : String) : Prop where
  stop_eq : list.stop = src.length
  increasing : list.tokens.Pairwise fun t u => t.pos < u.pos
  pos_lt : ∀ t ∈ list.tokens, t.pos < list.stop
  spelled : ∀ t ∈ list.tokens, ∃ before after,
    src.toList = before ++ t.symbol.spelling.toList ++ after ∧ t.pos = before.length ∧
      t.symbol.Whole after
  disjoint : list.tokens.Pairwise fun t u => t.stop ≤ u.pos
  gaps : ∀ i c, src.toList[i]? = some c →
    (Text.isBlank c = true ↔ ∀ t ∈ list.tokens, i < t.pos ∨ t.stop ≤ i)

variable {src : String} {list list' : TokenList} {t u : Token}

theorem tiles_ofString (src : String) : (ofString src).Tiles src := by
  have h : Tiling 0 src.toList (ofString src).tokens := Tiling.tiling_tokensFrom 0 src.toList
  have hspelled : ∀ t ∈ (ofString src).tokens, ∃ before after,
      src.toList = before ++ t.symbol.spelling.toList ++ after ∧ t.pos = before.length ∧
        t.symbol.Whole after := by
    simpa only [Nat.zero_add] using fun t => h.spelled
  refine ⟨rfl, ?_, fun t ht => ?_, hspelled, h.pairwise, fun i c hi => ?_⟩
  · refine h.pairwise.imp_of_mem fun {t u} ht _ hle => Nat.lt_of_lt_of_le ?_ hle
    obtain ⟨_, _, -, -, hwhole⟩ := hspelled t ht
    exact Nat.lt_add_of_pos_right hwhole.length_pos
  · obtain ⟨before, after, hsrc, hpos, hwhole⟩ := hspelled t ht
    have hlength := congrArg List.length hsrc
    have hlt := hwhole.length_pos
    simp only [List.length_append, String.length_toList] at hlength
    change t.pos < src.length
    omega
  · simpa only [Nat.zero_add] using h.isBlank_iff hi

/-- Of two tokens, the one ends before the other begins. -/
theorem Tiles.stop_le (h : list.Tiles src) (ht : t ∈ list.tokens) (hu : u ∈ list.tokens)
    (hlt : t.pos < u.pos) : t.stop ≤ u.pos := by
  obtain ⟨i, hi, rfl⟩ := List.getElem_of_mem ht
  obtain ⟨j, hj, rfl⟩ := List.getElem_of_mem hu
  rcases Nat.lt_trichotomy i j with hij | rfl | hji
  · exact List.pairwise_iff_getElem.1 h.disjoint i j hi hj hij
  · exact absurd hlt (Nat.lt_irrefl _)
  · exact absurd hlt (Nat.lt_asymm (List.pairwise_iff_getElem.1 h.increasing j i hj hi hji))

/-- A token of one tiling is one of the other, if all tokens of the other before it are tokens of
the one. -/
theorem Tiles.mem_of_mem (h : list.Tiles src) (h' : list'.Tiles src) (ht : t ∈ list.tokens)
    (hbefore : ∀ u ∈ list'.tokens, u.pos < t.pos → u ∈ list.tokens) : t ∈ list'.tokens := by
  obtain ⟨before, after, hsrc, hpos, hwhole⟩ := h.spelled t ht
  obtain ⟨c, cs, hcs, hvisible, -⟩ := hwhole.read_eq
  have hc : src.toList[t.pos]? = some c := by
    rw [hsrc, hcs, hpos, List.append_assoc, List.getElem?_append_right (Nat.le_refl _),
      Nat.sub_self]
    rfl
  obtain ⟨u, hu, hle, hlt⟩ : ∃ u ∈ list'.tokens, u.pos ≤ t.pos ∧ t.pos < u.stop := by
    have hnot := mt (h'.gaps _ c hc).2 (Bool.eq_false_iff.1 hvisible)
    simpa only [not_forall, not_or, Nat.not_lt, Nat.not_le, exists_prop] using hnot
  rcases Nat.lt_or_eq_of_le hle with hlt' | heq
  · -- a token that begins before `t` and covers its first character would reach into it
    have hreach := h.stop_le (hbefore u hu hlt') ht hlt'
    omega
  · obtain ⟨before', after', hsrc', hpos', hwhole'⟩ := h'.spelled u hu
    rw [hsrc, List.append_assoc, List.append_assoc] at hsrc'
    obtain ⟨-, hrest⟩ := List.append_inj hsrc' (by omega)
    have hsymbol := hwhole.eq_of_append_eq hwhole' hrest
    have htu : t = u := by
      cases t
      cases u
      exact congr (congrArg _ heq.symm) hsymbol
    exact htu ▸ hu

/-- **There is one tiling of a text.** -/
theorem Tiles.tokens_eq (h : list.Tiles src) (h' : list'.Tiles src) :
    list.tokens = list'.tokens := by
  have hmem : ∀ n t, t.pos = n → (t ∈ list.tokens ↔ t ∈ list'.tokens) := by
    intro n
    induction n using Nat.strongRecOn with
    | ind n ih =>
      rintro t rfl
      exact ⟨fun ht => h.mem_of_mem h' ht fun u hu hlt => (ih _ hlt u rfl).2 hu,
        fun ht => h'.mem_of_mem h ht fun u hu hlt => (ih _ hlt u rfl).1 hu⟩
  have : Std.Irrefl fun t u : Token => t.pos < u.pos := ⟨fun t => Nat.lt_irrefl t.pos⟩
  have : Std.Antisymm fun t u : Token => t.pos < u.pos :=
    ⟨fun _ _ htu hut => absurd htu (Nat.lt_asymm hut)⟩
  exact h.increasing.eq_of_mem_iff h'.increasing fun t => hmem _ t rfl

theorem Tiles.eq_ofString (h : list.Tiles src) : list = ofString src := by
  cases list
  exact congr (congrArg _ (h.tokens_eq (tiles_ofString src))) h.stop_eq

end TokenList

/-- **Symbols that are separated by blanks are read one by one.** -/
theorem symbolsOf_spaced {symbols : List Symbol} (h : ∀ s ∈ symbols, ∃ rest, s.Whole rest) :
    symbolsOf (" ".intercalate (symbols.map Symbol.spelling)).toList = symbols := by
  induction symbols with
  | nil => rfl
  | cons s symbols ih =>
    obtain ⟨⟨rest, hs⟩, hsymbols⟩ := List.forall_mem_cons.1 h
    cases symbols with
    | nil =>
      have hend : s.Whole [] := hs.before_blank (by simp)
      have hread := hend.symbolsOf_eq
      rw [List.append_nil] at hread
      rw [List.map_singleton, String.intercalate_singleton, hread]
      rfl
    | cons s' symbols =>
      have hblank : ∀ cs, s.Whole (' ' :: cs) := fun cs =>
        hs.before_blank (by rintro c ⟨⟩; decide)
      have hread :=
        (hblank (" ".intercalate ((s' :: symbols).map Symbol.spelling)).toList).symbolsOf_eq
      rw [symbolsOf_blank (by decide), ih hsymbols] at hread
      rw [List.map_cons, List.map_cons, String.intercalate_cons_cons, String.toList_append,
        String.toList_append, List.append_assoc]
      exact hread

/-- **The tokens of a signature tile it**, and no others do; and with single blanks between them,
the same symbols are read again. -/
theorem tokens_tile_signature (src : String) :
    (TokenList.ofString src).Tiles src ∧
      (∀ list : TokenList, list.Tiles src → list = TokenList.ofString src) ∧
      (TokenList.ofString (" ".intercalate
        ((TokenList.ofString src).tokens.map fun t => t.symbol.spelling))).tokens.map Token.symbol =
      (TokenList.ofString src).tokens.map Token.symbol := by
  refine ⟨TokenList.tiles_ofString src, fun _ h => h.eq_ofString, ?_⟩
  have hwhole : ∀ s ∈ (TokenList.ofString src).tokens.map Token.symbol, ∃ rest, s.Whole rest := by
    intro s hs
    obtain ⟨t, ht, rfl⟩ := List.mem_map.1 hs
    obtain ⟨_, after, -, -, hafter⟩ := (TokenList.tiles_ofString src).spelled t ht
    exact ⟨after, hafter⟩
  have hread := symbolsOf_spaced hwhole
  rw [List.map_map] at hread
  exact hread

end StackEffect
