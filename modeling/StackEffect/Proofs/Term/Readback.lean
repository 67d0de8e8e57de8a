import StackEffect.Term.Reader

/-!
# Proofs/Term/Readback — bodies are read back from their text

    parse (text ts) = ok ts   ↔   all terms of ts are written

A text is cut where a word ends or a quoted literal is closed.  The text of a written term
(`Term.Written`) is cut behind it and nowhere else, if a blank or a bracket follows, or nothing
(`Term.Spells`).  All that is read is written, so that it is read again from its text
(`bodies_read_back`).
-/

namespace StackEffect

/-- **The inside of a quoted literal is found again**, whatever is behind it. -/
theorem Text.quotedInside?_append {mark : Char} {cs inside : List Char} (hmark : mark ≠ '\\')
    (h : quotedInside? mark cs = some inside) (rest : List Char) :
    quotedInside? mark (inside ++ mark :: rest) = some inside := by
  fun_induction quotedInside? mark cs generalizing inside with
  | case1 => cases h
  | case2 c cs ih =>
    obtain ⟨inside, hinside, rfl⟩ := Option.map_eq_some_iff.1 h
    simp [quotedInside?, ih hinside]
  | case3 c cs hescape hc =>
    cases h
    simp [quotedInside?, hmark]
  | case4 c cs hescape hc ih =>
    obtain ⟨inside, hinside, rfl⟩ := Option.map_eq_some_iff.1 h
    -- a backslash would be the last character, and nothing be closed
    have hc' : c ≠ '\\' := by
      rintro rfl
      cases cs with
      | nil => cases hinside
      | cons d cs => exact hescape d cs rfl rfl
    simp [quotedInside?, hc', hc, ih hinside]

namespace Term

/-- The marks around quoted literals. -/
def isMark (c : Char) : Bool := c == textMark || c == charMark

theorem endsWord_of_isMark {c : Char} (h : isMark c = true) : endsWord c = false ∧ c ≠ '\\' := by
  rw [isMark, Bool.or_eq_true, beq_iff_eq, beq_iff_eq] at h
  obtain rfl | rfl := h <;> decide

/-- The characters of a word: no blank and no bracket, and no mark at the beginning. -/
def isWord : List Char → Bool
  | [] => false
  | c :: cs => !isMark c && (c :: cs).all (!endsWord ·)

/-- The quoted literal with an inside. -/
def quoted (mark : Char) (inside : List Char) : Term :=
  typed (if mark == textMark then "string" else "char") (mark :: (inside ++ [mark]))

/-- **The terms that bodies write.**  A word is what its characters make of it.  A quoted literal has
no mark inside that is not escaped. -/
inductive Written : Term → Prop
  | word {cs : List Char} (h : isWord cs = true) : Written (ofWord cs)
  | quoted {mark : Char} {inside : List Char} (hmark : isMark mark = true)
      (hinside : Text.quotedInside? mark (inside ++ [mark]) = some inside)
      (hok : insideOk mark inside = true) : Written (quoted mark inside)
  | quotation {ts : Body} (h : ∀ t ∈ ts, Written t) : Written (quotation ts)

/-! ## What is written is read -/

/-- What may be behind a word. -/
def Ended (rest : List Char) : Prop := ∀ c ∈ rest.head?, endsWord c = true

theorem ended_nil : Ended [] := by simp [Ended]

theorem ended_cons {c : Char} (h : endsWord c = true) (rest : List Char) : Ended (c :: rest) := by
  simpa [Ended] using h

/-- **Characters are read as terms**, whatever has been read before them. -/
def Spells (cs : List Char) (ts : Body) : Prop :=
  ∀ (pos : Nat) (outer : List Body) (body : Body) (rest : List Char), Ended rest →
    ∃ pos', readFrom pos 0 (cs ++ rest) outer body = readFrom pos' 0 rest outer (ts.reverse ++ body)

variable {cs ds : List Char} {t : Term} {ts us : Body}

theorem spells_nil : Spells [] [] := fun pos _ _ _ _ => ⟨pos, rfl⟩

theorem readFrom_length_append (pos : Nat) (cs rest : List Char) (outer : List Body) (body : Body) :
    readFrom pos cs.length (cs ++ rest) outer body =
      readFrom (pos + cs.length) 0 rest outer body := by
  induction cs generalizing pos with
  | nil => rfl
  | cons c cs ih =>
    rw [List.length_cons, List.cons_append, readFrom, ih]
    congr 1
    omega

theorem readFrom_word {c : Char} (hc : endsWord c = false) (hmark : isMark c = false) (pos : Nat)
    (cs : List Char) (outer : List Body) (body : Body) :
    readFrom pos 0 (c :: cs) outer body =
      readFrom (pos + 1) (cs.takeWhile (!endsWord ·)).length cs outer
        (ofWord (c :: cs.takeWhile (!endsWord ·)) :: body) := by
  simp only [endsWord, isMark, Bool.or_eq_false_iff] at hc hmark
  rw [readFrom.eq_def]
  simp [hc, hmark]

theorem readFrom_quoted {c : Char} {n : Nat} (hmark : isMark c = true)
    (h : ofQuoted c cs = .ok (t, n)) (pos : Nat) (outer : List Body) (body : Body) :
    readFrom pos 0 (c :: cs) outer body = readFrom (pos + 1) n cs outer (t :: body) := by
  have hc := (endsWord_of_isMark hmark).1
  simp only [endsWord, isMark, Bool.or_eq_false_iff] at hc hmark
  rw [readFrom.eq_def]
  simp [hc, hmark, h]

/-- Two bodies with a blank between them. -/
theorem Spells.append (hcs : Spells cs ts) (hds : Spells ds us) :
    Spells (cs ++ ' ' :: ds) (ts ++ us) := by
  intro pos outer body rest hrest
  obtain ⟨pos₁, h₁⟩ := hcs pos outer body (' ' :: (ds ++ rest)) (ended_cons (by decide) _)
  obtain ⟨pos₂, h₂⟩ := hds (pos₁ + 1) outer (ts.reverse ++ body) rest hrest
  refine ⟨pos₂, ?_⟩
  rw [List.append_assoc, List.cons_append, h₁, List.reverse_append, List.append_assoc, ← h₂]
  rfl

theorem spells_word (h : isWord cs = true) : Spells cs [ofWord cs] := by
  intro pos outer body rest hrest
  cases cs with
  | nil => cases h
  | cons c cs =>
    rw [isWord, List.all_cons, Bool.and_eq_true, Bool.and_eq_true] at h
    obtain ⟨hmark, hc, hcs⟩ := h
    have htake : (cs ++ rest).takeWhile (!endsWord ·) = cs := by
      rw [List.takeWhile_append_of_pos (List.all_eq_true.1 hcs)]
      cases rest with
      | nil => simp
      | cons d rest => simp [hrest d rfl]
    refine ⟨pos + 1 + cs.length, ?_⟩
    rw [List.cons_append, readFrom_word (by simpa using hc) (by simpa using hmark), htake,
      readFrom_length_append]
    rfl

theorem spells_quoted {mark : Char} {inside : List Char} (hmark : isMark mark = true)
    (hinside : Text.quotedInside? mark (inside ++ [mark]) = some inside)
    (hok : insideOk mark inside = true) :
    Spells (mark :: (inside ++ [mark])) [quoted mark inside] := by
  intro pos outer body rest hrest
  have hquoted : ofQuoted mark (inside ++ [mark] ++ rest) =
      .ok (quoted mark inside, (inside ++ [mark]).length) := by
    rw [List.append_assoc, List.singleton_append, ofQuoted,
      Text.quotedInside?_append (endsWord_of_isMark hmark).2 hinside rest]
    simp [hok, quoted]
  refine ⟨pos + 1 + (inside ++ [mark]).length, ?_⟩
  rw [List.cons_append, readFrom_quoted hmark hquoted, readFrom_length_append]
  rfl

theorem Spells.quotation (h : Spells cs ts) : Spells ('[' :: (cs ++ [']'])) [.quotation ts] := by
  intro pos outer body rest hrest
  obtain ⟨pos', hread⟩ := h (pos + 1) (body :: outer) [] (']' :: rest) (ended_cons (by decide) _)
  refine ⟨pos' + 1, ?_⟩
  calc
    readFrom pos 0 ('[' :: (cs ++ [']']) ++ rest) outer body
      = readFrom pos 0 ('[' :: (cs ++ ']' :: rest)) outer body := by simp
    _ = readFrom (pos + 1) 0 (cs ++ ']' :: rest) (body :: outer) [] := rfl
    _ = readFrom pos' 0 (']' :: rest) (body :: outer) (ts.reverse ++ []) := hread
    _ = readFrom (pos' + 1) 0 rest outer (.quotation (ts.reverse ++ []).reverse :: body) := rfl
    _ = readFrom (pos' + 1) 0 rest outer ([.quotation ts].reverse ++ body) := by simp

theorem toList_text_ofWord (cs : List Char) : (ofWord cs).text.toList = cs := by
  unfold ofWord
  split
  · exact String.toList_ofList
  · split
    · exact String.toList_ofList
    · split
      · exact String.toList_ofList
      · exact String.toList_ofList

/-- **The text of a body is read as the body**, if those of its terms are read as the terms. -/
theorem spells_text (h : ∀ t ∈ ts, Spells t.text.toList [t]) : Spells (Body.text ts).toList ts := by
  induction ts with
  | nil => exact spells_nil
  | cons t ts ih =>
    rw [List.forall_mem_cons] at h
    cases ts with
    | nil =>
      have htext : Body.text [t] = t.text := String.intercalate_singleton
      rw [htext]
      exact h.1
    | cons u ts =>
      have htext : Body.text (t :: u :: ts) = t.text ++ " " ++ Body.text (u :: ts) :=
        String.intercalate_cons_cons
      rw [htext, String.toList_append, String.toList_append, List.append_assoc]
      exact h.1.append (ih h.2)

/-- **What is written is read.** -/
theorem Written.spells (h : t.Written) : Spells t.text.toList [t] := by
  induction h with
  | word h =>
    rw [toList_text_ofWord]
    exact spells_word h
  | quoted hmark hinside hok =>
    rw [Term.quoted, typed, text, String.toList_ofList]
    exact spells_quoted hmark hinside hok
  | @quotation ts h ih =>
    have htext : (Term.quotation ts).text.toList = '[' :: ((Body.text ts).toList ++ [']']) := by
      simp [text, Body.text]
    rw [htext]
    exact (spells_text ih).quotation

/-! ## What is read is written -/

theorem written_ofQuoted {mark : Char} {n : Nat} (hmark : isMark mark = true)
    (h : ofQuoted mark cs = .ok (t, n)) : t.Written := by
  unfold ofQuoted at h
  split at h
  · cases h
  · next inside hinside =>
    dsimp only at h
    split at h
    · next hok =>
      cases h
      have hfound := Text.quotedInside?_append (endsWord_of_isMark hmark).2 hinside []
      exact .quoted hmark hfound hok
    · cases h

/-- **All that is read is written.** -/
theorem written_of_readFrom {pos skip : Nat} {outer : List Body} {body : Body}
    (houter : ∀ ts ∈ outer, ∀ t ∈ ts, t.Written) (hbody : ∀ t ∈ body, t.Written)
    (h : readFrom pos skip cs outer body = .ok ts) : ∀ t ∈ ts, t.Written := by
  fun_induction readFrom pos skip cs outer body with
  | case1 =>
    cases h
    exact fun t ht => hbody t (List.mem_reverse.1 ht)
  | case2 => cases h
  | case3 _ _ _ _ _ _ ih => exact ih houter hbody h
  | case4 _ _ _ _ _ _ ih => exact ih houter hbody h
  | case5 _ _ _ _ _ _ _ ih => exact ih (List.forall_mem_cons.2 ⟨hbody, houter⟩) (by simp) h
  | case6 => cases h
  | case7 _ _ _ _ _ _ _ _ _ ih =>
    rw [List.forall_mem_cons] at houter
    have hquoted := Written.quotation fun t ht => hbody t (List.mem_reverse.1 ht)
    exact ih houter.2 (List.forall_mem_cons.2 ⟨hquoted, houter.1⟩) h
  | case8 => cases h
  | case9 _ _ _ _ _ _ _ _ hmark _ _ hread ih =>
    exact ih houter (List.forall_mem_cons.2 ⟨written_ofQuoted hmark hread, hbody⟩) h
  | case10 pos c cs outer body hblank hopen hclose hmark _ ih =>
    have hword : isWord (c :: cs.takeWhile (!endsWord ·)) = true := by
      simp [isWord, isMark, endsWord, hblank, hopen, hclose, hmark]
    exact ih houter (List.forall_mem_cons.2 ⟨.word hword, hbody⟩) h

end Term

/-- **A body that is read is written.** -/
theorem Body.written_of_parse {src : String} {ts : Body} (h : Body.parse src = .ok ts) :
    ∀ t ∈ ts, t.Written :=
  Term.written_of_readFrom (by simp) (by simp) h

/-- **A body is read back from its text if and only if its terms are written.** -/
theorem Body.parse_text_iff {ts : Body} :
    Body.parse (Body.text ts) = .ok ts ↔ ∀ t ∈ ts, t.Written := by
  refine ⟨written_of_parse, fun h => ?_⟩
  obtain ⟨pos, hread⟩ := Term.spells_text (fun t ht => (h t ht).spells) 0 [] [] [] Term.ended_nil
  rw [List.append_nil] at hread
  rw [Body.parse, hread]
  simp [Term.readFrom]

/-- **What is read is read again from its text**, however it was spaced.  What can be read at all
from its text are the bodies of written terms. -/
theorem bodies_read_back :
    (∀ src ts, Body.parse src = .ok ts → Body.parse (Body.text ts) = .ok ts) ∧
    ∀ ts : Body, Body.parse (Body.text ts) = .ok ts ↔ ∀ t ∈ ts, t.Written :=
  ⟨fun _ _ h => Body.parse_text_iff.2 (Body.written_of_parse h), fun _ => Body.parse_text_iff⟩

/-- Brackets and quoted literals need no blanks around them, and have some in the text.  A mark
within a word is a part of it. -/
theorem bodies_read_back_adjacent :
    let ts : Body := [.word "x", .quotation [.literal "\"a ]\\\"\"" (.simple "string"),
      .quotation [], .literal "20" (.simple "int")], .literal "'['" (.simple "char"),
      .word "y'z"]
    Body.parse " x[\"a ]\\\"\"[ ]20]'['y'z" = .ok ts ∧
      Body.text ts = "x [\"a ]\\\"\" [] 20] '[' y'z" ∧
      Body.parse (Body.text ts) = .ok ts := by
  intro ts
  have hread : Body.parse " x[\"a ]\\\"\"[ ]20]'['y'z" = .ok ts := by rfl
  exact ⟨hread, by decide +kernel, bodies_read_back.1 _ ts hread⟩

end StackEffect
