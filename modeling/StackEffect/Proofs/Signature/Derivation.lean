import StackEffect.Proofs.Signature.Reader

/-!
# Proofs/Signature/Derivation — what is read is what the grammar derives

    parse src = ok f   ↔   a derivation of the symbols of src denotes f

What has been read is, at every step, what the grammar derives from the symbols up to there
(`Reader.Derived`): items, arrows, parentheses that are still open, and perhaps the name of the next
item.  Where reading fails, it does so at a token or at the end (`Reader.pos_of_run_eq_error`).
-/

namespace StackEffect

namespace Signature

/-! ## What is read is derived -/

/-- **The symbols of one half of an effect**, and of what is consumed before it. -/
def Half.Derived : Half → Stack → List Symbol → Prop
  | before, slots, symbols => ∃ xs, Item.stack xs = slots ∧ Item.listSymbols xs = symbols
  | after consumed impure, slots, symbols => ∃ cs ps, Item.stack cs = consumed ∧
      Item.stack ps = slots ∧
      Item.listSymbols cs ++ arrowSymbol impure :: Item.listSymbols ps = symbols

/-- The symbols of the halves around an effect, up to the parenthesis where it begins. -/
def OuterDerived : List (Half × Stack) → List Symbol → Prop
  | [], symbols => symbols = []
  | p :: outer, symbols => ∃ front own label, OuterDerived outer front ∧ p.1.Derived p.2 own ∧
      front ++ own ++ labelSymbols label ++ [.lparen] = symbols

theorem Half.Derived.concat {half : Half} {slots : Stack} {symbols : List Symbol}
    (h : half.Derived slots symbols) (x : Item) :
    half.Derived (x.kind :: slots) (symbols ++ x.symbols) := by
  cases half with
  | before =>
    obtain ⟨xs, rfl, rfl⟩ := h
    refine ⟨xs ++ [x], Item.stack_concat xs x, ?_⟩
    rw [Item.listSymbols_append, Item.listSymbols_singleton]
  | after consumed impure =>
    obtain ⟨cs, ps, rfl, rfl, rfl⟩ := h
    refine ⟨cs, ps ++ [x], rfl, Item.stack_concat ps x, ?_⟩
    rw [Item.listSymbols_append, Item.listSymbols_singleton, List.append_assoc, List.cons_append]

namespace Reader

/-- **The symbols that have been read.** -/
def Derived (r : Reader) (symbols : List Symbol) : Prop :=
  ∃ front own label, OuterDerived r.outer front ∧ r.half.Derived r.slots own ∧
    label.isSome = r.named.isSome ∧ front ++ own ++ labelSymbols label = symbols

variable {goal : Goal} {r r' : Reader} {t : Token} {symbol : Symbol} {symbols : List Symbol}
  {stop : Nat} {ts : List Token}

theorem derived_start : start.Derived [] := ⟨[], [], none, rfl, ⟨[], rfl, rfl⟩, rfl, rfl⟩

theorem Derived.item {half : Half} {slots : Stack} {outer : List (Half × Stack)}
    {front own : List Symbol} (houter : OuterDerived outer front) (hhalf : half.Derived slots own)
    (x : Item) : Derived ⟨half, x.kind :: slots, outer, none⟩ (front ++ own ++ x.symbols) :=
  ⟨front, own ++ x.symbols, none, houter, hhalf.concat x, rfl, by simp⟩

/-- **A token takes what has been read further.** -/
theorem Derived.step (h : r.Derived symbols) (hstep : Step r symbol r') :
    r'.Derived (symbols ++ [symbol]) := by
  obtain ⟨front, own, label, houter, hhalf, hnamed, rfl⟩ := h
  cases hstep with
  | @ident _ name _ =>
    rw [List.append_assoc]
    exact Derived.item houter hhalf (.ident label name)
  | @var _ name _ =>
    rw [List.append_assoc]
    exact Derived.item houter hhalf (.var label name)
  | enter => exact ⟨_, [], none, ⟨front, own, label, houter, hhalf, rfl⟩, ⟨[], rfl, rfl⟩, rfl,
      by simp⟩
  | turn slots outer impure =>
    obtain rfl : label = none := by simpa using hnamed
    obtain ⟨cs, rfl, rfl⟩ := hhalf
    refine ⟨front, _, none, houter, ⟨cs, [], rfl, rfl, rfl⟩, rfl, ?_⟩
    simp [Item.listSymbols]
  | leave consumed produced slots impure half outer =>
    obtain rfl : label = none := by simpa using hnamed
    obtain ⟨cs, ps, rfl, rfl, rfl⟩ := hhalf
    -- the name of the effect was read before its parenthesis, with the half around it
    obtain ⟨front, own, label, houter, hhalf, rfl⟩ := houter
    simpa [Item.symbols, Item.kind] using Derived.item houter hhalf (.effect label cs impure ps)

/-- A name takes what has been read further. -/
theorem Derived.name (h : r.Derived symbols) (hnamed : r.named = none) (name : String) (pos : Nat) :
    Derived { r with named := some pos } (symbols ++ [.ident name, .equals]) := by
  obtain ⟨front, own, label, houter, hhalf, hlabel, rfl⟩ := h
  obtain rfl : label = none := by simpa [hnamed] using hlabel
  exact ⟨front, own, some name, houter, hhalf, rfl, by simp [labelSymbols]⟩

theorem exists_of_namesItem (h : r.namesItem goal t ts.head? = true) :
    ∃ name pos rest, t.symbol = .ident name ∧ ts = ⟨pos, .equals⟩ :: rest ∧ r.named = none := by
  unfold namesItem at h
  split at h
  · next name pos hname hnext =>
    obtain ⟨rest, rfl⟩ := List.head?_eq_some_iff.1 hnext
    rw [Bool.and_eq_true, Option.isNone_iff_eq_none] at h
    exact ⟨name, pos, rest, hname, rfl, h.1⟩
  · cases h

/-- **All that is read is derived.** -/
theorem Derived.run (h : r.Derived symbols) (hrun : r.run goal stop ts = .ok r') :
    r'.Derived (symbols ++ ts.map Token.symbol) := by
  fun_induction Reader.run goal stop ts r generalizing symbols with
  | case1 r =>
    rw [List.map_nil, List.append_nil]
    exact eq_of_finish hrun ▸ h
  | case2 t r hnames =>
    -- a name has `=` behind it, and is not the last token
    obtain ⟨_, _, _, _, hnil, _⟩ := exists_of_namesItem hnames
    cases hnil
  | case3 t r next rest hnames ih =>
    obtain ⟨name, pos, _, hname, hnext, hnamed⟩ := exists_of_namesItem hnames
    cases hnext
    have hread := ih (h.name hnamed name t.pos) hrun
    rwa [List.append_assoc, ← hname] at hread
  | case4 t ts r _ r₁ hstep ih =>
    have hread := ih (h.step (step_of_step_eq_ok hstep).2) hrun
    rwa [List.append_assoc] at hread
  | case5 => cases hrun

/-- What has been read where no parenthesis is open and no item has to follow. -/
theorem Derived.half (h : r.Derived symbols) (hnamed : r.named = none) (houter : r.outer = []) :
    r.half.Derived r.slots symbols := by
  obtain ⟨front, own, label, hfront, hhalf, hlabel, rfl⟩ := h
  rw [houter] at hfront
  cases hfront
  obtain rfl : label = none := by simpa [hnamed] using hlabel
  simpa using hhalf

/-! ## Where reading ends -/

/-- Where reading ends, no parenthesis is open and no item has to follow. -/
theorem closed_of_finish (h : r.finish goal stop = .ok r') : r.named = none ∧ r.outer = [] := by
  rcases r with ⟨half, slots, outer, _ | pos⟩
  · cases outer with
    | nil => exact ⟨rfl, rfl⟩
    | cons p outer => cases goal <;> cases half <;> cases h
  · cases h

theorem before_of_finish (hgoal : goal ≠ .effect) (h : r.finish goal stop = .ok r') :
    r.half = .before := by
  obtain ⟨hnamed, houter⟩ := closed_of_finish h
  rcases r with ⟨_ | _, slots, outer, named⟩
  · rfl
  · cases hnamed
    cases houter
    cases goal with
    | effect => exact (hgoal rfl).elim
    | stack => cases h
    | kind => cases slots <;> cases h

/-- Where the reading of an effect ends, there is one. -/
theorem effect_of_finish (h : r.finish .effect stop = .ok r') :
    (∃ consumed impure, r.half = .after consumed impure) ∨
      r.half = .before ∧ ∃ c p i, r.slots = [.effect c p i] := by
  rcases r with ⟨_ | ⟨consumed, impure⟩, slots, outer, named⟩
  · obtain ⟨hnamed, houter⟩ := closed_of_finish h
    cases hnamed
    cases houter
    rcases slots with _ | ⟨k, _ | ⟨l, s⟩⟩
    · cases h
    · cases k with
      | effect c p i => exact .inr ⟨rfl, c, p, i, rfl⟩
      | _ => cases h
    · cases k <;> cases h
  · exact .inl ⟨consumed, impure, rfl⟩

/-- The items of the outermost stack. -/
def outermost : List (Half × Stack) → Stack → Stack
  | [], slots => slots
  | p :: outer, _ => outermost outer p.2

/-- The outermost stack has one item at most, and none as long as a parenthesis is open. -/
def Narrow (r : Reader) : Prop :=
  match r.outer with
  | [] => r.slots.length ≤ 1
  | p :: outer => outermost outer p.2 = []

/-- **Where a single kind is wanted, no more is read.** -/
theorem Narrow.step (h : r.Narrow) (hfull : r.full .kind = false) (hstep : Step r symbol r') :
    r'.Narrow := by
  have hempty : r.outer = [] → r.slots = [] := fun houter => by
    simpa [full, houter] using hfull
  cases hstep with
  | ident | var =>
    rcases r with ⟨half, slots, _ | _, named⟩
    · cases hempty rfl
      exact Nat.le_refl 1
    · exact h
  | enter =>
    rcases r with ⟨half, slots, _ | _, named⟩
    · exact hempty rfl
    · exact h
  | turn slots outer impure =>
    cases outer with
    | nil => exact Nat.zero_le 1
    | cons => exact h
  | leave consumed produced slots impure half outer =>
    cases outer with
    | nil =>
      cases (h : slots = [])
      exact Nat.le_refl 1
    | cons => exact h

theorem Narrow.run (h : r.Narrow) (hrun : r.run .kind stop ts = .ok r') : r'.Narrow := by
  fun_induction Reader.run .kind stop ts r with
  | case1 | case2 => exact eq_of_finish hrun ▸ h
  | case3 _ _ _ _ _ ih => exact ih h hrun
  | case4 _ _ _ _ _ hstep ih =>
    obtain ⟨hfull, hstep⟩ := step_of_step_eq_ok hstep
    exact ih (h.step hfull hstep) hrun
  | case5 => cases hrun

/-! ## Where reading fails -/

theorem pos_of_put_eq_error {k : Kind} {pos : Nat} {e : SignatureError}
    (h : r.put pos k = .error e) : e.pos = pos ∨ r.named = some e.pos := by
  unfold put at h
  split at h
  · split at h
    · cases h
    · cases h
      cases r.named with
      | none => exact .inl rfl
      | some => exact .inr rfl
  · cases h

theorem pos_of_turn_eq_error {e : SignatureError} (h : r.turn goal t = .error e) :
    e.pos = t.pos := by
  unfold turn at h
  split at h
  · cases h
    rfl
  · split at h <;> cases h
    rfl

theorem pos_of_leave_eq_error {pos : Nat} {e : SignatureError}
    (h : r.leave goal pos = .error e) : e.pos = pos := by
  unfold leave at h
  split at h
  · cases h
    rfl
  · split at h <;> cases h
    rfl

/-- **A token is refused at its own position**, or where the name begins that was given just now. -/
theorem pos_of_step_eq_error {e : SignatureError} (h : r.step goal t = .error e) :
    e.pos = t.pos ∨ r.named = some e.pos := by
  unfold Reader.step at h
  split at h
  · cases h
    exact .inl rfl
  · split at h
    · exact pos_of_put_eq_error h
    · exact pos_of_put_eq_error h
    · cases h
    · exact .inl (pos_of_leave_eq_error h)
    · exact .inl (pos_of_turn_eq_error h)
    · exact .inl (pos_of_turn_eq_error h)
    · cases h
      exact .inl rfl
    · cases h
      exact .inl rfl

theorem pos_of_finish_eq_error {e : SignatureError} (h : r.finish goal stop = .error e) :
    e.pos = stop := by
  unfold finish at h
  split at h
  · cases h
    rfl
  · extract_lets complete at h
    clear_value complete
    cases complete <;> cases h
    rfl

theorem Step.named_eq_none (h : Step r symbol r') : r'.named = none := by
  cases h <;> rfl

/-- **Reading fails at a token or at the end**, unless a name was given just now. -/
theorem pos_of_run_eq_error {e : SignatureError} (h : r.run goal stop ts = .error e) :
    e.pos = stop ∨ (∃ t ∈ ts, t.pos = e.pos) ∨ r.named = some e.pos := by
  fun_induction Reader.run goal stop ts r with
  | case1 | case2 => exact .inl (pos_of_finish_eq_error h)
  | case3 t r next rest _ ih =>
    obtain hstop | ⟨t', ht', hpos⟩ | hnamed := ih h
    · exact .inl hstop
    · exact .inr (.inl ⟨t', by simp [ht'], hpos⟩)
    · exact .inr (.inl ⟨t, by simp, Option.some.inj hnamed⟩)
  | case4 t ts r _ r₁ hstep ih =>
    obtain hstop | ⟨t', ht', hpos⟩ | hnamed := ih h
    · exact .inl hstop
    · exact .inr (.inl ⟨t', by simp [ht'], hpos⟩)
    · rw [(step_of_step_eq_ok hstep).2.named_eq_none] at hnamed
      cases hnamed
  | case5 t ts r _ e' hstep =>
    cases h
    obtain hpos | hnamed := pos_of_step_eq_error hstep
    · exact .inr (.inl ⟨t, by simp, hpos.symm⟩)
    · exact .inr (.inr hnamed)

end Reader

variable {goal : Goal} {src : String} {r : Reader}

/-- **What has been read at the end is derived.** -/
theorem derived_of_read (h : read goal src = .ok r) :
    r.half.Derived r.slots (symbolsOf src.toList) := by
  obtain ⟨hnamed, houter⟩ := Reader.closed_of_finish (Reader.finish_of_run h)
  exact (Reader.derived_start.run h).half hnamed houter

/-- One kind has been read at the end, if one is wanted. -/
theorem length_slots_of_read (h : read .kind src = .ok r) : r.slots.length = 1 := by
  have hfinish := Reader.finish_of_run h
  have hstart : Reader.start.Narrow := Nat.zero_le 1
  have hnarrow := hstart.run h
  rw [Reader.Narrow, (Reader.closed_of_finish hfinish).2] at hnarrow
  exact Nat.le_antisymm hnarrow
    (List.length_pos_iff.2 (Reader.slots_ne_nil_of_finish hfinish))

theorem pos_of_read_eq_error {e : SignatureError} (h : read goal src = .error e) :
    e.pos = (TokenList.ofString src).stop ∨
      ∃ t ∈ (TokenList.ofString src).tokens, t.pos = e.pos := by
  obtain hstop | htoken | hnamed := Reader.pos_of_run_eq_error h
  · exact .inl hstop
  · exact .inr htoken
  · cases hnamed

theorem read_of_map_eq_error {α : Type} {f : Reader → α} {e : SignatureError}
    (h : (read goal src).map f = .error e) : read goal src = .error e := by
  cases hread : read goal src with
  | error e' =>
    rw [hread] at h
    cases h
    rfl
  | ok r =>
    rw [hread] at h
    cases h

theorem Item.eq_singleton_of_length {xs : List Item} (h : (stack xs).length = 1) :
    ∃ x, xs = [x] :=
  List.length_eq_one_iff.1 ((length_stack xs).symm.trans h)

/-- An item that denotes an effect is one. -/
theorem Item.eq_of_kind_eq_effect {x : Item} {c p : Stack} {i : Bool} (h : x.kind = .effect c p i) :
    ∃ label cs ps, x = .effect label cs i ps ∧ stack cs = c ∧ stack ps = p := by
  cases x with
  | var label name =>
    rw [kind, varKind_eq] at h
    cases hsort : sortOf name <;> rw [hsort] at h <;> cases h
  | ident label name =>
    rw [kind, identKind] at h
    split at h <;> cases h
  | effect label cs i' ps =>
    cases h
    exact ⟨label, cs, ps, rfl, rfl, rfl⟩

end Signature

open Signature

/-- **An effect is read exactly if a derivation of the symbols denotes it.** -/
theorem Effect.parse_eq_ok_iff {src : String} {f : Effect} : Effect.parse src = .ok f ↔
    ∃ d : Form, d.symbols = symbolsOf src.toList ∧ d.effect = f ∧ f.kind.bottomed = true := by
  constructor
  · intro h
    have hbottomed := (written_of_parse h).1
    obtain ⟨r, hread, rfl⟩ := exists_read_of_map h
    have hderived := derived_of_read hread
    rcases r with ⟨half, slots, outer, named⟩
    obtain ⟨consumed, impure, hhalf⟩ | ⟨hhalf, c, p, i, hslots⟩ :=
      Reader.effect_of_finish (Reader.finish_of_run hread)
    · cases hhalf
      obtain ⟨cs, ps, rfl, rfl, hsymbols⟩ := hderived
      exact ⟨.bare cs impure ps, hsymbols, rfl, hbottomed⟩
    · cases hhalf
      cases hslots
      obtain ⟨xs, hstack, hsymbols⟩ := hderived
      obtain ⟨x, rfl⟩ := Item.eq_singleton_of_length (congrArg List.length hstack)
      obtain ⟨label, cs, ps, rfl, rfl, rfl⟩ :=
        Item.eq_of_kind_eq_effect (List.head_eq_of_cons_eq hstack)
      rw [Item.listSymbols_singleton] at hsymbols
      exact ⟨.enclosed label cs i ps, hsymbols, rfl, hbottomed⟩
  · rintro ⟨d, hsymbols, rfl, hbottomed⟩
    exact parse_of_form hsymbols hbottomed

/-- **A stack is read exactly if a derivation of the symbols denotes it.** -/
theorem Stack.parse_eq_ok_iff {src : String} {s : Stack} : Stack.parse src = .ok s ↔
    ∃ xs, Item.listSymbols xs = symbolsOf src.toList ∧ Item.stack xs = s ∧
      (Kind.stack s).bottomed = true := by
  constructor
  · intro h
    have hbottomed := (written_of_parse h).1
    obtain ⟨r, hread, rfl⟩ := exists_read_of_map h
    have hderived := derived_of_read hread
    rw [Reader.before_of_finish (by decide) (Reader.finish_of_run hread)] at hderived
    obtain ⟨xs, hstack, hsymbols⟩ := hderived
    exact ⟨xs, hsymbols, hstack, hbottomed⟩
  · rintro ⟨xs, hsymbols, rfl, hbottomed⟩
    exact parse_of_items hsymbols hbottomed

/-- **A kind is read exactly if a derivation of the symbols denotes it.** -/
theorem Kind.parse_eq_ok_iff {src : String} {k : Kind} : Kind.parse src = .ok k ↔
    ∃ x : Item, x.symbols = symbolsOf src.toList ∧ x.kind = k ∧ k.bottomed = true := by
  constructor
  · intro h
    have hbottomed := (written_of_parse h).1.1
    obtain ⟨r, hread, rfl⟩ := exists_read_of_map h
    have hderived := derived_of_read hread
    have hfinish := Reader.finish_of_run hread
    rw [Reader.before_of_finish (by decide) hfinish] at hderived
    obtain ⟨xs, hstack, hsymbols⟩ := hderived
    obtain ⟨x, rfl⟩ := Item.eq_singleton_of_length (hstack ▸ length_slots_of_read hread)
    rw [Item.listSymbols_singleton] at hsymbols
    refine ⟨x, hsymbols, ?_, hbottomed⟩
    rw [← hstack]
    rfl
  · rintro ⟨x, hsymbols, rfl, hbottomed⟩
    exact parse_of_item hsymbols hbottomed

/-- **Signatures are read as the grammar derives them**, with stack variables at the bottom only.
There is one derivation at most, and what has none is refused at one of its tokens or at its end. -/
theorem signatures_exactly_derived (src : String) :
    (∀ f, Effect.parse src = .ok f ↔
      ∃ d : Form, d.symbols = (TokenList.ofString src).tokens.map Token.symbol ∧ d.effect = f ∧
        f.kind.bottomed = true) ∧
    (∀ s, Stack.parse src = .ok s ↔
      ∃ xs, Item.listSymbols xs = (TokenList.ofString src).tokens.map Token.symbol ∧
        Item.stack xs = s ∧ (Kind.stack s).bottomed = true) ∧
    (∀ k, Kind.parse src = .ok k ↔
      ∃ x : Item, x.symbols = (TokenList.ofString src).tokens.map Token.symbol ∧ x.kind = k ∧
        k.bottomed = true) ∧
    (Function.Injective Form.symbols ∧ Function.Injective Item.listSymbols ∧
      Function.Injective Item.symbols) ∧
    ∀ e, (Effect.parse src = .error e ∨ Stack.parse src = .error e ∨ Kind.parse src = .error e) →
      e.pos = (TokenList.ofString src).stop ∨
        ∃ t ∈ (TokenList.ofString src).tokens, t.pos = e.pos := by
  refine ⟨fun f => Effect.parse_eq_ok_iff, fun s => Stack.parse_eq_ok_iff,
    fun k => Kind.parse_eq_ok_iff, ⟨Form.symbols_injective, Item.listSymbols_injective,
    Item.symbols_injective⟩, ?_⟩
  rintro e (h | h | h) <;> exact pos_of_read_eq_error (read_of_map_eq_error h)

/-- Items may have names, in the outermost stack and inside of effects.  A stack variable above
another slot is refused where the name begins that it was given. -/
theorem signatures_exactly_derived_named :
    let d : Form := .bare [.var none "'A", .effect (some "f") [.var none "'A"] true
      [.ident (some "n") "self"]] false [.var none "'B"]
    let src := "'A f=('A ~> n = self) -> 'B"
    let misplaced := "int -> 'a n = 'A"
    d.symbols = (TokenList.ofString src).tokens.map Token.symbol ∧
      Effect.parse src = .ok d.effect ∧
      Effect.parse misplaced = .error ⟨10, .misplaced "'A"⟩ ∧
      (10 = (TokenList.ofString misplaced).stop ∨
        ∃ t ∈ (TokenList.ofString misplaced).tokens, t.pos = 10) := by
  intro d src misplaced
  have hsymbols : d.symbols = (TokenList.ofString src).tokens.map Token.symbol := by
    decide +kernel
  have herror : Effect.parse misplaced = .error ⟨10, .misplaced "'A"⟩ := by decide +kernel
  obtain ⟨heffect, -⟩ := signatures_exactly_derived src
  obtain ⟨-, -, -, -, hpos⟩ := signatures_exactly_derived misplaced
  exact ⟨hsymbols, (heffect _).2 ⟨d, hsymbols, rfl, by decide +kernel⟩, herror,
    hpos _ (.inl herror)⟩

end StackEffect
