import Mathlib.Control.Monad.Basic
import Mathlib.Data.List.Induction
import StackEffect.Proofs.Signature.Grammar
import StackEffect.Proofs.Signature.Token

/-!
# Proofs/Signature/Reader — what is read is written, and what is written is read

    parse (text f) = ok f   ↔   f is written

What has been read is made of written kinds at every step (`Reader.Sound`).  The symbols of an item,
read in turn, leave the kind that it denotes on top of what has been read
(`Item.isRead_of_bottomed`), and the text of a written kind derives that kind (`Kind.exists_item`).
So whatever is read, be it an effect, a stack or a single kind, is read again from its text
(`signatures_read_back`).
-/

namespace StackEffect

namespace Signature

/-! ## What a token does -/

namespace Reader

variable {goal : Goal} {r r' : Reader} {t : Token} {k : Kind} {pos : Nat}

/-- **What a token does** where it is not refused. -/
inductive Step : Reader → Symbol → Reader → Prop
  /-- An identifier is an item. -/
  | ident {r : Reader} {name : String} (hfits : Kind.fitsOn (identKind name) r.slots = true) :
      Step r (.ident name) { r with slots := identKind name :: r.slots, named := none }
  /-- A variable is an item, if it fits. -/
  | var {r : Reader} {name : String} (hfits : Kind.fitsOn (varKind name) r.slots = true) :
      Step r (.var name) { r with slots := varKind name :: r.slots, named := none }
  /-- A parenthesis begins an effect. -/
  | enter (r : Reader) : Step r .lparen r.enter
  /-- An arrow ends what is consumed. -/
  | turn (slots : Stack) (outer : List (Half × Stack)) (impure : Bool) :
      Step ⟨.before, slots, outer, none⟩ (arrowSymbol impure) ⟨.after slots impure, [], outer, none⟩
  /-- A parenthesis ends what is produced, and makes an item of the effect. -/
  | leave (consumed produced slots : Stack) (impure : Bool) (half : Half)
      (outer : List (Half × Stack)) :
      Step ⟨.after consumed impure, produced, (half, slots) :: outer, none⟩ .rparen
        ⟨half, .effect consumed produced impure :: slots, outer, none⟩

theorem eq_of_put (hk : k.isStack = false) (h : r.put pos k = .ok r') :
    Kind.fitsOn k r.slots = true ∧ r' = { r with slots := k :: r.slots, named := none } := by
  unfold Reader.put at h
  split at h
  · split at h
    · next hempty =>
      cases h
      exact ⟨hempty, by rw [List.isEmpty_iff.1 hempty]⟩
    · cases h
  · next hvar =>
    cases h
    refine ⟨?_, rfl⟩
    cases k with
    | stackVar a => exact (hvar a rfl).elim
    | stack s => simp [Kind.isStack] at hk
    | _ => rfl

theorem named_of_itemDue_eq_false (h : ¬ r.itemDue goal = true) : r.named = none := by
  rw [itemDue, Bool.or_eq_true, not_or] at h
  simpa using h.1

theorem step_of_turn (ht : t.symbol = .arrow ∨ t.symbol = .sideArrow)
    (h : r.turn goal t = .ok r') : Step r t.symbol r' := by
  unfold Reader.turn at h
  split at h
  · cases h
  · next hdue =>
    split at h
    · next hwanted =>
      cases h
      rcases r with ⟨half, slots, outer, named⟩
      cases named_of_itemDue_eq_false hdue
      cases half with
      | before =>
        obtain ht | ht := ht
        · rw [ht]
          exact .turn slots outer false
        · rw [ht]
          exact .turn slots outer true
      | after => cases outer <;> simp [wantedAtEnd] at hwanted
    · cases h

theorem step_of_leave (h : r.leave goal pos = .ok r') : Step r .rparen r' := by
  unfold Reader.leave at h
  split at h
  · cases h
  · next hdue =>
    rcases r with ⟨half, produced, outer, named⟩
    cases named_of_itemDue_eq_false hdue
    split at h
    · next consumed impure half' slots outer' hhalf houter =>
      cases hhalf
      cases houter
      cases h
      exact .leave ..
    · cases h

/-- **Nothing else is done by a token**, and nothing behind the single kind that is wanted. -/
theorem step_of_step_eq_ok (h : r.step goal t = .ok r') :
    r.full goal = false ∧ Step r t.symbol r' := by
  unfold Reader.step at h
  split at h
  · cases h
  · next hfull =>
    refine ⟨Bool.eq_false_iff.2 hfull, ?_⟩
    split at h
    · next name hname =>
      obtain ⟨hfits, rfl⟩ := eq_of_put (Item.isStack_kind (.ident none name)) h
      exact hname ▸ .ident hfits
    · next name hname =>
      obtain ⟨hfits, rfl⟩ := eq_of_put (Item.isStack_kind (.var none name)) h
      exact hname ▸ .var hfits
    · next ht =>
      cases h
      exact ht ▸ .enter r
    · next ht => exact ht ▸ step_of_leave h
    · next ht => exact step_of_turn (.inl ht) h
    · next ht => exact step_of_turn (.inr ht) h
    · cases h
    · cases h

end Reader

/-! ## What is read is written -/

/-- What an effect consumes, if it has been read, is written. -/
def Half.Written : Half → Prop
  | before => True
  | after consumed _ => (Kind.stack consumed).Written

namespace Reader

/-- **What has been read is written.** -/
structure Sound (r : Reader) : Prop where
  half : r.half.Written
  slots : (Kind.stack r.slots).Written
  outer : ∀ p ∈ r.outer, p.1.Written ∧ (Kind.stack p.2).Written

variable {goal : Goal} {r r' : Reader} {t : Token} {stop : Nat}

theorem sound_start : start.Sound := ⟨trivial, Kind.written_nil, by simp [start]⟩

theorem written_identKind {name : String} (h : Text.isIdentifier name.toList = true) :
    (identKind name).Written := by
  unfold identKind
  split
  · exact ⟨rfl, rfl, rfl⟩
  · next hself => exact ⟨rfl, rfl, by simp [Kind.all, Kind.writable, isTypeName, h, hself]⟩

theorem written_varKind {name : String} (h : isVarName name = true) : (varKind name).Written := by
  rw [varKind_eq]
  exact Kind.written_var h rfl

/-- **A token keeps what has been read written.** -/
theorem Sound.step (h : r.Sound) (hlegible : t.symbol.legible = true)
    (hs : r.step goal t = .ok r') : r'.Sound := by
  have hstep := (step_of_step_eq_ok hs).2
  generalize t.symbol = symbol at hlegible hstep
  obtain ⟨hhalf, hslots, houter⟩ := h
  cases hstep with
  | ident hfits =>
    exact ⟨hhalf, Kind.written_cons_iff.2 ⟨hfits, written_identKind hlegible, hslots⟩, houter⟩
  | var hfits =>
    exact ⟨hhalf, Kind.written_cons_iff.2 ⟨hfits, written_varKind hlegible, hslots⟩, houter⟩
  | enter =>
    exact ⟨trivial, Kind.written_nil, List.forall_mem_cons.2 ⟨⟨hhalf, hslots⟩, houter⟩⟩
  | turn => exact ⟨hslots, Kind.written_nil, houter⟩
  | leave =>
    rw [List.forall_mem_cons] at houter
    exact ⟨houter.1.1, Kind.written_cons_iff.2
      ⟨rfl, Kind.written_effect_iff.2 ⟨hhalf, hslots⟩, houter.1.2⟩, houter.2⟩

theorem eq_of_finish (h : r.finish goal stop = .ok r') : r' = r := by
  unfold Reader.finish at h
  split at h
  · cases h
  · extract_lets complete at h
    clear_value complete
    cases complete <;> cases h
    rfl

/-- **All that is read is written.** -/
theorem Sound.run {ts : List Token} (h : r.Sound) (hlegible : ∀ t ∈ ts, t.symbol.legible = true)
    (hrun : r.run goal stop ts = .ok r') : r'.Sound := by
  fun_induction Reader.run goal stop ts r with
  | case1 r => exact eq_of_finish hrun ▸ h
  | case2 t r => exact eq_of_finish hrun ▸ h
  | case3 t r next rest _ ih =>
    simp only [List.forall_mem_cons] at hlegible
    exact ih ⟨h.half, h.slots, h.outer⟩ hlegible.2.2 hrun
  | case4 t ts r _ r₁ hstep ih =>
    rw [List.forall_mem_cons] at hlegible
    exact ih (h.step hlegible.1 hstep) hlegible.2 hrun
  | case5 => cases hrun

/-- What is answered has been read to its end. -/
theorem finish_of_run {ts : List Token} (hrun : r.run goal stop ts = .ok r') :
    r'.finish goal stop = .ok r' := by
  have hend : ∀ {r : Reader}, r.finish goal stop = .ok r' → r'.finish goal stop = .ok r' := by
    intro r h
    obtain rfl := eq_of_finish h
    exact h
  fun_induction Reader.run goal stop ts r with
  | case1 => exact hend hrun
  | case2 => exact hend hrun
  | case3 _ _ _ _ _ ih => exact ih hrun
  | case4 _ _ _ _ _ _ ih => exact ih hrun
  | case5 => cases hrun

/-- Where a kind is wanted, there is one at the end. -/
theorem slots_ne_nil_of_finish (h : r.finish .kind stop = .ok r') : r'.slots ≠ [] := by
  obtain rfl := eq_of_finish h
  rintro hnil
  rcases r' with ⟨_ | _, _, _ | _, _ | _⟩ <;> cases hnil <;> cases h

/-- The effect that was read is written. -/
theorem Sound.effect (h : r.Sound) : r.effect.kind.Written := by
  unfold Reader.effect
  split
  · next _ consumed _ hhalf =>
    have hc : (Kind.stack consumed).Written := by simpa [hhalf, Half.Written] using h.half
    exact Kind.written_effect_iff.2 ⟨hc, h.slots⟩
  · next c p i hhalf hslots =>
    have hs := h.slots
    rw [hslots] at hs
    exact (Kind.written_cons_iff.1 hs).2.1
  · exact Kind.written_effect_iff.2 ⟨h.slots, Kind.written_nil⟩

/-- The topmost item that was read is written. -/
theorem Sound.head (h : r.Sound) (hne : r.slots ≠ []) :
    (r.slots.headD .absent).Written ∧ (r.slots.headD .absent).isStack = false := by
  obtain ⟨k, s, hslots⟩ := List.exists_cons_of_ne_nil hne
  have hs := h.slots
  rw [hslots] at hs ⊢
  exact hs.slot List.mem_cons_self

end Reader

end Signature

/-- **What has been read at the end is written.** -/
theorem Signature.sound_of_read {goal : Signature.Goal} {src : String} {r : Signature.Reader}
    (h : Signature.read goal src = .ok r) : r.Sound :=
  Signature.Reader.sound_start.run (fun _ => legible_of_mem_tokensFrom) h

theorem Signature.exists_read_of_map {α : Type} {goal : Signature.Goal} {src : String}
    {f : Signature.Reader → α} {a : α} (h : (Signature.read goal src).map f = .ok a) :
    ∃ r, Signature.read goal src = .ok r ∧ f r = a := by
  cases hread : Signature.read goal src with
  | error e =>
    rw [hread] at h
    cases h
  | ok r =>
    rw [hread] at h
    cases h
    exact ⟨r, rfl, rfl⟩

/-- **What is read as an effect is written.** -/
theorem Effect.written_of_parse {src : String} {f : Effect} (h : Effect.parse src = .ok f) :
    f.kind.Written := by
  obtain ⟨r, hread, rfl⟩ := Signature.exists_read_of_map h
  exact (Signature.sound_of_read hread).effect

/-- **What is read as a stack is written.** -/
theorem Stack.written_of_parse {src : String} {s : Stack} (h : Stack.parse src = .ok s) :
    (Kind.stack s).Written := by
  obtain ⟨r, hread, rfl⟩ := Signature.exists_read_of_map h
  exact (Signature.sound_of_read hread).slots

/-- **What is read as a kind is written**, and is no stack. -/
theorem Kind.written_of_parse {src : String} {k : Kind} (h : Kind.parse src = .ok k) :
    k.Written ∧ k.isStack = false := by
  obtain ⟨r, hread, rfl⟩ := Signature.exists_read_of_map h
  exact (Signature.sound_of_read hread).head
    (Signature.Reader.slots_ne_nil_of_finish (Signature.Reader.finish_of_run hread))

/-! ## What is derived is read -/

namespace Signature

namespace Reader

variable {goal : Goal} {r r' r'' : Reader} {symbols symbols' : List Symbol}

/-- **Symbols lead from what was read before them to what is read with them**, whatever is behind
them. -/
def Leads (goal : Goal) (r : Reader) (symbols : List Symbol) (r' : Reader) : Prop :=
  ∀ (stop : Nat) (ts rest : List Token), ts.map Token.symbol = symbols →
    Unnamed (rest.map Token.symbol) → run goal stop (ts ++ rest) r = run goal stop rest r'

theorem leads_nil : Leads goal r [] r := by
  intro stop ts rest hts _
  rw [List.map_eq_nil_iff.1 hts, List.nil_append]

theorem Leads.append (h : Leads goal r symbols r') (h' : Leads goal r' symbols' r'')
    (hunnamed : Unnamed symbols') : Leads goal r (symbols ++ symbols') r'' := by
  intro stop ts rest hts hrest
  obtain ⟨ts₁, ts₂, rfl, h₁, h₂⟩ := List.map_eq_append_iff.1 hts
  have hbehind : Unnamed ((ts₂ ++ rest).map Token.symbol) := by
    rw [List.map_append, h₂]
    exact hunnamed.append hrest
  rw [List.append_assoc, h stop ts₁ _ h₁ hbehind, h' stop ts₂ rest h₂ hrest]

theorem namesItem_of_unnamed {t : Token} {rest : List Token}
    (h : Unnamed (rest.map Token.symbol)) : r.namesItem goal t rest.head? = false := by
  unfold namesItem
  split
  · next pos _ hnext =>
    rw [Unnamed, List.head?_map, hnext] at h
    exact (h rfl).elim
  · rfl

theorem leads_singleton {symbol : Symbol} (h : ∀ pos, r.step goal ⟨pos, symbol⟩ = .ok r') :
    Leads goal r [symbol] r' := by
  intro stop ts rest hts hrest
  obtain ⟨t, rfl, ht⟩ := List.map_eq_singleton_iff.1 hts
  have hstep := h t.pos
  rw [← ht] at hstep
  rw [List.singleton_append, run.eq_def]
  simp only [namesItem_of_unnamed hrest, Bool.false_eq_true, if_false, hstep]

/-- **A name that an item is given** does not change what is read. -/
theorem leads_label {label : Option String} (hnamed : r.named = none) (hfull : r.full goal = false)
    (h : ∀ named, Leads goal { r with named := named } symbols r') :
    Leads goal r (labelSymbols label ++ symbols) r' := by
  rcases r with ⟨half, slots, outer, named⟩
  cases hnamed
  cases label with
  | none => exact h none
  | some name =>
    intro stop ts rest hts hrest
    obtain ⟨ts₁, ts₂, rfl, h₁, h₂⟩ := List.map_eq_append_iff.1 hts
    obtain ⟨⟨pos, symbol⟩, ts₁, rfl, hsymbol, h₁⟩ := List.map_eq_cons_iff.1 h₁
    obtain ⟨⟨pos', symbol'⟩, rfl, hsymbol'⟩ := List.map_eq_singleton_iff.1 h₁
    cases hsymbol
    cases hsymbol'
    rw [← h (some pos) stop ts₂ rest h₂ hrest, List.append_assoc, List.cons_append, run.eq_def]
    simp only [namesItem, List.cons_append, List.nil_append, List.head?_cons, hfull]
    rfl

/-- What has been read, with an item on top. -/
def push (r : Reader) (k : Kind) : Reader := { r with slots := k :: r.slots }

theorem leads_item {symbol : Symbol} {k : Kind} (named : Option Nat) (hnamed : r.named = none)
    (hfits : Kind.fitsOn k r.slots = true)
    (h : ∀ pos, step goal { r with named := named } ⟨pos, symbol⟩ =
      put { r with named := named } pos k) :
    Leads goal { r with named := named } [symbol] (r.push k) := by
  refine leads_singleton fun pos => ?_
  rw [h, put.eq_def]
  split
  · rw [Kind.fitsOn, List.isEmpty_iff] at hfits
    simp [hfits, push, hnamed]
  · simp [push, hnamed]

/-- A stack is being read, and not just a single kind. -/
def Wide (goal : Goal) (r : Reader) : Prop := goal = .kind → r.outer ≠ []

theorem Wide.full_eq_false (h : r.Wide goal) : r.full goal = false := by
  cases goal with
  | kind => simp [full, h rfl]
  | effect | stack => rfl

theorem step_of_full_eq_false (h : r.full goal = false) (pos : Nat) (name : String) :
    r.step goal ⟨pos, .ident name⟩ = r.put pos (identKind name) ∧
      r.step goal ⟨pos, .var name⟩ = r.put pos (varKind name) ∧
      r.step goal ⟨pos, .lparen⟩ = .ok r.enter := by
  simp [step, h]

/-- The symbols of items lead to the stack that they denote. -/
def LeadsToStack (goal : Goal) (xs : List Item) : Prop :=
  ∀ r : Reader, r.slots = [] → r.named = none → r.Wide goal →
    Leads goal r (Item.listSymbols xs) { r with slots := Item.stack xs }

/-- **The symbols of an effect are read as the effect**, if those of its stacks are. -/
theorem leads_effect {label : Option String} {c p : List Item} {i : Bool} (named : Option Nat)
    (hnamed : r.named = none) (hfull : r.full goal = false) (hc : LeadsToStack goal c)
    (hp : LeadsToStack goal p) :
    Leads goal { r with named := named } (Item.effect label c i p).body
      (r.push (Item.effect label c i p).kind) := by
  have hwide : ∀ half, ({ r.enter with half := half } : Reader).Wide goal := fun _ _ => by
    simp [enter]
  have hopen : Leads goal { r with named := named } [.lparen] r.enter :=
    leads_singleton fun pos => (step_of_full_eq_false hfull pos "").2.2
  have harrow : Leads goal { r.enter with slots := Item.stack c } [arrowSymbol i]
      { r.enter with half := .after (Item.stack c) i } := by
    refine leads_singleton fun pos => ?_
    cases goal <;> cases i <;> rfl
  have hclose : Leads goal { r.enter with half := .after (Item.stack c) i, slots := Item.stack p }
      [.rparen] (r.push (Item.effect label c i p).kind) := by
    refine leads_singleton fun pos => ?_
    rcases r with ⟨half, slots, outer, named⟩
    cases hnamed
    cases goal <;> rfl
  have hproduced := (hp _ rfl rfl (hwide (.after (Item.stack c) i))).append hclose
    (closed_rparen []).unnamed
  have hbehind := harrow.append hproduced (Item.unnamed_listSymbols_append p (closed_rparen []))
  have hconsumed := (hc _ rfl rfl (hwide .before)).append hbehind (closed_arrow i _).unnamed
  exact hopen.append hconsumed (Item.unnamed_listSymbols_append c (closed_arrow i _))

end Reader

namespace Item

open Reader

/-- The symbols of an item are read as the kind that it denotes, whatever is being read. -/
def IsRead (x : Item) : Prop :=
  ∀ (goal : Goal) (r : Reader), r.named = none → r.full goal = false →
    Kind.fitsOn x.kind r.slots = true → Leads goal r x.symbols (r.push x.kind)

/-- **The symbols of items are read as the stack that they denote**, if those of each item are. -/
theorem leadsToStack {goal : Goal} {xs : List Item}
    (hxs : ∀ x ∈ xs, x.kind.bottomed = true → x.IsRead)
    (h : (Kind.stack (stack xs)).bottomed = true) : LeadsToStack goal xs := by
  intro r hslots hnamed hwide
  -- the last item is on top, so that items are taken off the end
  induction xs using List.reverseRecOn with
  | nil =>
    rcases r with ⟨half, slots, outer, named⟩
    cases hslots
    exact leads_nil
  | append_singleton xs x ih =>
    rw [List.forall_mem_append, List.forall_mem_singleton] at hxs
    rw [stack_concat] at h ⊢
    obtain ⟨hfits, hx, hrest⟩ := fitsOn_of_bottomed h
    have hwide' : ({ r with slots := stack xs } : Reader).Wide goal := hwide
    rw [listSymbols_append, listSymbols_singleton]
    exact (ih hxs.1 hrest).append (hxs.2 hx goal _ hnamed hwide'.full_eq_false hfits)
      x.unnamed_symbols

/-- The name that an item was given does not matter. -/
theorem isRead_of_body {x : Item}
    (h : ∀ (goal : Goal) (r : Reader) (named : Option Nat), r.named = none → r.full goal = false →
      Kind.fitsOn x.kind r.slots = true →
      Leads goal { r with named := named } x.body (r.push x.kind)) : x.IsRead := by
  intro goal r hnamed hfull hfits
  rw [symbols_eq]
  exact leads_label hnamed hfull fun named => h goal r named hnamed hfull hfits

/-- **An item is read as the kind that it denotes**, if its stack variables are at the bottom. -/
theorem isRead_of_bottomed (x : Item) (h : x.kind.bottomed = true) : x.IsRead := by
  induction x using itemInduction with
  | var label name =>
    refine isRead_of_body fun goal r named hnamed hfull hfits => ?_
    exact leads_item named hnamed hfits fun pos =>
      (step_of_full_eq_false (r := { r with named := named }) hfull pos name).2.1
  | ident label name =>
    refine isRead_of_body fun goal r named hnamed hfull hfits => ?_
    exact leads_item named hnamed hfits fun pos =>
      (step_of_full_eq_false (r := { r with named := named }) hfull pos name).1
  | effect label c i p hc hp =>
    rw [kind, Kind.bottomed, Bool.and_eq_true] at h
    refine isRead_of_body fun goal r named hnamed hfull _ => ?_
    exact leads_effect named hnamed hfull (leadsToStack hc h.1) (leadsToStack hp h.2)

theorem leadsToStack_of_bottomed {goal : Goal} {xs : List Item}
    (h : (Kind.stack (stack xs)).bottomed = true) : LeadsToStack goal xs :=
  leadsToStack (fun x _ => x.isRead_of_bottomed) h

end Item

/-- **A text is read to its end**, if its symbols lead there. -/
theorem read_of_leads {goal : Goal} {src : String} {symbols : List Symbol} {r : Reader}
    (hsymbols : symbols = symbolsOf src.toList) (h : Reader.Leads goal .start symbols r)
    (hfinish : ∀ stop, r.finish goal stop = .ok r) : read goal src = .ok r := by
  have hrun := h (TokenList.ofString src).stop (TokenList.ofString src).tokens [] hsymbols.symm
    closed_nil.unnamed
  rw [List.append_nil] at hrun
  exact hrun.trans (hfinish _)

end Signature

open Signature

/-- **What a signature denotes is read from it.** -/
theorem Effect.parse_of_form {src : String} {d : Form} (hsymbols : d.symbols = symbolsOf src.toList)
    (h : d.effect.kind.bottomed = true) : Effect.parse src = .ok d.effect := by
  cases d with
  | bare c i p =>
    have hwide : ∀ r : Reader, r.Wide .effect := fun _ hgoal => by cases hgoal
    obtain ⟨hc, hp⟩ := Bool.and_eq_true_iff.1 h
    have harrow : Reader.Leads .effect { Reader.start with slots := Item.stack c } [arrowSymbol i]
        { Reader.start with half := .after (Item.stack c) i } := by
      refine Reader.leads_singleton fun pos => ?_
      cases i <;> rfl
    have hproduced := Item.leadsToStack_of_bottomed hp
      { Reader.start with half := .after (Item.stack c) i } rfl rfl (hwide _)
    have hbehind := harrow.append hproduced
      (by simpa using Item.unnamed_listSymbols_append p closed_nil)
    have hlead := (Item.leadsToStack_of_bottomed hc .start rfl rfl (hwide _)).append hbehind
      (closed_arrow i _).unnamed
    rw [Effect.parse, read_of_leads hsymbols hlead fun _ => rfl]
    rfl
  | enclosed label c i p =>
    have hlead := (Item.effect label c i p).isRead_of_bottomed h .effect .start rfl rfl rfl
    rw [Effect.parse, read_of_leads hsymbols hlead fun _ => rfl]
    rfl

/-- **What items denote is read from them.** -/
theorem Stack.parse_of_items {src : String} {xs : List Item}
    (hsymbols : Item.listSymbols xs = symbolsOf src.toList)
    (h : (Kind.stack (Item.stack xs)).bottomed = true) :
    Stack.parse src = .ok (Item.stack xs) := by
  have hlead : Reader.Leads .stack .start _ _ :=
    Item.leadsToStack_of_bottomed h .start rfl rfl fun hgoal => by cases hgoal
  rw [Stack.parse, read_of_leads hsymbols hlead fun _ => rfl]
  rfl

/-- **What an item denotes is read from it.** -/
theorem Kind.parse_of_item {src : String} {x : Item} (hsymbols : x.symbols = symbolsOf src.toList)
    (h : x.kind.bottomed = true) : Kind.parse src = .ok x.kind := by
  have hfits : Kind.fitsOn x.kind [] = true := by
    have hstack := x.isStack_kind
    cases hk : x.kind <;> simp_all [Kind.fitsOn, Kind.isStack]
  have hlead := x.isRead_of_bottomed h .kind .start rfl rfl hfits
  rw [Kind.parse, read_of_leads hsymbols hlead fun _ => rfl]
  rfl

/-! ## What is written is derived -/

namespace Kind

theorem exists_items_of_forall {s : Stack}
    (hs : ∀ k ∈ s, ∃ x : Item, x.symbols = k.symbols ∧ x.kind = k) :
    ∃ xs, Item.listSymbols xs = stackSymbols s ∧ Item.stack xs = s := by
  induction s with
  | nil => exact ⟨[], rfl, rfl⟩
  | cons k s ih =>
    rw [List.forall_mem_cons] at hs
    obtain ⟨⟨x, hx, rfl⟩, hrest⟩ := hs
    obtain ⟨xs, hxs, rfl⟩ := ih hrest
    refine ⟨xs ++ [x], ?_, Item.stack_concat xs x⟩
    rw [Item.listSymbols_append, Item.listSymbols_singleton, hx, hxs, stackSymbols]

theorem symbols_effect {cs ps : List Item} {c p : Stack} {i : Bool}
    (hc : Item.listSymbols cs = stackSymbols c) (hp : Item.listSymbols ps = stackSymbols p) :
    (Item.effect none cs i ps).symbols = (effect c p i).symbols := by
  simp [Item.symbols, symbols, labelSymbols, arrowSymbol, hc, hp]

/-- **What is written is derived**, without any names of items. -/
theorem exists_item {k : Kind} (h : k.Written) (hk : k.isStack = false) :
    ∃ x : Item, x.symbols = k.symbols ∧ x.kind = k := by
  have hvar : ∀ {v : Var}, v.kind.writable = true → varKind v.name = v.kind := fun hv => by
    rw [varKind_eq, (writable_var.1 hv).2]
  induction k using Kind.slotInduction with
  | simple name =>
    have hself : name ≠ "self" := by
      simpa using (Bool.and_eq_true_iff.1 h.2.2).2
    exact ⟨.ident none name, rfl, if_neg hself⟩
  | typeVar name => exact ⟨.var none name, rfl, hvar (v := ⟨.slot, name⟩) h.2.2⟩
  | stackVar name => exact ⟨.var none name, rfl, hvar (v := ⟨.stack, name⟩) h.2.2⟩
  | self => exact ⟨.ident none "self", rfl, rfl⟩
  | effect c p i hc hp =>
    obtain ⟨hwc, hwp⟩ := written_effect_iff.1 h
    obtain ⟨cs, hcs, rfl⟩ :=
      exists_items_of_forall fun k hk => hc k hk (hwc.slot hk).1 (hwc.slot hk).2
    obtain ⟨ps, hps, rfl⟩ :=
      exists_items_of_forall fun k hk => hp k hk (hwp.slot hk).1 (hwp.slot hk).2
    exact ⟨.effect none cs i ps, symbols_effect hcs hps, rfl⟩
  | stack => simp [isStack] at hk
  | foreign | absent => simp [Written, all, writable] at h

/-- **A written stack is derived**, without any names of items. -/
theorem Written.exists_items {s : Stack} (h : (stack s).Written) :
    ∃ xs, Item.listSymbols xs = stackSymbols s ∧ Item.stack xs = s :=
  exists_items_of_forall fun _ hk => exists_item (h.slot hk).1 (h.slot hk).2

/-- **The text of a written kind**, alone, has its symbols. -/
theorem symbolsOf_text {k : Kind} (h : k.Written) (hk : k.isStack = false) :
    symbolsOf k.slotText.toList = k.symbols := by
  simpa [symbolsOf, tokensFrom] using spells_of_written h hk [] (by simp [Apart])

theorem symbolsOf_stackText_nil {s : Stack} (h : (stack s).Written) :
    symbolsOf (Stack.text s).toList = stackSymbols s := by
  have hspells : ∀ k ∈ s, k.Spells := fun k hk => spells_of_written (h.slot hk).1 (h.slot hk).2
  have hapart : Apart [] := by simp [Apart]
  simpa [symbolsOf, tokensFrom] using symbolsOf_stackText hspells hapart

theorem text_of_isStack {k : Kind} (hk : k.isStack = false) : k.text = k.slotText := by
  cases k <;> first | rfl | simp [isStack] at hk

end Kind

/-- **An effect is read back from its text if and only if it is written.** -/
theorem Effect.parse_text_iff {f : Effect} : Effect.parse f.text = .ok f ↔ f.kind.Written := by
  refine ⟨written_of_parse, fun h => ?_⟩
  have hsymbols := Kind.symbolsOf_text h rfl
  rcases f with ⟨c, p, i⟩
  obtain ⟨hc, hp⟩ := Kind.written_effect_iff.1 h
  obtain ⟨cs, hcs, rfl⟩ := hc.exists_items
  obtain ⟨ps, hps, rfl⟩ := hp.exists_items
  exact parse_of_form (d := .enclosed none cs i ps)
    ((Kind.symbols_effect hcs hps).trans hsymbols.symm) h.1

/-- **A stack is read back from its text if and only if it is written.** -/
theorem Stack.parse_text_iff {s : Stack} :
    Stack.parse (Stack.text s) = .ok s ↔ (Kind.stack s).Written := by
  refine ⟨written_of_parse, fun h => ?_⟩
  have hsymbols := Kind.symbolsOf_stackText_nil h
  obtain ⟨xs, hxs, rfl⟩ := h.exists_items
  exact parse_of_items (hxs.trans hsymbols.symm) h.1

/-- **A kind is read back from its text if and only if it is written** and no stack. -/
theorem Kind.parse_text_iff {k : Kind} :
    Kind.parse k.text = .ok k ↔ k.Written ∧ k.isStack = false := by
  refine ⟨written_of_parse, fun ⟨h, hk⟩ => ?_⟩
  have hsymbols := Kind.text_of_isStack hk ▸ Kind.symbolsOf_text h hk
  obtain ⟨x, hx, rfl⟩ := Kind.exists_item h hk
  exact parse_of_item (hx.trans hsymbols.symm) h.1

/-- **What is read is read again from its text**, as an effect, a kind or a stack.  What can be read
at all from its text are the written effects, the written kinds but for stacks, and the written
stacks. -/
theorem signatures_read_back :
    (∀ src f, Effect.parse src = .ok f → Effect.parse f.text = .ok f) ∧
    (∀ src k, Kind.parse src = .ok k → Kind.parse k.text = .ok k) ∧
    (∀ src s, Stack.parse src = .ok s → Stack.parse (Stack.text s) = .ok s) ∧
    (∀ f : Effect, Effect.parse f.text = .ok f ↔ f.kind.Written) ∧
    (∀ k : Kind, Kind.parse k.text = .ok k ↔ k.Written ∧ k.isStack = false) ∧
    ∀ s : Stack, Stack.parse (Stack.text s) = .ok s ↔ (Kind.stack s).Written :=
  ⟨fun _ _ h => Effect.parse_text_iff.2 (Effect.written_of_parse h),
    fun _ _ h => Kind.parse_text_iff.2 (Kind.written_of_parse h),
    fun _ _ h => Stack.parse_text_iff.2 (Stack.written_of_parse h),
    fun _ => Effect.parse_text_iff, fun _ => Kind.parse_text_iff, fun _ => Stack.parse_text_iff⟩

/-- Parentheses, names of items and spaces that a signature may have are not in the text of what is
read, which is read all the same. -/
theorem signatures_read_back_nested :
    let inner : Kind := .effect [.stackVar "'A"] [.self] true
    let stack : Stack := [inner, .typeVar "'a", .stackVar "'A"]
    let f : Effect := ⟨stack, [.simple "int", .stackVar "'B"], false⟩
    Effect.parse "'A 'a  f=( 'A~>self )->'B n = int" = .ok f ∧
      f.text = "('A 'a ('A ~> self) -> 'B int)" ∧ Effect.parse f.text = .ok f ∧
      Kind.parse "f=('A~>self)" = .ok inner ∧ Kind.parse inner.text = .ok inner ∧
      Stack.parse "'A 'a f=('A ~> self)" = .ok stack ∧
      Stack.parse (Stack.text stack) = .ok stack := by
  intro inner stack f
  have hf : Effect.parse "'A 'a  f=( 'A~>self )->'B n = int" = .ok f := by decide +kernel
  have hinner : Kind.parse "f=('A~>self)" = .ok inner := by decide +kernel
  have hstack : Stack.parse "'A 'a f=('A ~> self)" = .ok stack := by decide +kernel
  obtain ⟨heffect, hkind, hslots, -⟩ := signatures_read_back
  exact ⟨hf, by decide +kernel, heffect _ f hf, hinner, hkind _ inner hinner, hstack,
    hslots _ stack hstack⟩

end StackEffect
