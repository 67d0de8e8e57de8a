import StackEffect.Proofs.Signature.Written

/-!
# Proofs/Signature/Grammar — the grammar of signatures

    signature ::= stack arrow stack | [ name = ] ( stack arrow stack )
    stack     ::= item …
    item      ::= [ name = ] ( 'name | name | ( stack arrow stack ) )

A derivation is a tree, an `Item` or, for a whole signature, a `Form`.  It derives a list of symbols
and denotes a kind.  What follows an item never begins with `=`, and what follows a stack never
begins an item, so that it can be told where each of them ends: symbols have one derivation at most
(`Item.symbols_injective`, `Item.listSymbols_injective`, `Form.symbols_injective`).
-/

namespace StackEffect

namespace Signature

/-- **An item, as the grammar derives it**, with the name that it was given.  Stacks are listed
bottom first. -/
inductive Item where
  | var (label : Option String) (name : String)
  | ident (label : Option String) (name : String)
  | effect (label : Option String) (consumed : List Item) (impure : Bool) (produced : List Item)

/-- The symbols that give an item its name. -/
def labelSymbols : Option String → List Symbol
  | none => []
  | some name => [.ident name, .equals]

@[simp] theorem labelSymbols_none : labelSymbols none = [] := rfl

/-- The symbol of an arrow. -/
def arrowSymbol (impure : Bool) : Symbol := if impure then .sideArrow else .arrow

theorem arrowSymbol_cons_inj {i j : Bool} {a b : List Symbol}
    (h : arrowSymbol i :: a = arrowSymbol j :: b) : i = j ∧ a = b := by
  cases i <;> cases j <;> cases h <;> exact ⟨rfl, rfl⟩

/-- What is behind an item: nothing that makes it the name of another one. -/
def Unnamed (rest : List Symbol) : Prop := rest.head? ≠ some .equals

/-- What is behind a stack: its end, an arrow or a closing parenthesis. -/
def Closed (rest : List Symbol) : Prop :=
  ∀ s ∈ rest.head?, s = .arrow ∨ s = .sideArrow ∨ s = .rparen

theorem Closed.unnamed {rest : List Symbol} (h : Closed rest) : Unnamed rest := by
  intro hrest
  simpa using h _ hrest

theorem Unnamed.append {a b : List Symbol} (ha : Unnamed a) (hb : Unnamed b) :
    Unnamed (a ++ b) := by
  cases a with
  | nil => exact hb
  | cons => exact ha

theorem closed_nil : Closed [] := by simp [Closed]

theorem closed_rparen (rest : List Symbol) : Closed (.rparen :: rest) := by simp [Closed]

theorem closed_arrow (i : Bool) (rest : List Symbol) : Closed (arrowSymbol i :: rest) := by
  cases i <;> simp [Closed, arrowSymbol]

namespace Item

mutual
/-- **The symbols that an item derives.** -/
def symbols : Item → List Symbol
  | var label name => labelSymbols label ++ [.var name]
  | ident label name => labelSymbols label ++ [.ident name]
  | effect label c i p => labelSymbols label ++
    .lparen :: (listSymbols c ++ arrowSymbol i :: (listSymbols p ++ [.rparen]))
/-- **The symbols that a stack derives.** -/
def listSymbols : List Item → List Symbol
  | [] => []
  | x :: xs => symbols x ++ listSymbols xs
end

mutual
/-- **The kind that an item denotes.**  The name that it was given has no part in it. -/
def kind : Item → Kind
  | var _ name => varKind name
  | ident _ name => identKind name
  | effect _ c i p => .effect (stack c) (stack p) i
/-- **The stack that items denote**, the last of them on top. -/
def stack : List Item → Stack
  | [] => []
  | x :: xs => stack xs ++ [kind x]
end

/-- **Induction on items**, with a hypothesis for every item of a stack. -/
theorem itemInduction {motive : Item → Prop} (var : ∀ label name, motive (.var label name))
    (ident : ∀ label name, motive (.ident label name))
    (effect : ∀ label c i p, (∀ x ∈ c, motive x) → (∀ x ∈ p, motive x) →
      motive (.effect label c i p)) (x : Item) : motive x :=
  @Item.rec motive (fun xs => ∀ x ∈ xs, motive x) var ident effect
    (fun _ h => absurd h List.not_mem_nil) (fun _ _ hx hxs => List.forall_mem_cons.2 ⟨hx, hxs⟩) x

theorem listSymbols_append (xs ys : List Item) :
    listSymbols (xs ++ ys) = listSymbols xs ++ listSymbols ys := by
  induction xs with
  | nil => rfl
  | cons x xs ih => rw [List.cons_append, listSymbols, listSymbols, ih, List.append_assoc]

theorem listSymbols_singleton (x : Item) : listSymbols [x] = x.symbols := by
  rw [listSymbols, listSymbols, List.append_nil]

theorem stack_concat (xs : List Item) (x : Item) : stack (xs ++ [x]) = x.kind :: stack xs := by
  induction xs with
  | nil => rfl
  | cons y xs ih => rw [List.cons_append, stack, stack, ih, List.cons_append]

theorem length_stack (xs : List Item) : (stack xs).length = xs.length := by
  induction xs with
  | nil => rfl
  | cons x xs ih => simp [stack, ih]

theorem isStack_kind (x : Item) : x.kind.isStack = false := by
  cases x with
  | var label name =>
    rw [kind, varKind_eq]
    cases sortOf name <;> rfl
  | ident label name =>
    rw [kind, identKind]
    split <;> rfl
  | effect => rfl

/-- **An item fits on what is below it** where stack variables are at the bottom only. -/
theorem fitsOn_of_bottomed {x : Item} {s : Stack}
    (h : (Kind.stack (x.kind :: s)).bottomed = true) :
    Kind.fitsOn x.kind s = true ∧ x.kind.bottomed = true ∧ (Kind.stack s).bottomed = true := by
  rw [Kind.bottomed, Kind.slotsBottomed, Bool.and_eq_true, Bool.and_eq_true] at h
  obtain ⟨⟨hvar, hx⟩, hs⟩ := h
  refine ⟨?_, hx, hs⟩
  have hstack := x.isStack_kind
  cases hk : x.kind <;> simp_all [Kind.fitsOn, Kind.isStackVar, Kind.isStack]

/-! ## Where an item and a stack end -/

variable {a b : List Symbol}

/-- An item begins with a parenthesis, a variable or an identifier. -/
theorem exists_symbols_eq_cons (x : Item) : ∃ s rest, x.symbols = s :: rest ∧
    (s = .lparen ∨ (∃ name, s = .var name) ∨ ∃ name, s = .ident name) := by
  rcases x with ⟨_ | l, name⟩ | ⟨_ | l, name⟩ | ⟨_ | l, c, i, p⟩ <;>
    exact ⟨_, _, rfl, by simp⟩

theorem unnamed_symbols_append (x : Item) (rest : List Symbol) : Unnamed (x.symbols ++ rest) := by
  obtain ⟨s, tail, hx, hs⟩ := x.exists_symbols_eq_cons
  rw [Unnamed, hx, List.cons_append, List.head?_cons]
  rintro h
  cases h
  simp at hs

theorem unnamed_symbols (x : Item) : Unnamed x.symbols := by
  simpa using x.unnamed_symbols_append []

theorem not_closed_symbols_append (x : Item) (rest : List Symbol) :
    ¬ Closed (x.symbols ++ rest) := by
  obtain ⟨s, tail, hx, hs⟩ := x.exists_symbols_eq_cons
  rw [Closed, hx, List.cons_append, List.head?_cons]
  intro h
  obtain rfl | rfl | rfl := h s rfl <;> simp at hs

theorem unnamed_listSymbols_append (xs : List Item) (h : Closed a) :
    Unnamed (listSymbols xs ++ a) := by
  cases xs with
  | nil => exact h.unnamed
  | cons x xs =>
    rw [listSymbols, List.append_assoc]
    exact x.unnamed_symbols_append _

/-- **Whether an item has a name** can be told from its second symbol. -/
theorem labelSymbols_append_inj {l m : Option String} (ha : Unnamed a.tail) (hb : Unnamed b.tail)
    (h : labelSymbols l ++ a = labelSymbols m ++ b) : l = m ∧ a = b := by
  cases l <;> cases m
  · exact ⟨rfl, h⟩
  · cases h
    exact (ha rfl).elim
  · cases h
    exact (hb rfl).elim
  · cases h
    exact ⟨rfl, rfl⟩

/-- Where an item ends can be told from the symbols. -/
def Delimited (x : Item) : Prop :=
  ∀ ⦃y : Item⦄ ⦃a b : List Symbol⦄, Unnamed a → Unnamed b →
    x.symbols ++ a = y.symbols ++ b → x = y ∧ a = b

/-- **Where a stack ends can be told from the symbols**, if this is so for its items. -/
theorem listSymbols_append_inj {xs ys : List Item} (hxs : ∀ x ∈ xs, x.Delimited) (ha : Closed a)
    (hb : Closed b) (h : listSymbols xs ++ a = listSymbols ys ++ b) : xs = ys ∧ a = b := by
  induction xs generalizing ys with
  | nil =>
    cases ys with
    | nil => exact ⟨rfl, h⟩
    | cons y ys =>
      rw [listSymbols, listSymbols, List.nil_append, List.append_assoc] at h
      exact (y.not_closed_symbols_append _ (h ▸ ha)).elim
  | cons x xs ih =>
    rw [listSymbols, List.append_assoc] at h
    cases ys with
    | nil =>
      rw [listSymbols, List.nil_append] at h
      exact (x.not_closed_symbols_append _ (h ▸ hb)).elim
    | cons y ys =>
      rw [List.forall_mem_cons] at hxs
      rw [listSymbols, List.append_assoc] at h
      obtain ⟨rfl, hrest⟩ := hxs.1 (unnamed_listSymbols_append xs ha)
        (unnamed_listSymbols_append ys hb) h
      obtain ⟨rfl, rfl⟩ := ih hxs.2 hrest
      exact ⟨rfl, rfl⟩

/-- The name that an item was given. -/
def label : Item → Option String
  | var label _ | ident label _ | effect label .. => label

/-- The symbols behind the name of an item. -/
def body : Item → List Symbol
  | var _ name => [.var name]
  | ident _ name => [.ident name]
  | effect _ c i p => .lparen :: (listSymbols c ++ arrowSymbol i :: (listSymbols p ++ [.rparen]))

theorem symbols_eq (x : Item) : x.symbols = labelSymbols x.label ++ x.body := by
  cases x <;> rfl

theorem unnamed_tail_body_append (x : Item) (ha : Unnamed a) : Unnamed (x.body ++ a).tail := by
  cases x with
  | var | ident => exact ha
  | effect label c i p =>
    rw [body, List.cons_append, List.tail_cons, List.append_assoc]
    exact unnamed_listSymbols_append c (closed_arrow i _)

theorem label_eq_of_symbols_append {x y : Item} (ha : Unnamed a) (hb : Unnamed b)
    (h : x.symbols ++ a = y.symbols ++ b) : x.label = y.label ∧ x.body ++ a = y.body ++ b := by
  rw [symbols_eq, symbols_eq y, List.append_assoc, List.append_assoc] at h
  exact labelSymbols_append_inj (x.unnamed_tail_body_append ha) (y.unnamed_tail_body_append hb) h

/-- **Where an item ends can be told from the symbols.** -/
theorem delimited (x : Item) : x.Delimited := by
  induction x using itemInduction with
  | var label name | ident label name =>
    intro y a b ha hb h
    obtain ⟨hlabel, hbody⟩ := label_eq_of_symbols_append ha hb h
    cases y <;> cases hlabel <;> cases hbody
    exact ⟨rfl, rfl⟩
  | effect label c i p hc hp =>
    intro y a b ha hb h
    obtain ⟨hlabel, hbody⟩ := label_eq_of_symbols_append ha hb h
    cases y with
    | var | ident => cases hbody
    | effect label' c' i' p' =>
      cases hlabel
      simp only [body, List.cons_append, List.append_assoc, List.cons.injEq, true_and] at hbody
      obtain ⟨rfl, hrest⟩ := listSymbols_append_inj hc (closed_arrow i _) (closed_arrow i' _) hbody
      obtain ⟨rfl, hp'⟩ := arrowSymbol_cons_inj hrest
      obtain ⟨rfl, hend⟩ := listSymbols_append_inj hp (closed_rparen _) (closed_rparen _) hp'
      cases hend
      exact ⟨rfl, rfl⟩

/-- **An item has one derivation.** -/
theorem symbols_injective : Function.Injective symbols := by
  intro x y h
  exact (x.delimited closed_nil.unnamed closed_nil.unnamed (congrArg (· ++ []) h)).1

/-- **A stack has one derivation.** -/
theorem listSymbols_injective : Function.Injective listSymbols := by
  intro xs ys h
  exact (listSymbols_append_inj (fun x _ => x.delimited) closed_nil closed_nil
    (congrArg (· ++ []) h)).1

end Item

/-! ## Signatures -/

/-- **A signature, as the grammar derives it**: an effect without parentheses, or an item that is an
effect. -/
inductive Form where
  | bare (consumed : List Item) (impure : Bool) (produced : List Item)
  | enclosed (label : Option String) (consumed : List Item) (impure : Bool) (produced : List Item)

namespace Form

/-- **The symbols that a signature derives.** -/
def symbols : Form → List Symbol
  | bare c i p => Item.listSymbols c ++ arrowSymbol i :: Item.listSymbols p
  | enclosed label c i p => (Item.effect label c i p).symbols

/-- **The effect that a signature denotes.** -/
def effect : Form → Effect
  | bare c i p | enclosed _ c i p => ⟨Item.stack c, Item.stack p, i⟩

/-- No effect without parentheses is an item. -/
theorem bare_ne_item (c : List Item) (i : Bool) (p : List Item) (x : Item) :
    (bare c i p).symbols ≠ x.symbols := by
  intro h
  rw [← Item.listSymbols_singleton, ← List.append_nil (Item.listSymbols [x])] at h
  have hrest := (Item.listSymbols_append_inj (fun x _ => x.delimited) (closed_arrow i _) closed_nil
    h).2
  cases hrest

/-- **A signature has one derivation.** -/
theorem symbols_injective : Function.Injective symbols := by
  intro d e h
  cases d with
  | bare c i p =>
    cases e with
    | bare c' i' p' =>
      obtain ⟨rfl, hrest⟩ := Item.listSymbols_append_inj (fun x _ => x.delimited)
        (closed_arrow i _) (closed_arrow i' _) h
      obtain ⟨rfl, hp⟩ := arrowSymbol_cons_inj hrest
      rw [Item.listSymbols_injective hp]
    | enclosed => exact (bare_ne_item c i p _ h).elim
  | enclosed label c i p =>
    cases e with
    | bare c' i' p' => exact (bare_ne_item c' i' p' _ h.symm).elim
    | enclosed label' c' i' p' =>
      cases Item.symbols_injective h
      rfl

end Form

end Signature

end StackEffect
