import StackEffect.Proofs.Lattice.Reduce
import StackEffect.Subtyping

/-!
# Proofs/Lattice/Kinds — the order of kinds

    k ≤ l        k is l, or l is a nominal type above the name that stands for k

A nominal type stands for itself, a function for `function`, and any other kind for the top type;
where no order of names is given, everything stands for `any`.  Only nominal types have something
below them, so from the first step on the way up leads through names alone, and the order of kinds
is transitive as soon as the order of names is.
-/

namespace StackEffect.Subtyping

variable {st : Option Subtyping} {k l m : Kind} {a b : String}

/-- The name that stands for a kind. -/
def nameFor : Option Subtyping → Kind → String
  | none, _ => defaultTop
  | some order, k => order.standIn k

/-- The order of names is transitive, if there is one. -/
def NamesTransitive (st : Option Subtyping) : Prop :=
  ∀ order ∈ st, ∀ a b c, order.isSubtypeOf a b = true → order.isSubtypeOf b c = true →
    order.isSubtypeOf a c = true

/-- The order of names is reflexive, if there is one. -/
def NamesReflexive (st : Option Subtyping) : Prop :=
  ∀ order ∈ st, ∀ a, order.isSubtypeOf a a = true

/-- **A preorder of kinds that extends the order of names**: every kind is below the name that
stands for it. -/
structure Extends (st : Option Subtyping) (R : Kind → Kind → Prop) : Prop where
  refl : ∀ k, R k k
  trans : ∀ k l m, R k l → R l m → R k m
  named : ∀ k, R k (.simple (nameFor st k))
  names : ∀ order ∈ st, ∀ a b, order.isSubtypeOf a b = true → R (.simple a) (.simple b)

/-- A name lies above a kind: it is `any`, where no order of names is given, or lies above the name
that stands for the kind. -/
def Above (st : Option Subtyping) (k : Kind) (name : String) : Prop :=
  match st with
  | none => name = defaultTop
  | some order => order.isSubtypeOf (order.standIn k) name = true

/-- **Only nominal types have other kinds below them.** -/
theorem le_iff : le st k l = true ↔ k = l ∨ ∃ name, l = .simple name ∧ Above st k name := by
  cases l <;> cases st <;> simp [le, Above]

/-- From a name on, the way up leads through names. -/
theorem Above.trans (htrans : NamesTransitive st) (hk : Above st k a)
    (ha : Above st (.simple a) b) : Above st k b := by
  cases st with
  | none => exact ha
  | some order => exact htrans order rfl _ _ _ hk ha

theorem le_trans (htrans : NamesTransitive st) (hkl : le st k l = true) (hlm : le st l m = true) :
    le st k m = true := by
  rw [le_iff] at hkl hlm ⊢
  rcases hlm with rfl | ⟨b, rfl, hb⟩
  · exact hkl
  · rcases hkl with rfl | ⟨a, rfl, ha⟩
    · exact .inr ⟨b, rfl, hb⟩
    · exact .inr ⟨b, rfl, ha.trans htrans hb⟩

/-- **Nothing is related but what every extension of the order of names relates.** -/
theorem Extends.of_le {R : Kind → Kind → Prop} (h : Extends st R) (hkl : le st k l = true) :
    R k l := by
  rcases le_iff.1 hkl with rfl | ⟨name, rfl, habove⟩
  · exact h.refl k
  · refine h.trans _ _ _ (h.named k) ?_
    cases st with
    | none =>
      obtain rfl : name = defaultTop := habove
      exact h.refl _
    | some order => exact h.names order rfl _ _ habove

/-- **Subtyping of kinds extends the order of names**, if that is a preorder. -/
theorem extends_le (hrefl : NamesReflexive st) (htrans : NamesTransitive st) :
    Extends st fun k l => le st k l = true where
  refl := le_refl st
  trans _ _ _ := le_trans htrans
  named k := le_iff.2 <| .inr ⟨_, rfl, by
    cases st with
    | none => rfl
    | some order => exact hrefl order rfl _⟩
  names := by
    rintro order hst a b hab
    obtain rfl : st = some order := hst
    exact le_iff.2 (.inr ⟨b, rfl, hab⟩)

/-- **Subtyping lifts from names to kinds.**  Without an order of names, and with every order of
names that is transitive, subtyping of kinds is reflexive and transitive, and does not tell kinds
apart that are structurally equal.  It relates nothing but what every preorder of kinds relates that
extends the order of names; so it is the least one, if names are also subtypes of themselves. -/
theorem kinds_preordered (st : Option Subtyping) (htrans : NamesTransitive st) :
    (∀ k, le st k k = true) ∧
      (∀ k l m, le st k l = true → le st l m = true → le st k m = true) ∧
      (∀ k k' l l', Kind.beq k k' = true → Kind.beq l l' = true → le st k l = le st k' l') ∧
      (∀ R, Extends st R → ∀ k l, le st k l = true → R k l) ∧
      (NamesReflexive st → Extends st fun k l => le st k l = true) := by
  refine ⟨le_refl st, fun _ _ _ => le_trans htrans, ?_, fun _ h _ _ => h.of_le, fun hrefl =>
    extends_le hrefl htrans⟩
  intro k k' l l' hk hl
  rw [Kind.eq_of_beq hk, Kind.eq_of_beq hl]

/-- In the default lattice, a function is below `function`, which is below `var`, another name for
the top type. -/
theorem kinds_preordered_default :
    let st := some Lattice.default.subtyping
    let f := Kind.effect [.typeVar "'a"] [.typeVar "'a"] false
    NamesTransitive st ∧ le st f (.simple "function") = true ∧
      le st (.simple "function") (.simple "var") = true ∧ le st f (.simple "var") = true := by
  intro st f
  have htrans : NamesTransitive st := by
    intro order hst a b c
    obtain rfl : Lattice.default.subtyping = order := Option.some.inj hst
    exact Lattice.ordered_default.trans
  have hfunction : le st f (.simple "function") = true := by decide +kernel
  have hvar : le st (.simple "function") (.simple "var") = true := by decide +kernel
  exact ⟨htrans, hfunction, hvar, (kinds_preordered st htrans).2.1 _ _ _ hfunction hvar⟩

end StackEffect.Subtyping
