import StackEffect.Proofs.Kind.WellFormed
import StackEffect.Proofs.Unify.Theory

/-!
# Proofs/Unify/Ground — values of kinds under a ground solution

    value σ 'a = [σ 'a]        value σ 'R = σ 'R        value σ [k …] = value σ k ++ …

A valuation gives every name a value: one slot, or a list of slots.  A ground solution is one without
variables.  Kinds that have to be equal have one value.  Equations that hold under a valuation make a
theory in which no kinds clash (`Valuation.theory`): two slots with one value are compatible, and so
are two stacks, down to the stack variable that takes what is left of the other one.
-/

namespace StackEffect

/-- **Tidy stacks that amount to the same are aligned**, and neither ends before the other.  `M` and `L`
say what slots and stacks amount to: a slot to one thing, on top of what is below it. -/
theorem Aligned.of_same {β : Type} {M : Kind → β → Prop} {L : Stack → List β → Prop}
    {sort : String → VarSort} {size : Prop} {empty : String → Prop} {eqn : String → Kind → Prop}
    {slot : Kind → Kind → Prop} (hnil : ∀ {x}, L [] x → x = [])
    (hcons : ∀ {k s x}, Kind.fitsOn k s = true → (∀ a, k ≠ .stackVar a) → L (k :: s) x →
      ∃ b y, x = b :: y ∧ M k b ∧ L s y)
    (hbottom : ∀ {a t x}, (Kind.stackVar a).Tidy sort → (Kind.stack t).Tidy sort →
      L [.stackVar a] x → L t x → eqn a (.stack t))
    (hempty : ∀ {a}, eqn a (.stack []) → empty a)
    (hslot : ∀ {k s l t b}, (Kind.stack (k :: s)).Tidy sort → (Kind.stack (l :: t)).Tidy sort →
      (∀ a, k ≠ .stackVar a) → (∀ a, l ≠ .stackVar a) → M k b → M l b → slot k l)
    {v w : Stack} {x : List β} (hv : (Kind.stack v).Tidy sort) (hw : (Kind.stack w).Tidy sort)
    (hvx : L v x) (hwx : L w x) : Aligned size empty eqn slot v w := by
  -- a variable is all that is left on its side
  have hvar : ∀ {a r t x}, (Kind.stack (.stackVar a :: r)).Tidy sort → (Kind.stack t).Tidy sort →
      L (.stackVar a :: r) x → L t x → eqn a (.stack t) := by
    intro a r t x har ht hax htx
    obtain ⟨hfits, ha, -⟩ := Kind.tidy_cons_iff.1 har
    obtain rfl := Kind.eq_nil_of_fitsOn hfits
    exact hbottom ha ht hax htx
  -- and nothing else amounts to nothing
  have hend : ∀ {k s}, (Kind.stack (k :: s)).Tidy sort → L (k :: s) [] →
      ∃ a, k :: s = [.stackVar a] := by
    intro k s hks hlies
    obtain ⟨hfits, -, -⟩ := Kind.tidy_cons_iff.1 hks
    by_cases hk : ∃ a, k = .stackVar a
    · obtain ⟨a, rfl⟩ := hk
      exact ⟨a, by rw [Kind.eq_nil_of_fitsOn hfits]⟩
    · obtain ⟨b, y, hy, -⟩ := hcons hfits (fun a ha => hk ⟨a, ha⟩) hlies
      cases hy
  fun_induction Aligned generalizing x with
  | case1 a r b r' => exact ⟨hvar hv hw hvx hwx, hvar hw hv hwx hvx⟩
  | case2 a _ l r' hl => exact hvar hv hw hvx hwx
  | case3 k r b _ hk => exact hvar hw hv hwx hvx
  | case4 k r l r' _ hk hl ih =>
    obtain ⟨hfk, -, hr⟩ := Kind.tidy_cons_iff.1 hv
    obtain ⟨hfl, -, hr'⟩ := Kind.tidy_cons_iff.1 hw
    obtain ⟨b, y, rfl, hkb, hry⟩ := hcons hfk hk hvx
    obtain ⟨b', y', hby, hlb, hry'⟩ := hcons hfl hl hwx
    obtain ⟨rfl, rfl⟩ := List.cons.inj hby
    exact ⟨hslot hv hw hk hl hkb hlb, ih hr hr' hry hry'⟩
  | case5 => trivial
  | case6 a => exact hempty (hvar hv hw hvx hwx)
  | case7 a => exact hempty (hvar hw hv hwx hvx)
  | case8 r r' h₁ h₂ h₃ h₄ h₅ h₆ h₇ =>
    exfalso
    rcases r with - | ⟨k, r⟩ <;> rcases r' with - | ⟨l, r'⟩
    · exact h₅ rfl rfl
    · obtain ⟨a, ha⟩ := hend hw (hnil hvx ▸ hwx)
      exact h₇ a rfl ha
    · obtain ⟨a, ha⟩ := hend hv (hnil hwx ▸ hvx)
      exact h₆ a ha rfl
    · exact h₄ k r l r' rfl rfl

/-- A slot without variables. -/
def Kind.Ground (k : Kind) : Prop := k.vars = [] ∧ ∀ s, k ≠ .stack s

/-- **A valuation**: a slot for every name of a slot, and slots for every name of a stack. -/
structure Valuation where
  slot : String → Kind
  rest : String → List Kind

/-- **A ground solution**: a valuation without variables. -/
structure Grounding extends Valuation where
  slot_ground : ∀ n, (slot n).Ground
  rest_ground : ∀ n, ∀ k ∈ rest n, k.Ground

namespace Valuation

variable (σ : Valuation)

mutual
/-- **The value of a kind**: the slots it amounts to. -/
def value : Kind → List Kind
  | .typeVar a => [σ.slot a]
  | .stackVar a => σ.rest a
  | .stack s => values s
  | .effect c p i => [.effect (values c) (values p) i]
  | k => [k]
/-- The value of a stack. -/
def values : List Kind → List Kind
  | [] => []
  | k :: s => value k ++ values s
end

/-- The value of a name of a given sort. -/
def nameValue (sort : String → VarSort) (n : String) : List Kind :=
  value σ (Var.kind ⟨sort n, n⟩)

variable {σ} {sort : String → VarSort} {k l : Kind} {s t r r' : Stack} {n m a : String}

theorem nameValue_of_tidy (h : k.Tidy sort) (hn : k.varName? = some n) :
    σ.nameValue sort n = σ.value k := by
  cases k with
  | typeVar a =>
    obtain rfl : a = n := Option.some.inj hn
    rw [nameValue, Kind.tidy_typeVar_iff.1 h]
    rfl
  | stackVar a =>
    obtain rfl : a = n := Option.some.inj hn
    rw [nameValue, Kind.tidy_stackVar_iff.1 h]
    rfl
  | _ => simp [Kind.varName?] at hn

theorem values_append : σ.values (s ++ t) = σ.values s ++ σ.values t := by
  induction s with
  | nil => rfl
  | cons k s ih => rw [List.cons_append, values, values, ih, List.append_assoc]

/-- **A slot has one value.** -/
theorem exists_value_eq_singleton (hf : Kind.fitsOn k s = true) (hv : ∀ a, k ≠ .stackVar a) :
    ∃ x, σ.value k = [x] := by
  cases k with
  | stackVar a => exact absurd rfl (hv a)
  | stack t => simp [Kind.fitsOn] at hf
  | _ => exact ⟨_, rfl⟩

/-- The value of a nominal type is no other slot's, unless that is a variable. -/
theorem eq_simple_of_value_eq (h : σ.value (.simple n) = σ.value l) (hf : Kind.fitsOn l s = true)
    (hl : l.isVar = false) : l = .simple n := by
  cases l with
  | typeVar | stackVar => simp [Kind.isVar] at hl
  | stack => simp [Kind.fitsOn] at hf
  | effect => cases List.singleton_inj.1 h
  | _ => exact (List.singleton_inj.1 h).symm

/-- Slots with one value are compatible. -/
theorem compatible_of_value_eq (st : Option Subtyping) (h : σ.value k = σ.value l)
    (hk : Kind.fitsOn k s = true) (hl : Kind.fitsOn l t = true) :
    Unify.compatible st k l = true := by
  rw [Unify.compatible, Bool.or_assoc, Bool.or_eq_true, Bool.or_eq_true]
  by_cases hv : (k.isSimple && !l.isVar || l.isSimple && !k.isVar) = true
  · right
    left
    suffices k = l from this ▸ Subtyping.le_refl st k
    rw [Bool.or_eq_true, Bool.and_eq_true, Bool.and_eq_true, Bool.not_eq_true',
      Bool.not_eq_true'] at hv
    rcases hv with ⟨hs, hv⟩ | ⟨hs, hv⟩
    · cases k <;> simp only [Kind.isSimple, Bool.false_eq_true] at hs
      exact (eq_simple_of_value_eq h hl hv).symm
    · cases l <;> simp only [Kind.isSimple, Bool.false_eq_true] at hs
      exact eq_simple_of_value_eq h.symm hk hv
  · left
    rwa [Bool.not_eq_true', ← Bool.not_eq_true]

/-- A slot that is no stack variable has a value above what lies below it. -/
theorem values_cons (hf : Kind.fitsOn k s = true) (hv : ∀ a, k = .stackVar a → False) :
    ∃ x, σ.value k = [x] ∧ σ.values (k :: s) = x :: σ.values s := by
  obtain ⟨x, hx⟩ := exists_value_eq_singleton (σ := σ) hf fun a ha => hv a ha
  exact ⟨x, hx, by rw [values, hx]; rfl⟩

variable (σ) (sort)

/-- A name and a tidy kind have one value. -/
def Equates (n : String) (k : Kind) : Prop := k.Tidy sort ∧ σ.nameValue sort n = σ.value k

/-- Two tidy stacks have one value. -/
def EquatesStacks (s t : Stack) : Prop :=
  (Kind.stack s).Tidy sort ∧ (Kind.stack t).Tidy sort ∧ σ.values s = σ.values t

variable {σ sort}

theorem equatesStacks_of_effect {c p d q : Stack} {i j : Bool} (hk : (Kind.effect c p i).Tidy sort)
    (hl : (Kind.effect d q j).Tidy sort) (h : σ.value (.effect c p i) = σ.value (.effect d q j)) :
    σ.EquatesStacks sort c d ∧ σ.EquatesStacks sort p q := by
  obtain ⟨hc, hp⟩ := Kind.tidy_effect_iff.1 hk
  obtain ⟨hd, hq⟩ := Kind.tidy_effect_iff.1 hl
  obtain ⟨hcd, hpq, -⟩ := Kind.effect.inj (List.singleton_inj.1 h)
  exact ⟨⟨hc, hd, hcd⟩, hp, hq, hpq⟩

/-- **Stacks with one value ask for equations that hold**, and neither ends before the other. -/
theorem EquatesStacks.aligned (st : Option Subtyping) (lenient : Bool) {v w : Stack}
    (h : σ.EquatesStacks sort v w) : Aligned (lenient = true ∨ False)
      (fun a => lenient = true ∨ σ.Equates sort a (.stack [])) (σ.Equates sort)
      (SlotAsk st False (σ.Equates sort) (σ.EquatesStacks sort)) v w := by
  obtain ⟨hv, hw, h⟩ := h
  refine Aligned.of_same (M := fun k x => σ.value k = [x]) (L := fun s x => σ.values s = x) Eq.symm
    ?_ ?_ .inr ?_ hv hw rfl h.symm
  · rintro k s _ hfits hk rfl
    obtain ⟨x, hx, hcons⟩ := values_cons (σ := σ) hfits hk
    exact ⟨x, _, hcons, hx, rfl⟩
  · rintro a t x ha ht hax htx
    refine ⟨ht, (nameValue_of_tidy ha rfl).trans ?_⟩
    exact (List.append_nil _).symm.trans (hax.trans htx.symm)
  · intro k s l t x hks hlt hk hl hkx hlx
    obtain ⟨hfk, hkt, -⟩ := Kind.tidy_cons_iff.1 hks
    obtain ⟨hfl, hlt, -⟩ := Kind.tidy_cons_iff.1 hlt
    have hval : σ.value k = σ.value l := hkx.trans hlx.symm
    refine ⟨?_, ?_, ?_, .inl (compatible_of_value_eq st hval hfk hfl)⟩
    · rintro a rfl
      exact ⟨hlt, (nameValue_of_tidy hkt rfl).trans hval⟩
    · rintro b rfl
      exact ⟨hkt, (nameValue_of_tidy hlt rfl).trans hval.symm⟩
    · rintro c p i d q j rfl rfl
      exact equatesStacks_of_effect hkt hlt hval

/-- **The theory of a valuation.** -/
def theory (σ : Valuation) (sort : String → VarSort) (st : Option Subtyping) (lenient : Bool) :
    Theory st lenient where
  mayClash := False
  same n m := σ.nameValue sort n = σ.nameValue sort m
  eqn := σ.Equates sort
  call := σ.Equates sort
  par := σ.EquatesStacks sort
  same_equiv := ⟨fun _ => rfl, Eq.symm, Eq.trans⟩
  eqn_congr h hk := ⟨hk.1, h.symm.trans hk.2⟩
  eqn_of_call h _ := h
  call_slot h := ⟨(Kind.tidy_cons_iff.1 h.1).2.1, h.2.trans (List.append_nil _)⟩
  call_self h hm := ⟨h.1, nameValue_of_tidy h.1 hm⟩
  same_var h hm := h.2.trans (nameValue_of_tidy h.1 hm).symm
  par_effect h h' := equatesStacks_of_effect h.1 h'.1 (h.2.symm.trans h'.2)
  par_stack h h' := ⟨h.1, h'.1, h.2.symm.trans h'.2⟩
  par_aligned h := h.aligned st lenient

end Valuation

end StackEffect
