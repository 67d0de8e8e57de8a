import Mathlib.Data.Int.Notation
import StackEffect.Proofs.Kind.Concrete
import StackEffect.Proofs.Unify.Calls

/-!
# Proofs/Unify/Layers — stacks of concrete slots on stack variables

    int bool 'R   ≡   any 'S        val 'S has bool on top of val 'R,  and int meets any

Every stack variable has a value, and a value may have a slot on top of another value.  Where two
stacks of concrete slots on stack variables have one value, unifying them brings about stacks of the
same sort that have one value again: `Layers.theory` says so for any notion of a value.  The height of
a stack is one (`Layers.heights`), and so are the slots that it may have (`Layers.cells`).
-/

namespace StackEffect

/-- **What stacks amount to.**  Two slots on top of one value are concrete and meet, or may clash. -/
structure Layers (st : Option Subtyping) (clash : Prop) where
  /-- What a stack amounts to. -/
  Value : Type
  /-- A value has a slot on top of another value. -/
  Over : Kind → Value → Value → Prop
  concrete : ∀ {k x y}, Over k x y → k.concrete = true
  meet : ∀ {k l x y z}, Over k x y → Over l x z → y = z ∧ (clash ∨ k.meets st l = true)

namespace Layers

variable {st : Option Subtyping} {clash : Prop} {lenient : Bool} (D : Layers st clash)
  {val : String → D.Value} {k l : Kind} {s t u w : Stack} {x y z : D.Value} {a b n m : String}

/-- A value has slots on top of another value. -/
def Piled : Stack → D.Value → D.Value → Prop
  | [], x, y => x = y
  | k :: s, x, z => ∃ y, D.Over k x y ∧ Piled s y z

variable {D}

theorem Piled.concrete (h : D.Piled s x z) : Kind.slotsConcrete s = true := by
  induction s generalizing x with
  | nil => rfl
  | cons k s ih =>
    obtain ⟨y, hk, hs⟩ := h
    exact Kind.slotsConcrete_cons.2 ⟨D.concrete hk, ih hs⟩

theorem Piled.append (h : D.Piled s x y) (h' : D.Piled t y z) : D.Piled (s ++ t) x z := by
  induction s generalizing x with
  | nil =>
    obtain rfl : x = y := h
    exact h'
  | cons k s ih =>
    obtain ⟨x', hk, hs⟩ := h
    exact ⟨x', hk, ih hs⟩

/-! ## The theory of values -/

section

variable (D) (val)

/-- What a name may equal: a variable of its value, or slots on one. -/
def Call (n : String) (k : Kind) : Prop :=
  (∃ m, k = .stackVar m ∧ val m = val n) ∨
    ∃ s m, k = .stack (s ++ [.stackVar m]) ∧ D.Piled s (val n) (val m)

/-- Stacks that may be unified: slots on variables that have one value, or concrete stacks. -/
def Par (v w : Stack) : Prop :=
  (∃ s a t b x, v = s ++ [.stackVar a] ∧ w = t ++ [.stackVar b] ∧ D.Piled s x (val a) ∧
      D.Piled t x (val b)) ∨
    Kind.slotsConcrete v = true ∧ Kind.slotsConcrete w = true ∧
      (clash ∨ Kind.slotsMeet st v w = true)

end

theorem slotAsk (hk : k.concrete = true) (hl : l.concrete = true)
    (h : clash ∨ k.meets st l = true) : SlotAsk st clash (D.Call val) (D.Par val) k l := by
  have hmeet : clash ∨ Unify.compatible st k l = true ∧ _ :=
    h.imp_right (Kind.compatible_iff_meets hk hl).2
  refine ⟨fun a ha => absurd ha (Kind.ne_typeVar_of_concrete hk a),
    fun b hb => absurd hb (Kind.ne_typeVar_of_concrete hl b), ?_, (hmeet.imp_right And.left).symm⟩
  rintro c p i d q j rfl rfl
  obtain ⟨hc, hp⟩ := Kind.concrete_effect.1 hk
  obtain ⟨hd, hq⟩ := Kind.concrete_effect.1 hl
  have hstacks := hmeet.imp_right fun h => h.2 c p i d q j rfl rfl
  exact ⟨.inr ⟨hc, hd, hstacks.imp_right And.left⟩, .inr ⟨hp, hq, hstacks.imp_right And.right⟩⟩

/-- Walking down two stacks of concrete slots. -/
theorem aligned_concrete {size : Prop} {empty : String → Prop} (hsize : clash → size)
    (hs : Kind.slotsConcrete s = true) (ht : Kind.slotsConcrete t = true)
    (h : clash ∨ Kind.slotsMeet st s t = true) :
    Aligned size empty (D.Call val) (SlotAsk st clash (D.Call val) (D.Par val)) s t := by
  induction s generalizing t with
  | nil =>
    cases t with
    | nil => exact trivial
    | cons l t =>
      have hl := Kind.ne_stackVar_of_concrete (Kind.slotsConcrete_cons.1 ht).1
      exact (Aligned.nil_cons_iff hl).2 (hsize (h.resolve_right Bool.false_ne_true))
  | cons k s ih =>
    rw [Kind.slotsConcrete_cons] at hs
    have hk := Kind.ne_stackVar_of_concrete hs.1
    cases t with
    | nil => exact (Aligned.cons_nil_iff hk).2 (hsize (h.resolve_right Bool.false_ne_true))
    | cons l t =>
      rw [Kind.slotsConcrete_cons] at ht
      have hl := Kind.ne_stackVar_of_concrete ht.1
      rw [Kind.slotsMeet_cons] at h
      exact (Aligned.cons_iff hk hl).2 ⟨slotAsk hs.1 ht.1 (h.imp_right And.left),
        ih hs.2 ht.2 (h.imp_right And.right)⟩

/-- Walking down two stacks of one value. -/
theorem aligned_piled {size : Prop} {empty : String → Prop} (hs : D.Piled s x (val a))
    (ht : D.Piled t x (val b)) :
    Aligned size empty (D.Call val) (SlotAsk st clash (D.Call val) (D.Par val))
      (s ++ [.stackVar a]) (t ++ [.stackVar b]) := by
  induction s generalizing t x with
  | nil =>
    obtain rfl : x = val a := hs
    cases t with
    | nil => exact ⟨.inr ⟨[], b, rfl, ht⟩, .inr ⟨[], a, rfl, Eq.symm ht⟩⟩
    | cons l t =>
      have hl := Kind.ne_stackVar_of_concrete (Kind.slotsConcrete_cons.1 ht.concrete).1
      exact (Aligned.var_cons_iff hl).2 (.inr ⟨l :: t, b, rfl, ht⟩)
  | cons k s ih =>
    have hk := Kind.ne_stackVar_of_concrete (Kind.slotsConcrete_cons.1 hs.concrete).1
    cases t with
    | nil =>
      obtain rfl : x = val b := ht
      exact (Aligned.cons_var_iff hk).2 (.inr ⟨k :: s, a, rfl, hs⟩)
    | cons l t =>
      have hl := Kind.ne_stackVar_of_concrete (Kind.slotsConcrete_cons.1 ht.concrete).1
      obtain ⟨y, hky, hs⟩ := hs
      obtain ⟨z, hlz, ht⟩ := ht
      obtain ⟨rfl, hmeet⟩ := D.meet hky hlz
      exact (Aligned.cons_iff hk hl).2 ⟨slotAsk (D.concrete hky) (D.concrete hlz) hmeet, ih hs ht⟩

variable (D val)

/-- **The theory of values.** -/
def theory (lenient : Bool) : Theory st lenient where
  mayClash := clash
  same n m := val n = val m
  eqn n k := D.Call val n k ∧ ∀ slot, k ≠ .stack [slot]
  call := D.Call val
  par := D.Par val
  same_equiv := ⟨fun _ => rfl, fun h => h.symm, fun h h' => h.trans h'⟩
  eqn_congr {n m k} h hk := ⟨by rw [Call, ← h]; exact hk.1, hk.2⟩
  eqn_of_call h hslot := ⟨h, hslot⟩
  call_slot {n k} h := by
    rcases h with ⟨m, h, -⟩ | ⟨s, m, h, hs⟩
    · cases h
    · rcases List.append_eq_singleton_iff.1 (Kind.stack.inj h).symm with ⟨rfl, hk⟩ | ⟨-, hk⟩
      · exact .inl ⟨m, (List.singleton_inj.1 hk).symm, Eq.symm hs⟩
      · cases hk
  call_self {n k m} h hm := by
    rcases h.1 with ⟨m', rfl, -⟩ | ⟨s, m', rfl, -⟩
    · obtain rfl := Option.some.inj hm
      exact .inl ⟨m', rfl, rfl⟩
    · cases hm
  same_var {n k m} h hm := by
    rcases h.1 with ⟨m', rfl, hval⟩ | ⟨s, m', rfl, -⟩
    · obtain rfl := Option.some.inj hm
      exact hval.symm
    · cases hm
  par_effect {n c p i d q j} h := by
    rcases h.1 with ⟨_, h, -⟩ | ⟨_, _, h, -⟩ <;> cases h
  par_stack {n v w} hv hw := by
    rcases hv.1 with ⟨_, hv, -⟩ | ⟨s, a, hv, hs⟩
    · cases hv
    rcases hw.1 with ⟨_, hw, -⟩ | ⟨t, b, hw, ht⟩
    · cases hw
    exact .inl ⟨s, a, t, b, _, Kind.stack.inj hv, Kind.stack.inj hw, hs, ht⟩
  par_aligned {v w} h := by
    rcases h with ⟨s, a, t, b, x, rfl, rfl, hs, ht⟩ | ⟨hv, hw, h⟩
    · exact aligned_piled hs ht
    · exact aligned_concrete .inr hv hw h

end Layers

/-! ## Heights -/

namespace Layers

variable {st : Option Subtyping} {s : Stack} {x y : ℤ}

/-- **The height of a stack.**  Slots of one height may clash. -/
def heights (st : Option Subtyping) : Layers st True where
  Value := ℤ
  Over k x y := k.concrete = true ∧ x = y + 1
  concrete h := h.1
  meet h h' := ⟨(Int.add_left_inj 1).1 (h.2.symm.trans h'.2), .inl trivial⟩

theorem piled_heights_iff :
    (heights st).Piled s x y ↔ Kind.slotsConcrete s = true ∧ x = y + s.length := by
  induction s generalizing x with
  | nil =>
    rw [List.length_nil, Int.natCast_zero, Int.add_zero]
    exact ⟨fun h => ⟨rfl, h⟩, And.right⟩
  | cons k s ih =>
    rw [Kind.slotsConcrete_cons, List.length_cons, Int.natCast_succ, ← Int.add_assoc]
    constructor
    · rintro ⟨z, ⟨hk, hx⟩, hz⟩
      obtain ⟨hs, rfl⟩ := ih.1 hz
      exact ⟨⟨hk, hs⟩, hx⟩
    · rintro ⟨⟨hk, hs⟩, rfl⟩
      exact ⟨(y + s.length : ℤ), ⟨hk, rfl⟩, ih.2 ⟨hs, rfl⟩⟩

end Layers

/-! ## Cells -/

/-- **A place on a stack**: what is put there meets what is taken from there. -/
structure Cell (st : Option Subtyping) where
  produced : Kind
  consumed : Kind
  produced_concrete : produced.concrete = true
  consumed_concrete : consumed.concrete = true
  meet : produced.meets st consumed = true

namespace Cell

variable {st : Option Subtyping} {s t : Stack} {k : Kind}

/-- A slot that is put or taken. -/
def Has (c : Cell st) (k : Kind) : Prop := k = c.produced ∨ k = c.consumed

theorem Has.concrete {c : Cell st} (h : c.Has k) : k.concrete = true := by
  rcases h with rfl | rfl
  exacts [c.produced_concrete, c.consumed_concrete]

theorem Has.meets {c : Cell st} {l : Kind} (h : c.Has k) (h' : c.Has l) : k.meets st l = true := by
  rcases h with rfl | rfl <;> rcases h' with rfl | rfl
  exacts [Kind.meets_self _, c.meet, Kind.meets_symm c.meet, Kind.meets_self _]

/-- **Stacks that meet are put on and taken from the same places.** -/
theorem exists_cells (hs : Kind.slotsConcrete s = true) (ht : Kind.slotsConcrete t = true)
    (h : Kind.slotsMeet st s t = true) :
    ∃ x : List (Cell st), x.map produced = s ∧ x.map consumed = t := by
  induction s generalizing t with
  | nil =>
    obtain rfl := List.length_eq_zero_iff.1 (Kind.length_eq_of_slotsMeet h).symm
    exact ⟨[], rfl, rfl⟩
  | cons k s ih =>
    cases t with
    | nil => cases h
    | cons l t =>
      rw [Kind.slotsConcrete_cons] at hs ht
      rw [Kind.slotsMeet_cons] at h
      obtain ⟨x, rfl, rfl⟩ := ih hs.2 ht.2 h.2
      exact ⟨⟨k, l, hs.1, ht.1, h.1⟩ :: x, rfl, rfl⟩

end Cell

namespace Layers

variable {st : Option Subtyping} {s : Stack} {x y : List (Cell st)}

/-- **The slots that a stack may have.** -/
def cells (st : Option Subtyping) : Layers st False where
  Value := List (Cell st)
  Over k x y := ∃ c : Cell st, x = c :: y ∧ c.Has k
  concrete h := h.elim fun _ h => h.2.concrete
  meet := by
    rintro k l _ y z ⟨c, rfl, hk⟩ ⟨_, ⟨⟩, hl⟩
    exact ⟨rfl, .inr (hk.meets hl)⟩

theorem piled_cells_iff : (cells st).Piled s x y ↔
    ∃ z : List (Cell st), x = z ++ y ∧ List.Forall₂ (fun k c => Cell.Has c k) s z := by
  induction s generalizing x with
  | nil =>
    simp only [List.forall₂_nil_left_iff, exists_eq_right, List.nil_append]
    exact .rfl
  | cons k s ih =>
    constructor
    · rintro ⟨x', ⟨c, rfl, hk⟩, hx⟩
      obtain ⟨z, rfl, hs⟩ := ih.1 hx
      exact ⟨c :: z, rfl, .cons hk hs⟩
    · rintro ⟨_, rfl, hs⟩
      cases hs with
      | @cons _ c _ z hk hs => exact ⟨z ++ y, ⟨c, rfl, hk⟩, ih.2 ⟨z, rfl, hs⟩⟩

theorem piled_produced (x y : List (Cell st)) :
    (cells st).Piled (x.map Cell.produced) (x ++ y) y :=
  piled_cells_iff.2 ⟨x, rfl, List.forall₂_map_left_iff.2 (List.forall₂_same.2 fun _ _ => .inl rfl)⟩

theorem piled_consumed (x y : List (Cell st)) :
    (cells st).Piled (x.map Cell.consumed) (x ++ y) y :=
  piled_cells_iff.2 ⟨x, rfl, List.forall₂_map_left_iff.2 (List.forall₂_same.2 fun _ _ => .inr rfl)⟩

/-- Where the same is put and taken, no other slots can be. -/
theorem eq_of_piled_cells (hx : x.map Cell.produced = x.map Cell.consumed)
    (h : (cells st).Piled s x []) : s = x.map Cell.produced := by
  obtain ⟨z, rfl, hs⟩ := piled_cells_iff.1 h
  clear h
  rw [List.append_nil] at hx ⊢
  induction hs with
  | nil => rfl
  | @cons k c s z hk _ ih =>
    obtain ⟨hc, hz⟩ := List.cons.inj hx
    rw [List.map_cons, ← ih hz]
    rcases hk with rfl | rfl
    exacts [rfl, congrArg (· :: s) hc.symm]

theorem eq_nil_of_piled_cells (hlen : s.length = x.length) (h : (cells st).Piled s x y) : y = [] := by
  obtain ⟨z, rfl, hs⟩ := piled_cells_iff.1 h
  rw [List.length_append, hs.length_eq] at hlen
  exact List.length_eq_zero_iff.1 (by omega)

end Layers

end StackEffect
