import StackEffect.Proofs.Solve.Outcome

/-!
# Proofs/Solve/Agreement — settled stacks are resolved to stacks that look alike

    shown φ θ v        the slots that v is resolved to, seen through φ

Stacks that are settled look alike if the slots of settled stacks do, and if each class looks like
its representative (`Outcome.shown_eq`).  The classes refer to one another, so this is an induction
on the weight of what they are resolved to: two stacks agree up to a bound if they are equal as soon
as one of them stays within it, and members of a class agree up to a bound if settled stacks agree
below it.
-/

namespace StackEffect

/-! ## Agreement up to a bound -/

/-- **Values agree up to a bound** if they are equal as soon as one of them weighs no more. -/
def SameUpTo {α : Type} (weight : α → Nat) (bound : Nat) (x y : α) : Prop :=
  weight x ≤ bound ∨ weight y ≤ bound → x = y

namespace SameUpTo

variable {α : Type} {weight : α → Nat} {bound : Nat} {x y : α}

theorem equivalence (weight : α → Nat) (bound : Nat) : Equivalence (SameUpTo weight bound) where
  refl _ _ := rfl
  symm h hw := (h hw.symm).symm
  trans h h' hw := by
    rcases hw with hx | hz
    · have hxy := h (.inl hx)
      exact hxy.trans (h' (.inl (hxy ▸ hx)))
    · have hyz := h' (.inr hz)
      exact (h (.inr (hyz ▸ hz))).trans hyz

theorem symm (h : SameUpTo weight bound x y) : SameUpTo weight bound y x :=
  (equivalence weight bound).symm h

/-- Values agree if they do so up to every bound. -/
theorem eq_of_forall (h : ∀ bound, SameUpTo weight bound x y) : x = y :=
  h (weight x) (.inl (Nat.le_refl _))

end SameUpTo

/-- The weight of a list of slots, by the weights of the slots. -/
def listWeight {α : Type} (weight : α → Nat) : List α → Nat
  | [] => 0
  | x :: s => weight x + 1 + listWeight weight s

/-- Lists agree up to a bound if heads and rests do so below it. -/
theorem SameUpTo.cons {α : Type} {weight : α → Nat} {bound : Nat} {x y : α} {s t : List α}
    (h : ∀ b < bound, SameUpTo weight b x y)
    (hs : ∀ b < bound, SameUpTo (listWeight weight) b s t) :
    SameUpTo (listWeight weight) bound (x :: s) (y :: t) := by
  intro hw
  rw [listWeight, listWeight] at hw
  rcases hw with hw | hw
  · rw [h (weight x) (by omega) (.inl (Nat.le_refl _)), hs _ (by omega) (.inl (Nat.le_refl _))]
  · rw [h (weight y) (by omega) (.inr (Nat.le_refl _)), hs _ (by omega) (.inr (Nat.le_refl _))]

theorem SameUpTo.singleton {α : Type} {weight : α → Nat} {bound : Nat} {x y : α}
    (h : SameUpTo weight bound x y) : SameUpTo (listWeight weight) bound [x] [y] := by
  intro hw
  simp only [listWeight, Nat.add_zero] at hw
  rw [h (hw.imp Nat.le_of_succ_le Nat.le_of_succ_le)]

/-- A stack of one slot is that slot, and any other stack stays as it is. -/
theorem Kind.asSlots_unwrap {sort : String → VarSort} {v : Stack} (h : (stack v).Tidy sort) :
    (stack v).unwrap.asSlots = v := by
  match v with
  | [] | _ :: _ :: _ => rfl
  | [k] =>
    have hk := ne_stack_of_fitsOn (tidy_cons_iff.1 h).1
    cases k with
    | stack s => exact absurd rfl (hk s)
    | _ => rfl

/-- The only stack that is a stack variable itself. -/
theorem Kind.eq_of_varName?_unwrap {sort : String → VarSort} {v : Stack} {a : String}
    (h : (stack v).Tidy sort) (ha : sort a = .stack)
    (hv : (stack v).unwrap.varName? = some a) : v = [stackVar a] := by
  match v with
  | [] | _ :: _ :: _ => simp [unwrap, varName?] at hv
  | [k] =>
    obtain ⟨hfit, hk, -⟩ := tidy_cons_iff.1 h
    cases k with
    | stackVar b => exact congrArg (fun c => [stackVar c]) (Option.some.inj hv)
    | typeVar b =>
      cases Option.some.inj hv
      simpa [ha] using tidy_typeVar_iff.1 hk
    | stack s => exact absurd rfl (ne_stack_of_fitsOn hfit s)
    | _ => simp [unwrap, varName?] at hv

/-! ## Settled stacks -/

/-- The slots that a stack is resolved to, seen through `φ`. -/
def shown {α : Type} (φ : Kind → α) (θ : String → Option Kind) (v : Stack) : List α :=
  (Kind.resolveSlots θ v).map φ

theorem shown_cons {α : Type} {φ : Kind → α} {θ : String → Option Kind} {k : Kind} {v : Stack}
    (hk : ∀ a, k ≠ .stackVar a) : shown φ θ (k :: v) = φ (k.resolve θ) :: shown φ θ v := by
  rw [shown, Kind.resolveSlots_cons, Kind.spread_eq_singleton hk]
  rfl

theorem shown_stackVar {α : Type} {φ : Kind → α} {θ : String → Option Kind} {a : String} :
    shown φ θ [.stackVar a] = ((Kind.stackVar a).resolve θ).asSlots.map φ := by
  rw [shown, Kind.resolveSlots_cons, Kind.resolveSlots, List.append_nil]
  rfl

namespace Outcome

variable {sort : String → VarSort} {L : Kind → Prop} {P : Partition} {θ : String → Option Kind}
  {α : Type} {φ : Kind → α} {weight : α → Nat} {bound : Nat} {v w : Stack} {k l : Kind}

/-- Settled stacks agree below a bound. -/
def AgreeBelow (L : Kind → Prop) (P : Partition) (θ : String → Option Kind) (φ : Kind → α)
    (weight : α → Nat) (bound : Nat) : Prop :=
  ∀ b < bound, ∀ v w, L (.stack v) → L (.stack w) → P.Settled v w →
    SameUpTo (listWeight weight) b (shown φ θ v) (shown φ θ w)

/-- **Settled slots agree** as far as settled stacks agree. -/
def SlotsAgree (L : Kind → Prop) (P : Partition) (θ : String → Option Kind) (φ : Kind → α)
    (weight : α → Nat) : Prop :=
  ∀ bound, AgreeBelow L P θ φ weight bound → ∀ k l, L k → L l → k.isSlot = true → l.isSlot = true →
    P.SettledSlot k l → SameUpTo weight bound (φ (k.resolve θ)) (φ (l.resolve θ))

/-- **Members agree with the representative** as far as settled stacks agree, in classes that a
stack variable belongs to. -/
def MembersAgree (sort : String → VarSort) (L : Kind → Prop) (P : Partition)
    (θ : String → Option Kind) (φ : Kind → α) (weight : α → Nat) : Prop :=
  ∀ bound, AgreeBelow L P θ φ weight bound → ∀ i a, P.Names a i → sort a = .stack →
    ∀ r k, P.rep i = some r → k ∈ P.members i → (∀ b, k ≠ .stackVar b) →
      SameUpTo (listWeight weight) bound ((r.resolve θ).asSlots.map φ) (shown φ θ k.asSlots)

theorem AgreeBelow.mono {b : Nat} (h : AgreeBelow L P θ φ weight bound) (hb : b ≤ bound) :
    AgreeBelow L P θ φ weight b :=
  fun c hc => h c (Nat.lt_of_lt_of_le hc hb)

theorem ne_stackVar_of_two (h : Outcome sort L P θ) {m : Kind} (hv : L (.stack (k :: m :: v)))
    (a : String) : k ≠ .stackVar a := by
  rintro rfl
  simpa using Kind.eq_nil_of_fitsOn (Kind.tidy_cons_iff.1 (h.tidy hv)).1

/-- Two slots above settled stacks. -/
theorem sameUpTo_cons (h : Outcome sort L P θ) (hslots : SlotsAgree L P θ φ weight)
    (hbelow : AgreeBelow L P θ φ weight bound) (hv : L (.stack (k :: v))) (hw : L (.stack (l :: w)))
    (hk : ∀ a, k ≠ .stackVar a) (hl : ∀ a, l ≠ .stackVar a) (hkl : P.SettledSlot k l)
    (hvw : P.Settled v w) :
    SameUpTo (listWeight weight) bound (shown φ θ (k :: v)) (shown φ θ (l :: w)) := by
  rw [shown_cons hk, shown_cons hl]
  have hks := Kind.isSlot_of_fitsOn (Kind.tidy_cons_iff.1 (h.tidy hv)).1 hk
  have hls := Kind.isSlot_of_fitsOn (Kind.tidy_cons_iff.1 (h.tidy hw)).1 hl
  exact .cons
    (fun b hb => hslots b (hbelow.mono (Nat.le_of_lt hb)) k l (h.closed.slot hv) (h.closed.slot hw)
      hks hls hkl)
    fun b hb => hbelow b hb v w (h.closed.rest hv) (h.closed.rest hw) hvw

/-- Two stacks that met in a class agree as far as settled stacks do.  Neither is a stack of one
slot, so that neither begins with a stack variable. -/
theorem sameUpTo_of_settled_members (h : Outcome sort L P θ) (hstrict : P.lenient = false)
    (hslots : SlotsAgree L P θ φ weight) (hbelow : AgreeBelow L P θ φ weight bound) {i : Nat}
    (hv : .stack v ∈ P.members i) (hw : .stack w ∈ P.members i) (hvw : P.Settled v w) :
    SameUpTo (listWeight weight) bound (shown φ θ v) (shown φ θ w) := by
  match v, w with
  | [], [] => exact fun _ => rfl
  | [_], _ => exact absurd hv h.unwrapped
  | _, [_] => exact absurd hw h.unwrapped
  | [], _ :: _ :: _ | _ :: _ :: _, [] => simp [Partition.Settled, hstrict] at hvw
  | k :: m :: v, l :: n :: w =>
    have hk := h.ne_stackVar_of_two (h.member hv)
    have hl := h.ne_stackVar_of_two (h.member hw)
    rw [Partition.Settled.eq_4 _ _ _ _ _ (fun a _ ha _ => hk a ha) hk hl] at hvw
    exact h.sameUpTo_cons hslots hbelow (h.member hv) (h.member hw) hk hl hvw.1 hvw.2

/-- **Linked members agree** as far as settled stacks do. -/
theorem sameUpTo_of_linked (h : Outcome sort L P θ) (hstrict : P.lenient = false)
    (hslots : SlotsAgree L P θ φ weight) (hbelow : AgreeBelow L P θ φ weight bound) {i : Nat}
    (hkl : P.Linked i k l) :
    SameUpTo (listWeight weight) bound (shown φ θ k.asSlots) (shown φ θ l.asSlots) := by
  have hequiv : Equivalence fun k l : Kind =>
      SameUpTo (listWeight weight) bound (shown φ θ k.asSlots) (shown φ θ l.asSlots) :=
    (SameUpTo.equivalence _ _).comap fun k : Kind => shown φ θ k.asSlots
  refine hkl.lift hequiv fun k l hk hl hagree => ?_
  match k, l, hagree with
  | .effect .., .effect .., hagree =>
    exact (hslots bound hbelow _ _ (h.member hk) (h.member hl) rfl rfl hagree).singleton
  | .stack s, .stack t, hagree =>
    exact h.sameUpTo_of_settled_members hstrict hslots hbelow hk hl hagree

/-- **What relates a class to its members relates a stack variable to every stack that it is bound
to.** -/
theorem relates_of_bound (h : Outcome sort L P θ) (hac : P.Acyclic) {R : List α → List α → Prop}
    (hrefl : ∀ x, R x x) {a : String} (hmembers : ∀ i, P.Names a i → ∀ r k, P.rep i = some r →
      k ∈ P.members i → (∀ b, k ≠ .stackVar b) → R ((r.resolve θ).asSlots.map φ) (shown φ θ k.asSlots))
    (ha : L (.stackVar a)) (hw : L (.stack w)) (hb : P.Bound a (.stack w)) :
    R (shown φ θ [.stackVar a]) (shown φ θ w) := by
  rcases hb with hself | ⟨i, hi, hmem⟩
  · rw [Kind.eq_of_varName?_unwrap (h.tidy hw) (Kind.tidy_stackVar_iff.1 (h.tidy ha)) hself]
    exact hrefl _
  · obtain ⟨r, hr⟩ := h.exists_rep hmem
    have hvar := h.resolve_var hac (Partition.names_of_index hi) hr (k := .stackVar a) rfl
    rw [shown_stackVar, hvar, ← Kind.asSlots_unwrap (h.tidy hw)]
    by_cases hne : ∃ b, (Kind.stack w).unwrap = .stackVar b
    · obtain ⟨b, hb⟩ := hne
      rw [hb] at hmem ⊢
      rw [← h.resolve_var hac (h.sound.member_var hmem rfl) hr (k := .stackVar b) rfl,
        ← shown_stackVar]
      exact hrefl _
    · exact hmembers i (Partition.names_of_index hi) r _ hr hmem (not_exists.1 hne)

/-- A stack variable agrees with a stack that it is bound to. -/
theorem sameUpTo_of_bound (h : Outcome sort L P θ) (hac : P.Acyclic)
    (hmembers : MembersAgree sort L P θ φ weight) (hbelow : AgreeBelow L P θ φ weight bound)
    {a : String} (ha : L (.stackVar a)) (hw : L (.stack w)) (hb : P.Bound a (.stack w)) :
    SameUpTo (listWeight weight) bound (shown φ θ [.stackVar a]) (shown φ θ w) :=
  h.relates_of_bound hac (fun _ _ => rfl) (fun i hi r k hr hk => hmembers bound hbelow i a hi
    (Kind.tidy_stackVar_iff.1 (h.tidy ha)) r k hr hk) ha hw hb

/-- **Settled stacks agree up to a bound** if they agree below it. -/
theorem sameUpTo_of_settled (h : Outcome sort L P θ) (hstrict : P.lenient = false)
    (hac : P.Acyclic) (hslots : SlotsAgree L P θ φ weight)
    (hmembers : MembersAgree sort L P θ φ weight) (hbelow : AgreeBelow L P θ φ weight bound)
    (hv : L (.stack v)) (hw : L (.stack w)) (hvw : P.Settled v w) :
    SameUpTo (listWeight weight) bound (shown φ θ v) (shown φ θ w) := by
  -- a stack variable is all that is left on its side
  have hbottom : ∀ {a : String} {r : Stack}, L (.stack (.stackVar a :: r)) → r = [] := fun h' =>
    Kind.eq_nil_of_fitsOn (Kind.tidy_cons_iff.1 (h.tidy h')).1
  have hbound := fun {a : String} {w : Stack} (ha : L (.stack [.stackVar a])) =>
    h.sameUpTo_of_bound (w := w) hac hmembers hbelow (h.closed.slot ha)
  rw [Partition.settled_iff] at hvw
  revert hvw
  fun_cases Aligned <;> intro hvw
  case case1 =>
    cases hbottom hv
    exact hbound hv hw hvw.1
  case case2 =>
    cases hbottom hv
    exact hbound hv hw hvw
  case case3 =>
    cases hbottom hw
    exact (hbound hw hv hvw).symm
  case case4 hk hl =>
    exact h.sameUpTo_cons hslots hbelow hv hw hk hl hvw.1 ((P.settled_iff _ _).2 hvw.2)
  case case5 => exact fun _ => rfl
  case case6 => exact hbound hv hw (hvw.resolve_left (by simp [hstrict]))
  case case7 => exact (hbound hw hv (hvw.resolve_left (by simp [hstrict]))).symm
  case case8 => simp [hstrict] at hvw

theorem agreeBelow (h : Outcome sort L P θ) (hstrict : P.lenient = false) (hac : P.Acyclic)
    (hslots : SlotsAgree L P θ φ weight) (hmembers : MembersAgree sort L P θ φ weight)
    (bound : Nat) : AgreeBelow L P θ φ weight bound := by
  induction bound with
  | zero => exact fun _ hb => absurd hb (Nat.not_lt_zero _)
  | succ bound ih =>
    intro b hb v w hv hw hvw
    have hbelow := ih.mono (Nat.le_of_lt_succ hb)
    exact h.sameUpTo_of_settled hstrict hac hslots hmembers hbelow hv hw hvw

/-- **Settled stacks look alike.** -/
theorem shown_eq (h : Outcome sort L P θ) (hstrict : P.lenient = false) (hac : P.Acyclic)
    (hslots : SlotsAgree L P θ φ weight) (hmembers : MembersAgree sort L P θ φ weight)
    (hv : L (.stack v)) (hw : L (.stack w)) (hvw : P.Settled v w) : shown φ θ v = shown φ θ w :=
  SameUpTo.eq_of_forall fun bound =>
    h.agreeBelow hstrict hac hslots hmembers (bound + 1) bound (Nat.lt_succ_self _) v w hv hw hvw

/-- A stack variable looks like every stack that it is bound to. -/
theorem shown_eq_of_bound (h : Outcome sort L P θ) (hstrict : P.lenient = false) (hac : P.Acyclic)
    (hslots : SlotsAgree L P θ φ weight) (hmembers : MembersAgree sort L P θ φ weight) {a : String}
    (ha : L (.stackVar a)) (hw : L (.stack w)) (hb : P.Bound a (.stack w)) :
    shown φ θ [.stackVar a] = shown φ θ w :=
  SameUpTo.eq_of_forall fun bound => h.sameUpTo_of_bound hac hmembers
    (h.agreeBelow hstrict hac hslots hmembers bound) ha hw hb

end Outcome

end StackEffect
