import StackEffect.Proofs.Kind.WellFormed
import StackEffect.Proofs.Unify.Calls

/-!
# Proofs/Unify/Tidy — classes of tidy kinds

    Theory.tidy sort L        members come from L, and names of slots are called with slots
    Theory.Complete T P       P is what calls on an empty store have led to

If the kinds that are handed in are tidy then all members are.  No member is a stack of one slot,
and the class of a name that stands for one slot has a member that is one.
-/

namespace StackEffect

/-- Kinds that take up one slot: all but stacks and their variables. -/
def Kind.isSlot : Kind → Bool
  | stack _ | stackVar _ => false
  | _ => true

@[simp] theorem Kind.isSlot_stack (s : Stack) : (stack s).isSlot = false := rfl

@[simp] theorem Kind.isSlot_stackVar (a : String) : (stackVar a).isSlot = false := rfl

/-- What fits on a stack and is no stack variable is a slot. -/
theorem Kind.isSlot_of_fitsOn {k : Kind} {s : Stack} (h : fitsOn k s = true)
    (hv : ∀ a, k ≠ stackVar a) : k.isSlot = true := by
  cases k with
  | stack t => simp [fitsOn] at h
  | stackVar a => exact absurd rfl (hv a)
  | _ => rfl

/-- Tidy kinds are made of tidy kinds. -/
theorem Kind.closed_tidy (sort : String → VarSort) : Closed (Tidy sort) where
  slot h := (tidy_cons_iff.1 h).2.1
  rest h := (tidy_cons_iff.1 h).2.2
  consumed h := (tidy_effect_iff.1 h).1
  produced h := (tidy_effect_iff.1 h).2

namespace Theory

variable {st : Option Subtyping} {lenient : Bool} {sort : String → VarSort} {L : Kind → Prop}

/-- **Tidy stacks are aligned** in the theory of tidy kinds. -/
theorem aligned_tidy (hL : Kind.Closed L) (hT : ∀ k, L k → k.Tidy sort) {v w : Stack}
    (hv : L (.stack v)) (hw : L (.stack w)) :
    Aligned (lenient = true ∨ True)
      (fun a => lenient = true ∨ L (.stack []) ∧ (sort a = .slot → (Kind.stack []).isSlot = true))
      (fun a k => L k ∧ (sort a = .slot → k.isSlot = true))
      (SlotAsk st True (fun a k => L k ∧ (sort a = .slot → k.isSlot = true))
        fun s t => L (.stack s) ∧ L (.stack t)) v w := by
  -- a stack variable is no name of a slot
  have hbottom : ∀ {a : String} {r : Stack}, L (.stack (.stackVar a :: r)) → sort a ≠ .slot := by
    intro a r h ha
    simpa [ha] using Kind.tidy_stackVar_iff.1 (hT _ (hL.slot h))
  fun_induction Aligned with
  | case1 a r b r' =>
    exact ⟨⟨hw, fun ha => absurd ha (hbottom hv)⟩, hv, fun hb => absurd hb (hbottom hw)⟩
  | case2 => exact ⟨hw, fun ha => absurd ha (hbottom hv)⟩
  | case3 => exact ⟨hv, fun hb => absurd hb (hbottom hw)⟩
  | case4 k r l r' _ hk hl ih =>
    have hks := Kind.isSlot_of_fitsOn (Kind.tidy_cons_iff.1 (hT _ hv)).1 hk
    have hls := Kind.isSlot_of_fitsOn (Kind.tidy_cons_iff.1 (hT _ hw)).1 hl
    refine ⟨⟨fun _ _ => ⟨hL.slot hw, fun _ => hls⟩, fun _ _ => ⟨hL.slot hv, fun _ => hks⟩, ?_,
      .inr trivial⟩, ih (hL.rest hv) (hL.rest hw)⟩
    rintro c p i d q j rfl rfl
    exact ⟨⟨hL.consumed (hL.slot hv), hL.consumed (hL.slot hw)⟩,
      hL.produced (hL.slot hv), hL.produced (hL.slot hw)⟩
  | case5 => trivial
  | case6 => exact .inr ⟨hw, fun ha => absurd ha (hbottom hv)⟩
  | case7 => exact .inr ⟨hv, fun ha => absurd ha (hbottom hw)⟩
  | case8 => exact .inr trivial

/-- **The theory of tidy kinds.** -/
def tidy (sort : String → VarSort) (L : Kind → Prop) (hL : Kind.Closed L)
    (hT : ∀ k, L k → k.Tidy sort) : Theory st lenient where
  mayClash := True
  same _ _ := True
  eqn _ k := L k ∧ ∀ slot, k ≠ .stack [slot]
  call n k := L k ∧ (sort n = .slot → k.isSlot = true)
  par s t := L (.stack s) ∧ L (.stack t)
  same_equiv := true_equivalence
  eqn_congr _ h := h
  eqn_of_call h hs := ⟨h.1, hs⟩
  call_slot h := ⟨hL.slot h.1, fun hn => by simpa [Kind.isSlot] using h.2 hn⟩
  call_self {n k m} h hm := by
    refine ⟨h.1, fun hs => ?_⟩
    cases k with
    | stackVar a =>
      cases Option.some.inj hm
      simpa [hs] using Kind.tidy_stackVar_iff.1 (hT _ h.1)
    | stack => simp [Kind.varName?] at hm
    | _ => rfl
  same_var _ _ := trivial
  par_effect h h' :=
    ⟨⟨hL.consumed h.1, hL.consumed h'.1⟩, hL.produced h.1, hL.produced h'.1⟩
  par_stack h h' := ⟨h.1, h'.1⟩
  par_aligned h := aligned_tidy hL hT h.1 h.2

/-! ## What calls lead to -/

/-- **A partition that calls on an empty store have led to**: members are linked, and every name has
a member in its class that it was constrained to equal. -/
structure Complete (T : Theory st lenient) (P : Partition) : Prop extends T.Good P where
  linked : P.LinkedIn P
  called : ∀ {n}, (P.index n).isSome → ∃ i k, P.index n = some i ∧ k ∈ P.members i ∧ T.call n k

variable {T : Theory st lenient} {P : Partition} {logging : Logging}

theorem Step.complete (h : T.Step (Store.empty st lenient logging).partition P) (hP : T.Good P) :
    T.Complete P where
  toGood := hP
  linked := h.linked P hP.toShaped (.refl P) fun i k l hk => by
    simp [Store.partition, Store.membersOf, Store.kept, Store.empty] at hk
  called {n} hn := (h.called n hn).resolve_left (by simp [Store.partition, Store.classOf?, Store.empty])

end Theory

end StackEffect
