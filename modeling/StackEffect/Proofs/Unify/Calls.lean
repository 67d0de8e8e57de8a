import StackEffect.Proofs.Unify.Parts

/-!
# Proofs/Unify/Calls — one call on the store after another

A caller hands in pairs of stacks and pairs of kinds that may be effects; if they are not, nothing is
asked of them.  A call that fails is not taken back, and does not keep the caller from the next one.
What a theory says of one call it says of all of them (`Store.Under.performAll`).
-/

namespace StackEffect

/-- A call on the store: two stacks, or two effects, are equal. -/
inductive Call where
  | onStacks (v w : Stack)
  | onEffects (f g : Kind)

namespace Call

/-- The two kinds that are to be equal. -/
def sides : Call → Kind × Kind
  | onStacks v w => (.stack v, .stack w)
  | onEffects f g => (f, g)

/-- Makes a call. -/
def perform : Call → Pass Unit
  | onStacks v w => Store.unifyStacks v w
  | onEffects f g => Store.unifyEffects f g

/-- What a relation between stacks says of a call. -/
def Relates (r : Stack → Stack → Prop) : Call → Prop
  | onStacks v w => r v w
  | onEffects f g => ∀ c p i d q j, f = .effect c p i → g = .effect d q j → r c d ∧ r p q

theorem Relates.imp {r r' : Stack → Stack → Prop} (h : ∀ v w, r v w → r' v w) {c : Call}
    (hc : c.Relates r) : c.Relates r' := by
  cases c with
  | onStacks v w => exact h v w hc
  | onEffects f g =>
    exact fun c p i d q j hf hg => (hc c p i d q j hf hg).imp (h _ _) (h _ _)

end Call

namespace Store

variable {st : Option Subtyping} {lenient : Bool} {T : Theory st lenient} {s : Store}

/-- **Makes calls in turn**, and tells the faults of those that failed. -/
def performAll : List Call → Store → List Fault × Store
  | [], s => ([], s)
  | c :: cs, s =>
    match c.perform s with
    | .ok _ t => performAll cs t
    | .error e t => let (faults, u) := performAll cs t; (e :: faults, u)

theorem Under.performs_call (h : s.Under T) {c : Call} (hc : c.Relates T.par) :
    Performs T c.perform s fun Q => c.Relates Q.Settled := by
  cases c with
  | onStacks v w => exact h.performs_unifyStacks hc
  | onEffects f g => exact h.performs_unifyEffects hc

/-- **What a theory says of all calls.**  Only faults that it does not exclude occur; and if none
occur, all calls are settled in the end. -/
theorem Under.performAll (h : s.Under T) {cs : List Call} (hcs : ∀ c ∈ cs, c.Relates T.par)
    {faults : List Fault} {t : Store} (ht : performAll cs s = (faults, t)) :
    t.Under T ∧ (∀ e ∈ faults, T.Fails e) ∧
      (faults = [] → T.Step s.partition t.partition ∧ ∀ c ∈ cs, c.Relates t.partition.Settled) := by
  induction cs generalizing s faults t with
  | nil =>
    obtain ⟨rfl, rfl⟩ := Prod.mk.inj ht
    exact ⟨h, by simp, fun _ => ⟨.refl T _, by simp⟩⟩
  | cons c cs ih =>
    rw [List.forall_mem_cons] at hcs
    have hc := h.performs_call hcs.1
    rw [Store.performAll] at ht
    split at ht
    · next u hu =>
      obtain ⟨hu', hstep, hset⟩ := hc.ok hu
      obtain ⟨ht', hfaults, hall⟩ := ih hu' hcs.2 ht
      refine ⟨ht', hfaults, fun he => ?_⟩
      obtain ⟨hstep', hsets⟩ := hall he
      refine ⟨hstep.trans hstep', List.forall_mem_cons.2 ⟨?_, hsets⟩⟩
      exact hset.imp fun v w hvw => hvw.mono hstep'.grows
    · next e u hu =>
      obtain ⟨hu', hfail⟩ := hc.error hu
      obtain ⟨fs, t', htt⟩ : ∃ fs t', performAll cs u = (fs, t') := ⟨_, _, rfl⟩
      rw [htt] at ht
      obtain ⟨rfl, rfl⟩ := Prod.mk.inj ht
      obtain ⟨ht', hfaults, -⟩ := ih hu' hcs.2 htt
      exact ⟨ht', List.forall_mem_cons.2 ⟨hfail, hfaults⟩, by simp⟩

end Store

end StackEffect
