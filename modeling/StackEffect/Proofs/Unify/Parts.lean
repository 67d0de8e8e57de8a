import Mathlib.Data.List.Perm.Subperm
import Mathlib.Data.Quot
import StackEffect.Kind.Vars
import StackEffect.Proofs.Unify.Contract

/-!
# Proofs/Unify/Parts — classes are made of what was handed in

    parts k      k, its slots, the lower parts of its stacks, and their parts

Every member of a class is a part of a kind that was handed in, and no member is listed twice; so no
class outgrows the width that its store allows for (`Store.Under`), and no member is left unmet.
-/

namespace StackEffect

/-- **A set of kinds that has the parts of its kinds.** -/
structure Kind.Closed (L : Kind → Prop) : Prop where
  slot : ∀ {k s}, L (.stack (k :: s)) → L k
  rest : ∀ {k s}, L (.stack (k :: s)) → L (.stack s)
  consumed : ∀ {c p i}, L (.effect c p i) → L (.stack c)
  produced : ∀ {c p i}, L (.effect c p i) → L (.stack p)

namespace Kind

mutual
/-- The parts of a kind. -/
def parts : Kind → List Kind
  | stack s => slotsParts s
  | effect c p i => effect c p i :: (slotsParts c ++ slotsParts p)
  | k => [k]
/-- The parts of a stack. -/
def slotsParts : List Kind → List Kind
  | [] => [stack []]
  | k :: s => stack (k :: s) :: (parts k ++ slotsParts s)
end

theorem stack_mem_slotsParts (s : Stack) : stack s ∈ slotsParts s := by
  cases s <;> simp [slotsParts]

theorem self_mem_parts (k : Kind) : k ∈ parts k := by
  cases k with
  | stack s => exact stack_mem_slotsParts s
  | _ => simp [parts]

/-- All kinds together have their parts. -/
theorem Closed.univ : Closed fun _ => True :=
  ⟨fun _ => trivial, fun _ => trivial, fun _ => trivial, fun _ => trivial⟩

/-- What is listed together is closed if each list is. -/
theorem Closed.append {L M : List Kind} (hL : Closed (· ∈ L)) (hM : Closed (· ∈ M)) :
    Closed (· ∈ L ++ M) where
  slot h := List.mem_append.2 ((List.mem_append.1 h).imp hL.slot hM.slot)
  rest h := List.mem_append.2 ((List.mem_append.1 h).imp hL.rest hM.rest)
  consumed h := List.mem_append.2 ((List.mem_append.1 h).imp hL.consumed hM.consumed)
  produced h := List.mem_append.2 ((List.mem_append.1 h).imp hL.produced hM.produced)

/-- A list stays closed when a kind is added that is made of kinds in it. -/
theorem Closed.cons {L : List Kind} {x : Kind} (hL : Closed (· ∈ L))
    (hs : ∀ k s, x = stack (k :: s) → k ∈ L ∧ stack s ∈ L)
    (he : ∀ c p i, x = effect c p i → stack c ∈ L ∧ stack p ∈ L) : Closed (· ∈ x :: L) where
  slot h := List.mem_cons_of_mem _ <|
    (List.mem_cons.1 h).elim (fun h => (hs _ _ h.symm).1) hL.slot
  rest h := List.mem_cons_of_mem _ <|
    (List.mem_cons.1 h).elim (fun h => (hs _ _ h.symm).2) hL.rest
  consumed h := List.mem_cons_of_mem _ <|
    (List.mem_cons.1 h).elim (fun h => (he _ _ _ h.symm).1) hL.consumed
  produced h := List.mem_cons_of_mem _ <|
    (List.mem_cons.1 h).elim (fun h => (he _ _ _ h.symm).2) hL.produced

theorem closed_slotsParts_of {s : Stack} (h : ∀ k ∈ s, Closed (· ∈ parts k)) :
    Closed (· ∈ slotsParts s) := by
  induction s with
  | nil => constructor <;> simp [slotsParts]
  | cons k s ih =>
    rw [List.forall_mem_cons] at h
    refine (h.1.append (ih h.2)).cons ?_ fun _ _ _ hx => by simp at hx
    rintro _ _ ⟨⟩
    exact ⟨List.mem_append_left _ (self_mem_parts k),
      List.mem_append_right _ (stack_mem_slotsParts s)⟩

theorem closed_parts (k : Kind) : Closed (· ∈ parts k) := by
  induction k using Kind.slotInduction with
  | stack s h => exact closed_slotsParts_of h
  | effect c p i hc hp =>
    refine ((closed_slotsParts_of hc).append (closed_slotsParts_of hp)).cons
      (fun _ _ hx => by simp at hx) ?_
    rintro _ _ _ ⟨⟩
    exact ⟨List.mem_append_left _ (stack_mem_slotsParts c),
      List.mem_append_right _ (stack_mem_slotsParts p)⟩
  | _ => constructor <;> simp [parts]

/-- What a closed set has of the slots of a stack, it has of the parts of the stack. -/
theorem Closed.of_mem_slotsParts {L : Kind → Prop} (hL : Closed L) {s : Stack}
    (h : ∀ k ∈ s, L k → ∀ l ∈ parts k, L l) (hs : L (stack s)) : ∀ l ∈ slotsParts s, L l := by
  induction s with
  | nil => simpa [slotsParts] using hs
  | cons k s ih =>
    rw [List.forall_mem_cons] at h
    exact List.forall_mem_cons.2 ⟨hs, List.forall_mem_append.2
      ⟨h.1 (hL.slot hs), ih h.2 (hL.rest hs)⟩⟩

/-- **The parts of a kind are the least closed set that has it.** -/
theorem Closed.of_mem_parts {L : Kind → Prop} (hL : Closed L) {k : Kind} (hk : L k) :
    ∀ l ∈ parts k, L l := by
  induction k using Kind.slotInduction with
  | stack s h => exact hL.of_mem_slotsParts (fun k hks hk => h k hks hk) hk
  | effect c p i hc hp =>
    exact List.forall_mem_cons.2 ⟨hk, List.forall_mem_append.2
      ⟨hL.of_mem_slotsParts (fun k hkc hk => hc k hkc hk) (hL.consumed hk),
        hL.of_mem_slotsParts (fun k hkp hk => hp k hkp hk) (hL.produced hk)⟩⟩
  | _ => simpa [parts] using hk

/-- Kinds whose variables are of some sort are closed. -/
theorem closed_vars (A : Var → Prop) : Closed fun k => ∀ v ∈ k.vars, A v where
  slot h v hv := h v (List.mem_append_right _ hv)
  rest h v hv := h v (List.mem_append_left _ hv)
  consumed h v hv := h v (List.mem_append_left _ hv)
  produced h v hv := h v (List.mem_append_right _ hv)

theorem closed_slotsParts (s : Stack) : Closed (· ∈ slotsParts s) := closed_parts (stack s)

theorem length_slotsParts_of {s : Stack} (h : ∀ k ∈ s, (parts k).length = weight k) :
    (slotsParts s).length = slotsWeight s := by
  induction s with
  | nil => rfl
  | cons k s ih =>
    rw [List.forall_mem_cons] at h
    simp only [slotsParts, slotsWeight, List.length_cons, List.length_append, h.1, ih h.2]
    omega

/-- **A kind weighs as much as it has parts.** -/
theorem length_parts (k : Kind) : (parts k).length = weight k := by
  induction k using Kind.slotInduction with
  | stack s h => exact length_slotsParts_of h
  | effect c p i hc hp =>
    simp only [parts, weight, List.length_cons, List.length_append, length_slotsParts_of hc,
      length_slotsParts_of hp]
    omega
  | _ => rfl

theorem length_slotsParts (s : Stack) : (slotsParts s).length = slotsWeight s :=
  length_parts (stack s)

end Kind

/-! ## The theory of what was handed in -/

namespace Theory

variable {st : Option Subtyping} {lenient : Bool}

/-- Walking down two stacks asks for nothing but their parts. -/
theorem aligned_within {L : Kind → Prop} (hL : Kind.Closed L) {v w : Stack} (hv : L (.stack v))
    (hw : L (.stack w)) : Aligned (lenient = true ∨ True)
      (fun _ => lenient = true ∨ L (.stack [])) (fun _ => L)
      (SlotAsk st True (fun _ => L) fun s t => L (.stack s) ∧ L (.stack t)) v w := by
  fun_induction Aligned with
  | case1 a r b r' => exact ⟨hw, hv⟩
  | case2 => exact hw
  | case3 => exact hv
  | case4 k r l r' _ _ _ ih =>
    refine ⟨⟨fun _ _ => hL.slot hw, fun _ _ => hL.slot hv, ?_, .inr trivial⟩,
      ih (hL.rest hv) (hL.rest hw)⟩
    rintro c p i d q j rfl rfl
    exact ⟨⟨hL.consumed (hL.slot hv), hL.consumed (hL.slot hw)⟩,
      hL.produced (hL.slot hv), hL.produced (hL.slot hw)⟩
  | case5 => trivial
  | case6 => exact .inr hw
  | case7 => exact .inr hv
  | case8 => exact .inr trivial

/-- **The theory of a closed set of kinds**: members come from it. -/
def within (L : Kind → Prop) (hL : Kind.Closed L) : Theory st lenient where
  mayClash := True
  same _ _ := True
  eqn _ k := L k
  call _ k := L k
  par s t := L (.stack s) ∧ L (.stack t)
  same_equiv := true_equivalence
  eqn_congr _ h := h
  eqn_of_call h _ := h
  call_slot h := hL.slot h
  call_self h _ := h
  same_var _ _ := trivial
  par_effect h h' :=
    ⟨⟨hL.consumed h, hL.consumed h'⟩, hL.produced h, hL.produced h'⟩
  par_stack h h' := ⟨h, h'⟩
  par_aligned h := aligned_within hL h.1 h.2

/-- The theory that allows everything. -/
def anything (st : Option Subtyping) (lenient : Bool) : Theory st lenient :=
  .within (fun _ => True) .univ

variable {T : Theory st lenient} {P Q : Partition} {L : List Kind}

/-- Members are in the set, each of them once. -/
theorem length_members_le (hL : Kind.Closed (· ∈ L)) (hP : P.Shaped)
    (h : (within _ hL : Theory st lenient).Holds P) (i : Nat) :
    (P.members i).length ≤ L.length := by
  refine ((hP.members_nodup i).subperm fun k hk => ?_).length_le
  have hi : i < P.size := by
    by_contra hi
    simp [hP.members_of_ge (Nat.le_of_not_lt hi)] at hk
  obtain ⟨n, hn⟩ := hP.exists_names hi
  exact h.member hn hk

theorem Good.handIn (h : T.Good P) (m : Nat) : T.Good { P with mass := m } := { h with }

theorem Step.handIn (T : Theory st lenient) (P : Partition) (w : Nat) :
    T.Step P { P with mass := P.mass + w } where
  grows := { Partition.Grows.refl P with mass_le := Nat.le_add_right _ _ }
  drains := .of_eq rfl rfl
  called _ hn := .inl hn
  linked _ _ _ hl := hl

end Theory

/-! ## The operations on the store -/

namespace Store

variable {st : Option Subtyping} {lenient : Bool} {T : Theory st lenient} {s : Store}
  {f g : Kind} {v w : Stack}

/-- **A store that a theory is about**, whose mass exceeds the number of kinds that its members come
from. -/
structure Under (T : Theory st lenient) (s : Store) : Prop where
  good : T.Good s.partition
  filled : ∃ L : List Kind, Kind.Closed (· ∈ L) ∧ L.length ≤ s.mass ∧
    ∀ i, ∀ k ∈ s.partition.members i, k ∈ L

theorem under_empty (T : Theory st lenient) (logging : Logging) :
    (empty st lenient logging).Under T where
  good := { partition_empty st lenient logging with
    subtyping := rfl
    lenient := rfl
    member := fun _ hk => by simp [partition, membersOf, kept, empty] at hk
    names := fun hn => by simp [partition, Partition.Names, classOf?, empty] at hn }
  filled := ⟨[], by constructor <;> simp, Nat.zero_le _, fun i k hk => by
    simp [partition, membersOf, kept, empty] at hk⟩

theorem Under.congr {t : Store} (h : s.Under T) (ht : t.partition = s.partition) : t.Under T where
  good := ht ▸ h.good
  filled := by
    have hmass : t.mass = s.mass := congrArg Partition.mass ht
    rw [ht, hmass]
    exact h.filled

theorem under_reset {s : Store} (T : Theory s.subtyping s.lenient) : s.reset.Under T :=
  (under_empty T s.logging).congr rfl

/-- **How an operation on the store ends under a theory.** -/
def Performs (T : Theory st lenient) (p : Pass Unit) (s : Store) (post : Partition → Prop) : Prop :=
  Ends p s (fun _ t => t.Under T ∧ T.Step s.partition t.partition ∧ post t.partition)
    (fun e t => t.Under T ∧ T.Fails e)

/-- **What is handed in leaves room for all its parts**: they and the members that there are come from
no more kinds than the new mass. -/
theorem Under.allows (h : s.Under T) {ks : List Kind} (hks : Kind.Closed (· ∈ ks)) {weight : Nat}
    (hlen : ks.length = weight) : ∃ (L : List Kind) (hL : Kind.Closed (· ∈ L)), ks ⊆ L ∧
      L.length ≤ s.mass + weight ∧
      (T.and (.within _ hL)).Good { s with mass := s.mass + weight }.partition := by
  obtain ⟨L, hL, hmass, hmem⟩ := h.filled
  have hT := h.good.handIn (s.mass + weight)
  refine ⟨ks ++ L, hks.append hL, List.subset_append_left ks L, ?_, Theory.good_and_iff.2 ⟨hT, ?_⟩⟩
  · rw [List.length_append]
    omega
  · exact { hT with
      member := fun _ hk => List.mem_append_right _ (hmem _ _ hk)
      names := fun _ _ => trivial }

/-- An operation that keeps to its contract, for every set of kinds with the parts of what is handed
in, performs. -/
theorem Under.performs (h : s.Under T) {ks : List Kind} (hks : Kind.Closed (· ∈ ks)) {weight : Nat}
    (hlen : ks.length = weight) {p : Nat → Nat → Pass Unit} {post : Partition → Prop}
    (hp : ∀ (L : List Kind) (hL : Kind.Closed (· ∈ L)), ks ⊆ L → ∀ {t : Store} {width room},
      Unify.Contract (T.and (.within _ hL)) width room → (T.and (.within _ hL)).Good t.partition →
      (T.and (.within _ hL)).Runs (p width room) t fun _ Q => post Q) :
    Performs T (do handIn weight; let s ← Site.look; p s.mass s.room) s post := by
  obtain ⟨L, hL, hsub, hmass, hgood⟩ := h.allows hks hlen
  obtain ⟨s', hs'⟩ : ∃ s', s' = { s with mass := s.mass + weight } := ⟨_, rfl⟩
  have hmass' : L.length ≤ s'.mass := hs' ▸ hmass
  have hcontract : Unify.Contract (T.and (.within _ hL)) s'.mass s'.room :=
    Unify.contract (fun P hP i => Nat.le_trans (Theory.length_members_le hL hP.toShaped
      (Theory.good_and_iff.1 hP).2.toHolds i) hmass') _
  have hunder : ∀ t : Store, (T.and (.within _ hL)).Good t.partition → s'.mass ≤ t.mass →
      t.Under T := fun t ht hm =>
    ⟨(Theory.good_and_iff.1 ht).1, _, hL, Nat.le_trans hmass' hm, fun i k hk =>
      (Theory.Admits.of_mem ht hk).choose_spec.2.2⟩
  refine ends_handIn_iff.2 ?_
  rw [← hs'] at hgood ⊢
  refine Ends.mono (hp L hL hsub hcontract hgood) ?_ ?_
  · rintro _ t ⟨ht, hstep, hpost⟩
    have hstep' : T.Step s.partition s'.partition := hs' ▸ Theory.Step.handIn T _ weight
    exact ⟨hunder t ht hstep.grows.mass_le, hstep'.trans hstep.left, hpost⟩
  · rintro e t ⟨ht, hm, hf⟩
    exact ⟨hunder t ht hm, hf.left⟩

theorem Under.performs_constrain (h : s.Under T) {n : String} {k : Kind} (hk : T.call n k) :
    Performs T (constrain n k) s fun Q => Q.Bound n k :=
  h.performs (Kind.closed_parts k) (Kind.length_parts k) fun _ _ hsub _ _ _ hc hg =>
    hc.constrains hg ⟨hk, hsub (Kind.self_mem_parts k)⟩

theorem Under.performs_unifyStacks (h : s.Under T) (hvw : T.par v w) :
    Performs T (unifyStacks v w) s fun Q => Q.Settled v w := by
  refine h.performs ((Kind.closed_slotsParts v).append (Kind.closed_slotsParts w)) ?_
    fun L hL hsub _ _ _ hc hg => hc.equates hg ⟨hvw, hsub ?_, hsub ?_⟩
  · rw [List.length_append, Kind.length_slotsParts, Kind.length_slotsParts]
  · exact List.mem_append_left _ (Kind.stack_mem_slotsParts v)
  · exact List.mem_append_right _ (Kind.stack_mem_slotsParts w)

theorem Under.performs_unifyEffects (h : s.Under T)
    (hfg : ∀ c p i d q j, f = .effect c p i → g = .effect d q j → T.par c d ∧ T.par p q) :
    Performs T (unifyEffects f g) s fun Q => ∀ c p i d q j, f = .effect c p i → g = .effect d q j →
      Q.Settled c d ∧ Q.Settled p q := by
  refine h.performs ((Kind.closed_parts f).append (Kind.closed_parts g)) ?_
    fun L hL hsub _ _ _ hc hg => Unify.runs_unifyEffects hc.equates hg ?_
  · rw [List.length_append, Kind.length_parts, Kind.length_parts]
  · rintro c p i d q j rfl rfl
    have hf := hsub (List.mem_append_left _ (Kind.self_mem_parts (.effect c p i)))
    have hg := hsub (List.mem_append_right _ (Kind.self_mem_parts (.effect d q j)))
    have hpar := hfg c p i d q j rfl rfl
    exact ⟨⟨hpar.1, hL.consumed hf, hL.consumed hg⟩, hpar.2, hL.produced hf, hL.produced hg⟩

end Store

end StackEffect
