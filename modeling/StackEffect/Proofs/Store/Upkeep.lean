import Mathlib.Logic.Function.Iterate
import StackEffect.Proofs.Solve.Solution
import StackEffect.Proofs.Unify.Parts

/-!
# Proofs/Store/Upkeep — what holds of a store after any operations

    i ⟶ parent i ⟶ … ⟶ root i        links end in roots, and roots hold the members

A store is used by operations that may fail in the middle: while one class is drained into another,
say, or deep inside a comparison of two members.  All of them leave shortcuts on the way to roots, and
so do those that only ask.  Whatever was called, and whatever failed, the store is well kept
(`Store.WellKept`).  What a failure can leave behind are members of an absorbed class that were not
taken yet; as long as nothing fails there are none (`Store.Drained`).
-/

namespace StackEffect

namespace Store

/-- **A well-kept store.**  Links stay among the classes and end in roots; the names are the keys of
the index, each listed once; and a root lists each of its members once, and is the class of those
that are variables. -/
structure WellKept (s : Store) : Prop where
  sizes : s.parents.size = s.members.size
  parent_lt : ∀ i < s.parents.size, s.parent i < s.parents.size
  reaches_root : ∀ i, ∃ steps, s.parent^[steps] i = s.root i ∧ s.parent (s.root i) = s.root i
  names_nodup : s.names.toList.Nodup
  mem_names : ∀ n, n ∈ s.names ↔ n ∈ s.index
  index_lt : ∀ (n : String) (i : Nat), s.index[n]? = some i → i < s.members.size
  members_nodup : ∀ i, s.parent i = i → (s.members.getD i #[]).toList.Nodup
  member_var : ∀ i, s.parent i = i → ∀ k ∈ s.members.getD i #[], ∀ n, k.varName? = some n →
    s.classOf? n = some i

/-- Classes that were absorbed have no members left. -/
def Drained (s : Store) : Prop := ∀ i, s.parent i ≠ i → s.members.getD i #[] = #[]

variable {s t : Store}

theorem iterate_parent (h : s.Rooted) (i : Nat) : ∃ steps, s.parent^[steps] i = s.root i := by
  obtain ⟨rank, hrank⟩ := h.ranked
  induction hn : rank i using Nat.strongRecOn generalizing i with
  | ind n ih =>
    by_cases hi : s.parent i = i
    · exact ⟨0, (h.parent_eq_iff.1 hi).symm⟩
    · obtain ⟨steps, hsteps⟩ := ih _ (hn ▸ hrank i hi) (s.parent i) rfl
      refine ⟨steps + 1, ?_⟩
      rw [Function.iterate_succ_apply, hsteps]
      exact h.root_parent i

/-- **A store with a sound partition is well kept.** -/
theorem wellKept_of_sound (h : s.partition.Sound) : s.WellKept := by
  have hrooted : s.Rooted := h.rooted
  have hindex : ∀ n, s.classOf? n = (s.index[n]?).map s.root := fun _ => rfl
  refine
    { sizes := h.links_eq
      parent_lt := fun i => hrooted.parent_lt
      reaches_root := fun i => (iterate_parent hrooted i).imp fun _ hi =>
        ⟨hi, hrooted.parent_eq_iff.2 (h.root_root i)⟩
      names_nodup := h.names_nodup
      mem_names := fun n => ?_
      index_lt := fun n i hi => ?_
      members_nodup := fun i hi => ?_
      member_var := fun i hi k hk n hn => ?_ }
  · have hn : n ∈ s.names.toList ↔ (s.classOf? n).isSome := h.mem_names
    rw [← Array.mem_toList_iff, hn, hindex, Option.isSome_map,
      Std.TreeMap.isSome_getElem?_iff_mem]
  · by_contra hge
    have hroot : s.classOf? n = some (s.root i) := by rw [hindex, hi]; rfl
    have hself : s.root i = i := h.root_of_ge (Nat.le_of_not_lt hge)
    exact hge (hself ▸ h.index_lt hroot)
  · have hown := h.own_root (hrooted.parent_eq_iff.1 hi)
    exact Eq.mpr (congrArg List.Nodup hown) (h.members_nodup i)
  · have hroot : s.root i = i := hrooted.parent_eq_iff.1 hi
    have hmem : k ∈ s.partition.members i := h.own_root hroot ▸ Array.mem_toList_iff.2 hk
    obtain ⟨j, hj, hji⟩ := h.member_var hmem hn
    have hj' : s.root j = j := h.index_root hj
    have hji' : s.root j = s.root i := hji
    rw [← hroot, ← hji', hj']
    exact hj

theorem drained_iff (h : s.partition.Shaped) :
    s.Drained ↔ ∀ i, s.partition.root i ≠ i → s.partition.own i = [] := by
  refine forall_congr' fun i => imp_congr (not_congr (Forest.parent_eq_iff h.rooted)) ?_
  exact Array.toList_eq_nil_iff.symm

/-- **A step keeps a store drained**: the classes that it absorbs are drained, and the others were
before. -/
theorem Drained.step {st : Option Subtyping} {lenient : Bool} {T : Theory st lenient}
    (h : s.Drained) (hs : s.partition.Shaped) (ht : t.partition.Shaped)
    (hst : T.Step s.partition t.partition) : t.Drained := by
  rw [drained_iff hs] at h
  rw [drained_iff ht]
  intro i hi
  by_cases hroot : s.partition.root i = i
  · exact hst.drains.drained hroot hi
  · rw [hst.drains.kept hroot, h i hroot]

/-! ## Operations in any order -/

/-- What a store can be asked to do. -/
inductive Operation where
  | constrain (name : String) (k : Kind)
  | unifyStacks (v w : Stack)
  | unifyEffects (f g : Kind)
  | solve
  | members (name : String)
  | sameClass (a b : String)
  | text
  | reset

/-- Performs an operation.  What it answers does not matter here, but for a fault. -/
def Operation.perform {σ : Type} [Site σ] : Operation → EStateM Fault σ Unit
  | constrain name k => Store.constrain name k
  | unifyStacks v w => Store.unifyStacks v w
  | unifyEffects f g => Store.unifyEffects f g
  | solve => Store.solve
  | members name => do let _ ← findMembers name
  | sameClass a b => do let _ ← findSame a b
  | text => do let _ ← findText
  | reset => Site.alter Store.reset

/-- Whether an operation makes the store forget what failed before. -/
def Operation.isReset : Operation → Bool
  | reset => true
  | _ => false

/-- The store after an operation, with a mark that tells whether all is intact: that nothing has
failed since the store was last reset. -/
def next (s : Bool × Store) (o : Operation) : Bool × Store :=
  match o.perform s.2 with
  | .ok _ t => (s.1 || o.isReset, t)
  | .error _ t => (false, t)

/-- What all operations keep. -/
structure Kept (st : Option Subtyping) (lenient : Bool) (s : Bool × Store) : Prop where
  under : s.2.Under (Theory.anything st lenient)
  drained : s.1 = true → s.2.Drained

variable {st : Option Subtyping} {lenient : Bool}

theorem kept_empty (logging : Logging) : Kept st lenient (true, empty st lenient logging) :=
  ⟨under_empty _ logging, fun _ i _ => by simp [empty]⟩

/-- How an operation ends, if it does what it can do under the theory that allows everything. -/
theorem ends_perform (h : s.Under (Theory.anything st lenient)) {o : Operation}
    (ho : o.isReset = false) : Ends o.perform s
      (fun _ t => t.Under (Theory.anything st lenient) ∧
        (Theory.anything st lenient).Step s.partition t.partition)
      (fun _ t => t.Under (Theory.anything st lenient)) := by
  have hperf : ∀ {p : Pass Unit} {post}, Performs (Theory.anything st lenient) p s post → Ends p s
      (fun _ t => t.Under (Theory.anything st lenient) ∧
        (Theory.anything st lenient).Step s.partition t.partition)
      (fun _ t => t.Under (Theory.anything st lenient)) :=
    fun hp => hp.mono (fun _ _ ht => ⟨ht.1, ht.2.1⟩) fun _ _ ht => ht.1
  have hshaped := h.good.toShaped
  -- whoever asks leaves the partition as it is
  have hsame : ∀ {t : Store}, t.partition = s.partition →
      t.Under (Theory.anything st lenient) ∧
        (Theory.anything st lenient).Step s.partition t.partition :=
    fun ht => ⟨h.congr ht, ht ▸ .refl _ _⟩
  cases o with
  | constrain n k => exact hperf (h.performs_constrain trivial)
  | unifyStacks v w => exact hperf (h.performs_unifyStacks ⟨trivial, trivial⟩)
  | unifyEffects f g =>
    exact hperf (h.performs_unifyEffects fun _ _ _ _ _ _ _ _ => ⟨⟨trivial, trivial⟩, trivial, trivial⟩)
  | solve => exact (ends_solve hshaped).mono (fun _ _ ht => hsame ht.1) fun _ _ ht => h.congr ht.1
  | members n => exact (ends_findMembers hshaped n).bind fun _ _ ht => hsame ht.2.partition
  | sameClass a b => exact (ends_findSame hshaped a b).bind fun _ _ ht => hsame ht.2.partition
  | text => exact (ends_findText hshaped).bind fun _ _ ht => hsame ht.2.partition
  | reset => simp [Operation.isReset] at ho

/-- **One operation keeps a store well kept**, whether it succeeds or fails. -/
theorem Kept.operate {s : Bool × Store} (h : Kept st lenient s) (o : Operation) :
    Kept st lenient (next s o) := by
  obtain ⟨b, s⟩ := s
  cases ho : o.isReset with
  | true =>
    cases o <;> simp only [Operation.isReset, Bool.false_eq_true] at ho
    have hst : s.subtyping = st := h.under.good.subtyping
    have hl : s.lenient = lenient := h.under.good.lenient
    have hreset : s.reset.partition = (empty st lenient s.logging).partition := by
      rw [← hst, ← hl]
      rfl
    have hdrained : s.reset.Drained := fun i _ => by simp [reset, empty]
    exact ⟨(under_empty _ s.logging).congr hreset, fun _ => hdrained⟩
  | false =>
    have hp := ends_perform h.under ho
    rw [Store.next]
    split
    · next t ht =>
      obtain ⟨hu, hstep⟩ := hp.ok ht
      refine ⟨hu, fun hb => ?_⟩
      rw [ho, Bool.or_false] at hb
      exact (h.drained hb).step h.under.good.toShaped hu.good.toShaped hstep
    · next t ht => exact ⟨hp.error ht, fun hb => absurd hb Bool.false_ne_true⟩

/-- **Operations in any order keep a store well kept.**  From a new store, after any operations, those
that failed included, links end in roots, names and index agree, and roots list their members once;
and if nothing has failed since the store was last reset, absorbed classes have no members left. -/
theorem operations_keep_well (st : Option Subtyping) (lenient : Bool) (logging : Logging)
    (os : List Operation) :
    let (intact, s) := os.foldl next (true, empty st lenient logging)
    s.WellKept ∧ (intact = true → s.Drained) := by
  have hkept : Kept st lenient (os.foldl next (true, empty st lenient logging)) := by
    generalize hs : (true, empty st lenient logging) = s
    have h : Kept st lenient s := hs ▸ kept_empty logging
    clear hs
    induction os generalizing s with
    | nil => exact h
    | cons o os ih => exact ih _ (h.operate o)
  exact ⟨wellKept_of_sound hkept.under.good.toSound, hkept.drained⟩

end Store

end StackEffect
