import StackEffect.Proofs.Solve.Outcome
import StackEffect.Proofs.Store.History

/-!
# Proofs/Solve/Idempotent — a solution replaces everything at once

    resolve θ (resolve θ k) = resolve θ k

A name is solved by replacing, in the representative of its class, the names that were solved before
it, and only those.  Where no name depends on itself, but for the variables that represent their own
class, these are all names that the representative mentions, and what they stand for is done with
(`Kind.Done`): the variables in it are free, or stand for themselves.  So nothing is left to replace
in what a kind is resolved to, whatever the kind.
-/

namespace StackEffect

/-! ## Kinds that are done with -/

namespace Kind

variable {σ : String → Option Kind} {k : Kind}

/-- **Nothing is left to replace**: the variables of a kind are not replaced, or by themselves. -/
def Done (σ : String → Option Kind) (k : Kind) : Prop :=
  ∀ v ∈ k.vars, σ v.name = none ∨ σ v.name = some v.kind

/-- **What is done with stays as it is.** -/
theorem Done.resolve_eq (h : k.Done σ) : k.resolve σ = k := by
  have hvar : ∀ v : Var, v.kind.Done σ → v.kind.resolve σ = v.kind := by
    intro v hv
    rw [resolve_varKind]
    rcases hv v (by rw [vars_varKind]; exact List.mem_cons_self) with hn | hs
    · rw [hn, Option.getD_none]
    · rw [hs, Option.getD_some]
  have hslots : ∀ s : Stack, (∀ k ∈ s, k.Done σ → k.resolve σ = k) →
      (∀ k ∈ s, k.Done σ) → resolveSlots σ s = s := by
    intro s ih hs
    have hspread : ∀ k ∈ s, spread σ k = [k] := by
      intro k hk
      have hres := ih k hk (hs k hk)
      unfold spread
      split
      · rw [hres]
        rfl
      · rw [hres]
    rw [resolveSlots_eq_flatMap, List.flatMap_congr hspread, List.flatMap_singleton']
  induction k using Kind.slotInduction with
  | typeVar a => exact hvar ⟨.slot, a⟩ h
  | stackVar a => exact hvar ⟨.stack, a⟩ h
  | stack s ih =>
    rw [resolve, hslots s ih fun k hk v hv => h v (mem_slotVars.2 ⟨k, hk, hv⟩)]
  | effect c p i hc hp =>
    rw [resolve,
      hslots c hc fun k hk v hv => h v (List.mem_append_left _ (mem_slotVars.2 ⟨k, hk, hv⟩)),
      hslots p hp fun k hk v hv => h v (List.mem_append_right _ (mem_slotVars.2 ⟨k, hk, hv⟩))]
  | _ => rfl

/-- **A resolved kind is done with** if all that replaces its variables is. -/
theorem done_resolve (h : ∀ w ∈ k.vars, ∀ u, σ w.name = some u → u.Done σ) :
    (k.resolve σ).Done σ := by
  intro v hv
  obtain ⟨w, hw, hvw⟩ := mem_vars_of_resolve hv
  cases hu : σ w.name with
  | none =>
    rw [hu, Option.getD_none, vars_varKind, List.mem_singleton] at hvw
    exact .inl (hvw ▸ hu)
  | some u =>
    rw [hu, Option.getD_some] at hvw
    exact h w hw u hu v hvw

end Kind

/-! ## Names that depend on themselves -/

namespace Partition

variable {P : Partition} {order : List String} {θ : String → Option Kind} {n : String} {r : Kind}

/-- **No name depends on itself**, but for the variables that represent their own class. -/
def Grounded (P : Partition) : Prop :=
  ∀ n, Relation.TransGen P.Mentions n n → ∃ r, P.repOf n = some r ∧ r.varName? = some n

theorem Shaped.repOf_eq_of_names (h : P.Shaped) {m : String} {i : Nat} (hn : P.Names n i)
    (hm : P.Names m i) : P.repOf n = P.repOf m := by
  obtain ⟨j, hj, hji⟩ := hn
  obtain ⟨j', hj', hji'⟩ := hm
  rw [repOf, repOf, hj, hj']
  exact h.rep_congr (hji.trans hji'.symm)

/-- Then no class leads back to itself: names of one class depend on the same names. -/
theorem Grounded.acyclic (hg : P.Grounded) (h : P.Shaped) : P.Acyclic := by
  intro n m i hnm hn hm
  have hrep := h.repOf_eq_of_names hn hm
  obtain ⟨x, ⟨hx, r, hr, hv⟩, hxm⟩ := Relation.TransGen.head'_iff.1 hnm
  obtain ⟨r', hr', hrm⟩ := hg m (.head' ⟨hx, r, hrep ▸ hr, hv⟩ hxm)
  exact ⟨r', hrep ▸ hr', hrm⟩

/-- **What a name stands for is done with.** -/
theorem Solution.done (h : P.Solution order θ) (hg : P.Grounded) (hP : P.Shaped) {u : Kind}
    (hu : θ n = some u) : u.Done θ := by
  have hall : ∀ n ∈ order, ∀ u, θ n = some u → u.Done θ := by
    refine Solving.forall_of_before fun pre n post he hbefore u hu => ?_
    obtain ⟨r, hr, -⟩ := h.eq_some he
    by_cases hself : r.varName? = some n
    · -- a variable that represents its class stands for itself
      have hθ := h.eq_self hr hself
      obtain rfl := Option.some.inj (hu.symm.trans hθ)
      obtain ⟨v, rfl, rfl⟩ := Kind.eq_varKind_of_varName? hself
      intro w hw
      rw [Kind.vars_varKind, List.mem_singleton] at hw
      exact .inr (hw ▸ hθ)
    · obtain rfl := Option.some.inj (hu.symm.trans (h.eq_resolve (hg.acyclic hP) hr))
      refine Kind.done_resolve fun w hw u hwu => ?_
      have hmem : w.name ∈ order := by
        by_contra hno
        simp [h.eq_none hno] at hwu
      have hmen : P.Mentions n w.name := ⟨h.mem_order.1 hmem, r, hr, w, hw, rfl⟩
      rcases h.before he _ hmen with hpre | hback
      · exact hbefore _ hpre u hwu
      · obtain ⟨r', hr', hrn⟩ := hg n (.head' hmen hback)
        rw [hr] at hr'
        exact absurd (Option.some.inj hr' ▸ hrn) hself
  refine hall n ?_ u hu
  by_contra hno
  simp [h.eq_none hno] at hu

/-- Names of one class stand for the same kind. -/
theorem Solution.eq_of_names (h : P.Solution order θ) (hg : P.Grounded) (hP : P.Shaped)
    {m : String} {i : Nat} (hn : P.Names n i) (hm : P.Names m i) : θ n = θ m := by
  have hrep := hP.repOf_eq_of_names hn hm
  have hmem : n ∈ order := by
    obtain ⟨j, hj, -⟩ := hn
    exact h.mem_order.2 (hj ▸ rfl)
  obtain ⟨pre, post, rfl⟩ := List.append_of_mem hmem
  obtain ⟨r, hr, -⟩ := h.eq_some rfl
  rw [h.eq_resolve (hg.acyclic hP) hr, h.eq_resolve (hg.acyclic hP) (hrep ▸ hr)]

end Partition

/-! ## Solutions of stores -/

namespace Store

variable {s : Store}

/-- A name depends on the registered names that the representative of its class mentions. -/
def DependsOn (s : Store) (n m : String) : Prop := m ∈ s.names ∧ s.Mentions n m

/-- **The class of a name is represented by the variable of that name.** -/
def RepresentsItself (s : Store) (n : String) : Prop :=
  ∃ id, s.classOf? n = some id ∧ ∃ k, s.representative? id = some k ∧ k.varName? = some n

theorem mentions_partition (h : s.partition.Shaped) {n m : String}
    (hnm : s.partition.Mentions n m) : s.DependsOn n m := by
  obtain ⟨hm, r, hr, hv⟩ := hnm
  obtain ⟨id, hid⟩ := Option.isSome_iff_exists.1 (Partition.isSome_of_repOf hr)
  exact ⟨Array.mem_toList_iff.1 (h.mem_names.2 hm), id, hid, r, (repOf_eq h hid).symm.trans hr, hv⟩

theorem grounded_partition (h : s.partition.Shaped)
    (hs : ∀ n, Relation.TransGen s.DependsOn n n → s.RepresentsItself n) :
    s.partition.Grounded := by
  intro n hn
  obtain ⟨id, hid, k, hk, hkn⟩ := hs n
    (Relation.TransGen.mono (fun _ _ => mentions_partition h) _ _ hn)
  exact ⟨k, (repOf_eq h hid).trans hk, hkn⟩

/-- No name depends on itself if the names that a representative mentions are further down, but for
the variables that represent their own class. -/
theorem representsItself_of_rank (hs : s.partition.Shaped) (rank : String → Nat)
    (h : ∀ n ∈ s.names.toList, ∀ id ∈ s.classOf? n, ∀ k ∈ s.representative? id,
      k.varName? = some n ∨ ∀ v ∈ k.vars, v.name ∈ s.names → rank v.name < rank n) {n : String}
    (hn : Relation.TransGen s.DependsOn n n) : s.RepresentsItself n := by
  have hstep : ∀ {n m}, s.DependsOn n m → rank m < rank n ∨ m = n ∧ s.RepresentsItself n := by
    rintro n m ⟨hm, id, hid, k, hk, v, hv, rfl⟩
    have hname : n ∈ s.names.toList := hs.mem_names.2 (Option.isSome_iff_exists.2 ⟨id, hid⟩)
    rcases h n hname id hid k hk with hkn | hlt
    · refine .inr ⟨?_, id, hid, k, hk, hkn⟩
      obtain ⟨w, rfl, rfl⟩ := Kind.eq_varKind_of_varName? hkn
      rw [Kind.vars_varKind, List.mem_singleton] at hv
      rw [hv]
    · exact .inl (hlt v hv hm)
  have hdown : ∀ {n m}, Relation.ReflTransGen s.DependsOn n m → rank m ≤ rank n := by
    intro n m hnm
    induction hnm with
    | refl => exact Nat.le_refl _
    | tail _ hlast ih =>
      rcases hstep hlast with hlt | ⟨rfl, -⟩
      · omega
      · exact ih
  obtain ⟨x, hnx, hxn⟩ := Relation.TransGen.head'_iff.1 hn
  rcases hstep hnx with hlt | ⟨-, hself⟩
  · have := hdown hxn
    omega
  · exact hself

/-- **A solution replaces everything at once.**  The store is one that any history leaves, whatever
failed in it, and no name depends on itself, but for the variables that represent their own class.
If the constraints are solved, every registered name stands for a kind, and names of one class for the
same; the registered variables in what a name stands for stand for themselves; and what a kind is
resolved to is resolved to itself. -/
theorem solution_idempotent (st : Option Subtyping) (lenient : Bool) (logging : Logging)
    (as : List Action) (s t : Store) (hs : (history as (empty st lenient logging)).2 = s)
    (ht : solve s = .ok () t)
    (hself : ∀ n, Relation.TransGen s.DependsOn n n → s.RepresentsItself n) :
    (∀ n ∈ s.names, (t.solution[n]?).isSome) ∧
      (∀ a b, s.sameClass a b = true → t.solution[a]? = t.solution[b]?) ∧
      (∀ (n : String) (u : Kind), t.solution[n]? = some u → ∀ v ∈ u.vars, v.name ∈ s.names →
        t.solution[v.name]? = some v.kind) ∧
      ∀ k, t.resolveKind (t.resolveKind k) = t.resolveKind k := by
  have hshaped : s.partition.Shaped :=
    hs ▸ (orderly_history st lenient logging as).sound.toShaped
  have hg : s.partition.Grounded := grounded_partition hshaped hself
  obtain ⟨-, order, hsol⟩ := (ends_solve hshaped).ok ht
  have hdone : ∀ {n : String} {u : Kind}, t.solution[n]? = some u →
      u.Done fun n => t.solution[n]? := fun hu => hsol.done hg hshaped hu
  have hsome : ∀ n ∈ s.names, (t.solution[n]?).isSome := by
    intro n hn
    have hmem : n ∈ order := hsol.mem_order.2 (hshaped.mem_names.1 (Array.mem_toList_iff.2 hn))
    obtain ⟨pre, post, rfl⟩ := List.append_of_mem hmem
    obtain ⟨r, -, hr⟩ := hsol.eq_some rfl
    exact Option.isSome_iff_exists.2 ⟨_, hr⟩
  refine ⟨hsome, fun a b hab => ?_, fun n u hu v hv hname => ?_, fun k => ?_⟩
  · obtain ⟨i, hi, hj⟩ := sameClass_iff.1 hab
    exact hsol.eq_of_names hg hshaped (Partition.names_of_index hi) (Partition.names_of_index hj)
  · refine (hdone hu v hv).resolve_left fun hnone => ?_
    obtain ⟨r, hr⟩ := Option.isSome_iff_exists.1 (hsome v.name hname)
    cases hnone.symm.trans hr
  · exact (Kind.done_resolve fun w _ u hu => hdone hu).resolve_eq

/-- `'R` is `'S 'c`, `'S` is `'T int`, and `'c` is `'b`, which represents the class of both; a call
in between fails. -/
theorem solution_idempotent_spliced :
    let as : List Action := [
      .operate (.unifyStacks [.stackVar "'R"] [.typeVar "'c", .stackVar "'S"]),
      .operate (.unifyStacks [.simple "int"] [.simple "float"]),
      .operate (.unifyStacks [.stackVar "'S"] [.simple "int", .stackVar "'T"]),
      .operate (.constrain "'c" (.typeVar "'b"))]
    let r := history as (empty none false .silent)
    r.1.length = 1 ∧ ∃ t, solve r.2 = .ok () t ∧
      (t.solution["'c"]?).isSome ∧ t.solution["'c"]? = t.solution["'b"]? ∧
      t.resolveKind (.stackVar "'R") = .stack [.typeVar "'b", .simple "int", .stackVar "'T"] ∧
      ∀ k, t.resolveKind (t.resolveKind k) = t.resolveKind k := by
  intro as r
  have hsolve : Ends solve r.2 (fun _ t => t.resolveKind (.stackVar "'R") =
      .stack [.typeVar "'b", .simple "int", .stackVar "'T"]) fun _ _ => False := by decide +kernel
  obtain ⟨_, t, ht, hR⟩ := hsolve.exists_ok
  have hshaped : r.2.partition.Shaped := (orderly_history none false .silent as).sound.toShaped
  obtain ⟨hsome, hsame, -, hagain⟩ := solution_idempotent none false .silent as r.2 t rfl ht fun n =>
    representsItself_of_rank hshaped (fun n => ["'b", "'c", "'S", "'R"].idxOf n) (by decide +kernel)
  exact ⟨by decide +kernel, t, ht, hsome "'c" (by decide +kernel),
    hsame "'c" "'b" (by decide +kernel), hR, hagain⟩

end Store

end StackEffect
