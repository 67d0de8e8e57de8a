import StackEffect.Proofs.Store.Provenance
import StackEffect.Proofs.Unify.Occupied

/-!
# Proofs/Solve/Progress — constraints over ordinary kinds can be solved

    every name has a class with members   ─┐
                                           ├─▸   every class has a representative
    every member is an ordinary kind      ─┘

A call that found a mismatch stops in the middle, but leaves every name with a member, and solving
finds a representative for each.  So whatever failed before, solving does not, and solves exactly the
names that are registered.
-/

namespace StackEffect

namespace Store

variable {s : Store}

theorem occupied_empty (st : Option Subtyping) (lenient : Bool) (logging : Logging) :
    (empty st lenient logging).partition.Occupied := fun n i hi => by
  simp [partition, classOf?, empty] at hi

/-- **An operation leaves every name with a member**, unless it is nested too deep. -/
theorem Orderly.occupies_operation (h : s.Orderly) (hs : s.partition.Occupied) (o : Operation) :
    Unify.Occupies o.perform s := by
  have hcall : o.isCall = true → Unify.Occupies o.perform s := by
    refine h.ends_call fun L hL t ht hgood hw => ?_
    have hocc : t.partition.Occupied := by
      rw [ht]
      exact hs
    have hk := Unify.keepsOccupied hw t.room
    have hc := Unify.contract (fun P hP => hw P hP.toShaped hP.toHolds) t.room
    refine ⟨fun n k hkL => hk.constrain hgood hkL hocc,
      fun v w hv hw' => hk.equate hgood ⟨hv, hw'⟩ hocc,
      fun f g hf hg => Unify.occupies_unifyEffects hc.equates hk.equate hgood hocc ?_⟩
    rintro c p i d q j rfl rfl
    exact ⟨⟨hL.consumed hf, hL.consumed hg⟩, hL.produced hf, hL.produced hg⟩
  have hsame : ∀ {t : Store}, s.Shortened t → t.partition.Occupied := fun ht => ht.partition ▸ hs
  cases o with
  | constrain | unifyStacks | unifyEffects => exact hcall rfl
  | solve =>
    exact (ends_solve h.sound.toShaped).mono (fun _ _ ht => ht.1.symm ▸ hs)
      fun _ _ ht => .inr (ht.1.symm ▸ hs)
  | members n => exact (ends_findMembers h.sound.toShaped n).bind fun _ _ ht => hsame ht.2
  | sameClass a b => exact (ends_findSame h.sound.toShaped a b).bind fun _ _ ht => hsame ht.2
  | text => exact (ends_findText h.sound.toShaped).bind fun _ _ ht => hsame ht.2
  | reset => exact occupied_empty s.subtyping s.lenient s.logging

theorem Orderly.occupies_action (h : s.Orderly) (hs : s.partition.Occupied) (a : Action) :
    Unify.Occupies a.perform s := by
  cases a with
  | configure => exact hs
  | operate o => exact h.occupies_operation hs o

/-- **Every name has a member** after a history in which nothing was nested too deep. -/
theorem occupied_history (st : Option Subtyping) (lenient : Bool) (logging : Logging)
    (as : List Action) (h : Fault.tooDeep ∉ (history as (empty st lenient logging)).1) :
    (history as (empty st lenient logging)).2.partition.Occupied := by
  refine (history_keeps (I := fun s => s.Orderly ∧ s.partition.Occupied) (F := (· ≠ .tooDeep))
    (fun a _ s hs => ?_) ⟨orderly_empty st lenient logging, occupied_empty st lenient logging⟩
    fun e he hdeep => h (hdeep ▸ he)).2
  exact ((hs.1.ends_action a).and (hs.1.occupies_action hs.2 a)).mono (fun _ _ ht => ht)
    fun e t ht he => ⟨ht.1, ht.2.resolve_left he⟩

/-- **Constraints over ordinary kinds can be solved**, after any history in which nothing was nested
too deep, whatever else failed in it; and the names that are solved are the names that are
registered. -/
theorem solve_ordinary (st : Option Subtyping) (lenient : Bool) (logging : Logging)
    (as : List Action) (hk : ∀ h ∈ handedIn as, ∀ k ∈ h.parts, k.isOrdinary = true)
    (hdeep : Fault.tooDeep ∉ (history as (empty st lenient logging)).1) :
    let s := (history as (empty st lenient logging)).2
    ∃ t, solve s = .ok () t ∧ ∀ n, n ∈ t.solution ↔ n ∈ s.names := by
  intro s
  have hs : s.partition.Shaped := (orderly_history st lenient logging as).sound.toShaped
  have hocc : s.partition.Occupied := occupied_history st lenient logging as hdeep
  have hordinary : ∀ i, ∀ k ∈ s.partition.members i, k.isOrdinary = true := by
    intro i k hki
    obtain ⟨h, hh, hkh⟩ :=
      (covers_history st lenient logging as).members _ k (Array.mem_toList_iff.1 hki)
    exact hk h hh k hkh
  obtain ⟨t, ht, -, order, hsol⟩ := exists_solution hs fun n hn => by
    obtain ⟨i, hi⟩ := Option.isSome_iff_exists.1 hn
    obtain ⟨r, hr, -⟩ := Partition.exists_rep (hocc n i hi) (hordinary i)
    rw [Partition.repOf, hi, Option.bind_some, hr]
    exact Option.some_ne_none r
  refine ⟨t, ht, fun n => ?_⟩
  have hnames : n ∈ s.names ↔ n ∈ order := by
    rw [hsol.mem_order, ← hs.mem_names]
    exact Array.mem_toList_iff.symm
  rw [hnames, ← Std.TreeMap.isSome_getElem?_iff_mem]
  constructor
  · intro hn
    by_contra hno
    simp [hsol.eq_none hno] at hn
  · intro hn
    obtain ⟨pre, post, rfl⟩ := List.append_of_mem hn
    obtain ⟨r, -, hr⟩ := hsol.eq_some rfl
    rw [hr]
    rfl

/-- The second call registers `'d`, and then finds that two nominal types differ. -/
theorem solve_ordinary_after_mismatch :
    let as : List Action := [
      .operate (.constrain "'a" (.effect [.typeVar "'b"] [.stackVar "..c"] false)),
      .operate (.unifyStacks [.typeVar "'d", .simple "int"] [.typeVar "'a", .simple "float"])]
    let (faults, s) := history as (empty none false .silent)
    faults = [.mismatch ⟨.simple "int", .simple "float", Mismatch.incompatible⟩] ∧
      s.names = #["'a", "'d"] ∧ ∃ t, solve s = .ok () t ∧ ∀ n, n ∈ t.solution ↔ n ∈ s.names := by
  intro as
  have hfaults : (history as (empty none false .silent)).1 =
      [.mismatch ⟨.simple "int", .simple "float", Mismatch.incompatible⟩] := by decide +kernel
  refine ⟨hfaults, by decide +kernel, solve_ordinary none false .silent as (by decide +kernel) ?_⟩
  rw [hfaults]
  decide

end Store

end StackEffect
