import Mathlib.Data.List.Nodup
import StackEffect.Proofs.Inference.Instance

/-!
# Proofs/Fresh — fresh names never collide

    'a,  ('a_0 'b -> 'b),  'a_0        ──draw──▸        'a_0,  ('a_0_1 'b_2 -> 'b_2),  'a_0_3

A draw takes names from the counter: one for a single variable, and one for every name of a kind.
The number at the end of a name tells where the counter stood, whatever stands before it, so that no
two names collide until the counter has gone round (`draws_never_collide`).
-/

namespace StackEffect

namespace Fresh

/-- A use of the counter: a variable like another one, or an instance of a kind. -/
inductive Draw where
  | variant (v : Var)
  | instantiate (k : Kind)

namespace Draw

/-- Draws from the counter. -/
def perform : Draw → Fresh → Kind × Fresh
  | variant v, c => ((c.variant v).1.kind, (c.variant v).2)
  | instantiate k, c => c.instantiate k

/-- **The names that a draw allocates**: that of the variable, or all that are entered in the table
of the instance. -/
def allocated : Draw → Fresh → List String
  | variant v, c => [(c.variant v).1.name]
  | instantiate k, c => (rename k.storedVars [] c).1.map fun e => e.2.name

/-- The names that a draw puts numbers to. -/
def bases : Draw → List String
  | variant v => [v.name]
  | instantiate k => missing k.storedVars []

end Draw

/-- **Draws in turn**: all names that are allocated, and the counter afterwards. -/
def drawAll : List Draw → Fresh → List String × Fresh
  | [], c => ([], c)
  | d :: ds, c => (d.allocated c ++ (drawAll ds (d.perform c).2).1, (drawAll ds (d.perform c).2).2)

variable {k : Kind}

/-! ## What a draw allocates -/

/-- A table gets a fresh name for each name that it did not have. -/
theorem perm_rename (vs : List Var) (table : List (String × Var)) (c : Fresh) :
    ((rename vs table c).1.map fun e => e.2.name).Perm
      (names (missing vs table) c ++ table.map fun e => e.2.name) := by
  induction vs generalizing table c with
  | nil => exact .refl _
  | cons v vs ih =>
    rw [rename]
    cases h : (table.lookup v.name).isSome with
    | true =>
      rw [if_pos rfl, missing_cons_of_isSome h]
      exact ih table c
    | false =>
      rw [if_neg Bool.false_ne_true, missing_cons_of_isNone h (variant v c).1]
      exact (ih _ _).trans List.perm_middle

theorem Draw.perm_allocated (d : Draw) (c : Fresh) : (d.allocated c).Perm (names d.bases c) := by
  cases d with
  | variant v => exact .refl _
  | instantiate k => simpa [allocated, bases] using perm_rename k.storedVars [] c

theorem Draw.perform_snd (d : Draw) (c : Fresh) : (d.perform c).2 = after d.bases c := by
  cases d with
  | variant v => rfl
  | instantiate k => exact rename_snd _ _ _

/-- **Draws number their bases in turn.** -/
theorem perm_drawAll (ds : List Draw) (c : Fresh) :
    (drawAll ds c).1.Perm (names (ds.flatMap Draw.bases) c) ∧
      (drawAll ds c).2 = after (ds.flatMap Draw.bases) c := by
  induction ds generalizing c with
  | nil => exact ⟨.refl _, rfl⟩
  | cons d ds ih =>
    obtain ⟨hperm, hafter⟩ := ih (d.perform c).2
    rw [drawAll, List.flatMap_cons, names_append, after_append, ← d.perform_snd]
    exact ⟨(d.perm_allocated c).append hperm, hafter⟩

/-- The counter counts, and goes round after the last number. -/
theorem next_after (as : List String) (c : Fresh) :
    (after as c).next = c.next + UInt64.ofNat as.length := by
  induction as generalizing c with
  | nil => exact (UInt64.add_zero _).symm
  | cons a as ih =>
    rw [after, ih, List.length_cons, Nat.add_comm as.length 1, UInt64.ofNat_add, ← UInt64.add_assoc]
    rfl

/-! ## The names of a kind -/

theorem perm_missing_freeVars (k : Kind) : (missing k.storedVars []).Perm k.freeVars := by
  refine (List.perm_ext_iff_of_nodup (Kind.nodup_eraseDups _) (Kind.nodup_eraseDups _)).2
    fun a => ?_
  rw [List.mem_eraseDups, List.filter_eq_self.2 (by simp), List.mem_map]
  simp only [Kind.mem_storedVars]
  exact Kind.mem_freeVars.symm

/-- A kind that uses every name in one sort has as many variables as names. -/
theorem length_eraseDups_vars (hk : k.OneSorted) : k.vars.eraseDups.length = k.freeVars.length := by
  have hinj : Set.InjOn Var.name {v | v ∈ k.vars} := fun v hv w hw hvw => by
    have hsort := hk v hv w hw hvw
    cases v
    cases w
    simp_all
  rw [Kind.freeVars, Kind.eraseDups_map hinj, List.length_map]

/-- **An instance is the kind under the names that are allocated for it**, and the counter has
counted its variables. -/
theorem exists_instance (hk : k.OneSorted) (hcount : (missing k.storedVars []).length ≤ 2 ^ 64)
    (c : Fresh) : ∃ ρ, k.Separates ρ ∧ (c.instantiate k).1 = k.relabel ρ ∧
      (k.freeVars.map ρ).Perm ((Draw.instantiate k).allocated c) ∧
      (c.instantiate k).2.next = c.next + UInt64.ofNat k.vars.eraseDups.length := by
  obtain ⟨ρ, hρ, hnames⟩ := exists_instantiate_eq (fun v hv => hk.sortIn_eq hv) c
  have hbases := perm_missing_freeVars k
  have hinj : ∀ a ∈ missing k.storedVars [], ∀ b ∈ missing k.storedVars [], ρ a = ρ b → a = b :=
    fun a ha b hb => List.inj_on_of_nodup_map (hnames ▸ nodup_names hcount) ha hb
  refine ⟨ρ, fun a ha b hb => hinj a (hbases.mem_iff.2 ha) b (hbases.mem_iff.2 hb), hρ, ?_, ?_⟩
  · have hfree := (hbases.map ρ).symm
    rw [hnames] at hfree
    exact hfree.trans ((Draw.instantiate k).perm_allocated c).symm
  · rw [length_eraseDups_vars hk, ← hbases.length_eq, ← next_after]
    exact congrArg Fresh.next ((Draw.instantiate k).perform_snd c)

end Fresh

/-- **Fresh names never collide.**  Wherever the counter stands and whatever the names are made
from, draws that allocate fewer than 2⁶⁴ names allocate different ones.  Each instance of a kind
that uses no name in both sorts is the kind under new names of the same sorts, different ones for
different ones, which are those allocated for it; and the counter is advanced by the number of
different variables of the kind. -/
theorem Fresh.draws_never_collide (c : Fresh) (ds : List Fresh.Draw)
    (h : (c.drawAll ds).1.length < 2 ^ 64) :
    (c.drawAll ds).1.Nodup ∧
      ∀ before k rest, ds = before ++ .instantiate k :: rest → k.OneSorted →
        ∃ ρ, k.Separates ρ ∧ ((c.drawAll before).2.instantiate k).1 = k.relabel ρ ∧
          (k.freeVars.map ρ).Perm ((Draw.instantiate k).allocated (c.drawAll before).2) ∧
          ((c.drawAll before).2.instantiate k).2.next =
            (c.drawAll before).2.next + UInt64.ofNat k.vars.eraseDups.length := by
  obtain ⟨hperm, -⟩ := perm_drawAll ds c
  have hcount : (ds.flatMap Draw.bases).length < 2 ^ 64 := by
    rwa [hperm.length_eq, length_names] at h
  refine ⟨hperm.nodup_iff.2 (nodup_names (Nat.le_of_lt hcount)), ?_⟩
  rintro before k rest rfl hk
  refine exists_instance hk (Nat.le_trans ?_ (Nat.le_of_lt hcount)) _
  rw [List.flatMap_append, List.flatMap_cons, List.length_append, List.length_append]
  exact Nat.le_trans (Nat.le_add_right _ _) (Nat.le_add_left _ _)

/-- The counter goes round within an instance of `('a_18446744073709551615 'R -> 'R)`, whose
variable looks as if it were fresh: the name before it is `'a_18446744073709551614`, and that after
it `'a_1`. -/
theorem Fresh.draws_never_collide_going_round :
    let k : Kind :=
      .effect [.typeVar "'a_18446744073709551615", .stackVar "'R"] [.stackVar "'R"] false
    let c : Fresh := ⟨18446744073709551614⟩
    let ds : List Fresh.Draw :=
      [.variant ⟨.slot, "'a"⟩, .instantiate k, .variant ⟨.stack, "'a"⟩]
    (c.drawAll ds).1 = ["'a_18446744073709551614", "'R_0",
      "'a_18446744073709551615_18446744073709551615", "'a_1"] ∧
      (c.drawAll ds).1.Nodup ∧ k.OneSorted ∧
      ∃ ρ, k.Separates ρ ∧ ((c.drawAll (ds.take 1)).2.instantiate k).1 = k.relabel ρ ∧
        (k.freeVars.map ρ).Perm ((Draw.instantiate k).allocated (c.drawAll (ds.take 1)).2) ∧
        ((c.drawAll (ds.take 1)).2.instantiate k).2.next =
          (c.drawAll (ds.take 1)).2.next + UInt64.ofNat k.vars.eraseDups.length := by
  intro k c ds
  have hnames : (c.drawAll ds).1 = ["'a_18446744073709551614", "'R_0",
      "'a_18446744073709551615_18446744073709551615", "'a_1"] := by decide +kernel
  have hk : k.OneSorted := Kind.oneSorted_of_sort
    (fun n => if n = "'R" then .stack else .slot) (by decide +kernel)
  obtain ⟨hnodup, hinstances⟩ := Fresh.draws_never_collide c ds (by rw [hnames]; decide)
  exact ⟨hnames, hnodup, hk, hinstances (ds.take 1) k (ds.drop 2) rfl hk⟩

end StackEffect
