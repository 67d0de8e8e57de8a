import Mathlib.Data.List.Perm.Subperm
import StackEffect.Lattice.Basic

/-!
# Proofs/Lattice/Alias — where aliases lead

    a ⟶ b ⟶ … ⟶ canonical a

A name stands for one other name at most, so that one trail leads on from each name.  The names that
it passes are aliases.  If it never comes back to a name, it passes each of them once, and there are
no more of them than aliases (`Trail.length_le`): it has ended before the steps are used up.  A
trail that goes round in a circle has no end, and is given up somewhere on the circle.
-/

namespace StackEffect.Lattice

/-- **A trail of aliases** leads from `a` to `b`, and passes the given names on the way, `a`
first. -/
inductive Trail (l : Lattice) : String → List String → String → Prop where
  | nil {a : String} : Trail l a [] a
  | cons {a b c : String} {names : List String} :
      Assoc.get? l.aliases a = some b → Trail l b names c → Trail l a (a :: names) c

/-- **No aliases run in a circle.** -/
def AliasesEnd (l : Lattice) : Prop := ∀ a names, l.Trail a names a → names = []

variable {l : Lattice} {a b c n : String} {names names' : List String} {steps more : Nat}

/-! ## Trails -/

namespace Trail

theorem mem_keys (h : l.Trail a names b) (hn : n ∈ names) : n ∈ Assoc.keys l.aliases := by
  induction h with
  | nil => cases hn
  | @cons a b c names hab _ ih =>
    rcases List.mem_cons.1 hn with rfl | hn
    · obtain ⟨pre, post, hsplit, -⟩ := List.lookup_eq_some_iff.1 hab
      exact List.mem_map.2 ⟨(n, b), by simp [hsplit], rfl⟩
    · exact ih hn

theorem exists_of_mem (h : l.Trail a names b) (hn : n ∈ names) : ∃ before, l.Trail a before n := by
  induction h with
  | nil => cases hn
  | cons hab _ ih =>
    rcases List.mem_cons.1 hn with rfl | hn
    · exact ⟨[], .nil⟩
    · exact (ih hn).imp' _ fun _ hbefore => .cons hab hbefore

/-- One step more. -/
theorem concat (h : l.Trail a names b) (hbc : Assoc.get? l.aliases b = some c) :
    l.Trail a (names ++ [b]) c := by
  induction h with
  | nil => exact .cons hbc .nil
  | cons hab _ ih => exact .cons hab (ih hbc)

/-- A trail that never comes back passes no name twice. -/
theorem nodup (hends : l.AliasesEnd) (h : l.Trail a names b) : names.Nodup := by
  induction h with
  | nil => exact List.nodup_nil
  | cons hab hrest ih =>
    refine List.nodup_cons.2 ⟨fun hmem => ?_, ih⟩
    obtain ⟨before, hback⟩ := hrest.exists_of_mem hmem
    cases hends _ _ (.cons hab hback)

/-- **A trail that never comes back is no longer than there are aliases.** -/
theorem length_le (hends : l.AliasesEnd) (h : l.Trail a names b) :
    names.length ≤ l.aliases.length := by
  have hsub : names.length ≤ (Assoc.keys l.aliases).length :=
    ((h.nodup hends).subperm fun _ => h.mem_keys).length_le
  rwa [Assoc.keys, List.length_map] at hsub

/-- All trails from a name go the same way, as far as they go. -/
theorem eq_append_of_end (h : l.Trail a names b) (hb : Assoc.get? l.aliases b = none)
    (h' : l.Trail a names' c) : ∃ rest, names = names' ++ rest ∧ l.Trail c rest b := by
  induction h' generalizing names with
  | nil => exact ⟨names, rfl, h⟩
  | cons hac _ ih =>
    cases h with
    | nil => cases hb.symm.trans hac
    | cons hab hrest =>
      obtain rfl := Option.some.inj (hab.symm.trans hac)
      obtain ⟨rest, rfl, hrest'⟩ := ih hrest
      exact ⟨rest, rfl, hrest'⟩

/-- There is no circle on the way to an end. -/
theorem eq_nil_of_end (h : l.Trail a names b) (hb : Assoc.get? l.aliases b = none)
    (hcircle : l.Trail a names' a) : names' = [] := by
  obtain ⟨rest, hnames, hrest⟩ := h.eq_append_of_end hb hcircle
  obtain ⟨more, hmore, -⟩ := hrest.eq_append_of_end hb h
  have hlength := congrArg List.length (hmore ▸ hnames)
  simp only [List.length_append] at hlength
  exact List.length_eq_zero_iff.1 (by omega)

end Trail

/-! ## Following aliases -/

theorem chase_of_end (h : Assoc.get? l.aliases n = none) : l.chase steps n = n := by
  cases steps with
  | zero => rfl
  | succ steps => rw [chase, h]

theorem chase_add : l.chase (steps + more) n = l.chase more (l.chase steps n) := by
  fun_induction chase l steps n with
  | case1 => rw [Nat.zero_add]
  | case2 steps n hn => rw [chase_of_end hn, chase_of_end hn]
  | case3 steps n target hn ih =>
    rw [Nat.succ_add, chase, hn]
    exact ih

/-- **Following aliases leaves a trail**, and stops early only at its end. -/
theorem exists_trail_chase (l : Lattice) (steps : Nat) (n : String) :
    ∃ names, l.Trail n names (l.chase steps n) ∧ names.length ≤ steps ∧
      (names.length < steps → Assoc.get? l.aliases (l.chase steps n) = none) := by
  fun_induction chase l steps n with
  | case1 => exact ⟨[], .nil, Nat.le_refl _, fun h => (Nat.not_lt_zero _ h).elim⟩
  | case2 steps n hn => exact ⟨[], .nil, Nat.zero_le _, fun _ => hn⟩
  | case3 steps n target hn ih =>
    obtain ⟨names, htrail, hle, hend⟩ := ih
    exact ⟨n :: names, .cons hn htrail, Nat.succ_le_succ hle,
      fun h => hend (Nat.lt_of_succ_lt_succ h)⟩

/-- **As many steps as there are aliases reach the end.** -/
theorem get?_chase_eq_none (hends : l.AliasesEnd) (hsteps : l.aliases.length ≤ steps) :
    Assoc.get? l.aliases (l.chase steps n) = none := by
  obtain ⟨names, htrail, hle, hend⟩ := l.exists_trail_chase steps n
  rcases Nat.lt_or_eq_of_le hle with hlt | hlength
  · exact hend hlt
  -- all steps were used up: one more would pass more names than there are aliases
  cases hnext : Assoc.get? l.aliases (l.chase steps n) with
  | none => rfl
  | some target =>
    have hlong := (htrail.concat hnext).length_le hends
    rw [List.length_append, List.length_singleton] at hlong
    omega

/-- More steps than there are aliases lead no further. -/
theorem chase_eq_canonical (hends : l.AliasesEnd) (hsteps : l.aliases.length ≤ steps) :
    l.chase steps n = l.canonical n := by
  have hstop : ∀ {k}, l.aliases.length ≤ k → l.chase k n = l.chase l.aliases.length n := by
    intro k hk
    obtain ⟨more, rfl⟩ := Nat.exists_eq_add_of_le hk
    rw [chase_add, chase_of_end (get?_chase_eq_none hends (Nat.le_refl _))]
  rw [canonical, hstop hsteps, hstop (Nat.le_succ _)]

/-- **Aliases run in no circle** if the canonical name of every alias is no alias. -/
theorem aliasesEnd_of_keys
    (h : ∀ n ∈ Assoc.keys l.aliases, Assoc.get? l.aliases (l.canonical n) = none) :
    l.AliasesEnd := by
  intro a names hcircle
  cases hcircle with
  | nil => rfl
  | cons hab hrest =>
    have hcircle := Trail.cons hab hrest
    obtain ⟨_, htrail, -⟩ := l.exists_trail_chase (l.aliases.length + 1) a
    exact htrail.eq_nil_of_end (h a (hcircle.mem_keys List.mem_cons_self)) hcircle

theorem aliasesEnd_iff : l.AliasesEnd ↔ ∀ n, Assoc.get? l.aliases (l.canonical n) = none :=
  ⟨fun hends _ => get?_chase_eq_none hends (Nat.le_succ _),
    fun h => aliasesEnd_of_keys fun n _ => h n⟩

instance (l : Lattice) : Decidable l.AliasesEnd :=
  decidable_of_iff (∀ n ∈ Assoc.keys l.aliases, Assoc.get? l.aliases (l.canonical n) = none)
    ⟨aliasesEnd_of_keys, fun hends n _ => aliasesEnd_iff.1 hends n⟩

/-- **Canonical names end every trail of aliases.**  Aliases run in no circle if and only if no
canonical name is an alias.  If they do not, a canonical name is its own canonical name, and to
follow aliases for more steps, or for one less, leads to the same name.  Subtyping sees canonical
names only.  And whatever circles there are, a canonical name is reached by a trail of aliases, with
one step at most more than there are aliases. -/
theorem canonical_ends_trails (l : Lattice) :
    (l.AliasesEnd ↔ ∀ n, Assoc.get? l.aliases (l.canonical n) = none) ∧
      (l.AliasesEnd → ∀ n, l.canonical (l.canonical n) = l.canonical n ∧
        ∀ steps, l.aliases.length ≤ steps → l.chase steps n = l.canonical n) ∧
      (∀ a a' b b', l.canonical a = l.canonical a' → l.canonical b = l.canonical b' →
        l.isSubtypeOf a b = l.isSubtypeOf a' b') ∧
      ∀ n, ∃ names, l.Trail n names (l.canonical n) ∧ names.length ≤ l.aliases.length + 1 := by
  refine ⟨aliasesEnd_iff, fun hends n => ⟨?_, fun _ => chase_eq_canonical hends⟩, ?_, fun n => ?_⟩
  · exact chase_of_end (aliasesEnd_iff.1 hends n)
  · intro a a' b b' ha hb
    rw [isSubtypeOf, isSubtypeOf, ha, hb]
  · obtain ⟨names, htrail, hle, -⟩ := l.exists_trail_chase (l.aliases.length + 1) n
    exact ⟨names, htrail, hle⟩

/-- Aliases of aliases. -/
theorem canonical_ends_trails_chain :
    let l := ((empty "any").addAlias "x" "y").addAlias "y" "z"
    l.AliasesEnd ∧ l.canonical "x" = "z" ∧ l.chase 2 "x" = l.canonical "x" ∧
      l.isSubtypeOf "x" "w" = l.isSubtypeOf "z" "w" := by
  intro l
  have hends : l.AliasesEnd := by decide +kernel
  have hx : l.canonical "x" = "z" := by decide +kernel
  have hz : l.canonical "z" = l.canonical "x" := hx ▸ ((canonical_ends_trails l).2.1 hends "x").1
  exact ⟨hends, hx, ((canonical_ends_trails l).2.1 hends "x").2 2 (by decide),
    (canonical_ends_trails l).2.2.1 _ _ _ _ hz.symm rfl⟩

/-- Two names stand for each other, and are given up after four steps; the trail from `z` ends. -/
example :
    let l := (((empty "any").addAlias "x" "y").addAlias "y" "x").addAlias "z" "w"
    ¬ l.AliasesEnd ∧ l.canonical "x" = "x" ∧ l.canonical "y" = "y" ∧ l.canonical "z" = "w" := by
  decide +kernel

end StackEffect.Lattice
