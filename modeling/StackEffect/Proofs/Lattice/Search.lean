import Mathlib.Data.Multiset.AddSub
import Mathlib.Logic.Relation
import StackEffect.Lattice.Basic

/-!
# Proofs/Lattice/Search — subtyping of names is reachability

    isSubtypeOf a b   ↔   canonical b = top   ∨   canonical a ⟶ … ⟶ canonical b

A step leads from a name to what one of its direct supertypes leads to.  A search takes one of the
names that wait, whichever it likes, and looks at what it leads to (`Ascent.Step`):

    ⟨marked, p + waiting⟩   ⟶   ⟨marked, waiting⟩                           p leads to a marked name
                            ⟶   ⟨a + marked, supertypes a + waiting⟩        p leads to a, not marked

It may go round in circles of supertypes and of aliases, but it ends: marking a name pays for the
supertypes that wait from then on (`Ascent.potential_lt`).  Where it ends with nothing waiting, the
marked names have no supertype outside (`Ascent.Sound`).
-/

namespace StackEffect

namespace Lattice

variable {l : Lattice} {a b : String} {seen : List String}

/-! ## Steps -/

/-- **One step up**: from a name to what one of its direct supertypes leads to. -/
def Up (l : Lattice) (a b : String) : Prop := ∃ p ∈ l.supertypes a, l.canonical p = b

/-- Steps lead from one name up to another. -/
def Below (l : Lattice) : String → String → Prop := Relation.ReflTransGen l.Up

theorem eq_of_below (h : l.Below a b) (ha : l.supertypes a = []) : a = b := by
  rcases Relation.ReflTransGen.cases_head h with rfl | ⟨c, ⟨p, hp, -⟩, -⟩
  · rfl
  · rw [ha] at hp
    cases hp

/-- What is closed under steps has what lies above its names. -/
theorem mem_of_below {S : List String} (hS : ∀ x ∈ S, ∀ y, l.Up x y → y ∈ S) (h : l.Below a b)
    (ha : a ∈ S) : b ∈ S := by
  induction h with
  | refl => exact ha
  | tail _ hstep ih => exact hS _ ih _ hstep

/-! ## What a search may still meet -/

/-- The number of declared supertypes of names that are not marked: the search may still meet
them. -/
def unmet (seen : List String) : Assoc (List String) → Nat
  | [] => 0
  | e :: types => (if e.1 ∈ seen then 0 else e.2.length) + unmet seen types

theorem edgeCount_eq (l : Lattice) : l.edgeCount = unmet [] l.types := by
  unfold edgeCount
  induction l.types with
  | nil => rfl
  | cons e types ih =>
    rw [List.flatMap_cons, List.length_append, ih, unmet, if_neg List.not_mem_nil]

theorem unmet_cons_le (a : String) (seen : List String) (types : Assoc (List String)) :
    unmet (a :: seen) types ≤ unmet seen types := by
  induction types with
  | nil => exact Nat.le_refl _
  | cons e types ih =>
    rw [unmet, unmet]
    by_cases hs : e.1 ∈ seen
    · simpa [hs] using ih
    · rw [if_neg hs]
      split <;> omega

/-- **Marking a name pays for its supertypes.** -/
theorem length_supertypes_add_unmet (ha : a ∉ seen) :
    (l.supertypes a).length + unmet (a :: seen) l.types ≤ unmet seen l.types := by
  unfold supertypes Assoc.get?
  induction l.types with
  | nil => exact Nat.le_refl _
  | cons e types ih =>
    rw [unmet, unmet, List.lookup_cons]
    by_cases he : e.1 = a
    · have := unmet_cons_le a seen types
      simp only [he, beq_self_eq_true, Option.getD_some, List.mem_cons_self, if_true, if_neg ha]
      omega
    · have hne : (a == e.1) = false := beq_eq_false_iff_ne.2 (Ne.symm he)
      simp only [hne, List.mem_cons, he, false_or]
      omega

/-! ## Searches in whatever order -/

/-- **A search on its way up**: the names that are marked, and the names that wait to be looked at. -/
structure Ascent where
  marked : List String
  waiting : Multiset String

namespace Ascent

/-- A search begins with a name and its direct supertypes. -/
def start (l : Lattice) (a : String) : Ascent := ⟨[a], l.supertypes a⟩

/-- **One step of a search** for `goal`: a name that waits leads to a marked name and is dropped, or
leads to a name that is marked now, and its supertypes wait instead. -/
inductive Step (l : Lattice) (goal : String) : Ascent → Ascent → Prop where
  | drop {marked : List String} {p : String} {waiting : Multiset String} :
      l.canonical p ≠ goal → l.canonical p ∈ marked →
      Step l goal ⟨marked, p ::ₘ waiting⟩ ⟨marked, waiting⟩
  | mark {marked : List String} {p : String} {waiting : Multiset String} :
      l.canonical p ≠ goal → l.canonical p ∉ marked →
      Step l goal ⟨marked, p ::ₘ waiting⟩
        ⟨l.canonical p :: marked, (l.supertypes (l.canonical p) : Multiset String) + waiting⟩

/-- **How a search ends**: a name that waits leads to the goal, or no name waits. -/
inductive Answers (l : Lattice) (goal : String) : Ascent → Bool → Prop where
  | found {s : Ascent} {p : String} : p ∈ s.waiting → l.canonical p = goal → Answers l goal s true
  | exhausted {s : Ascent} : s.waiting = 0 → Answers l goal s false

variable {l : Lattice} {goal a : String} {s t : Ascent} {r : Bool}

/-! ## Searches end -/

/-- What a search may still have to look at. -/
def potential (l : Lattice) (s : Ascent) : Nat := s.waiting.card + unmet s.marked l.types

theorem potential_lt (h : Step l goal s t) : potential l t < potential l s := by
  cases h with
  | drop => simp [potential]
  | mark _ hnew =>
    have hpays := length_supertypes_add_unmet (l := l) hnew
    simp only [potential, Multiset.card_add, Multiset.card_cons, Multiset.coe_card]
    omega

/-- **Every search comes to an end**, whatever name it takes next. -/
theorem wellFounded_step (l : Lattice) (goal : String) : WellFounded fun t s => Step l goal s t :=
  Subrelation.wf potential_lt (measure (potential l)).wf

/-- A search that cannot go on has ended. -/
theorem step_or_answers (l : Lattice) (goal : String) (s : Ascent) :
    (∃ t, Step l goal s t) ∨ ∃ r, s.Answers l goal r := by
  obtain ⟨marked, waiting⟩ := s
  rcases waiting.empty_or_exists_mem with rfl | ⟨p, hp⟩
  · exact .inr ⟨false, .exhausted rfl⟩
  by_cases hgoal : l.canonical p = goal
  · exact .inr ⟨true, .found hp hgoal⟩
  obtain ⟨waiting, rfl⟩ := Multiset.exists_cons_of_mem hp
  by_cases hmem : l.canonical p ∈ marked
  · exact .inl ⟨_, .drop hgoal hmem⟩
  · exact .inl ⟨_, .mark hgoal hmem⟩

/-! ## Searches are right -/

/-- **A search from `a` that goes well**: what waits lies above `a`; what lies one step above a marked
name is marked or waits; and the goal is not marked, but `a` is. -/
structure Sound (l : Lattice) (goal a : String) (s : Ascent) : Prop where
  begun : a ∈ s.marked
  unmarked : goal ∉ s.marked
  above : ∀ p ∈ s.waiting, l.Below a (l.canonical p)
  closed : ∀ x ∈ s.marked, ∀ y, l.Up x y → y ∈ s.marked ∨ ∃ p ∈ s.waiting, l.canonical p = y

theorem sound_start (h : a ≠ goal) : Sound l goal a (.start l a) where
  begun := List.mem_singleton_self a
  unmarked hgoal := h (List.mem_singleton.1 hgoal).symm
  above p hp := .single ⟨p, hp, rfl⟩
  closed x hx y hy := by
    obtain rfl := List.mem_singleton.1 hx
    exact .inr hy

theorem Sound.step (h : Sound l goal a s) (hst : Step l goal s t) : Sound l goal a t := by
  cases hst with
  | @drop marked p waiting hgoal hmem =>
    refine ⟨h.begun, h.unmarked, fun q hq => h.above q (Multiset.mem_cons_of_mem hq), ?_⟩
    intro x hx y hy
    rcases h.closed x hx y hy with hy | ⟨q, hq, rfl⟩
    · exact .inl hy
    rcases Multiset.mem_cons.1 hq with rfl | hq
    · exact .inl hmem
    · exact .inr ⟨q, hq, rfl⟩
  | @mark marked p waiting hgoal hnew =>
    have hp : l.Below a (l.canonical p) := h.above p (Multiset.mem_cons_self p waiting)
    refine ⟨List.mem_cons_of_mem _ h.begun, ?_, fun q hq => ?_, fun x hx y hy => ?_⟩
    · exact fun hg => (List.mem_cons.1 hg).elim (fun he => hgoal he.symm) h.unmarked
    · rcases Multiset.mem_add.1 hq with hq | hq
      · exact hp.tail ⟨q, hq, rfl⟩
      · exact h.above q (Multiset.mem_cons_of_mem hq)
    · rcases List.mem_cons.1 hx with rfl | hx
      · obtain ⟨q, hq, rfl⟩ := hy
        exact .inr ⟨q, Multiset.mem_add.2 (.inl hq), rfl⟩
      rcases h.closed x hx y hy with hy | ⟨q, hq, rfl⟩
      · exact .inl (List.mem_cons_of_mem _ hy)
      rcases Multiset.mem_cons.1 hq with rfl | hq
      · exact .inl List.mem_cons_self
      · exact .inr ⟨q, Multiset.mem_add.2 (.inr hq), rfl⟩

theorem sound_of_steps (h : a ≠ goal) (hs : Relation.ReflTransGen (Step l goal) (.start l a) s) :
    Sound l goal a s := by
  induction hs with
  | refl => exact sound_start h
  | tail _ hstep ih => exact ih.step hstep

/-- **The answer of a search tells whether the goal lies above.** -/
theorem Sound.answers_iff (h : Sound l goal a s) (hr : s.Answers l goal r) :
    r = true ↔ l.Below a goal := by
  cases hr with
  | found hp hgoal => exact iff_of_true rfl (hgoal ▸ h.above _ hp)
  | exhausted hnone =>
    refine iff_of_false Bool.false_ne_true fun hbelow => h.unmarked ?_
    refine mem_of_below (fun x hx y hy => ?_) hbelow h.begun
    simpa [hnone] using h.closed x hx y hy

/-! ## The search that is run -/

/-- **What is run is a search that ends**, if there are steps enough to pay for what waits. -/
theorem exists_run (goal : String) {seen todo : List String} {steps : Nat}
    (h : todo.length + unmet seen l.types ≤ steps) :
    ∃ s, Relation.ReflTransGen (Step l goal) ⟨seen, todo⟩ s ∧
      s.Answers l goal (l.reaches goal steps seen todo) := by
  fun_induction reaches l goal steps seen todo with
  | case1 seen todo =>
    obtain rfl : todo = [] := List.length_eq_zero_iff.1 (by omega)
    exact ⟨_, .refl, .exhausted rfl⟩
  | case2 => exact ⟨_, .refl, .exhausted rfl⟩
  | case3 steps seen next todo name hname => exact ⟨_, .refl, .found List.mem_cons_self hname⟩
  | case4 steps seen next todo name hname hmem ih =>
    obtain ⟨s, hrun, hanswer⟩ := ih (by rw [List.length_cons] at h; omega)
    refine ⟨s, ?_, hanswer⟩
    rw [← Multiset.cons_coe]
    exact .head (.drop hname (List.contains_iff_mem.1 hmem)) hrun
  | case5 steps seen next todo name hname hmem ih =>
    have hnew : name ∉ seen := fun hm => hmem (List.contains_iff_mem.2 hm)
    have hpays := length_supertypes_add_unmet (l := l) hnew
    obtain ⟨s, hrun, hanswer⟩ := ih (by rw [List.length_cons] at h; rw [List.length_append]; omega)
    refine ⟨s, ?_, hanswer⟩
    rw [← Multiset.cons_coe]
    rw [← Multiset.coe_add] at hrun
    exact .head (.mark hname hnew) hrun

end Ascent

/-- **Subtyping of names is reachability**, but for the top type. -/
theorem isSubtypeOf_iff : l.isSubtypeOf a b = true ↔
    l.canonical b = l.top ∨ l.Below (l.canonical a) (l.canonical b) := by
  unfold isSubtypeOf
  generalize l.canonical a = a
  generalize l.canonical b = b
  simp only [Bool.or_eq_true, beq_iff_eq]
  by_cases hab : a = b
  · exact iff_of_true (.inl (.inl hab)) (.inr (hab ▸ .refl))
  have hsteps : (l.supertypes a).length + unmet [a] l.types ≤ l.edgeCount + 1 := by
    have hpays := length_supertypes_add_unmet (l := l) (a := a) List.not_mem_nil
    rw [edgeCount_eq]
    omega
  obtain ⟨s, hrun, hanswer⟩ := Ascent.exists_run b hsteps
  rw [(Ascent.sound_of_steps hab hrun).answers_iff hanswer, or_iff_right hab]

end Lattice

end StackEffect
