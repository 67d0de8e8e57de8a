import StackEffect.Proofs.Kind.Shape
import StackEffect.Proofs.Solve.Outcome

/-!
# Proofs/Solve/Flat — the shape of what names stand for

    bottomed (resolve θ k)                            always
    flat (resolve θ k)   ↔   k uses no name of one slot whose class is represented by a stack

A stack that takes the place of a stack variable becomes part of the stack around it; one that takes
the place of a variable of one slot does not.  What a kind uses are its own names, and those that
the representatives of used names mention, as far as they are solved before.
-/

namespace StackEffect

/-! ## Replacing variables -/

namespace Kind

variable {p : Kind → Bool} {σ τ : String → Option Kind} {sort : String → VarSort} {k l : Kind}
  {s : Stack}

/-- What takes the place of a slot is part of what the slot is replaced by. -/
theorem all_of_mem_spread (h : (k.resolve σ).all p = true) (hl : l ∈ spread σ k) :
    l.all p = true := by
  have hasSlots : ∀ u : Kind, u.all p = true → ∀ l ∈ asSlots u, l.all p = true := by
    intro u hu
    cases u with
    | stack t => exact slotsAll_iff.1 hu
    | _ => exact List.forall_mem_singleton.2 hu
  unfold spread at hl
  split at hl
  · exact hasSlots _ h l hl
  · rwa [List.mem_singleton.1 hl]

/-- **Parts are replaced by parts of the same description.** -/
theorem all_resolve (hσ : ∀ n u, σ n = some u → u.all p = true) (h : k.all p = true) :
    (k.resolve σ).all p = true := by
  have hvar : ∀ {a : String} {u : Kind}, u.all p = true → ((σ a).getD u).all p = true := by
    intro a u hu
    cases ha : σ a with
    | none => exact hu
    | some w => exact hσ a w ha
  have hslots : ∀ {s : Stack}, slotsAll p s = true →
      (∀ k ∈ s, k.all p = true → (k.resolve σ).all p = true) →
      slotsAll p (resolveSlots σ s) = true := by
    intro s hs ih
    rw [resolveSlots_eq_flatMap, slotsAll_iff]
    intro l hl
    obtain ⟨k, hk, hlk⟩ := List.mem_flatMap.1 hl
    exact all_of_mem_spread (ih k hk (slotsAll_iff.1 hs k hk)) hlk
  induction k using Kind.slotInduction with
  | typeVar a | stackVar a => exact hvar h
  | stack s ih => exact hslots h ih
  | effect c d i hc hd =>
    obtain ⟨h₁, h₂⟩ := Bool.and_eq_true_iff.1 h
    exact Bool.and_eq_true_iff.2 ⟨hslots h₁ hc, hslots h₂ hd⟩
  | _ => exact h

/-- The slots that a bottomed kind amounts to are bottomed. -/
theorem slotsBottomed_asSlots (h : k.bottomed = true) : slotsBottomed (asSlots k) = true := by
  cases k with
  | stack t => exact h
  | _ => simpa [asSlots, slotsBottomed] using h

/-- **Stack variables stay at the bottom**, if no variable of one slot is replaced by one. -/
theorem bottomed_resolve (hσ : ∀ n u, σ n = some u →
      u.bottomed = true ∧ (sort n = .slot → u.isStackVar = false))
    (h : k.bottomed = true) (hsort : ∀ v ∈ k.vars, sort v.name = v.sort) :
    (k.resolve σ).bottomed = true ∧
      (k.isStackVar = false → (k.resolve σ).isStackVar = false) := by
  have hslots : ∀ {s : Stack}, slotsBottomed s = true → (∀ v ∈ slotVars s, sort v.name = v.sort) →
      (∀ k ∈ s, k.bottomed = true → (∀ v ∈ k.vars, sort v.name = v.sort) →
        (k.resolve σ).bottomed = true ∧
          (k.isStackVar = false → (k.resolve σ).isStackVar = false)) →
      slotsBottomed (resolveSlots σ s) = true := by
    intro s hs hv ih
    induction s with
    | nil => rfl
    | cons k s ihs =>
      rw [slotsBottomed, Bool.and_eq_true, Bool.and_eq_true] at hs
      rw [slotVars] at hv
      rw [List.forall_mem_cons] at ih
      obtain ⟨⟨hbottom, hk⟩, hs⟩ := hs
      obtain ⟨hb, hnv⟩ := ih.1 hk fun v hvk => hv v (List.mem_append_right _ hvk)
      have hrest := ihs hs (fun v hvs => hv v (List.mem_append_left _ hvs)) ih.2
      rw [resolveSlots_cons]
      unfold spread
      split
      · -- a stack variable has nothing below it
        obtain rfl : s = [] := by simpa [isStackVar] using hbottom
        rw [resolveSlots, List.append_nil]
        exact slotsBottomed_asSlots hb
      · next hvar =>
        have hk' : k.isStackVar = false := by
          cases k with
          | stackVar a => exact absurd rfl (hvar a)
          | _ => rfl
        rw [List.singleton_append, slotsBottomed, hnv hk', hb, hrest]
        rfl
  induction k using Kind.slotInduction with
  | typeVar a =>
    rw [resolve]
    cases ha : σ a with
    | none => exact ⟨rfl, fun _ => rfl⟩
    | some u => exact ⟨(hσ a u ha).1, fun _ => (hσ a u ha).2 (hsort _ List.mem_cons_self)⟩
  | stackVar a =>
    refine ⟨?_, fun h => by simp [isStackVar] at h⟩
    rw [resolve]
    cases ha : σ a with
    | none => rfl
    | some u => exact (hσ a u ha).1
  | stack s ih => exact ⟨hslots h hsort ih, fun _ => rfl⟩
  | effect c d i hc hd =>
    obtain ⟨h₁, h₂⟩ := Bool.and_eq_true_iff.1 h
    exact ⟨Bool.and_eq_true_iff.2 ⟨hslots h₁ (fun v hv => hsort v (List.mem_append_left _ hv)) hc,
      hslots h₂ (fun v hv => hsort v (List.mem_append_right _ hv)) hd⟩, fun _ => rfl⟩
  | _ => exact ⟨h, id⟩

/-- **A variable is replaced by a flat kind**, and one of one slot not by a stack. -/
def Smooth (σ : String → Option Kind) (v : Var) : Prop :=
  (v.kind.resolve σ).flat = true ∧ (v.sort = .slot → (v.kind.resolve σ).isStack = false)

theorem smooth_of_eq_none {v : Var} (h : σ v.name = none) : Smooth σ v := by
  rw [Smooth, resolve_varKind, h]
  rcases v with ⟨_ | _, a⟩ <;> exact ⟨rfl, fun _ => rfl⟩

theorem smooth_of_eq_var {v w : Var} (h : σ v.name = some w.kind) : Smooth σ v := by
  rw [Smooth, resolve_varKind, h]
  rcases w with ⟨_ | _, a⟩ <;> exact ⟨rfl, fun _ => rfl⟩

theorem smooth_congr {v : Var} (h : σ v.name = τ v.name) : Smooth σ v ↔ Smooth τ v := by
  rw [Smooth, Smooth, resolve_varKind, resolve_varKind, h]

theorem smooth_sort_iff {v : Var} (h : sort v.name = v.sort) :
    Smooth σ ⟨sort v.name, v.name⟩ ↔ Smooth σ v := by
  rw [h]

theorem slotsFlat_asSlots : slotsFlat (asSlots k) = k.flat := by
  cases k <;> simp [asSlots, slotsFlat, flat, isStack]

theorem slotsFlat_singleton :
    slotsFlat [k] = true ↔ k.flat = true ∧ k.isStack = false := by
  simp [slotsFlat, and_comm]

/-- A stack of replaced slots is flat if what takes the place of each slot is. -/
theorem slotsFlat_resolveSlots_iff (h : ∀ k ∈ s, slotsFlat (spread σ k) = true ↔
    ∀ v ∈ k.vars, Smooth σ v) :
    slotsFlat (resolveSlots σ s) = true ↔ ∀ v ∈ slotVars s, Smooth σ v := by
  rw [resolveSlots_eq_flatMap, slotsFlat_iff]
  constructor
  · intro hflat v hv
    obtain ⟨k, hk, hvk⟩ := mem_slotVars.1 hv
    refine (h k hk).1 (slotsFlat_iff.2 fun l hl => hflat l ?_) v hvk
    exact List.mem_flatMap.2 ⟨k, hk, hl⟩
  · intro hsmooth l hl
    obtain ⟨k, hk, hlk⟩ := List.mem_flatMap.1 hl
    exact slotsFlat_iff.1 ((h k hk).2 fun v hv => hsmooth v (mem_slotVars.2 ⟨k, hk, hv⟩)) l hlk

theorem slotsFlat_spread_iff (h : k.flat = true) (hk : k.isStack = false) :
    slotsFlat (spread σ k) = true ↔ ∀ v ∈ k.vars, Smooth σ v := by
  induction k using Kind.slotInduction with
  | typeVar a =>
    rw [spread_eq_singleton (by simp), slotsFlat_singleton]
    simp [vars, Smooth, Var.kind]
  | stackVar a =>
    rw [spread, slotsFlat_asSlots]
    simp [vars, Smooth, Var.kind]
  | stack s => simp [isStack] at hk
  | effect c d i hc hd =>
    obtain ⟨h₁, h₂⟩ := Bool.and_eq_true_iff.1 h
    have hslots : ∀ {s : Stack}, slotsFlat s = true → (∀ k ∈ s, k.flat = true →
        k.isStack = false → (slotsFlat (spread σ k) = true ↔ ∀ v ∈ k.vars, Smooth σ v)) →
        (slotsFlat (resolveSlots σ s) = true ↔ ∀ v ∈ slotVars s, Smooth σ v) := fun hs ih =>
      slotsFlat_resolveSlots_iff fun k hk =>
        ih k hk (slotsFlat_iff.1 hs k hk).2 (slotsFlat_iff.1 hs k hk).1
    rw [spread_eq_singleton (by simp), slotsFlat_singleton, resolve, flat, Bool.and_eq_true,
      hslots h₁ hc, hslots h₂ hd]
    simp [vars, isStack, or_imp, forall_and]
  | _ => simp [spread, slotsFlat, resolve, vars, flat, isStack]

/-- **What replaces a kind is flat if its variables are replaced smoothly.** -/
theorem flat_resolve_iff (h : k.flat = true) (hk : k.varName? = none) :
    (k.resolve σ).flat = true ↔ ∀ v ∈ k.vars, Smooth σ v := by
  cases k with
  | stack s =>
    exact slotsFlat_resolveSlots_iff fun k hk =>
      slotsFlat_spread_iff (slotsFlat_iff.1 h k hk).2 (slotsFlat_iff.1 h k hk).1
  | effect c d i =>
    rw [← slotsFlat_spread_iff h rfl, spread_eq_singleton (by simp), slotsFlat_singleton]
    exact (and_iff_left rfl).symm
  | typeVar a | stackVar a => simp [varName?] at hk
  | _ => simp [resolve, vars, flat]

theorem isStack_resolve (hk : k.varName? = none) : (k.resolve σ).isStack = k.isStack := by
  cases k with
  | typeVar a | stackVar a => simp [varName?] at hk
  | _ => rfl

end Kind

/-! ## Solutions -/

namespace Outcome

variable {sort : String → VarSort} {L : Kind → Prop} {P : Partition} {θ : String → Option Kind}
  {order pre post : List String} {k r : Kind} {n m : String}

/-- **Solutions are made of the parts of members**, and of the top type. -/
theorem all_solution {p : Kind → Bool} (h : Outcome sort L P θ) (hp : ∀ k, L k → k.all p = true)
    (htop : p (.simple (Subtyping.topOf P.subtyping)) = true) (n : String) (u : Kind)
    (hu : θ n = some u) : u.all p = true := by
  obtain ⟨order, hsol⟩ := h.solution
  refine hsol.forall_solved (I := fun _ u => u.all p = true) (fun n r hr θ' hθ' => ?_) n u hu
  refine Kind.all_resolve hθ' ?_
  obtain ⟨i, -, hri⟩ := Option.bind_eq_some_iff.1 hr
  rcases (h.represents hri).mem with hm | ⟨_, _, _, _, _, rfl⟩
  · exact hp _ (h.member hm)
  · exact htop

theorem sort_of_mem_vars (h : Outcome sort L P θ) (hr : P.repOf n = some r) {v : Var}
    (hv : v ∈ r.vars) : sort v.name = v.sort := by
  obtain ⟨i, -, hri⟩ := Option.bind_eq_some_iff.1 hr
  exact (h.rep_tidy hri).2 v hv

/-- The representative of a variable of one slot is no stack variable. -/
theorem isStackVar_rep (h : Outcome sort L P θ) (hr : P.repOf n = some r) (hn : sort n = .slot) :
    r.isStackVar = false := by
  obtain ⟨i, k, hi, hk, hslot⟩ := h.called (Partition.isSome_of_repOf hr)
  have hri : P.rep i = some r := by
    rw [← h.repOf_of_names (Partition.names_of_index hi), hr]
  have hrank := (h.represents hri).rank_le k hk
  have htidy := (h.tidy (h.member hk)).1
  have hks := hslot hn
  cases r with
  | stackVar a =>
    -- a slot of higher rank is in the class
    cases k <;> simp [Kind.rank, Kind.isSlot, Kind.wellFormed] at hrank hks htidy
  | _ => rfl

/-- **Solutions have stack variables only at the bottom of stacks.** -/
theorem bottomed_solution (h : Outcome sort L P θ) (n : String) (u : Kind) (hu : θ n = some u) :
    u.bottomed = true ∧ (sort n = .slot → u.isStackVar = false) := by
  obtain ⟨order, hsol⟩ := h.solution
  refine hsol.forall_solved (I := fun n u => u.bottomed = true ∧ (sort n = .slot → u.isStackVar = false))
    (fun n r hr θ' hθ' => ?_) n u hu
  obtain ⟨i, -, hri⟩ := Option.bind_eq_some_iff.1 hr
  obtain ⟨hwf, hsort⟩ := h.rep_tidy hri
  obtain ⟨hb, hv⟩ := Kind.bottomed_resolve hθ' (Kind.wellFormed_iff.1 hwf).1 hsort
  exact ⟨hb, fun hn => hv (h.isStackVar_rep hr hn)⟩

/-- **A name is replaced smoothly** if its representative is no stack where a slot is named, and the
names it mentions that were solved before are. -/
theorem smooth_iff (h : Outcome sort L P θ) (hsol : P.Solution order θ)
    (hord : order = pre ++ n :: post) (hr : P.repOf n = some r) :
    Kind.Smooth θ ⟨sort n, n⟩ ↔ (sort n = .slot → r.isStack = false) ∧
      ∀ v ∈ r.vars, v.name ∈ pre → Kind.Smooth θ v := by
  obtain ⟨i, -, hri⟩ := Option.bind_eq_some_iff.1 hr
  obtain ⟨r', hr', hθ⟩ := hsol.eq_some hord
  obtain rfl := Option.some.inj (hr.symm.trans hr')
  cases hvar : r.varName? with
  | some m =>
    -- a variable stays as it is
    have hself := h.repOf_rep hri hvar
    obtain ⟨w, rfl, rfl⟩ := Kind.eq_varKind_of_varName? hvar
    refine iff_of_true (Kind.smooth_of_eq_var (hsol.eq_var hr hvar hself)) ⟨fun _ => ?_, ?_⟩
    · cases hw : w.kind with
      | stack s => simp [hw, Kind.varName?] at hvar
      | _ => rfl
    · rintro v hv -
      rw [Kind.vars_varKind, List.mem_singleton] at hv
      exact Kind.smooth_of_eq_var (hv ▸ hsol.eq_self hself hvar)
  | none =>
    have hflat := (Kind.wellFormed_iff.1 (h.rep_tidy hri).1).2.1
    rw [Kind.Smooth, Kind.resolve_varKind, hθ, Option.getD_some, Kind.isStack_resolve hvar,
      Kind.flat_resolve_iff hflat hvar, and_comm]
    refine and_congr_right fun _ => forall₂_congr fun v hv => ?_
    by_cases hpre : v.name ∈ pre
    · rw [Kind.smooth_congr (τ := θ) (if_pos hpre)]
      exact (imp_iff_right hpre).symm
    · exact iff_of_true (Kind.smooth_of_eq_none (if_neg hpre)) fun hm => absurd hm hpre

end Outcome

/-! ## What a kind uses -/

/-- **The names that a kind uses**: its own, and those that the representatives of used names
mention, if they are solved before. -/
inductive Partition.Uses (P : Partition) (order : List String) (k : Kind) : String → Prop
  | own {v : Var} (hv : v ∈ k.vars) : P.Uses order k v.name
  | through {n m : String} (hn : P.Uses order k n) (hm : P.Mentions n m)
      (hbefore : [m, n].Sublist order) : P.Uses order k m

namespace Outcome

variable {sort : String → VarSort} {L : Kind → Prop} {P : Partition} {θ : String → Option Kind}
  {order : List String} {k : Kind}

/-- The names before another. -/
theorem mem_before_iff {pre post : List String} {n m : String} (hnodup : order.Nodup)
    (hord : order = pre ++ n :: post) : m ∈ pre ↔ [m, n].Sublist order := by
  subst hord
  constructor
  · intro hm
    exact (List.singleton_sublist.2 hm).append (List.singleton_sublist.2 List.mem_cons_self)
  · intro hsub
    have hpost : n ∉ post := (List.nodup_cons.1 (List.nodup_append.1 hnodup).2.1).1
    obtain ⟨before, rest, he, hbefore, hrest⟩ := List.sublist_append_iff.1 hsub
    cases before with
    | cons m' before => exact hbefore.subset ((List.cons.inj he).1 ▸ List.mem_cons_self)
    | nil =>
      -- else `n` comes twice
      obtain rfl : [m, n] = rest := he
      rcases List.cons_sublist_cons'.1 hrest with hrest | ⟨-, hrest⟩
      · exact absurd (hrest.subset (by simp)) hpost
      · exact absurd (List.singleton_sublist.1 hrest) hpost

/-- **A flat kind uses no name of one slot that is represented by a stack**, and conversely. -/
theorem flat_resolve_iff_uses (h : Outcome sort L P θ) (hsol : P.Solution order θ)
    (hk : k.Tidy sort) (hvar : k.varName? = none) :
    (k.resolve θ).flat = true ↔
      ∀ n, P.Uses order k n → sort n = .slot → ∀ r, P.repOf n = some r → r.isStack = false := by
  rw [Kind.flat_resolve_iff (Kind.wellFormed_iff.1 hk.1).2.1 hvar]
  constructor
  · intro hsmooth
    -- what is used is replaced smoothly
    have huses : ∀ n, P.Uses order k n → Kind.Smooth θ ⟨sort n, n⟩ := by
      intro n hn
      induction hn with
      | own hv => exact (Kind.smooth_sort_iff (hk.2 _ hv)).2 (hsmooth _ hv)
      | @through n _ _ hm hbefore ih =>
        obtain ⟨-, r, hr, v, hv, rfl⟩ := hm
        obtain ⟨pre, post, hord⟩ := List.append_of_mem
          (hsol.mem_order.2 (Partition.isSome_of_repOf hr))
        exact (Kind.smooth_sort_iff (h.sort_of_mem_vars hr hv)).2
          (((h.smooth_iff hsol hord hr).1 ih).2 v hv ((mem_before_iff hsol.nodup hord).2 hbefore))
    intro n hn hslot r hr
    obtain ⟨pre, post, hord⟩ := List.append_of_mem (hsol.mem_order.2 (Partition.isSome_of_repOf hr))
    exact ((h.smooth_iff hsol hord hr).1 (huses n hn)).1 hslot
  · intro hrep v hv
    have huses : ∀ n ∈ order, P.Uses order k n → Kind.Smooth θ ⟨sort n, n⟩ := by
      refine Solving.forall_of_before fun pre n post hord hbefore hn => ?_
      obtain ⟨r, hr, -⟩ := hsol.eq_some hord
      refine (h.smooth_iff hsol hord hr).2 ⟨fun hslot => hrep n hn hslot r hr, fun w hw hpre => ?_⟩
      have hm : P.Mentions n w.name :=
        ⟨hsol.mem_order.1 (hord ▸ List.mem_append_left _ hpre), r, hr, w, hw, rfl⟩
      exact (Kind.smooth_sort_iff (h.sort_of_mem_vars hr hw)).1
        (hbefore w.name hpre (hn.through hm ((mem_before_iff hsol.nodup hord).1 hpre)))
    by_cases hord : v.name ∈ order
    · exact (Kind.smooth_sort_iff (hk.2 v hv)).1 (huses v.name hord (.own hv))
    · exact Kind.smooth_of_eq_none (hsol.eq_none hord)

end Outcome

end StackEffect
