import StackEffect.Kind.Closing
import StackEffect.Proofs.Kind.WellFormed

/-!
# Proofs/Kind/Shape — what a kind is made of, and where its stacks and stack variables stand

    all p            p holds of every name and every other part that is not made of others
    bottomed         stack variables only at the bottom of a stack
    flat             no stack directly inside a stack

A well-formed kind is bottomed and flat (`wellFormed_iff`).  Renaming variables within their sorts
and closing effects change neither of the two.
-/

namespace StackEffect.Kind

/-- Stacks. -/
def isStack : Kind → Bool
  | stack _ => true
  | _ => false

theorem isStack_iff {k : Kind} : k.isStack = true ↔ ∃ v, k = stack v := by
  cases k <;> simp [isStack]

/-- Stack variables. -/
def isStackVar : Kind → Bool
  | stackVar _ => true
  | _ => false

mutual
/-- Whether `p` holds of all parts that are not made of others. -/
def all (p : Kind → Bool) : Kind → Bool
  | stack s => slotsAll p s
  | effect c q _ => slotsAll p c && slotsAll p q
  | k => p k
/-- The same for a stack. -/
def slotsAll (p : Kind → Bool) : List Kind → Bool
  | [] => true
  | k :: s => all p k && slotsAll p s
end

mutual
/-- **Whether stack variables are at the bottom of stacks only.** -/
def bottomed : Kind → Bool
  | stack s => slotsBottomed s
  | effect c p _ => slotsBottomed c && slotsBottomed p
  | _ => true
/-- The same for a stack. -/
def slotsBottomed : List Kind → Bool
  | [] => true
  | k :: s => (!k.isStackVar || s.isEmpty) && bottomed k && slotsBottomed s
end

mutual
/-- **Whether no stack is directly inside a stack.** -/
def flat : Kind → Bool
  | stack s => slotsFlat s
  | effect c p _ => slotsFlat c && slotsFlat p
  | _ => true
/-- The same for a stack. -/
def slotsFlat : List Kind → Bool
  | [] => true
  | k :: s => !k.isStack && flat k && slotsFlat s
end

/-- The parts that a signature has words for. -/
def known : Kind → Bool
  | foreign .. | absent => false
  | _ => true

variable {p q : Kind → Bool} {k : Kind} {s t : Stack}

theorem slotsAll_iff : slotsAll p s = true ↔ ∀ k ∈ s, k.all p = true := by
  induction s with
  | nil => simp [slotsAll]
  | cons k s ih => simp [slotsAll, ih]

theorem slotsFlat_iff : slotsFlat s = true ↔ ∀ k ∈ s, k.isStack = false ∧ k.flat = true := by
  induction s with
  | nil => simp [slotsFlat]
  | cons k s ih => simp [slotsFlat, ih]

/-- Only the last slot of a stack may be a stack variable. -/
theorem slotsBottomed_iff : slotsBottomed s = true ↔
    (∀ k ∈ s, k.bottomed = true) ∧ ∀ k ∈ s.dropLast, k.isStackVar = false := by
  induction s with
  | nil => simp [slotsBottomed]
  | cons k s ih =>
    cases s with
    | nil => simp [slotsBottomed]
    | cons l s =>
      rw [slotsBottomed, List.dropLast_cons_cons]
      simp only [Bool.and_eq_true, ih, List.forall_mem_cons, List.isEmpty_cons, Bool.or_false,
        Bool.not_eq_true']
      constructor
      · rintro ⟨⟨hv, hk⟩, hs, hd⟩
        exact ⟨⟨hk, hs⟩, hv, hd⟩
      · rintro ⟨⟨hk, hs⟩, hv, hd⟩
        exact ⟨⟨hv, hk⟩, hs, hd⟩

/-- What follows from two facts about each part. -/
theorem all_imp₂ {r : Kind → Bool} (h : ∀ l, p l = true → q l = true → r l = true)
    (hp : k.all p = true) (hq : k.all q = true) : k.all r = true := by
  induction k using Kind.slotInduction with
  | stack s ih =>
    exact slotsAll_iff.2 fun l hl => ih l hl (slotsAll_iff.1 hp l hl) (slotsAll_iff.1 hq l hl)
  | effect c d i hc hd =>
    obtain ⟨hp₁, hp₂⟩ := Bool.and_eq_true_iff.1 hp
    obtain ⟨hq₁, hq₂⟩ := Bool.and_eq_true_iff.1 hq
    exact Bool.and_eq_true_iff.2
      ⟨slotsAll_iff.2 fun l hl => hc l hl (slotsAll_iff.1 hp₁ l hl) (slotsAll_iff.1 hq₁ l hl),
        slotsAll_iff.2 fun l hl => hd l hl (slotsAll_iff.1 hp₂ l hl) (slotsAll_iff.1 hq₂ l hl)⟩
  | _ => exact h _ hp hq

theorem all_mono (h : ∀ l, p l = true → q l = true) (hk : k.all p = true) : k.all q = true :=
  all_imp₂ (fun l hl _ => h l hl) hk hk

theorem all_var {v : Var} (h : k.all p = true) (hv : v ∈ k.vars) : p v.kind = true := by
  induction k using Kind.slotInduction with
  | typeVar a | stackVar a =>
    rw [vars, List.mem_singleton] at hv
    rw [hv]
    exact h
  | stack s ih =>
    obtain ⟨l, hl, hvl⟩ := mem_slotVars.1 hv
    exact ih l hl (slotsAll_iff.1 h l hl) hvl
  | effect c d i hc hd =>
    obtain ⟨h₁, h₂⟩ := Bool.and_eq_true_iff.1 h
    rcases List.mem_append.1 hv with hv | hv
    · obtain ⟨l, hl, hvl⟩ := mem_slotVars.1 hv
      exact hc l hl (slotsAll_iff.1 h₁ l hl) hvl
    · obtain ⟨l, hl, hvl⟩ := mem_slotVars.1 hv
      exact hd l hl (slotsAll_iff.1 h₂ l hl) hvl
  | _ => simp [vars] at hv

/-- **A kind is well-formed if it is bottomed and flat**, and made of what signatures have words
for. -/
theorem wellFormed_iff :
    k.wellFormed = true ↔ k.bottomed = true ∧ k.flat = true ∧ k.all known = true := by
  have hslots : ∀ s : Stack, (∀ k ∈ s, k.wellFormed = true ↔
      k.bottomed = true ∧ k.flat = true ∧ k.all known = true) →
      (slotsWellFormed s = true ↔
        slotsBottomed s = true ∧ slotsFlat s = true ∧ slotsAll known s = true) := by
    intro s hs
    induction s with
    | nil => simp [slotsWellFormed, slotsBottomed, slotsFlat, slotsAll]
    | cons k s ih =>
      rw [List.forall_mem_cons] at hs
      simp only [slotsWellFormed, slotsBottomed, slotsFlat, slotsAll, Bool.and_eq_true, ih hs.2,
        hs.1]
      cases k <;> simp [fitsOn, isStack, isStackVar, and_assoc, and_left_comm]
  induction k using Kind.slotInduction with
  | stack s ih => exact hslots s ih
  | effect c p i hc hp =>
    simp only [wellFormed, bottomed, flat, all, Bool.and_eq_true, hslots c hc, hslots p hp]
    constructor
    · rintro ⟨⟨hbc, hfc, hac⟩, hbp, hfp, hap⟩
      exact ⟨⟨hbc, hbp⟩, ⟨hfc, hfp⟩, hac, hap⟩
    · rintro ⟨⟨hbc, hbp⟩, ⟨hfc, hfp⟩, hac, hap⟩
      exact ⟨⟨hbc, hfc, hac⟩, hbp, hfp, hap⟩
  | _ => simp [wellFormed, bottomed, flat, all, known]

/-- What lies below a stack that is not open may be any slot, where stacks are told by their slots. -/
theorem concat_of {L : Kind → Prop} (hnil : L (stack []))
    (hcons : ∀ {k s}, L (stack (k :: s)) ↔ fitsOn k s = true ∧ L k ∧ L (stack s)) (h : L (stack s))
    (hs : Stack.isOpen s = false) (hk : L k) (hstack : k.isStack = false) : L (stack (s ++ [k])) := by
  induction s with
  | nil =>
    refine hcons.2 ⟨?_, hk, hnil⟩
    cases k with
    | stack t => simp [isStack] at hstack
    | _ => rfl
  | cons l s ih =>
    obtain ⟨hfits, hl, hrest⟩ := hcons.1 h
    have hopen : Stack.isOpen s = false := by
      rw [← Bool.not_eq_true, Stack.isOpen_iff] at hs ⊢
      rintro ⟨above, name, rfl⟩
      exact hs ⟨l :: above, name, rfl⟩
    refine hcons.2 ⟨?_, hl, ih hrest hopen⟩
    cases l with
    | stackVar a =>
      obtain rfl := eq_nil_of_fitsOn hfits
      simp [Stack.isOpen, Stack.bottom?] at hs
    | stack t => simp [fitsOn] at hfits
    | _ => rfl

end StackEffect.Kind
