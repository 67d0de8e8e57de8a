import StackEffect.Proofs.Unify.Layers
import StackEffect.Proofs.Unify.Region

/-!
# Proofs/Unify/Unroll — chains of bindings below a stack

    'A ↦ int 'B,  'B ↦ bool 'C        'A unrolls to int bool 'C

Where all stacks are concrete slots on variables, following what variables are bound to shows slot
after slot of the stack that they stand for.  The classes may know several such stacks for one
variable; they are settled with each other.  So what lies on an unrolled stack and on a settled one
overlaps from the top, and where the one ends, the other goes on (`Stacked.overlap`).
-/

namespace StackEffect

open Kind (slotsConcrete slotsMeet stackVar)

namespace Partition

variable {P : Partition} {a b c d n m : String} {i j : Nat} {k : Kind} {s t u v : Stack}
  {height : String → ℤ}

/-! ## Slots that are settled -/

theorem slotsMeet_of_settled_of (hstrict : P.lenient = false) (hs : slotsConcrete s = true)
    (ht : slotsConcrete t = true)
    (ih : ∀ k ∈ s, ∀ l, l.concrete = true → P.SettledSlot k l → k.meets P.subtyping l = true)
    (h : P.Settled s t) : slotsMeet P.subtyping s t = true := by
  rw [settled_iff, hstrict] at h
  induction s generalizing t with
  | nil =>
    cases t with
    | nil => rfl
    | cons l t =>
      have hl := Kind.ne_stackVar_of_concrete (Kind.slotsConcrete_cons.1 ht).1
      exact absurd ((Aligned.nil_cons_iff hl).1 h) Bool.false_ne_true
  | cons k s ihs =>
    rw [Kind.slotsConcrete_cons] at hs
    rw [List.forall_mem_cons] at ih
    have hk := Kind.ne_stackVar_of_concrete hs.1
    cases t with
    | nil => exact absurd ((Aligned.cons_nil_iff hk).1 h) Bool.false_ne_true
    | cons l t =>
      rw [Kind.slotsConcrete_cons] at ht
      obtain ⟨hkl, h⟩ := (Aligned.cons_iff hk (Kind.ne_stackVar_of_concrete ht.1)).1 h
      exact Kind.slotsMeet_cons.2 ⟨ih.1 l ht.1 hkl, ihs hs.2 ht.2 ih.2 h⟩

/-- **Concrete slots that are settled meet.** -/
theorem meets_of_settledSlot (hstrict : P.lenient = false) (hk : k.concrete = true) :
    ∀ l, l.concrete = true → P.SettledSlot k l → k.meets P.subtyping l = true := by
  induction k, hk using Kind.concreteInduction with
  | simple | self =>
    intro l hl h
    rw [settledSlot_iff] at h
    refine (Kind.compatible_iff_meets rfl hl).1 ⟨h.2.2.2.resolve_right id, ?_⟩
    rintro _ _ _ _ _ _ ⟨⟩
  | effect c p i hc hp ihc ihp =>
    intro l hl h
    rw [settledSlot_iff] at h
    refine (Kind.compatible_iff_meets (Kind.concrete_effect.2 ⟨hc, hp⟩) hl).1
      ⟨h.2.2.2.resolve_right id, ?_⟩
    rintro _ _ _ d q j ⟨⟩ rfl
    obtain ⟨hd, hq⟩ := Kind.concrete_effect.1 hl
    obtain ⟨hcd, hpq⟩ := h.2.2.1 _ _ _ _ _ _ rfl rfl
    exact ⟨slotsMeet_of_settled_of hstrict hc hd ihc hcd, slotsMeet_of_settled_of hstrict hp hq ihp hpq⟩

/-- **Walking down two settled stacks**: the slots meet until one variable is reached, which is bound to
the rest of the other stack. -/
theorem Settled.walk (hstrict : P.lenient = false) (hs : slotsConcrete s = true)
    (ht : slotsConcrete t = true) (h : P.Settled (s ++ [stackVar a]) (t ++ [stackVar b])) :
    (∃ s₁ s₂, s = s₁ ++ s₂ ∧ slotsMeet P.subtyping s₁ t = true ∧
        P.Bound b (.stack (s₂ ++ [stackVar a]))) ∨
      ∃ t₁ t₂, t = t₁ ++ t₂ ∧ slotsMeet P.subtyping s t₁ = true ∧
        P.Bound a (.stack (t₂ ++ [stackVar b])) := by
  rw [settled_iff] at h
  induction s generalizing t with
  | nil =>
    refine .inr ⟨[], t, rfl, rfl, ?_⟩
    cases t with
    | nil => exact h.1
    | cons l t =>
      exact (Aligned.var_cons_iff (Kind.ne_stackVar_of_concrete (Kind.slotsConcrete_cons.1 ht).1)).1 h
  | cons k s ih =>
    rw [Kind.slotsConcrete_cons] at hs
    have hk := Kind.ne_stackVar_of_concrete hs.1
    cases t with
    | nil => exact .inl ⟨[], k :: s, rfl, rfl, (Aligned.cons_var_iff hk).1 h⟩
    | cons l t =>
      rw [Kind.slotsConcrete_cons] at ht
      obtain ⟨hkl, h⟩ := (Aligned.cons_iff hk (Kind.ne_stackVar_of_concrete ht.1)).1 h
      have hmeet := meets_of_settledSlot hstrict hs.1 l ht.1 hkl
      refine (ih hs.2 ht.2 h).imp ?_ ?_
      · rintro ⟨s₁, s₂, rfl, hs₁, hb⟩
        exact ⟨k :: s₁, s₂, rfl, Kind.slotsMeet_cons.2 ⟨hmeet, hs₁⟩, hb⟩
      · rintro ⟨t₁, t₂, rfl, ht₁, ha⟩
        exact ⟨l :: t₁, t₂, rfl, Kind.slotsMeet_cons.2 ⟨hmeet, ht₁⟩, ha⟩

/-! ## Unrolling -/

/-- Two names of one variable: they are the same, or share a class. -/
def Same (P : Partition) (a b : String) : Prop := a = b ∨ ∃ i, P.Names a i ∧ P.Names b i

theorem Same.symm (h : P.Same a b) : P.Same b a :=
  h.imp Eq.symm fun h => h.imp fun _ => And.symm

theorem Same.names (h : P.Same a b) (hb : P.Names b i) : P.Names a i := by
  rcases h with rfl | ⟨j, ha, hb'⟩
  · exact hb
  · exact ha.congr (hb'.root_eq hb)

theorem Same.trans (h : P.Same a b) (h' : P.Same b c) : P.Same a c := by
  rcases h' with rfl | ⟨i, hb, hc⟩
  · exact h
  · exact .inr ⟨i, h.names hb, hc⟩

/-- A variable that is bound to slots on another one is the same as that one, or its class has that
stack. -/
theorem Sound.bound_cases (hP : P.Sound) (h : P.Bound a (.stack (s ++ [stackVar b]))) :
    s = [] ∧ P.Same a b ∨ ∃ i, P.Names a i ∧ .stack (s ++ [stackVar b]) ∈ P.members i := by
  cases s with
  | nil =>
    refine .inl ⟨rfl, ?_⟩
    rcases h with hab | ⟨i, hi, hb⟩
    · exact .inl (Option.some.inj hab).symm
    · exact .inr ⟨i, names_of_index hi, hP.member_var hb rfl⟩
  | cons k s =>
    have hself : (Kind.stack (k :: s ++ [stackVar b])).unwrap = .stack (k :: s ++ [stackVar b]) :=
      Kind.unwrap_eq_self fun slot h => by simpa using congrArg List.length (Kind.stack.inj h)
    rw [Bound, hself] at h
    rcases h with h | ⟨i, hi, hs⟩
    · cases h
    · exact .inr ⟨i, names_of_index hi, hs⟩

/-- **`a` unrolls to slots on `b`**: a class of `a` has a stack of slots on a variable, which unrolls
further. -/
inductive Unrolls (P : Partition) : String → Stack → String → Prop where
  | same {a b : String} : P.Same a b → Unrolls P a [] b
  | step {a b c : String} {i : Nat} {s t : Stack} : P.Names a i →
      .stack (s ++ [stackVar b]) ∈ P.members i → Unrolls P b t c → Unrolls P a (s ++ t) c

namespace Unrolls

theorem of_same (h : P.Same a b) (hb : P.Unrolls b s c) : P.Unrolls a s c := by
  cases hb with
  | same hbc => exact .same (h.trans hbc)
  | step hb hs ht => exact .step (h.names hb) hs ht

theorem trans (h : P.Unrolls a s b) (h' : P.Unrolls b t c) : P.Unrolls a (s ++ t) c := by
  induction h with
  | same h => exact h'.of_same h
  | step ha hs _ ih =>
    rw [List.append_assoc]
    exact .step ha hs (ih h')

/-- What a variable is bound to it unrolls to. -/
theorem of_bound (hP : P.Sound) (h : P.Bound a (.stack (s ++ [stackVar b]))) : P.Unrolls a s b := by
  rcases hP.bound_cases h with ⟨rfl, hab⟩ | ⟨i, ha, hs⟩
  · exact .same hab
  · rw [← List.append_nil s]
    exact .step ha hs (.same (.inl rfl))

end Unrolls

/-- **A bare variable**: no class of it has a stack. -/
def Bare (P : Partition) (b : String) : Prop := ∀ i s, P.Names b i → .stack s ∉ P.members i

/-- A chain ends with a bare variable. -/
theorem Bare.of_unrolls (hb : P.Bare b) (h : P.Unrolls b s c) : s = [] ∧ P.Same b c := by
  cases h with
  | same h => exact ⟨rfl, h⟩
  | step hb' hs _ => exact absurd hs (hb _ _ hb')

/-! ## Partitions of stacks on variables -/

/-- **A partition of stacks on variables**: all members are variables, or concrete slots on variables that
stand for stacks further down; and where a class has two stacks, they agree. -/
structure Stacked (P : Partition) (height : String → ℤ) : Prop extends P.Sound where
  strict : P.lenient = false
  level : ∀ {n m i}, P.Names n i → P.Names m i → height n = height m
  member : ∀ {n i k}, P.Names n i → k ∈ P.members i → (∃ m, k = stackVar m) ∨
    ∃ s m, k = .stack (s ++ [stackVar m]) ∧ s ≠ [] ∧ slotsConcrete s = true ∧
      height n = height m + s.length
  paired : P.PairedIn P

/-- A partition in which slots that lie on variables add to their heights. -/
theorem Stacked.of_heights {st : Option Subtyping} {lenient : Bool}
    (h : ((Layers.heights st).theory height lenient).Good P) (hstrict : lenient = false)
    (hpaired : P.PairedIn P) : P.Stacked height where
  toSound := h.toSound
  strict := h.lenient.trans hstrict
  level := h.names
  member hn hk := by
    obtain ⟨⟨m, rfl, -⟩ | ⟨s, m, rfl, hs⟩, hslot⟩ := h.member hn hk
    · exact .inl ⟨m, rfl⟩
    · obtain ⟨hconcrete, hheight⟩ := Layers.piled_heights_iff.1 hs
      refine .inr ⟨s, m, rfl, ?_, hconcrete, hheight⟩
      rintro rfl
      exact hslot _ rfl
  paired := hpaired

namespace Stacked

/-- What is on a variable is higher than the variable. -/
theorem stack_mem (h : P.Stacked height) (hn : P.Names n i)
    (hk : .stack (s ++ [stackVar m]) ∈ P.members i) :
    s ≠ [] ∧ slotsConcrete s = true ∧ height n = height m + s.length := by
  rcases h.member hn hk with ⟨_, hk⟩ | ⟨t, m', hk, ht⟩
  · cases hk
  · obtain ⟨rfl, rfl⟩ := Kind.concat_stackVar_inj (Kind.stack.inj hk)
    exact ht

theorem height_of_same (h : P.Stacked height) (hab : P.Same a b) : height a = height b := by
  rcases hab with rfl | ⟨i, ha, hb⟩
  exacts [rfl, h.level ha hb]

theorem height_of_unrolls (h : P.Stacked height) (ha : P.Unrolls a s b) :
    height a = height b + s.length := by
  induction ha with
  | same hab => simpa using h.height_of_same hab
  | step ha hs _ ih =>
    obtain ⟨-, -, hheight⟩ := h.stack_mem ha hs
    rw [List.length_append]
    omega

theorem leads_lt (h : P.Stacked height) (hnm : P.Leads n m) : height m < height n := by
  obtain ⟨i, k, hn, hk, hvar, v, hv, hvm⟩ := hnm
  rcases h.member hn hk with ⟨_, rfl⟩ | ⟨s, m', rfl, hne, hs, hheight⟩
  · cases hvar
  have hlen := List.length_pos_iff.2 hne
  have hvars : Kind.slotVars (s ++ [stackVar m']) = [⟨.stack, m'⟩] := by
    rw [Kind.slotVars_append_of_concrete hs]
    rfl
  change v ∈ Kind.slotVars (s ++ [stackVar m']) at hv
  rw [hvars, List.mem_singleton] at hv
  subst hv
  have hsame := h.height_of_same (show P.Same m' m from hvm)
  omega

theorem not_recursive (h : P.Stacked height) (i : Nat) : ¬ P.Recursive i := by
  rintro ⟨n, -, hn⟩
  have hlt : ∀ {n m}, Relation.TransGen P.Leads n m → height m < height n := by
    intro n m hnm
    induction hnm with
    | single h' => exact h.leads_lt h'
    | tail _ h' ih => exact (h.leads_lt h').trans ih
  exact lt_irrefl _ (hlt hn)

/-- Two stacks of one class are settled. -/
theorem settled (h : P.Stacked height) (hs : .stack s ∈ P.members i) (ht : .stack t ∈ P.members i)
    (hne : s ≠ t) : P.Settled s t :=
  h.paired i _ _ (h.not_recursive i) hs ht (fun he => hne (Kind.stack.inj he)) trivial

/-- **What is unrolled overlaps with what is settled.**  From the top, the slots of the one meet the slots
of the other.  Either some of the unrolled slots are left, and the other variable unrolls to them; or
some of the other slots are left, and the unrolled variable unrolls to those. -/
theorem overlap (h : P.Stacked height) (hu : P.Unrolls a u b) (hs : slotsConcrete s = true)
    (ht : slotsConcrete t = true) (hst : P.Settled (s ++ [stackVar a]) (t ++ [stackVar c])) :
    (∃ s₁ s₂, s ++ u = s₁ ++ s₂ ∧ slotsMeet P.subtyping s₁ t = true ∧ P.Unrolls c s₂ b) ∨
      ∃ t₁ t₂, t = t₁ ++ t₂ ∧ slotsMeet P.subtyping (s ++ u) t₁ = true ∧ P.Unrolls b t₂ c := by
  induction hu generalizing s t with
  | same hab =>
    rw [List.append_nil]
    refine (hst.walk h.strict hs ht).imp ?_ ?_
    · rintro ⟨s₁, s₂, rfl, hmeet, hc⟩
      refine ⟨s₁, s₂, rfl, hmeet, ?_⟩
      rw [← List.append_nil s₂]
      exact (Unrolls.of_bound h.toSound hc).trans (.same hab)
    · rintro ⟨t₁, t₂, rfl, hmeet, ha⟩
      exact ⟨t₁, t₂, rfl, hmeet, (Unrolls.of_bound h.toSound ha).of_same hab.symm⟩
  | @step a d b i v u ha hv hu ih =>
    obtain ⟨-, hvs, -⟩ := h.stack_mem ha hv
    rcases hst.walk h.strict hs ht with ⟨s₁, s₂, rfl, hmeet, hc⟩ | ⟨t₁, t₂, rfl, hmeet, hbound⟩
    · refine .inl ⟨s₁, s₂ ++ (v ++ u), List.append_assoc .., hmeet, ?_⟩
      exact (Unrolls.of_bound h.toSound hc).trans (.step ha hv hu)
    have ht₂ := (Kind.slotsConcrete_append.1 ht).2
    rcases h.bound_cases hbound with ⟨rfl, hac⟩ | ⟨j, haj, ht₂'⟩
    · refine .inl ⟨s, v ++ u, rfl, by rwa [List.append_nil], ?_⟩
      exact Unrolls.of_same hac.symm (.step ha hv hu)
    -- the class of `a` has what is unrolled and what is left of the other stack
    rw [h.members_congr (haj.root_eq ha)] at ht₂'
    by_cases heq : v ++ [stackVar d] = t₂ ++ [stackVar c]
    · obtain ⟨rfl, rfl⟩ := Kind.concat_stackVar_inj heq
      exact .inl ⟨s ++ v, u, (List.append_assoc ..).symm,
        Kind.slotsMeet_append hmeet (Kind.slotsMeet_self _), hu⟩
    refine (ih hvs ht₂ (h.settled hv ht₂' heq)).imp ?_ ?_
    · rintro ⟨s₁, s₂, hsplit, hmeet', hc⟩
      exact ⟨s ++ s₁, s₂, by rw [hsplit, List.append_assoc], Kind.slotsMeet_append hmeet hmeet', hc⟩
    · rintro ⟨u₁, u₂, rfl, hmeet', hc⟩
      exact ⟨t₁ ++ u₁, u₂, (List.append_assoc ..).symm, Kind.slotsMeet_append hmeet hmeet', hc⟩

/-- **All chains from a variable end with the same bare variable.** -/
theorem exists_unrolls (h : P.Stacked height) (hb : P.Bare b) (hu : P.Unrolls a u b)
    (ha : P.Names a i) (hs : .stack (s ++ [stackVar c]) ∈ P.members i) : ∃ t, P.Unrolls c t b := by
  cases hu with
  | same hab => exact absurd hs (hb i _ (hab.symm.names ha))
  | @step _ d _ j v u haj hv hu =>
    rw [h.members_congr (haj.root_eq ha)] at hv
    obtain ⟨-, hsc, -⟩ := h.stack_mem ha hs
    obtain ⟨-, hvc, -⟩ := h.stack_mem ha hv
    by_cases heq : v ++ [stackVar d] = s ++ [stackVar c]
    · obtain ⟨-, rfl⟩ := Kind.concat_stackVar_inj heq
      exact ⟨u, hu⟩
    rcases h.overlap hu hvc hsc (h.settled hv hs heq) with ⟨_, t, -, -, hc⟩ | ⟨_, _, -, -, hc⟩
    · exact ⟨t, hc⟩
    · exact ⟨[], .same (hb.of_unrolls hc).2.symm⟩

end Stacked

/-! ## Values of unrolled stacks -/

section

variable {st : Option Subtyping} {clash : Prop} {lenient : Bool} {D : Layers st clash}
  {val : String → D.Value}

/-- What a variable unrolls to has its value. -/
theorem Unrolls.piled (h : P.Unrolls a s b) (hP : (D.theory val lenient).Holds P) :
    D.Piled s (val a) (val b) := by
  induction h with
  | same hab =>
    rcases hab with rfl | ⟨i, ha, hb⟩
    exacts [rfl, hP.names ha hb]
  | step ha hs _ ih =>
    obtain ⟨⟨_, hk, -⟩ | ⟨t, m, hk, ht⟩, -⟩ := hP.member ha hs
    · cases hk
    · obtain ⟨rfl, rfl⟩ := Kind.concat_stackVar_inj (Kind.stack.inj hk)
      exact ht.append ih

end

/-- A variable with no places for slots is bare. -/
theorem bare_of_cells {st : Option Subtyping} {lenient : Bool} {val : String → List (Cell st)}
    (hP : ((Layers.cells st).theory val lenient).Holds P) (hb : val b = []) : P.Bare b := by
  intro i s hn hs
  obtain ⟨⟨_, hk, -⟩ | ⟨t, m, hk, ht⟩, hslot⟩ := hP.member hn hs
  · cases hk
  · obtain ⟨z, hz, ht⟩ := Layers.piled_cells_iff.1 ht
    rw [hb] at hz
    obtain ⟨rfl, -⟩ := List.append_eq_nil_iff.1 hz.symm
    obtain rfl := List.forall₂_nil_right_iff.1 ht
    exact hslot _ hk

end Partition

end StackEffect
