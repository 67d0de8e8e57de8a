import Mathlib.Data.List.Forall2
import StackEffect.Constraint.Unify
import StackEffect.Proofs.Kind.Shape
import StackEffect.Proofs.Kind.WellFormed

/-!
# Proofs/Kind/Concrete — kinds without variables

    int     (int int -> bool)     self        concrete
    'a      [int int]                         not concrete

Two concrete kinds meet if one of them is nominal and they are ordered, or if they are functions whose
stacks have the same sizes and meet slot by slot.  Of a function that is being defined nothing else is
known than that it is one.
-/

namespace StackEffect

namespace Kind

mutual
/-- **Whether a kind is concrete**: made of nominal types and functions, without variables and without
stacks in the place of slots. -/
def concrete : Kind → Bool
  | simple _ | self => true
  | effect c p _ => slotsConcrete c && slotsConcrete p
  | _ => false
/-- The same for the slots of a stack. -/
def slotsConcrete : List Kind → Bool
  | [] => true
  | k :: s => concrete k && slotsConcrete s
end

mutual
/-- **Whether two concrete kinds are compatible.** -/
def meets (st : Option Subtyping) : Kind → Kind → Bool
  | effect c p _, effect d q _ => slotsMeet st c d && slotsMeet st p q
  | k, l => Subtyping.le st k l || Subtyping.le st l k || (k.isEffect && l.isEffect)
/-- The same for two stacks, slot by slot. -/
def slotsMeet (st : Option Subtyping) : List Kind → List Kind → Bool
  | [], [] => true
  | k :: s, l :: t => meets st k l && slotsMeet st s t
  | _, _ => false
end

variable {st : Option Subtyping} {sort : String → VarSort} {k l : Kind} {s t c d p q : Stack}

/-! ## Concrete kinds -/

theorem slotsConcrete_cons :
    slotsConcrete (k :: s) = true ↔ k.concrete = true ∧ slotsConcrete s = true := Bool.and_eq_true_iff

/-- A stack is concrete if its slots are. -/
theorem slotsConcrete_iff : slotsConcrete s = true ↔ ∀ k ∈ s, k.concrete = true := by
  induction s with
  | nil => simp [slotsConcrete]
  | cons k s ih => rw [slotsConcrete_cons, ih, List.forall_mem_cons]

theorem slotsConcrete_append :
    slotsConcrete (s ++ t) = true ↔ slotsConcrete s = true ∧ slotsConcrete t = true := by
  simp only [slotsConcrete_iff, List.forall_mem_append]

theorem concrete_effect {i : Bool} : (effect c p i).concrete = true ↔
    slotsConcrete c = true ∧ slotsConcrete p = true := Bool.and_eq_true_iff

/-- A stack on a variable tells its slots and the variable. -/
theorem concat_stackVar_inj {a b : String} (h : s ++ [stackVar a] = t ++ [stackVar b]) :
    s = t ∧ a = b := by
  obtain ⟨hst, hab⟩ := List.append_inj' h rfl
  exact ⟨hst, stackVar.inj (List.singleton_inj.1 hab)⟩

/-- **Induction on concrete kinds**, with a hypothesis for every slot of a function. -/
theorem concreteInduction {motive : (k : Kind) → k.concrete = true → Prop}
    (simple : ∀ name, motive (.simple name) rfl) (self : motive .self rfl)
    (effect : ∀ c p i (hc : slotsConcrete c = true) (hp : slotsConcrete p = true),
      (∀ k (hk : k ∈ c), motive k (slotsConcrete_iff.1 hc k hk)) →
      (∀ k (hk : k ∈ p), motive k (slotsConcrete_iff.1 hp k hk)) →
      motive (.effect c p i) (concrete_effect.2 ⟨hc, hp⟩))
    (k : Kind) (hk : k.concrete = true) : motive k hk := by
  induction k using Kind.slotInduction with
  | simple name => exact simple name
  | self => exact self
  | effect c p i ihc ihp =>
    obtain ⟨hc, hp⟩ := concrete_effect.1 hk
    exact effect c p i hc hp (fun k h => ihc k h _) fun k h => ihp k h _
  | _ => cases hk

theorem slotVars_eq_nil_of (h : ∀ k ∈ s, k.vars = []) : slotVars s = [] := by
  refine List.eq_nil_iff_forall_not_mem.2 fun v hv => ?_
  obtain ⟨k, hk, hv⟩ := mem_slotVars.1 hv
  rw [h k hk] at hv
  exact List.not_mem_nil hv

/-- **Concrete kinds have no variables.** -/
theorem vars_of_concrete (hk : k.concrete = true) : k.vars = [] := by
  induction k, hk using concreteInduction with
  | simple | self => rfl
  | effect c p i _ _ hc hp => rw [vars, slotVars_eq_nil_of hc, slotVars_eq_nil_of hp, List.append_nil]

/-- Concrete slots add no variables to a stack. -/
theorem slotVars_append_of_concrete (hs : slotsConcrete s = true) : slotVars (s ++ t) = slotVars t := by
  induction s with
  | nil => rfl
  | cons k s ih =>
    rw [slotsConcrete_cons] at hs
    rw [List.cons_append, slotVars, vars_of_concrete hs.1, ih hs.2, List.append_nil]

/-- Concrete kinds are slots. -/
theorem fitsOn_of_concrete (hk : k.concrete = true) : fitsOn k s = true := by
  induction k, hk using concreteInduction with
  | _ => rfl

/-- A concrete kind is no variable, of a stack or of a slot. -/
theorem ne_stackVar_of_concrete (hk : k.concrete = true) (a : String) : k ≠ stackVar a := by
  rintro rfl
  cases hk

theorem ne_typeVar_of_concrete (hk : k.concrete = true) (a : String) : k ≠ typeVar a := by
  rintro rfl
  cases hk

theorem tidy_append_of (hs : slotsConcrete s = true) (h : ∀ k ∈ s, k.Tidy sort)
    (ht : (stack t).Tidy sort) : (stack (s ++ t)).Tidy sort := by
  induction s with
  | nil => exact ht
  | cons k s ih =>
    rw [slotsConcrete_cons] at hs
    rw [List.forall_mem_cons] at h
    exact tidy_cons_iff.2 ⟨fitsOn_of_concrete hs.1, h.1, ih hs.2 h.2⟩

/-- Concrete kinds are tidy, whatever the sorts of names are. -/
theorem tidy_of_concrete (hk : k.concrete = true) : k.Tidy sort := by
  induction k, hk using concreteInduction with
  | simple | self => exact ⟨rfl, fun _ hv => absurd hv List.not_mem_nil⟩
  | effect c p i hc hp ihc ihp =>
    have htc := tidy_append_of hc ihc tidy_nil
    have htp := tidy_append_of hp ihp tidy_nil
    rw [List.append_nil] at htc htp
    exact tidy_effect_iff.2 ⟨htc, htp⟩

/-- **Concrete slots lie on any tidy stack.** -/
theorem tidy_append (hs : slotsConcrete s = true) (ht : (stack t).Tidy sort) :
    (stack (s ++ t)).Tidy sort :=
  tidy_append_of hs (fun k hk => tidy_of_concrete (slotsConcrete_iff.1 hs k hk)) ht

/-! ## Kinds that meet -/

theorem slotsMeet_cons : slotsMeet st (k :: s) (l :: t) = true ↔
    k.meets st l = true ∧ slotsMeet st s t = true := Bool.and_eq_true_iff

/-- Stacks meet if their slots meet one by one. -/
theorem slotsMeet_iff : slotsMeet st s t = true ↔ List.Forall₂ (fun k l => meets st k l = true) s t := by
  induction s generalizing t with
  | nil => cases t <;> simp [slotsMeet]
  | cons k s ih => cases t <;> simp [slotsMeet, ih]

theorem slotsMeet_append (h : slotsMeet st s t = true) (h' : slotsMeet st p q = true) :
    slotsMeet st (s ++ p) (t ++ q) = true :=
  slotsMeet_iff.2 (List.rel_append (slotsMeet_iff.1 h) (slotsMeet_iff.1 h'))

/-- Stacks that meet have the same size. -/
theorem length_eq_of_slotsMeet (h : slotsMeet st s t = true) : s.length = t.length :=
  (slotsMeet_iff.1 h).length_eq

/-- **Concrete kinds are compatible if they meet**, and they meet if they are compatible, unless they
are effects, whose stacks have to meet. -/
theorem compatible_iff_meets (hk : k.concrete = true) (hl : l.concrete = true) :
    Unify.compatible st k l = true ∧ (∀ c p i d q j, k = effect c p i → l = effect d q j →
      slotsMeet st c d = true ∧ slotsMeet st p q = true) ↔ meets st k l = true := by
  cases k with
  | effect c p i =>
    cases l with
    | effect d q j =>
      rw [meets, Bool.and_eq_true]
      refine ⟨fun h => h.2 c p i d q j rfl rfl, fun h => ⟨rfl, ?_⟩⟩
      rintro _ _ _ _ _ _ ⟨⟩ ⟨⟩
      exact h
    | simple | self => simp [Unify.compatible, meets, isSimple, isVar, isEffect]
    | _ => cases hl
  | simple | self =>
    cases l with
    | effect | simple | self => simp [Unify.compatible, meets, isSimple, isVar, isEffect]
    | _ => cases hl
  | _ => cases hk

theorem slotsMeet_self_of (h : ∀ k ∈ s, meets st k k = true) : slotsMeet st s s = true :=
  slotsMeet_iff.2 (List.forall₂_same.2 h)

/-- **Every kind meets itself.** -/
theorem meets_self (k : Kind) : meets st k k = true := by
  induction k using Kind.slotInduction with
  | effect c p i hc hp => rw [meets, slotsMeet_self_of hc, slotsMeet_self_of hp, Bool.and_self]
  | _ => simp [meets, Subtyping.le_refl]

theorem slotsMeet_self (s : Stack) : slotsMeet st s s = true :=
  slotsMeet_self_of fun k _ => meets_self k

theorem slotsMeet_symm_of (h : ∀ k ∈ s, ∀ l, meets st k l = true → meets st l k = true)
    (hst : slotsMeet st s t = true) : slotsMeet st t s = true := by
  rw [slotsMeet_iff] at hst ⊢
  induction hst with
  | nil => exact .nil
  | cons hkl _ ih =>
    rw [List.forall_mem_cons] at h
    exact .cons (h.1 _ hkl) (ih h.2)

/-- **Meeting is symmetric.** -/
theorem meets_symm (h : meets st k l = true) : meets st l k = true := by
  induction k using Kind.slotInduction generalizing l with
  | effect c p i hc hp =>
    cases l with
    | effect d q j =>
      rw [meets, Bool.and_eq_true] at h ⊢
      exact h.imp (slotsMeet_symm_of fun k hk l => hc k hk) (slotsMeet_symm_of fun k hk l => hp k hk)
    | _ => simpa [meets, Bool.or_comm, Bool.and_comm] using h
  | _ => simpa [meets, Bool.or_comm, Bool.and_comm] using h

end Kind

end StackEffect
