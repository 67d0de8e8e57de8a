import Mathlib.Data.List.Nodup
import StackEffect.Proofs.Kind.Shape

/-!
# Proofs/Kind/Address — where the parts of a kind stand

    ('R (int -> 'a) -> 'R)        'a  at  [consumed 0, produced 0]
                                  'R  at  [consumed 1]  and  [produced 0]

An address leads from stack to stack and counts the slots of each from its top, so that taking away
the bottom of a stack leaves the addresses of all other parts as they are.  A kind is told by what
stands at which address (`eq_of_head_at?`), and a name occurs as often as there are addresses at
which it stands (`length_places`).
-/

namespace StackEffect

/-- The stacks that kinds are made of. -/
inductive Part where
  | slots
  | consumed
  | produced
  deriving DecidableEq

/-- **The address of a part of a kind**: the stacks that lead to it, and the place in each of them.
-/
abbrev Address := List (Part × Nat)

namespace Kind

/-- One of the stacks that a kind is made of. -/
def part : Kind → Part → Stack
  | stack s, .slots => s
  | effect c _ _, .consumed => c
  | effect _ p _, .produced => p
  | _, _ => []

/-- **What stands at an address.** -/
def at? (k : Kind) : Address → Option Kind
  | [] => some k
  | (x, i) :: π => (k.part x)[i]?.bind fun l => l.at? π

/-- A kind without the slots it is made of. -/
def head : Kind → Kind
  | stack _ => stack []
  | effect _ _ i => effect [] [] i
  | k => k

/-- A variable of the name stands at the address. -/
def OccursAt (k : Kind) (n : String) (π : Address) : Prop :=
  ∃ l, k.at? π = some l ∧ l.varName? = some n

mutual
/-- All addresses at which a name occurs. -/
def places (n : String) : Kind → List Address
  | typeVar m | stackVar m => if m = n then [[]] else []
  | stack s => slotPlaces n .slots 0 s
  | effect c p _ => slotPlaces n .consumed 0 c ++ slotPlaces n .produced 0 p
  | _ => []
/-- The same for the slots of a stack from the place `i` on. -/
def slotPlaces (n : String) (x : Part) (i : Nat) : List Kind → List Address
  | [] => []
  | k :: s => (places n k).map ((x, i) :: ·) ++ slotPlaces n x (i + 1) s
end

variable {k l : Kind} {s t : Stack} {n : String} {x : Part} {i : Nat} {π q : Address}

/-- Addresses are followed one after the other. -/
theorem at?_append (k : Kind) (q π : Address) :
    k.at? (q ++ π) = (k.at? q).bind fun l => l.at? π := by
  induction q generalizing k with
  | nil => rfl
  | cons e q ih =>
    rw [List.cons_append, at?, at?, Option.bind_assoc]
    exact congrArg _ (funext fun l => ih l)

theorem at?_concat (k : Kind) (q : Address) (x : Part) (i : Nat) :
    k.at? (q ++ [(x, i)]) = (k.at? q).bind fun l => (l.part x)[i]? := by
  rw [at?_append]
  exact congrArg _ (funext fun l => Option.bind_fun_some _)

/-- **Induction on kinds**, with a hypothesis for every slot of the stacks they are made of. -/
theorem partInduction {motive : Kind → Prop} (h : ∀ k, (∀ x, ∀ l ∈ k.part x, motive l) → motive k)
    (k : Kind) : motive k := by
  induction k using Kind.slotInduction with
  | stack s ih =>
    refine h _ fun x => ?_
    cases x with
    | slots => exact ih
    | _ => simp [part]
  | effect c p i hc hp =>
    refine h _ fun x => ?_
    cases x with
    | slots => simp [part]
    | consumed => exact hc
    | produced => exact hp
  | _ => exact h _ (by simp [part])

/-! ## What tells a kind -/

theorem varName?_head (k : Kind) : k.head.varName? = k.varName? := by cases k <;> rfl

/-- A kind is told by its head and its parts. -/
theorem eq_of_part_eq (hhead : k.head = l.head) (h : ∀ x, k.part x = l.part x) : k = l := by
  have hslots := h .slots
  have hconsumed := h .consumed
  have hproduced := h .produced
  cases k <;> cases l <;> simp_all [head, part]

/-- **Kinds are equal if the same stands at the same addresses.** -/
theorem eq_of_head_at? (h : ∀ π, (k.at? π).map head = (l.at? π).map head) : k = l := by
  induction k using partInduction generalizing l with
  | h k ih =>
    refine eq_of_part_eq (Option.some.inj (h [])) fun x => List.ext_getElem? fun i => ?_
    have hi := fun π => h ((x, i) :: π)
    simp only [at?] at hi
    cases hk : (k.part x)[i]? with
    | none =>
      cases hl : (l.part x)[i]? with
      | none => rfl
      | some m' => simpa [hk, hl, at?] using hi []
    | some m =>
      cases hl : (l.part x)[i]? with
      | none => simpa [hk, hl, at?] using hi []
      | some m' =>
        rw [hk, hl] at hi
        exact congrArg some (ih x m (List.mem_of_getElem? hk) hi)

/-! ## Where a name occurs -/

theorem occursAt_nil : k.OccursAt n [] ↔ k.varName? = some n := by
  simp [OccursAt, at?]

/-- A name occurs in a part, at the rest of the address. -/
theorem occursAt_cons :
    k.OccursAt n ((x, i) :: π) ↔ ∃ m, (k.part x)[i]? = some m ∧ m.OccursAt n π := by
  simp only [OccursAt, at?, Option.bind_eq_some_iff]
  constructor
  · rintro ⟨l, ⟨m, hm, hl⟩, hn⟩
    exact ⟨m, hm, l, hl, hn⟩
  · rintro ⟨m, hm, l, hl, hn⟩
    exact ⟨l, ⟨m, hm, hl⟩, hn⟩

theorem places_eq (n : String) (k : Kind) : k.places n =
    (if k.varName? = some n then [[]] else []) ++ (slotPlaces n .slots 0 (k.part .slots) ++
      (slotPlaces n .consumed 0 (k.part .consumed) ++
        slotPlaces n .produced 0 (k.part .produced))) := by
  cases k <;> simp [places, varName?, part, slotPlaces]

theorem mem_slotPlaces : π ∈ slotPlaces n x i s ↔
    ∃ j k, s[j]? = some k ∧ ∃ q ∈ k.places n, π = (x, i + j) :: q := by
  induction s generalizing i with
  | nil => simp [slotPlaces]
  | cons k s ih =>
    rw [slotPlaces, List.mem_append, List.mem_map, ih]
    constructor
    · rintro (⟨q, hq, rfl⟩ | ⟨j, l, hl, q, hq, rfl⟩)
      · exact ⟨0, k, rfl, q, hq, rfl⟩
      · exact ⟨j + 1, l, hl, q, hq, by rw [Nat.add_assoc, Nat.add_comm 1]⟩
    · rintro ⟨_ | j, l, hl, q, hq, rfl⟩
      · cases hl
        exact .inl ⟨q, hq, rfl⟩
      · exact .inr ⟨j, l, hl, q, hq, by rw [Nat.add_assoc, Nat.add_comm 1]⟩

theorem mem_places_iff : π ∈ k.places n ↔
    (π = [] ∧ k.varName? = some n) ∨ ∃ x, π ∈ slotPlaces n x 0 (k.part x) := by
  rw [places_eq, List.mem_append, List.mem_append, List.mem_append]
  refine or_congr ?_ ⟨?_, ?_⟩
  · split <;> simp_all
  · rintro (h | h | h) <;> exact ⟨_, h⟩
  · rintro ⟨_ | _ | _, h⟩
    exacts [.inl h, .inr (.inl h), .inr (.inr h)]

/-- **The places of a name are the addresses at which it occurs.** -/
theorem mem_places : π ∈ k.places n ↔ k.OccursAt n π := by
  induction π generalizing k with
  | nil =>
    rw [mem_places_iff, occursAt_nil]
    simp [mem_slotPlaces]
  | cons e π ih =>
    obtain ⟨x, i⟩ := e
    simp only [occursAt_cons, ← ih]
    rw [mem_places_iff]
    simp only [mem_slotPlaces]
    constructor
    · rintro (⟨h, -⟩ | ⟨y, j, m, hm, q, hq, h⟩)
      · cases h
      · cases h
        exact ⟨m, by rwa [Nat.zero_add], hq⟩
    · rintro ⟨m, hm, hπ⟩
      exact .inr ⟨x, i, m, hm, π, hπ, by rw [Nat.zero_add]⟩

theorem nodup_slotPlaces (hs : ∀ k ∈ s, (k.places n).Nodup) : (slotPlaces n x i s).Nodup := by
  induction s generalizing i with
  | nil => exact List.nodup_nil
  | cons k s ih =>
    rw [List.forall_mem_cons] at hs
    refine (hs.1.map fun _ _ h => List.tail_eq_of_cons_eq h).append (ih hs.2) fun π hπ hπ' => ?_
    obtain ⟨q, -, rfl⟩ := List.mem_map.1 hπ
    obtain ⟨j, -, -, q', -, h⟩ := mem_slotPlaces.1 hπ'
    have hi : i = i + 1 + j := congrArg Prod.snd (List.head_eq_of_cons_eq h)
    omega

theorem disjoint_slotPlaces {y : Part} {j : Nat} (hxy : x ≠ y) :
    (slotPlaces n x i s).Disjoint (slotPlaces n y j t) := fun π hπ hπ' => by
  obtain ⟨_, _, _, _, _, rfl⟩ := mem_slotPlaces.1 hπ
  obtain ⟨_, _, _, _, _, h⟩ := mem_slotPlaces.1 hπ'
  exact hxy (congrArg Prod.fst (List.head_eq_of_cons_eq h))

theorem nodup_places (k : Kind) (n : String) : (k.places n).Nodup := by
  induction k using partInduction with
  | h k ih =>
    have hslots := fun x => nodup_slotPlaces (x := x) (i := 0) (ih x)
    rw [places_eq]
    refine .append (by split <;> simp) (.append (hslots _) (.append (hslots _) (hslots _) ?_) ?_) ?_
    · exact disjoint_slotPlaces (by decide)
    · exact List.disjoint_append_right.2
        ⟨disjoint_slotPlaces (by decide), disjoint_slotPlaces (by decide)⟩
    · intro π hπ hπ'
      split at hπ
      · rw [List.mem_singleton.1 hπ] at hπ'
        simp [mem_slotPlaces] at hπ'
      · cases hπ

theorem length_slotPlaces (hs : ∀ k ∈ s, (k.places n).length = k.occurrences n) :
    (slotPlaces n x i s).length = (slotVars s).countP fun v => v.name == n := by
  induction s generalizing i with
  | nil => rfl
  | cons k s ih =>
    rw [List.forall_mem_cons] at hs
    rw [slotPlaces, slotVars, List.length_append, List.length_map, List.countP_append, hs.1,
      ih hs.2, Nat.add_comm]
    rfl

/-- **A name has as many places as it occurs.** -/
theorem length_places (k : Kind) (n : String) : (k.places n).length = k.occurrences n := by
  induction k using Kind.slotInduction with
  | typeVar m | stackVar m =>
    rw [places, occurrences, vars, List.countP_singleton]
    split <;> simp_all
  | stack s ih => exact length_slotPlaces ih
  | effect c p i hc hp =>
    rw [places, List.length_append, length_slotPlaces hc, length_slotPlaces hp, occurrences, vars,
      List.countP_append]
  | _ => rfl

end Kind

end StackEffect
