import Mathlib.Data.List.Basic
import StackEffect.Constraint.Solve
import StackEffect.Proofs.Ends
import StackEffect.Proofs.Kind.WellFormed
import StackEffect.Proofs.Store.Lookup

/-!
# Proofs/Solve/Representative — which member stands for a class

    represent id        answers what its partition says (`Partition.rep`)

A class of ordinary kinds has a representative.  It is a member of highest rank, and the longest one if
it is a stack; only incompatible nominal types are represented by another kind, the top type
(`Kind.Represents`).
-/

namespace StackEffect

/-! ## Stores that were asked -/

namespace Store

/-- **`t` is `s` after it was asked something**: they differ in nothing but the log, and in shortcuts
on the way to roots. -/
structure Asked (s t : Store) : Prop where
  partition : t.partition = s.partition
  rest : t = { s with log := t.log, parents := t.parents, index := t.index }

variable {s t u : Store}

/-- Shortening links is no more than asking. -/
theorem Shortened.asked (h : s.Shortened t) : s.Asked t where
  partition := h.partition
  rest := by rw [h.rest]

namespace Asked

theorem refl (s : Store) : s.Asked s := ⟨rfl, rfl⟩

/-- Asking twice is asking. -/
theorem trans (h : s.Asked t) (h' : t.Asked u) : s.Asked u where
  partition := h'.partition.trans h.partition
  rest := by rw [h'.rest, h.rest]

theorem root (h : s.Asked t) : t.root = s.root := congrArg Partition.root h.partition

theorem solution (h : s.Asked t) : t.solution = s.solution := by rw [h.rest]

theorem note (s : Store) (line : Unit → String) : s.Asked (s.note line) := by
  refine ⟨partition_note s line, ?_⟩
  unfold Store.note
  split <;> rfl

theorem warn (s : Store) (line : String) : s.Asked (s.warn line) := by
  unfold Store.warn
  split <;> exact ⟨rfl, rfl⟩

end Asked

end Store

/-! ## Two kinds at a time -/

namespace Kind

/-- The representative of two nominal types. -/
def pickName (st : Option Subtyping) (a b : String) : String :=
  if Subtyping.le st (simple a) (simple b) then a
  else if Subtyping.le st (simple b) (simple a) then b
  else Subtyping.topOf st

/-- The representative of two kinds. -/
def pick (st : Option Subtyping) (a b : Kind) : Option Kind :=
  if b.rank < a.rank then some a
  else if a.rank < b.rank then some b
  else match a, b with
    | effect c _ _, effect d _ _ => some (if d.length < c.length then a else b)
    | stack s, stack t => some (if t.length < s.length then a else b)
    | typeVar m, typeVar n | stackVar m, stackVar n => some (if m ≤ n then a else b)
    | self, _ | absent, _ => some b
    | simple m, simple n => some (simple (pickName st m n))
    | _, _ => none

/-- Whether a kind can represent others: it is there, and not of a foreign sort. -/
def isOrdinary : Kind → Bool
  | absent | foreign .. => false
  | _ => true

/-- **What represents a list of kinds**: one of highest rank, and the longest one if it is a stack.
The top type may stand in for incompatible nominal types. -/
structure Represents (st : Option Subtyping) (ks : List Kind) (k : Kind) : Prop where
  mem : k ∈ ks ∨ ∃ a b, simple a ∈ ks ∧ simple b ∈ ks ∧
    Unify.compatible st (simple a) (simple b) = false ∧ k = simple (Subtyping.topOf st)
  rank_le : ∀ l ∈ ks, l.rank ≤ k.rank
  length_le : ∀ s, k = stack s → ∀ t, stack t ∈ ks → t.length ≤ s.length

variable {st : Option Subtyping} {ks : List Kind} {k l m : Kind} {sort : String → VarSort}

/-- **Of two nominal types one is picked**, or the top if they are not compatible. -/
theorem pickName_cases (st : Option Subtyping) (a b : String) : pickName st a b = a ∨
    pickName st a b = b ∨
      Unify.compatible st (simple a) (simple b) = false ∧ pickName st a b = Subtyping.topOf st := by
  unfold pickName
  split
  · exact .inl rfl
  · next hab =>
    split
    · exact .inr (.inl rfl)
    · next hba => exact .inr (.inr ⟨by simp [Unify.compatible, hab, hba, isSimple, isVar], rfl⟩)

theorem Tidy.isOrdinary (h : k.Tidy sort) : k.isOrdinary = true := by
  cases k with
  | absent => exact absurd rfl h.not_absent
  | foreign => exact absurd rfl h.not_foreign
  | _ => rfl

namespace Represents

/-- A kind represents itself. -/
theorem singleton (st : Option Subtyping) (k : Kind) : Represents st [k] k where
  mem := .inl List.mem_cons_self
  rank_le := by simp
  length_le := by
    rintro s rfl t ht
    cases List.mem_singleton.1 ht
    exact Nat.le_refl _

/-- What joins a list and ranks no higher changes nothing. -/
theorem keep (h : Represents st ks k) (hr : l.rank ≤ k.rank)
    (hlen : ∀ s t, k = stack s → l = stack t → t.length ≤ s.length) :
    Represents st (ks ++ [l]) k where
  mem := by
    refine h.mem.imp (List.mem_append_left _) ?_
    rintro ⟨a, b, ha, hb, hab⟩
    exact ⟨a, b, List.mem_append_left _ ha, List.mem_append_left _ hb, hab⟩
  rank_le m hm := by
    rcases List.mem_append.1 hm with hm | hm
    · exact h.rank_le m hm
    · rwa [List.mem_singleton.1 hm]
  length_le s hs t ht := by
    rcases List.mem_append.1 ht with ht | ht
    · exact h.length_le s hs t ht
    · exact hlen s t hs (List.mem_singleton.1 ht).symm

/-- What joins a list and ranks no lower may represent it. -/
theorem change (h : Represents st ks k) (hr : k.rank ≤ l.rank)
    (hlen : ∀ s t, l = stack s → k = stack t → t.length ≤ s.length) :
    Represents st (ks ++ [l]) l where
  mem := .inl (List.mem_append_right _ List.mem_cons_self)
  rank_le m hm := by
    rcases List.mem_append.1 hm with hm | hm
    · exact Nat.le_trans (h.rank_le m hm) hr
    · exact Nat.le_of_eq (congrArg rank (List.mem_singleton.1 hm))
  length_le := by
    rintro s rfl t ht
    rcases List.mem_append.1 ht with ht | ht
    · obtain ⟨u, rfl⟩ : ∃ u, k = stack u := by
        have hle := h.rank_le _ ht
        cases k <;> simp only [rank] at hr hle <;> first | exact ⟨_, rfl⟩ | omega
      exact Nat.le_trans (h.length_le u rfl t ht) (hlen s u rfl rfl)
    · cases List.mem_singleton.1 ht
      exact Nat.le_refl _

/-- Incompatible nominal types give way to the top type. -/
theorem top {a b : String} (h : Represents st ks (simple a))
    (hab : Unify.compatible st (simple a) (simple b) = false) :
    Represents st (ks ++ [simple b]) (simple (Subtyping.topOf st)) where
  mem := by
    right
    rcases h.mem with ha | ⟨c, d, hc, hd, hcd, -⟩
    · exact ⟨a, b, List.mem_append_left _ ha, List.mem_append_right _ List.mem_cons_self, hab, rfl⟩
    · exact ⟨c, d, List.mem_append_left _ hc, List.mem_append_left _ hd, hcd, rfl⟩
  rank_le m hm := by
    rcases List.mem_append.1 hm with hm | hm
    · exact h.rank_le m hm
    · cases List.mem_singleton.1 hm
      exact Nat.le_refl _
  length_le s hs := by simp at hs

/-- What represents tidy kinds is tidy, or a nominal type. -/
theorem tidy_or_simple (h : Represents st ks k) (hks : ∀ l ∈ ks, l.Tidy sort) :
    k.Tidy sort ∨ ∃ a, k = simple a :=
  h.mem.imp (hks k) fun ⟨_, _, _, _, _, hk⟩ => ⟨_, hk⟩

/-- What represents ordinary kinds is ordinary. -/
theorem isOrdinary (h : Represents st ks k) (hks : ∀ l ∈ ks, l.isOrdinary = true) :
    k.isOrdinary = true := by
  rcases h.mem with hk | ⟨_, _, _, _, _, rfl⟩
  · exact hks k hk
  · rfl

/-- **An ordinary kind that joins a list leaves it with a representative.** -/
theorem snoc (h : Represents st ks k) (hks : ∀ m ∈ ks, m.isOrdinary = true)
    (hl : l.isOrdinary = true) :
    ∃ k', k.pick st l = some k' ∧ Represents st (ks ++ [l]) k' := by
  unfold pick
  split
  · next hlt =>
    refine ⟨k, rfl, h.keep (Nat.le_of_lt hlt) ?_⟩
    rintro s t rfl rfl
    exact absurd hlt (Nat.lt_irrefl _)
  split
  · next hlt =>
    refine ⟨l, rfl, h.change (Nat.le_of_lt hlt) ?_⟩
    rintro s t rfl rfl
    exact absurd hlt (Nat.lt_irrefl _)
  next hlk hkl =>
  -- what is left are two kinds of one rank
  have hr : k.rank = l.rank := by omega
  have hkeep : (∀ s, l ≠ stack s) → Represents st (ks ++ [l]) k := fun hs =>
    h.keep (Nat.le_of_eq hr.symm) fun _ t _ ht => absurd ht (hs t)
  have hchange : (∀ s, l ≠ stack s) → Represents st (ks ++ [l]) l := fun hs =>
    h.change (Nat.le_of_eq hr) fun s _ hs' _ => absurd hs' (hs s)
  have hk := h.isOrdinary hks
  cases k <;> cases l <;> simp [rank] at hr
  case simple.simple a b =>
    rcases pickName_cases st a b with he | he | ⟨hab, he⟩ <;> refine ⟨_, rfl, ?_⟩ <;> rw [he]
    · exact hkeep nofun
    · exact hchange nofun
    · exact h.top hab
  case typeVar.typeVar a b | stackVar.stackVar a b =>
    refine ⟨_, rfl, ?_⟩
    split
    · exact hkeep nofun
    · exact hchange nofun
  case self.self => exact ⟨_, rfl, hchange nofun⟩
  case stack.stack u w =>
    refine ⟨_, rfl, ?_⟩
    split
    · next hlt =>
      refine h.keep (Nat.le_refl _) ?_
      rintro _ _ ⟨⟩ ⟨⟩
      exact Nat.le_of_lt hlt
    · next hle =>
      refine h.change (Nat.le_refl _) ?_
      rintro _ _ ⟨⟩ ⟨⟩
      exact Nat.le_of_not_lt hle
  case effect.effect =>
    refine ⟨_, rfl, ?_⟩
    split
    · exact hkeep nofun
    · exact hchange nofun
  case absent.absent | simple.foreign | foreign.foreign => cases hl
  case foreign.simple => cases hk

end Represents

end Kind

namespace Store

variable {s : Store}

theorem ends_lowerType (a b : String) : Ends (lowerType a b) s
    (fun k t => s.Asked t ∧ k = .simple (Kind.pickName s.subtyping a b)) (fun _ _ => False) := by
  unfold lowerType Kind.pickName
  simp only [Ends.bind_iff, Site.ends_look_iff]
  split
  · exact ⟨.refl s, rfl⟩
  split
  · exact ⟨.refl s, rfl⟩
  exact ⟨.warn s _, rfl⟩

/-- **Choosing between two kinds picks one of them**, or fails if there is none to pick. -/
theorem ends_representative (a b : Kind) : Ends (representative a b) s
    (fun k t => s.Asked t ∧ a.pick s.subtyping b = some k)
    (fun _ t => s.Asked t ∧ a.pick s.subtyping b = none) := by
  unfold representative Kind.pick
  split
  · exact ⟨.refl s, rfl⟩
  split
  · exact ⟨.refl s, rfl⟩
  cases a <;> cases b <;> try exact ⟨.refl s, rfl⟩
  exact (ends_lowerType _ _).mono (fun _ _ h => ⟨h.1, congrArg some h.2.symm⟩) fun _ _ h => h.elim

/-- So does choosing among many, one after the other. -/
theorem ends_foldlM_representative (ks : List Kind) (a : Kind) :
    Ends (ks.foldlM representative a) s
      (fun k t => s.Asked t ∧ ks.foldlM (Kind.pick s.subtyping) a = some k)
      (fun _ t => s.Asked t ∧ ks.foldlM (Kind.pick s.subtyping) a = none) := by
  induction ks generalizing a s with
  | nil => exact ⟨.refl s, rfl⟩
  | cons b ks ih =>
    rw [List.foldlM_cons, List.foldlM_cons, Ends.bind_iff]
    refine (ends_representative a b).mono ?_ fun _ t ⟨ht, hp⟩ => ⟨ht, by rw [hp]; rfl⟩
    rintro k t ⟨ht, hp⟩
    have hst : t.subtyping = s.subtyping := congrArg Partition.subtyping ht.partition
    rw [hp]
    refine (ih k).mono ?_ ?_ <;> rw [hst] <;> exact fun _ u hu => ⟨ht.trans hu.1, hu.2⟩

end Store

/-! ## The representative of a class -/

namespace Partition

/-- **The representative of a class**, as its partition gives it. -/
def rep (P : Partition) (id : Nat) : Option Kind :=
  ((P.members id).foldlM (Kind.pick P.subtyping) .absent).bind fun k =>
    if k = .absent then none else some k

variable {P : Partition} {id : Nat}

/-- Ordinary kinds can always be picked from. -/
theorem exists_foldlM_pick {st : Option Subtyping} {ks : List Kind} {k : Kind}
    (h : k.Represents st ks) (hks : ∀ l ∈ ks, l.isOrdinary = true) {ls : List Kind}
    (hls : ∀ l ∈ ls, l.isOrdinary = true) :
    ∃ k', ls.foldlM (Kind.pick st) k = some k' ∧ k'.Represents st (ks ++ ls) := by
  induction ls generalizing k ks with
  | nil => exact ⟨k, rfl, by rwa [List.append_nil]⟩
  | cons l ls ih =>
    rw [List.forall_mem_cons] at hls
    obtain ⟨k', hk', hrep⟩ := h.snoc hks hls.1
    obtain ⟨k'', hk'', hrep'⟩ := ih hrep
      (List.forall_mem_append.2 ⟨hks, by simpa using hls.1⟩) hls.2
    rw [List.append_assoc, List.singleton_append] at hrep'
    exact ⟨k'', by rw [List.foldlM_cons, hk']; exact hk'', hrep'⟩

/-- **A class with members that are ordinary has a representative.** -/
theorem exists_rep (hne : P.members id ≠ []) (h : ∀ k ∈ P.members id, k.isOrdinary = true) :
    ∃ k, P.rep id = some k ∧ k.Represents P.subtyping (P.members id) := by
  unfold rep
  obtain ⟨m, ms, hm⟩ := List.exists_cons_of_ne_nil hne
  rw [hm] at h ⊢
  rw [List.forall_mem_cons] at h
  have hpick : Kind.pick P.subtyping .absent m = some m := by cases m <;> rfl
  obtain ⟨k, hk, hrep⟩ :=
    exists_foldlM_pick (.singleton P.subtyping m) (by simpa using h.1) h.2
  have hne : k ≠ .absent := by
    rintro rfl
    cases hrep.isOrdinary (List.forall_mem_cons.2 h)
  refine ⟨k, ?_, hrep⟩
  rw [List.foldlM_cons, hpick, Option.bind_eq_bind, Option.bind_some, hk, Option.bind_some,
    if_neg hne]

/-- Whatever represents a class of ordinary kinds is what `Represents` says. -/
theorem represents_of_rep {k : Kind} (hk : P.rep id = some k)
    (h : ∀ k ∈ P.members id, k.isOrdinary = true) : k.Represents P.subtyping (P.members id) := by
  by_cases hne : P.members id = []
  · simp [rep, hne] at hk
  · obtain ⟨k', hk', hrep⟩ := exists_rep hne h
    rw [hk] at hk'
    exact Option.some.inj hk' ▸ hrep

theorem Shaped.rep_congr (hP : P.Shaped) {i j : Nat} (h : P.root i = P.root j) :
    P.rep i = P.rep j := by
  rw [rep, rep, hP.members_congr h]

end Partition

namespace Store

/-- **Representing a class answers what its partition says.** -/
theorem ends_represent (h : s.partition.Shaped) {id : Nat} (hid : s.root id = id) :
    Ends (represent id : Pass _) s (fun r t => s.Asked t ∧ r = s.partition.rep id)
      (fun _ t => s.Asked t ∧ s.partition.rep id = none) := by
  have hmembers : s.partition.members id = (s.kept id).toList := (h.own_root hid).symm
  unfold represent
  rw [Ends.bind_iff, Site.ends_look_iff]
  dsimp only
  split
  · next hnil =>
    have hrep : s.partition.rep id = none := by simp [Partition.rep, hmembers, hnil]
    refine (ends_findNames h id).bind fun names t ht => ?_
    split
    · exact ⟨ht.2.asked, hrep.symm⟩
    · exact ⟨ht.2.asked, hrep⟩
  · rw [Ends.bind_iff, Site.ends_alter_iff]
    generalize hs₁ : s.note _ = s₁
    have hlog : s.Asked s₁ := hs₁ ▸ .note s _
    have hst : s₁.subtyping = s.partition.subtyping :=
      congrArg Partition.subtyping hlog.partition
    rw [Ends.bind_iff]
    refine (ends_foldlM_representative _ _).mono ?_ ?_
    · rintro k t ⟨ht, hk⟩
      rw [hst, ← hmembers] at hk
      have hrep : s.partition.rep id = if k = .absent then none else some k :=
        congrArg (Option.bind · _) hk
      have hst := hlog.trans ht
      split
      · next h' =>
        refine (ends_findNames (hst.partition.symm ▸ h) id).bind fun names u hu => ?_
        exact ⟨hst.trans hu.2.asked, by rw [hrep, if_pos h']⟩
      · next h' => exact ⟨hst.trans (.note t _), by rw [hrep, if_neg h']⟩
    · rintro e t ⟨ht, hk⟩
      rw [hst, ← hmembers] at hk
      exact ⟨hlog.trans ht, congrArg (Option.bind · _) hk⟩

end Store

end StackEffect
