import Mathlib.Data.Finset.Card
import Mathlib.Data.List.Nodup
import StackEffect.Constraint.Store

/-!
# Proofs/Store/Partition — what a store says, without the tables it says it with

    Store ──partition──▸ Partition        roots, members and names as functions

A partition forgets the log, the nesting and the solution, and of the links it only knows where they
lead to.  Each single step of the store is a step on partitions (`partition_registerNew`,
`partition_register`, `partition_append`, `partition_absorb`, `partition_takeFirst`), and each of
those keeps the partition sound (`Partition.Sound`).  Shortcuts are no steps: a class that is linked
to its root, and a name that is registered with it, leave the partition what it was
(`partition_link_root`, `partition_settle_root`).  Links lead down a rank, so following them ends in a
root (`Store.root_eq`).
-/

namespace StackEffect

/-- **Links lead to roots**: they stay among the classes, and lead down a rank. -/
structure Forest (size : Nat) (parent root : Nat → Nat) : Prop where
  parent_lt : ∀ {i}, i < size → parent i < size
  parent_eq_iff : ∀ {i}, parent i = i ↔ root i = i
  root_parent : ∀ i, root (parent i) = root i
  ranked : ∃ rank : Nat → Nat, ∀ i, parent i ≠ i → rank (parent i) < rank i

/-- The links of a store lead to roots. -/
abbrev Store.Rooted (s : Store) : Prop := Forest s.parents.size s.parent s.root

/-- **What a store says**: which class each class ended up in, the members of that class, and the
class each name belongs to. -/
@[ext] structure Partition where
  /-- The number of classes. -/
  size : Nat
  /-- The number of classes that have a parent. -/
  links : Nat
  /-- Whether the links lead to roots. -/
  rooted : Prop
  /-- The class that a class ended up in. -/
  root : Nat → Nat
  /-- The members that a class has kept. -/
  own : Nat → List Kind
  /-- The members of the class that a class ended up in. -/
  members : Nat → List Kind
  /-- The class each name belongs to. -/
  index : String → Option Nat
  /-- The registered names. -/
  names : List String
  /-- The order of nominal types. -/
  subtyping : Option Subtyping
  /-- Whether sizes do not matter. -/
  lenient : Bool
  /-- The bound on the number of members. -/
  mass : Nat

/-- The partition of a store. -/
def Store.partition (s : Store) : Partition where
  size := s.members.size
  links := s.parents.size
  rooted := s.Rooted
  root := s.root
  own id := (s.kept id).toList
  members id := (s.membersOf id).toList
  index := s.classOf?
  names := s.names.toList
  subtyping := s.subtyping
  lenient := s.lenient
  mass := s.mass

namespace Partition

/-- A name belongs to a class. -/
def Names (P : Partition) (n : String) (i : Nat) : Prop :=
  ∃ j, P.index n = some j ∧ P.root j = P.root i

/-- A name belongs to a class, by whatever number it goes. -/
theorem Names.congr {P : Partition} {n : String} {i j : Nat} (h : P.Names n i)
    (hij : P.root i = P.root j) : P.Names n j :=
  h.imp fun _ h => ⟨h.1, h.2.trans hij⟩

theorem names_of_index {P : Partition} {n : String} {i : Nat} (h : P.index n = some i) :
    P.Names n i := ⟨i, h, rfl⟩

/-! ## The steps -/

/-- A new name, registered with a class. -/
def register (P : Partition) (name : String) (id : Nat) : Partition :=
  { P with
    index := fun n => if n = name then some (P.root id) else P.index n
    names := P.names ++ [name] }

/-- A new name, registered with a new class. -/
def registerNew (P : Partition) (name : String) : Partition :=
  { P with size := P.size + 1, links := P.links + 1 }.register name P.size

/-- A new member. -/
def append (P : Partition) (id : Nat) (k : Kind) : Partition :=
  { P with
    own := fun i => if i = P.root id then P.own i ++ [k] else P.own i
    members := fun i => if P.root i = P.root id then P.members i ++ [k] else P.members i }

/-- The root `dst` absorbs the root `src`. -/
def absorb (P : Partition) (src dst : Nat) : Partition :=
  { P with
    root := fun i => if P.root i = src then dst else P.root i
    members := fun i => if P.root i = src then P.members dst else P.members i
    index := fun n => (P.index n).map fun i => if i = src then dst else i }

/-- A class has kept the members `ks`. -/
def keeping (P : Partition) (id : Nat) (ks : List Kind) : Partition :=
  { P with own := fun i => if i = id then ks else P.own i }

/-! ## Soundness -/

/-- **A well-shaped partition**: links lead down to roots, which have kept their members, every class
has a name, and members and names are listed once. -/
structure Shaped (P : Partition) : Prop where
  links_eq : P.links = P.size
  rooted : P.rooted
  root_root : ∀ i, P.root (P.root i) = P.root i
  root_lt : ∀ {i}, i < P.size → P.root i < P.size
  root_of_ge : ∀ {i}, P.size ≤ i → P.root i = i
  own_root : ∀ {i}, P.root i = i → P.own i = P.members i
  members_of_ge : ∀ {i}, P.size ≤ i → P.members i = []
  members_congr : ∀ {i j}, P.root i = P.root j → P.members i = P.members j
  index_lt : ∀ {n i}, P.index n = some i → i < P.size
  index_root : ∀ {n i}, P.index n = some i → P.root i = i
  exists_names : ∀ {i}, i < P.size → ∃ n, P.Names n i
  mem_names : ∀ {n}, n ∈ P.names ↔ (P.index n).isSome
  names_nodup : P.names.Nodup
  members_nodup : ∀ i, (P.members i).Nodup

/-- **A sound partition**: a variable that is a member of a class is registered with it. -/
structure Sound (P : Partition) : Prop extends Shaped P where
  member_var : ∀ {i k n}, k ∈ P.members i → k.varName? = some n → P.Names n i

variable {P : Partition} {name n : String} {id i j src dst : Nat} {k l : Kind}

namespace Shaped

/-- A class has the members of its root. -/
theorem members_root (h : P.Shaped) (i : Nat) : P.members (P.root i) = P.members i :=
  h.members_congr (h.root_root i)

theorem root_eq_of_ge (h : P.Shaped) (hi : P.size ≤ i) (hij : P.root j = P.root i) : j = i := by
  rw [h.root_of_ge hi] at hij
  by_cases hj : j < P.size
  · have := h.root_lt hj
    omega
  · rwa [h.root_of_ge (Nat.le_of_not_lt hj)] at hij

theorem notMem_names (h : P.Shaped) (hn : P.index n = none) : n ∉ P.names := by
  intro hm
  have := h.mem_names.1 hm
  simp [hn] at this

/-- A class that has a name is there. -/
theorem lt_of_names (h : P.Shaped) (hn : P.Names n i) : i < P.size := by
  obtain ⟨j, hj, hji⟩ := hn
  by_contra hi
  have := h.root_eq_of_ge (Nat.le_of_not_lt hi) hji
  have := h.index_lt hj
  omega

end Shaped

/-! ### New names -/

/-- A new name does not change the classes of others. -/
theorem index_register (h : P.index name = none) (hj : P.index n = some j) :
    (P.register name id).index n = some j := by
  change (if n = name then some (P.root id) else P.index n) = some j
  rw [if_neg (by rintro rfl; simp [h] at hj), hj]

/-- A name has the class that it has been registered in, or the one that it had. -/
theorem index_of_register (h : (P.register name id).index n = some j) :
    n = name ∧ j = P.root id ∨ P.index n = some j := by
  change (if n = name then some (P.root id) else P.index n) = some j at h
  split at h
  · exact .inl ⟨‹_›, (Option.some.inj h).symm⟩
  · exact .inr h

theorem names_register (h : P.index name = none) (hn : P.Names n i) :
    (P.register name id).Names n i :=
  hn.imp fun _ hj => ⟨index_register h hj.1, hj.2⟩

/-- A name that is registered belongs to its class. -/
theorem Shaped.names_register_self (h : P.Shaped) : (P.register name id).Names name id :=
  ⟨P.root id, if_pos rfl, h.root_root id⟩

theorem Shaped.mem_names_register (h : P.Shaped) :
    n ∈ (P.register name id).names ↔ ((P.register name id).index n).isSome := by
  change n ∈ P.names ++ [name] ↔ (if n = name then some (P.root id) else P.index n).isSome
  by_cases hn : n = name
  · simp [hn]
  · simp [hn, h.mem_names]

theorem Shaped.nodup_names_snoc (h : P.Shaped) (hn : P.index name = none) :
    (P.names ++ [name]).Nodup := by
  refine List.nodup_append.2 ⟨h.names_nodup, List.nodup_singleton _, fun a ha b hb => ?_⟩
  rw [List.mem_singleton.1 hb]
  rintro rfl
  exact h.notMem_names hn ha

/-- **A new class leaves the classes there are as they are.** -/
theorem Sound.registerNew (h : P.Sound) (hn : P.index name = none) :
    (P.registerNew name).Sound where
  links_eq := congrArg (· + 1) h.links_eq
  rooted := h.rooted
  root_root := h.root_root
  root_lt {i} hi := by
    change i < P.size + 1 at hi
    change P.root i < P.size + 1
    rcases Nat.lt_or_ge i P.size with hlt | hge
    · exact Nat.lt_succ_of_lt (h.root_lt hlt)
    · rwa [h.root_of_ge hge]
  root_of_ge hi := h.root_of_ge (Nat.le_of_succ_le hi)
  own_root := h.own_root
  members_of_ge hi := h.members_of_ge (Nat.le_of_succ_le hi)
  members_congr := h.members_congr
  index_lt hi := by
    rcases index_of_register hi with ⟨-, rfl⟩ | hi
    · rw [h.root_of_ge (Nat.le_refl _)]
      exact Nat.lt_succ_self _
    · exact Nat.lt_succ_of_lt (h.index_lt hi)
  index_root hi := by
    rcases index_of_register hi with ⟨-, rfl⟩ | hi
    · exact h.root_root _
    · exact h.index_root hi
  exists_names {i} hi := by
    change i < P.size + 1 at hi
    rcases Nat.lt_or_ge i P.size with hlt | hge
    · exact (h.exists_names hlt).imp fun _ hni => names_register hn hni
    · obtain rfl : i = P.size := by omega
      exact ⟨name, h.names_register_self⟩
  mem_names := h.mem_names_register
  names_nodup := h.nodup_names_snoc hn
  members_nodup := h.members_nodup
  member_var hk hv := names_register hn (h.member_var hk hv)

/-- A new name for a class changes no class. -/
theorem Shaped.register (h : P.Shaped) (hn : P.index name = none) (hid : id < P.size) :
    (P.register name id).Shaped where
  links_eq := h.links_eq
  rooted := h.rooted
  root_root := h.root_root
  root_lt := h.root_lt
  root_of_ge := h.root_of_ge
  own_root := h.own_root
  members_of_ge := h.members_of_ge
  members_congr := h.members_congr
  index_lt hi := by
    rcases index_of_register hi with ⟨-, rfl⟩ | hi
    · exact h.root_lt hid
    · exact h.index_lt hi
  index_root hi := by
    rcases index_of_register hi with ⟨-, rfl⟩ | hi
    · exact h.root_root _
    · exact h.index_root hi
  exists_names hi := (h.exists_names hi).imp fun _ hni => names_register hn hni
  mem_names := h.mem_names_register
  names_nodup := h.nodup_names_snoc hn
  members_nodup := h.members_nodup

/-! ### New members -/

/-- A class that a kind is added to has one more member. -/
theorem mem_append_iff : l ∈ (P.append id k).members i ↔
    l ∈ P.members i ∨ P.root i = P.root id ∧ l = k := by
  change l ∈ (if P.root i = P.root id then P.members i ++ [k] else P.members i) ↔ _
  split <;> simp_all

/-- **A partition keeps its shape when a member is added.** -/
theorem Shaped.append (h : P.Shaped) (hid : id < P.size) (hk : k ∉ P.members id) :
    (P.append id k).Shaped where
  links_eq := h.links_eq
  rooted := h.rooted
  root_root := h.root_root
  root_lt := h.root_lt
  root_of_ge := h.root_of_ge
  own_root {i} hi := by
    change P.root i = i at hi
    change (if i = P.root id then P.own i ++ [k] else P.own i) =
      if P.root i = P.root id then P.members i ++ [k] else P.members i
    rw [hi, h.own_root hi]
  members_of_ge {i} hi := by
    change (if P.root i = P.root id then _ else P.members i) = []
    rw [if_neg fun hr => ?_, h.members_of_ge hi]
    have := h.root_eq_of_ge hi hr.symm
    change P.size ≤ i at hi
    omega
  members_congr {i j} hij := by
    change P.root i = P.root j at hij
    change (if P.root i = _ then P.members i ++ [k] else P.members i) =
      if P.root j = _ then P.members j ++ [k] else P.members j
    rw [hij, h.members_congr hij]
  index_lt := h.index_lt
  index_root := h.index_root
  exists_names := h.exists_names
  mem_names := h.mem_names
  names_nodup := h.names_nodup
  members_nodup i := by
    change (if P.root i = P.root id then P.members i ++ [k] else P.members i).Nodup
    split
    · next hr =>
      refine List.nodup_append.2 ⟨h.members_nodup i, List.nodup_singleton _, fun a ha b hb => ?_⟩
      rw [List.mem_singleton.1 hb]
      rintro rfl
      exact hk (h.members_congr hr ▸ ha)
    · exact h.members_nodup i

/-! ### Merging two classes -/

theorem root_absorb : (P.absorb src dst).root i = if P.root i = src then dst else P.root i := rfl

theorem members_absorb :
    (P.absorb src dst).members i = if P.root i = src then P.members dst else P.members i := rfl

theorem root_absorb_src (hi : P.root i = src) : (P.absorb src dst).root i = dst := if_pos hi

theorem root_absorb_dst (hi : P.root i = dst) : (P.absorb src dst).root i = dst := by
  rw [root_absorb, hi]
  split <;> rfl

/-- Classes that ended up in one class still do. -/
theorem root_absorb_congr (h : P.root i = P.root j) :
    (P.absorb src dst).root i = (P.absorb src dst).root j := by rw [root_absorb, root_absorb, h]

theorem index_absorb :
    (P.absorb src dst).index n = (P.index n).map fun i => if i = src then dst else i := rfl

/-- A class and the one that is found in its place end up in one class. -/
theorem root_absorb_moved (hs : P.root src = src) (hd : P.root dst = dst) (j : Nat) :
    (P.absorb src dst).root (if j = src then dst else j) = (P.absorb src dst).root j := by
  split
  · next hj => rw [hj, root_absorb_src hs, root_absorb_dst hd]
  · rfl

/-- Names keep their classes when one class absorbs another. -/
theorem names_absorb (hs : P.root src = src) (hd : P.root dst = dst) (hn : P.Names n i) :
    (P.absorb src dst).Names n i := by
  obtain ⟨j, hj, hji⟩ := hn
  refine ⟨_, congrArg (Option.map _) hj, ?_⟩
  exact (root_absorb_moved hs hd j).trans (root_absorb_congr hji)

/-- A name of the class that is left was a name of one of the two. -/
theorem exists_of_names_absorb (hs : P.root src = src) (hd : P.root dst = dst)
    (hn : (P.absorb src dst).Names n i) :
    ∃ j, P.Names n j ∧ (P.absorb src dst).root j = (P.absorb src dst).root i := by
  obtain ⟨_, hj', hji⟩ := hn
  obtain ⟨j, hj, rfl⟩ := Option.map_eq_some_iff.1 hj'
  exact ⟨j, names_of_index hj, (root_absorb_moved hs hd j).symm.trans hji⟩

/-- A class that ends up in the class that is absorbed is not the one that absorbs it. -/
theorem root_absorb_eq_self_iff (hd : P.root dst = dst) (hne : src ≠ dst) :
    (P.absorb src dst).root i = i ↔ i ≠ src ∧ P.root i = i := by
  rw [root_absorb]
  split
  · next hi =>
    refine iff_of_false (fun e => hne ?_) fun h => h.1 (h.2.symm.trans hi)
    rw [← e, hd] at hi
    exact hi.symm
  · next hi => exact ⟨fun h => ⟨fun e => hi (h.trans e), h⟩, And.right⟩

/-- **A partition keeps its shape when one class absorbs another.** -/
theorem Shaped.absorb (h : P.Shaped) (hd : P.root dst = dst) (hdlt : dst < P.size)
    (hs : P.root src = src) (hslt : src < P.size) (hne : src ≠ dst) :
    (P.absorb src dst).Shaped where
  links_eq := h.links_eq
  rooted := h.rooted
  root_root i := by
    by_cases hi : P.root i = src
    · rw [root_absorb, root_absorb, if_pos hi, hd, if_neg hne.symm]
    · rw [root_absorb, root_absorb, if_neg hi, h.root_root, if_neg hi]
  root_lt {i} hi := by
    rw [root_absorb]
    split
    · exact hdlt
    · exact h.root_lt hi
  root_of_ge {i} hi := by
    have hr : P.root i = i := h.root_of_ge hi
    change P.size ≤ i at hi
    rw [root_absorb, hr, if_neg (by omega)]
  own_root {i} hi := by
    obtain ⟨hsrc, hr⟩ := (root_absorb_eq_self_iff hd hne).1 hi
    rw [members_absorb, hr, if_neg hsrc]
    exact h.own_root hr
  members_of_ge {i} hi := by
    have hr : P.root i = i := h.root_of_ge hi
    have hm : P.members i = [] := h.members_of_ge hi
    change P.size ≤ i at hi
    rw [members_absorb, hr, if_neg (by omega), hm]
  members_congr {i j} hij := by
    rw [root_absorb, root_absorb] at hij
    rw [members_absorb, members_absorb]
    by_cases hi : P.root i = src <;> by_cases hj : P.root j = src
    · rw [if_pos hi, if_pos hj]
    · rw [if_pos hi, if_neg hj] at hij ⊢
      exact h.members_congr (hd.trans hij)
    · rw [if_neg hi, if_pos hj] at hij ⊢
      exact h.members_congr (hij.trans hd.symm)
    · rw [if_neg hi, if_neg hj] at hij ⊢
      exact h.members_congr hij
  index_lt {n i} hi := by
    obtain ⟨j, hj, rfl⟩ := Option.map_eq_some_iff.1 hi
    split
    · exact hdlt
    · exact h.index_lt hj
  index_root {n i} hi := by
    obtain ⟨j, hj, rfl⟩ := Option.map_eq_some_iff.1 hi
    split
    · exact root_absorb_dst hd
    · next hne => rw [root_absorb, h.index_root hj, if_neg hne]
  exists_names hi := (h.exists_names hi).imp fun _ => names_absorb hs hd
  mem_names := h.mem_names.trans (by rw [index_absorb, Option.isSome_map])
  names_nodup := h.names_nodup
  members_nodup i := by
    rw [members_absorb]
    split
    · exact h.members_nodup dst
    · exact h.members_nodup i

/-- A member of the class that is left was a member before. -/
theorem mem_of_mem_absorb (hk : k ∈ (P.absorb src dst).members i) :
    k ∈ P.members i ∨ P.root i = src ∧ k ∈ P.members dst := by
  rw [members_absorb] at hk
  split at hk
  · exact .inr ⟨‹_›, hk⟩
  · exact .inl hk

/-! ### Members that an absorbed class has kept -/

theorem own_keeping {ks : List Kind} : (P.keeping id ks).own id = ks := if_pos rfl

theorem own_keeping_of_ne {ks : List Kind} (h : i ≠ id) : (P.keeping id ks).own i = P.own i :=
  if_neg h

/-- A class that keeps its own members is as it was. -/
theorem keeping_own (P : Partition) (id : Nat) : P.keeping id (P.own id) = P := by
  refine Partition.ext rfl rfl rfl rfl (funext fun i => ?_) rfl rfl rfl rfl rfl rfl
  change (if i = id then P.own id else P.own i) = P.own i
  split
  · next h => rw [h]
  · rfl

theorem keeping_keeping (P : Partition) (id : Nat) (ks ls : List Kind) :
    (P.keeping id ks).keeping id ls = P.keeping id ls := by
  refine Partition.ext rfl rfl rfl rfl (funext fun i => ?_) rfl rfl rfl rfl rfl rfl
  change (if i = id then ls else if i = id then ks else P.own i) = if i = id then ls else P.own i
  split <;> rfl

/-- What an absorbed class has kept does not matter. -/
theorem Sound.keeping (h : P.Sound) (hid : P.root id ≠ id) (ks : List Kind) :
    (P.keeping id ks).Sound :=
  { h with
    own_root := fun {i} hi => by
      rw [own_keeping_of_ne (by rintro rfl; exact hid hi)]
      exact h.own_root hi }

end Partition

/-! ## The steps of the store, seen in its partition -/

namespace Store

variable {s : Store} {name : String} {id src dst : Nat} {k : Kind}

theorem parent_of_size_le {i : Nat} (h : s.parents.size ≤ i) : s.parent i = i := by
  rw [parent, Array.getD_eq_getD_getElem?, Array.getElem?_eq_none h, Option.getD_none]

/-- What is no class is its own root. -/
theorem root_of_size_le {i : Nat} (h : s.parents.size ≤ i) : s.root i = i := by
  rw [root]
  cases s.parents.size with
  | zero => rfl
  | succ => exact if_pos (parent_of_size_le h)

/-- Links that lead down a rank lead to the root in so many steps. -/
theorem follow_eq {r : Nat → Nat} (rank : Nat → Nat)
    (hrank : ∀ i, s.parent i ≠ i → rank (s.parent i) < rank i)
    (hr : ∀ i, r (s.parent i) = r i) (hroot : ∀ i, s.parent i = i → r i = i) {steps i : Nat}
    (h : rank i ≤ steps) : follow s.parents steps i = r i := by
  induction steps generalizing i with
  | zero =>
    have hi : s.parent i = i := by
      by_contra hi
      have := hrank i hi
      omega
    exact (hroot i hi).symm
  | succ steps ih =>
    change (if s.parent i = i then i else follow s.parents steps (s.parent i)) = r i
    split
    · next hi => exact (hroot i hi).symm
    · next hi =>
      have := hrank i hi
      rw [ih (by omega), hr]

/-- **Following links ends in a root**, wherever they lead down a rank: there are no more steps to
take than there are classes. -/
theorem root_eq {r : Nat → Nat} (rank : Nat → Nat)
    (hlt : ∀ i, i < s.parents.size → s.parent i < s.parents.size)
    (hrank : ∀ i, s.parent i ≠ i → rank (s.parent i) < rank i) (hr : ∀ i, r (s.parent i) = r i)
    (hroot : ∀ i, s.parent i = i → r i = i) : s.root = r := by
  -- the number of classes of lower rank is a rank as well
  let below (i : Nat) : Finset Nat := {j ∈ Finset.range s.parents.size | rank j < rank i}
  have hlink : ∀ i, s.parent i ≠ i → i < s.parents.size := by
    intro i hi
    by_contra hge
    exact hi (parent_of_size_le (Nat.le_of_not_lt hge))
  refine funext fun i => follow_eq (fun i => (below i).card) (fun i hi => ?_) hr hroot ?_
  · refine Finset.card_lt_card (Finset.ssubset_iff_of_subset ?_ |>.2 ⟨s.parent i, ?_, ?_⟩)
    · exact Finset.monotone_filter_right _ fun j _ hj => Nat.lt_trans hj (hrank i hi)
    · simpa [below] using ⟨hlt i (hlink i hi), hrank i hi⟩
    · simp [below]
  · exact Nat.le_trans (Finset.card_filter_le _ _) (Nat.le_of_eq (Finset.card_range _))

/-- Links that lead down a rank, and to the roots that `r` tells, lead to roots. -/
theorem rooted_of_root {r : Nat → Nat} (rank : Nat → Nat)
    (hlt : ∀ i, i < s.parents.size → s.parent i < s.parents.size)
    (hrank : ∀ i, s.parent i ≠ i → rank (s.parent i) < rank i) (hr : ∀ i, r (s.parent i) = r i)
    (hroot : ∀ i, s.parent i = i ↔ r i = i) : s.root = r ∧ s.Rooted := by
  have heq : s.root = r := root_eq rank hlt hrank hr fun i => (hroot i).1
  exact ⟨heq, hlt _, heq.symm ▸ hroot _, heq.symm ▸ hr, rank, hrank⟩

/-- The way to a root leads down. -/
theorem rank_root_le (h : s.Rooted) {rank : Nat → Nat}
    (hrank : ∀ i, s.parent i ≠ i → rank (s.parent i) < rank i) (i : Nat) :
    rank (s.root i) ≤ rank i := by
  induction hn : rank i using Nat.strongRecOn generalizing i with
  | ind n ih =>
    by_cases hi : s.parent i = i
    · rw [h.parent_eq_iff.1 hi, hn]
    · have hlt := hrank i hi
      rw [← h.root_parent]
      exact Nat.le_trans (ih _ (hn ▸ hlt) _ rfl) (Nat.le_of_lt (hn ▸ hlt))

/-- **The partition of an empty store is sound.** -/
theorem partition_empty (st : Option Subtyping) (lenient : Bool) (logging : Logging) :
    (empty st lenient logging).partition.Sound where
  links_eq := rfl
  root_root i := rfl
  root_lt hi := absurd hi (Nat.not_lt_zero _)
  root_of_ge _ := rfl
  rooted :=
    { parent_lt := fun hi => absurd hi (Nat.not_lt_zero _)
      parent_eq_iff := by simp [parent, root, follow, empty]
      root_parent := by simp [parent, root, follow, empty]
      ranked := ⟨id, fun i hi => absurd (by simp [parent, empty]) hi⟩ }
  own_root {i} _ := by simp [partition, membersOf, kept, empty]
  members_of_ge _ := by simp [partition, membersOf, kept, empty]
  members_congr _ := by simp [partition, membersOf, kept, empty]
  index_lt hi := by simp [partition, classOf?, empty] at hi
  index_root hi := by simp [partition, classOf?, empty] at hi
  exists_names hi := absurd hi (Nat.not_lt_zero _)
  mem_names := by simp [partition, classOf?, empty]
  names_nodup := by simp [partition, empty]
  members_nodup i := by simp [partition, membersOf, kept, empty]
  member_var hk := by simp [partition, membersOf, kept, empty] at hk

theorem index_insert (name : String) (id : Nat) (n : String) :
    (s.index.insert name id)[n]? = if n = name then some id else s.index[n]? := by
  rw [Std.TreeMap.getElem?_insert]
  by_cases h : n = name
  · simp [h]
  · rw [if_neg h, if_neg (by simpa using fun e => h e.symm)]

/-- **Registering a name** in the store and in the partition. -/
theorem partition_register : (s.register name id).partition = s.partition.register name id := by
  refine Partition.ext rfl rfl rfl rfl rfl rfl (funext fun n => ?_) ?_ rfl rfl rfl
  · change ((s.index.insert name id)[n]?).map s.root =
      if n = name then some (s.root id) else (s.index[n]?).map s.root
    rw [index_insert, apply_ite (Option.map s.root), Option.map_some]
  · simp [partition, register, Partition.register]

theorem partition_registerNew (h : s.partition.Shaped) :
    (s.registerNew name).partition = s.partition.registerNew name := by
  have hsize : s.parents.size = s.members.size := h.links_eq
  have hrooted : s.Rooted := h.rooted
  -- a new class is its own parent, as are all classes that there are not
  let s' : Store :=
    { s with members := s.members.push #[], parents := s.parents.push s.members.size }
  have hparent : s'.parent = s.parent := by
    funext i
    simp only [parent, s', Array.getD_eq_getD_getElem?, Array.getElem?_push]
    split
    · next hi => simp [hi, ← hsize]
    · rfl
  obtain ⟨hroot, hrooted'⟩ : s'.root = s.root ∧ s'.Rooted := by
    obtain ⟨rank, hrank⟩ := hrooted.ranked
    refine rooted_of_root rank (fun i hi => ?_) ?_ ?_ ?_ <;> rw [hparent]
    · have hlt : i < s.parents.size + 1 := by simpa [s'] using hi
      suffices s.parent i < s.parents.size + 1 by simpa [s'] using this
      rcases Nat.lt_succ_iff_lt_or_eq.1 hlt with hlt | rfl
      · exact Nat.lt_succ_of_lt (hrooted.parent_lt hlt)
      · rw [parent_of_size_le (Nat.le_refl _)]
        exact hlt
    · exact hrank
    · exact hrooted.root_parent
    · exact fun i => hrooted.parent_eq_iff
  have hkept : s'.kept = s.kept := by
    funext i
    simp only [kept, s', Array.getD_eq_getD_getElem?, Array.getElem?_push]
    split
    · next hi => simp [hi]
    · rfl
  change (s'.register name s.members.size).partition = _
  rw [partition_register, Partition.registerNew]
  refine congrArg (Partition.register · name s.members.size) ?_
  refine Partition.ext (Array.size_push _) (Array.size_push _) ?_ hroot ?_ ?_ ?_ rfl rfl rfl rfl
  · exact propext (iff_of_true hrooted' hrooted)
  · exact congrArg (fun f i => (f i).toList) hkept
  · funext i
    change (s'.kept (s'.root i)).toList = (s.kept (s.root i)).toList
    rw [hkept, hroot]
  · funext n
    change (s.index[n]?).map s'.root = (s.index[n]?).map s.root
    rw [hroot]

theorem kept_modify_members {f : Array Kind → Array Kind} {i : Nat} (h : id < s.members.size) :
    { s with members := s.members.modify id f }.kept i =
      if i = id then f (s.kept i) else s.kept i := by
  simp only [kept, Array.getD_eq_getD_getElem?, Array.getElem?_modify]
  by_cases hi : i = id
  · simp [hi, h]
  · rw [if_neg (Ne.symm hi), if_neg hi]

/-- **Adding a member** in the store and in the partition. -/
theorem partition_append (hr : s.root id = id) (h : id < s.members.size) :
    (s.append id k).partition = s.partition.append id k := by
  have hown : ∀ i, ((s.append id k).kept i).toList =
      if i = s.root id then (s.kept i).toList ++ [k] else (s.kept i).toList := by
    intro i
    rw [hr, append, kept_modify_members h]
    split <;> simp
  exact Partition.ext (by simp [partition, append, Partition.append]) rfl rfl rfl (funext hown)
    (funext fun i => hown (s.root i)) rfl rfl rfl rfl rfl

theorem parent_link {up : Nat} (hid : id < s.parents.size) (i : Nat) :
    (s.link id up).parent i = if i = id then up else s.parent i := by
  simp only [parent, link, Array.getD_eq_getD_getElem?, Array.getElem?_setIfInBounds]
  by_cases hi : i = id
  · simp [hi, hid]
  · rw [if_neg (Ne.symm hi), if_neg hi]

/-- The rank of all that ends up in `src` is raised above that of `dst`. -/
theorem Rooted.link (h : s.Rooted) (hs : s.root src = src) (hslt : src < s.parents.size)
    (hd : s.root dst = dst) (hdlt : dst < s.parents.size) (hne : src ≠ dst) :
    (s.link src dst).root = (s.partition.absorb src dst).root ∧ (s.link src dst).Rooted := by
  obtain ⟨rank, hrank⟩ := h.ranked
  have hroot : ∀ i, (s.partition.absorb src dst).root i = if s.root i = src then dst else s.root i :=
    fun _ => rfl
  refine rooted_of_root (fun i => if s.root i = src then rank i + rank dst + 1 else rank i)
    (fun i hi => ?_) (fun i hi => ?_) (fun i => ?_) fun i => ?_
  · have hsize : (s.link src dst).parents.size = s.parents.size := Array.size_setIfInBounds
    rw [hsize] at hi ⊢
    rw [parent_link hslt]
    split
    · exact hdlt
    · exact h.parent_lt hi
  · rw [parent_link hslt] at hi ⊢
    by_cases hsrc : i = src
    · simp only [hsrc, if_true, hs, hd, hne.symm, if_false]
      omega
    · rw [if_neg hsrc] at hi ⊢
      have := hrank i hi
      simp only [h.root_parent]
      split <;> omega
  · rw [parent_link hslt]
    split
    · next hi => rw [hi, Partition.root_absorb_dst hd, Partition.root_absorb_src hs]
    · exact Partition.root_absorb_congr (h.root_parent i)
  · rw [parent_link hslt, Partition.root_absorb_eq_self_iff hd hne]
    by_cases hi : i = src
    · simp [hi, hne.symm]
    · simp only [hi, if_false, ne_eq, not_false_eq_true, true_and]
      exact h.parent_eq_iff

/-- **Linking classes** in the store is absorbing in the partition. -/
theorem partition_absorb (h : s.partition.Shaped) (hslt : src < s.members.size)
    (hs : s.root src = src) (hd : s.root dst = dst) (hdlt : dst < s.members.size) (hne : src ≠ dst) :
    (s.link src dst).partition = s.partition.absorb src dst := by
  have hsize : s.parents.size = s.members.size := h.links_eq
  obtain ⟨hroot, hrooted⟩ := Rooted.link h.rooted hs (hsize ▸ hslt) hd (hsize ▸ hdlt) hne
  have hroot' : ∀ i, (s.link src dst).root i = if s.root i = src then dst else s.root i :=
    congrFun hroot
  refine Partition.ext rfl Array.size_setIfInBounds (propext (iff_of_true hrooted h.rooted)) hroot
    rfl (funext fun i => ?_) (funext fun n => ?_) rfl rfl rfl rfl
  · change (s.kept ((s.link src dst).root i)).toList =
      if s.root i = src then (s.membersOf dst).toList else (s.membersOf i).toList
    rw [hroot', membersOf, membersOf, hd]
    split <;> rfl
  · change (s.index[n]?).map (s.link src dst).root =
      ((s.index[n]?).map s.root).map fun i => if i = src then dst else i
    rw [hroot, Option.map_map]
    rfl

/-- **A class may be linked to its root**: the links lead to the same roots, down the same rank. -/
theorem partition_link_root (h : s.partition.Shaped) (hid : id < s.parents.size) :
    (s.link id (s.root id)).partition = s.partition := by
  have hrooted : s.Rooted := h.rooted
  obtain ⟨rank, hrank⟩ := hrooted.ranked
  obtain ⟨hroot, hrooted'⟩ :
      (s.link id (s.root id)).root = s.root ∧ (s.link id (s.root id)).Rooted := by
    refine rooted_of_root rank (fun i hi => ?_) (fun i hi => ?_) (fun i => ?_) fun i => ?_
    · have hsize : (s.link id (s.root id)).parents.size = s.parents.size := Array.size_setIfInBounds
      have hlinks : s.parents.size = s.members.size := h.links_eq
      rw [hsize] at hi ⊢
      rw [parent_link hid]
      split
      · rw [hlinks] at hid ⊢
        exact h.root_lt hid
      · exact hrooted.parent_lt hi
    · rw [parent_link hid] at hi ⊢
      split at hi
      · next hne =>
        subst hne
        have hlt := hrank i fun e => hi (hrooted.parent_eq_iff.1 e)
        rw [if_pos rfl, ← hrooted.root_parent]
        exact Nat.lt_of_le_of_lt (rank_root_le hrooted hrank _) hlt
      · next hne =>
        rw [if_neg hne]
        exact hrank i hi
    · rw [parent_link hid]
      split
      · next hi => exact hi ▸ h.root_root id
      · exact hrooted.root_parent i
    · rw [parent_link hid]
      split
      · next hi => rw [hi]
      · exact hrooted.parent_eq_iff
  refine Partition.ext rfl Array.size_setIfInBounds (propext (iff_of_true hrooted' hrooted)) hroot
    rfl (funext fun i => ?_) (funext fun n => ?_) rfl rfl rfl rfl
  · change (s.kept ((s.link id (s.root id)).root i)).toList = (s.kept (s.root i)).toList
    rw [hroot]
  · change (s.index[n]?).map (s.link id (s.root id)).root = (s.index[n]?).map s.root
    rw [hroot]

/-- **A name may be registered with the root of its class.** -/
theorem partition_settle_root (h : s.partition.Shaped) (hid : s.classOf? name = some id) :
    (s.settle name id).partition = s.partition := by
  refine Partition.ext rfl rfl rfl rfl rfl rfl (funext fun n => ?_) rfl rfl rfl rfl
  change ((s.index.insert name id)[n]?).map s.root = s.classOf? n
  rw [index_insert]
  split
  · next hn =>
    have hroot : s.root id = id := h.index_root hid
    rw [hn, hid, Option.map_some, hroot]
  · rfl

theorem partition_takeFirst (hslt : src < s.members.size) (h : ∀ i, s.root i ≠ src) :
    (s.takeFirst src).partition = s.partition.keeping src (s.partition.own src).tail := by
  have hown : ∀ i, ((s.takeFirst src).kept i).toList =
      if i = src then (s.kept src).toList.tail else (s.kept i).toList := by
    intro i
    rw [takeFirst, kept_modify_members hslt]
    by_cases hi : i = src
    · rw [if_pos hi, if_pos hi, hi]
      simp [List.take_of_length_le]
    · rw [if_neg hi, if_neg hi]
  exact Partition.ext (by simp [partition, takeFirst, Partition.keeping]) rfl rfl rfl
    (funext hown) (funext fun i => (hown _).trans (if_neg (h i))) rfl rfl rfl rfl rfl

/-- A note does not change the partition. -/
theorem partition_note (s : Store) (line : Unit → String) :
    (s.note line).partition = s.partition := by
  unfold note
  split <;> rfl

theorem root_note (s : Store) (line : Unit → String) : (s.note line).root = s.root :=
  congrArg Partition.root (partition_note s line)

/-! ## The class of a name -/

variable {a b : String}

/-- The members of the class of a name. -/
def membersFor (s : Store) (a : String) : List Kind := ((s.classMembers? a).getD #[]).toList

/-- The members that a name has are those of its class. -/
theorem mem_membersFor {k : Kind} : k ∈ s.membersFor a ↔
    ∃ i, s.partition.index a = some i ∧ k ∈ s.partition.members i := by
  rw [membersFor, classMembers?]
  change k ∈ _ ↔ ∃ i, s.classOf? a = some i ∧ k ∈ (s.membersOf i).toList
  cases s.classOf? a with
  | none => simp
  | some i =>
    simp only [Option.some.injEq, exists_eq_left']
    split
    · next hempty => simp_all
    · rfl

/-- Names are the same if they have one class. -/
theorem sameClass_iff : s.sameClass a b = true ↔
    ∃ i, s.partition.index a = some i ∧ s.partition.index b = some i := by
  rw [sameClass]
  change _ ↔ ∃ i, s.classOf? a = some i ∧ s.classOf? b = some i
  cases s.classOf? a with
  | none => simp
  | some i =>
    cases s.classOf? b with
    | none => simp
    | some j => simp [eq_comm (a := j)]

end Store

end StackEffect
