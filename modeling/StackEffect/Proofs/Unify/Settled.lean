import Mathlib.Logic.Relation
import StackEffect.Constraint.Unify
import StackEffect.Proofs.Kind.Induction
import StackEffect.Proofs.Store.Partition

/-!
# Proofs/Unify/Settled — what a partition knows to be equal

    Aligned        what walking down two stacks asks for, slot by slot
    Settled        two stacks that a partition has bound all of that for
    Linked         members of a class that a chain of settled pairs connects

Partitions grow (`Grows`): classes are joined and get members and names, and lose nothing.  What is
settled stays settled (`Settled.mono`).
-/

namespace StackEffect

/-- A kind without the stacks of one slot around it. -/
def Kind.unwrap : Kind → Kind
  | .stack [k] => unwrap k
  | k => k

/-- Only a stack of one slot is unwrapped. -/
theorem Kind.unwrap_eq_self {k : Kind} (h : ∀ slot, k ≠ stack [slot]) : k.unwrap = k := by
  unfold unwrap
  split
  · exact absurd rfl (h _)
  · rfl

/-- **What walking down two stacks asks for.**  `eqn` is asked of a variable and what it takes,
`slot` of two slots that face each other, `empty` of a stack variable that faces nothing, and `size`
is asked where one stack ends before the other. -/
def Aligned (size : Prop) (empty : String → Prop) (eqn : String → Kind → Prop)
    (slot : Kind → Kind → Prop) : Stack → Stack → Prop
  | .stackVar a :: r, .stackVar b :: r' =>
    eqn a (.stack (.stackVar b :: r')) ∧ eqn b (.stack (.stackVar a :: r))
  | .stackVar a :: _, l :: r' => eqn a (.stack (l :: r'))
  | k :: r, .stackVar b :: _ => eqn b (.stack (k :: r))
  | k :: r, l :: r' => slot k l ∧ Aligned size empty eqn slot r r'
  | [], [] => True
  | [.stackVar a], [] | [], [.stackVar a] => empty a
  | _, _ => size

/-- Stacks stay aligned if less is asked for. -/
theorem Aligned.imp {size size' : Prop} {empty empty' : String → Prop}
    {eqn eqn' : String → Kind → Prop} {slot slot' : Kind → Kind → Prop} {v w : Stack}
    (h : Aligned size empty eqn slot v w) (hsize : size → size')
    (hempty : ∀ a, empty a → empty' a) (heqn : ∀ a k, eqn a k → eqn' a k)
    (hslot : ∀ k ∈ v, ∀ l, slot k l → slot' k l) : Aligned size' empty' eqn' slot' v w := by
  fun_induction Aligned size empty eqn slot v w with
  | case4 k r l r' h₁ h₂ h₃ ih =>
    rw [Aligned.eq_4 _ _ _ _ _ _ _ _ h₁ h₂ h₃]
    exact ⟨hslot k List.mem_cons_self l h.1, ih h.2 fun k hk => hslot k (List.mem_cons_of_mem _ hk)⟩
  | _ => simp_all [Aligned]

/-- Stacks that are aligned in two ways are aligned in both at once. -/
theorem Aligned.and {size size' : Prop} {empty empty' : String → Prop}
    {eqn eqn' : String → Kind → Prop} {slot slot' : Kind → Kind → Prop} {v w : Stack}
    (h : Aligned size empty eqn slot v w) (h' : Aligned size' empty' eqn' slot' v w) :
    Aligned (size ∧ size') (fun a => empty a ∧ empty' a) (fun a k => eqn a k ∧ eqn' a k)
      (fun k l => slot k l ∧ slot' k l) v w := by
  fun_induction Aligned size empty eqn slot v w with
  | case4 k r l r' h₁ h₂ h₃ ih =>
    rw [Aligned.eq_4 _ _ _ _ _ _ _ _ h₁ h₂ h₃] at h' ⊢
    exact ⟨⟨h.1, h'.1⟩, ih h.2 h'.2⟩
  | _ => simp_all [Aligned]

namespace Aligned

variable {size : Prop} {empty : String → Prop} {eqn : String → Kind → Prop}
  {slot : Kind → Kind → Prop} {k l : Kind} {v w : Stack} {a b : String}

/-- Slots are aligned one by one. -/
theorem cons_iff (hk : ∀ a, k ≠ .stackVar a) (hl : ∀ a, l ≠ .stackVar a) :
    Aligned size empty eqn slot (k :: v) (l :: w) ↔ slot k l ∧ Aligned size empty eqn slot v w := by
  rw [Aligned]
  · exact fun a _ ha _ => hk a ha
  · exact hk
  · exact hl

/-- A variable is aligned with all slots that are left. -/
theorem var_cons_iff (hl : ∀ a, l ≠ .stackVar a) :
    Aligned size empty eqn slot (.stackVar a :: v) (l :: w) ↔ eqn a (.stack (l :: w)) := by
  rw [Aligned]
  exact hl

theorem cons_var_iff (hk : ∀ a, k ≠ .stackVar a) :
    Aligned size empty eqn slot (k :: v) (.stackVar b :: w) ↔ eqn b (.stack (k :: v)) := by
  rw [Aligned]
  exact hk

/-- Slots without a counterpart are a question of size. -/
theorem nil_cons_iff (hl : ∀ a, l ≠ .stackVar a) :
    Aligned size empty eqn slot [] (l :: w) ↔ size := by
  cases l <;> cases w <;> simp_all [Aligned]

theorem cons_nil_iff (hk : ∀ a, k ≠ .stackVar a) :
    Aligned size empty eqn slot (k :: v) [] ↔ size := by
  cases k <;> cases v <;> simp_all [Aligned]

end Aligned

/-- **What two slots that face each other ask for**: a variable takes the other slot, the stacks of
two effects are unified, and nominal types are compatible, unless kinds may clash. -/
def SlotAsk (st : Option Subtyping) (mayClash : Prop) (eqn : String → Kind → Prop)
    (par : Stack → Stack → Prop) (k l : Kind) : Prop :=
  (∀ a, k = .typeVar a → eqn a l) ∧ (∀ b, l = .typeVar b → eqn b k) ∧
    (∀ c p i d q j, k = .effect c p i → l = .effect d q j → par c d ∧ par p q) ∧
    (Unify.compatible st k l = true ∨ mayClash)

/-- Kinds that are compared when they meet in a class: two effects, or two stacks. -/
def Kind.Alike : Kind → Kind → Prop
  | .effect .., .effect .. => True
  | .stack _, .stack _ => True
  | _, _ => False

theorem Kind.Alike.symm {k l : Kind} (h : k.Alike l) : l.Alike k := by
  cases k <;> cases l <;> exact h

/-- Kinds that are alike to one kind are alike. -/
theorem Kind.Alike.trans {k l m : Kind} (h : k.Alike l) (h' : l.Alike m) : k.Alike m := by
  cases k <;> cases l <;> first | exact h.elim | (cases m <;> first | exact h'.elim | trivial)

namespace Partition

/-- **`n` is bound to `k`**: without the stacks around it, `k` is `n` itself or a member of the
class of `n`. -/
def Bound (P : Partition) (n : String) (k : Kind) : Prop :=
  k.unwrap.varName? = some n ∨ ∃ i, P.index n = some i ∧ k.unwrap ∈ P.members i

mutual
/-- Two slots are settled: their variables are bound to each other, effects have settled stacks, and
nominal types are compatible. -/
def SettledSlot (P : Partition) : Kind → Kind → Prop
  | .effect c p _, .effect d q _ => P.Settled c d ∧ P.Settled p q
  | k, l => (∀ a, k = .typeVar a → P.Bound a l) ∧ (∀ b, l = .typeVar b → P.Bound b k) ∧
      Unify.compatible P.subtyping k l = true
/-- **Two stacks are settled**: walking down them asks for nothing that is not there yet. -/
def Settled (P : Partition) : List Kind → List Kind → Prop
  | .stackVar a :: r, .stackVar b :: r' =>
    P.Bound a (.stack (.stackVar b :: r')) ∧ P.Bound b (.stack (.stackVar a :: r))
  | .stackVar a :: _, l :: r' => P.Bound a (.stack (l :: r'))
  | k :: r, .stackVar b :: _ => P.Bound b (.stack (k :: r))
  | k :: r, l :: r' => P.SettledSlot k l ∧ P.Settled r r'
  | [], [] => True
  | [.stackVar a], [] | [], [.stackVar a] => P.lenient = true ∨ P.Bound a (.stack [])
  | _, _ => P.lenient = true
end

/-- **Settled stacks are aligned**, with names bound to what they are aligned with. -/
theorem settled_iff (P : Partition) (v w : Stack) : P.Settled v w ↔
    Aligned (P.lenient = true) (fun a => P.lenient = true ∨ P.Bound a (.stack [])) P.Bound
      P.SettledSlot v w := by
  fun_induction Aligned with
  | case4 k r l r' h₁ h₂ h₃ ih => rw [Settled.eq_4 _ _ _ _ _ h₁ h₂ h₃, ih]
  | _ => simp_all [Settled]

/-- Two kinds agree that were unified when they met. -/
def Agree (P : Partition) : Kind → Kind → Prop
  | .effect c p _, .effect d q _ => P.Settled c d ∧ P.Settled p q
  | .stack s, .stack t => P.Settled s t
  | _, _ => False

/-- **Members of a class are linked** if a chain of members that agree leads from one to the other.
-/
def Linked (P : Partition) (i : Nat) : Kind → Kind → Prop :=
  Relation.EqvGen fun k l => k ∈ P.members i ∧ l ∈ P.members i ∧ P.Agree k l

/-- The members of each class of `P` are linked in `Q`, effects with effects and stacks with
stacks. -/
def LinkedIn (P Q : Partition) : Prop :=
  ∀ i k l, k ∈ P.members i → l ∈ P.members i → k.Alike l → Q.Linked i k l

/-! ## Growth -/

/-- **`P` grows into `Q`**: classes are joined, and gain members and names. -/
structure Grows (P Q : Partition) : Prop where
  root : ∀ {i j}, P.root i = P.root j → Q.root i = Q.root j
  index : ∀ {n i}, P.index n = some i →
    ∃ j, Q.index n = some j ∧ Q.root j = Q.root i ∧ P.members i ⊆ Q.members j
  members : ∀ {i k}, k ∈ P.members i → k ∈ Q.members i
  size_le : P.size ≤ Q.size
  subtyping : Q.subtyping = P.subtyping
  lenient : Q.lenient = P.lenient
  mass_le : P.mass ≤ Q.mass

variable {P Q R : Partition}

namespace Grows

theorem refl (P : Partition) : P.Grows P :=
  ⟨id, fun e => ⟨_, e, rfl, List.Subset.refl _⟩, id, Nat.le_refl _, rfl, rfl, Nat.le_refl _⟩

/-- What grows twice has grown. -/
theorem trans (h : P.Grows Q) (h' : Q.Grows R) : P.Grows R where
  root e := h'.root (h.root e)
  index e := by
    obtain ⟨j, hj, hroot, hmem⟩ := h.index e
    obtain ⟨l, hl, hroot', hmem'⟩ := h'.index hj
    exact ⟨l, hl, hroot'.trans (h'.root hroot), List.Subset.trans hmem hmem'⟩
  members m := h'.members (h.members m)
  size_le := Nat.le_trans h.size_le h'.size_le
  subtyping := h'.subtyping.trans h.subtyping
  lenient := h'.lenient.trans h.lenient
  mass_le := Nat.le_trans h.mass_le h'.mass_le

theorem names (h : P.Grows Q) {n : String} {i : Nat} (hn : P.Names n i) : Q.Names n i := by
  obtain ⟨j, hj, hji⟩ := hn
  obtain ⟨l, hl, hlj, -⟩ := h.index hj
  exact ⟨l, hl, hlj.trans (h.root hji)⟩

/-- What is bound stays bound as classes grow. -/
theorem bound (h : P.Grows Q) {n : String} {k : Kind} (hb : P.Bound n k) : Q.Bound n k := by
  refine hb.imp id fun ⟨i, hi, hk⟩ => ?_
  obtain ⟨j, hj, -, hmem⟩ := h.index hi
  exact ⟨j, hj, hmem hk⟩

theorem append (P : Partition) (id : Nat) (k : Kind) : P.Grows (P.append id k) :=
  ⟨fun e => e, fun e => ⟨_, e, rfl, fun _ m => mem_append_iff.2 (.inl m)⟩,
    fun m => mem_append_iff.2 (.inl m), Nat.le_refl _, rfl, rfl, Nat.le_refl _⟩

theorem register {name : String} (h : P.index name = none) (id : Nat) :
    P.Grows (P.register name id) :=
  ⟨fun e => e, fun e => ⟨_, index_register h e, rfl, fun _ m => m⟩, fun m => m, Nat.le_refl _, rfl,
    rfl, Nat.le_refl _⟩

/-- A class for a new name is growth. -/
theorem registerNew {name : String} (h : P.index name = none) : P.Grows (P.registerNew name) :=
  ⟨fun e => e, fun e => ⟨_, index_register h e, rfl, fun _ m => m⟩, fun m => m, Nat.le_succ _, rfl,
    rfl, Nat.le_refl _⟩

/-- Absorbing a class is growth once all its members have joined. -/
theorem of_absorb {src dst : Nat} (hd : P.root dst = dst) (h : (P.absorb src dst).Grows Q)
    (hQ : Q.Shaped) (hm : ∀ k ∈ P.members src, k ∈ Q.members dst) (hP : P.Shaped)
    (hs : P.root src = src) : P.Grows Q := by
  have hmembers : ∀ {i k}, k ∈ P.members i → k ∈ Q.members i := by
    intro i k hk
    by_cases hi : P.root i = src
    · have hr : Q.root i = Q.root dst :=
        h.root ((root_absorb_src hi).trans (root_absorb_dst hd).symm)
      rw [hQ.members_congr hr]
      exact hm k (hP.members_congr (hi.trans hs.symm) ▸ hk)
    · refine h.members ?_
      rwa [members_absorb, if_neg hi]
  refine { h with
    root := fun e => h.root (root_absorb_congr e)
    members := hmembers
    index := fun {n i} hi => ?_ }
  obtain ⟨j, hj, hroot, -⟩ := h.index (congrArg (Option.map _) hi)
  have hji : Q.root j = Q.root i := hroot.trans (h.root (root_absorb_moved hs hd i))
  exact ⟨j, hj, hji, fun k hk => hQ.members_congr hji ▸ hmembers hk⟩

end Grows

/-- **Classes that are absorbed on the way from `P` to `Q` have no members left**, and those that
were absorbed before keep what they had. -/
structure Drains (P Q : Partition) : Prop where
  absorbed : ∀ {i}, P.root i ≠ i → Q.root i ≠ i
  kept : ∀ {i}, P.root i ≠ i → Q.own i = P.own i
  drained : ∀ {i}, P.root i = i → Q.root i ≠ i → Q.own i = []

namespace Drains

theorem of_eq (hroot : Q.root = P.root) (hown : Q.own = P.own) : P.Drains Q where
  absorbed h := hroot ▸ h
  kept _ := by rw [hown]
  drained h h' := absurd (hroot ▸ h) h'

theorem trans (h : P.Drains Q) (h' : Q.Drains R) : P.Drains R where
  absorbed hi := h'.absorbed (h.absorbed hi)
  kept hi := (h'.kept (h.absorbed hi)).trans (h.kept hi)
  drained {i} hi hi' := by
    by_cases hq : Q.root i = i
    · exact h'.drained hq hi'
    · exact (h'.kept hq).trans (h.drained hi hq)

theorem append (hP : P.Shaped) (id : Nat) (k : Kind) : P.Drains (P.append id k) where
  absorbed h := h
  kept h := if_neg (by rintro rfl; exact h (hP.root_root id))
  drained h h' := absurd h h'

theorem keeping (h : P.Drains Q) {id : Nat} (hid : P.root id ≠ id) (ks : List Kind) :
    (P.keeping id ks).Drains (Q.keeping id ks) where
  absorbed := h.absorbed
  kept {i} hi := by
    by_cases hne : i = id
    · rw [hne, own_keeping, own_keeping]
    · rw [own_keeping_of_ne hne, own_keeping_of_ne hne]
      exact h.kept hi
  drained {i} hi hi' := by
    rw [own_keeping_of_ne (by rintro rfl; exact hid hi)]
    exact h.drained hi hi'

/-- Absorbing a class drains it once all its members have been taken. -/
theorem of_absorb {src dst : Nat} (hs : P.root src = src) (hd : P.root dst = dst) (hne : src ≠ dst)
    (h : ((P.absorb src dst).keeping src []).Drains Q) : P.Drains Q where
  absorbed hi := h.absorbed fun e => hi ((root_absorb_eq_self_iff hd hne).1 e).2
  kept {i} hi := by
    refine (h.kept fun e => hi ((root_absorb_eq_self_iff hd hne).1 e).2).trans ?_
    exact own_keeping_of_ne (by rintro rfl; exact hi hs)
  drained {i} hi hi' := by
    by_cases hsrc : i = src
    · rw [hsrc, h.kept fun e => ((root_absorb_eq_self_iff hd hne).1 e).1 rfl, own_keeping]
    · exact h.drained ((root_absorb_eq_self_iff hd hne).2 ⟨hsrc, hi⟩) hi'

end Drains

/-! ## What is settled stays settled -/

/-- **What a settled slot asks for.** -/
theorem settledSlot_iff (P : Partition) (k l : Kind) :
    P.SettledSlot k l ↔ SlotAsk P.subtyping False P.Bound P.Settled k l := by
  unfold SettledSlot SlotAsk
  split
  · refine ⟨fun h => ⟨fun a ha => by simp at ha, fun b hb => by simp at hb, ?_, .inl rfl⟩,
      fun h => h.2.2.1 _ _ _ _ _ _ rfl rfl⟩
    rintro c p i d q j ⟨⟩ ⟨⟩
    exact h
  · next h =>
    refine and_congr_right' (and_congr_right' ⟨fun hc => ⟨?_, .inl hc⟩, fun hc => ?_⟩)
    · intro c p i d q j hk hl
      exact (h c p i d q j hk hl).elim
    · exact hc.2.resolve_right id

/-- **What is settled stays settled** as classes grow. -/
theorem SettledSlot.mono (h : P.Grows Q) (k : Kind) :
    ∀ l, P.SettledSlot k l → Q.SettledSlot k l := by
  induction k using Kind.slotInduction with
  | effect c p i hc hp =>
    intro l hl
    rw [settledSlot_iff] at hl ⊢
    refine ⟨fun a ha => by simp at ha, fun b hb => h.bound (hl.2.1 b hb), ?_,
      h.subtyping ▸ hl.2.2.2⟩
    intro c' p' i' d q j hk he
    cases hk
    obtain ⟨h₁, h₂⟩ := hl.2.2.1 c p i d q j rfl he
    rw [settled_iff] at h₁ h₂ ⊢
    rw [settled_iff, h.lenient]
    exact ⟨h₁.imp id (fun _ => Or.imp id h.bound) (fun _ _ => h.bound) hc,
      h₂.imp id (fun _ => Or.imp id h.bound) (fun _ _ => h.bound) hp⟩
  | _ =>
    intro l hl
    rw [settledSlot_iff] at hl ⊢
    exact ⟨fun a ha => h.bound (hl.1 a ha), fun b hb => h.bound (hl.2.1 b hb),
      fun _ _ _ _ _ _ hk => by simp at hk, h.subtyping ▸ hl.2.2.2⟩

/-- **What is settled stays settled.** -/
theorem Settled.mono (h : P.Grows Q) {v w : Stack} (hs : P.Settled v w) : Q.Settled v w := by
  rw [settled_iff] at hs ⊢
  rw [h.lenient]
  exact hs.imp id (fun _ => Or.imp id h.bound) (fun _ _ => h.bound)
    fun k _ l => SettledSlot.mono h k l

/-- Kinds that agree go on doing so. -/
theorem Agree.mono (h : P.Grows Q) {k l : Kind} (ha : P.Agree k l) : Q.Agree k l := by
  unfold Agree at ha ⊢
  split at ha
  · exact ⟨ha.1.mono h, ha.2.mono h⟩
  · exact ha.mono h
  · exact ha.elim

theorem Linked.mono (h : P.Grows Q) {i : Nat} {k l : Kind} (hl : P.Linked i k l) :
    Q.Linked i k l :=
  Relation.EqvGen.mono (fun _ _ ha => ⟨h.members ha.1, h.members ha.2.1, ha.2.2.mono h⟩) _ _ hl

/-- Links have no direction. -/
theorem Linked.symm {i : Nat} {k l : Kind} (h : P.Linked i k l) : P.Linked i l k :=
  Relation.EqvGen.symm _ _ h

/-- What holds of members that agree holds of linked ones, if it is an equivalence. -/
theorem Linked.lift {r : Kind → Kind → Prop} (hr : Equivalence r) {i : Nat} {k l : Kind}
    (h : P.Linked i k l)
    (hstep : ∀ k l, k ∈ P.members i → l ∈ P.members i → P.Agree k l → r k l) : r k l :=
  hr.eqvGen_iff.1 (Relation.EqvGen.mono (fun k l ha => hstep k l ha.1 ha.2.1 ha.2.2) _ _ h)

theorem LinkedIn.mono (h : Q.Grows R) (hl : P.LinkedIn Q) : P.LinkedIn R :=
  fun i k l hk hl' ha => (hl i k l hk hl' ha).mono h

/-- Kinds are linked in a class, by whatever number it goes. -/
theorem Linked.congr (hP : P.Shaped) {i j : Nat} (hij : P.root i = P.root j) {k l : Kind}
    (h : P.Linked i k l) : P.Linked j k l := by
  unfold Linked at h ⊢
  rwa [hP.members_congr hij] at h

end Partition

end StackEffect
