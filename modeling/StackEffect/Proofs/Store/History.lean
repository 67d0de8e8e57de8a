import StackEffect.Proofs.Store.Upkeep

/-!
# Proofs/Store/History — what a store was told stays told

    history [a₁, a₂, …] s        the faults of actions that failed, and the store after all of them

A store is used by operations, and its settings may change in between.  What one action keeps holds
after all of them (`history_keeps`).  An operation that succeeds takes nothing back, whatever happened
before it: names that share a class go on sharing one, and members stay members.
-/

namespace StackEffect

namespace Store

/-- What is done to a store: an operation, or a change of its settings. -/
inductive Action where
  | operate (o : Operation)
  | configure (subtyping : Option Subtyping) (lenient : Bool) (logging : Logging)

/-- Performs an action. -/
def Action.perform : Action → Pass Unit
  | operate o => o.perform
  | configure st lenient logging => modify fun s =>
    { s with subtyping := st, lenient := lenient, logging := logging }

/-- **Performs actions in turn**, and tells the faults of those that failed. -/
def history : List Action → Store → List Fault × Store
  | [], s => ([], s)
  | a :: as, s =>
    match a.perform s with
    | .ok _ t => history as t
    | .error e t => let (faults, u) := history as t; (e :: faults, u)

/-- **What every action keeps, a history keeps**, if it is kept at each fault that occurs. -/
theorem history_keeps {I : Store → Prop} {F : Fault → Prop} {as : List Action}
    (hstep : ∀ a ∈ as, ∀ s, I s → Ends a.perform s (fun _ t => I t) fun e t => F e → I t)
    {s : Store} (h : I s) (hF : ∀ e ∈ (history as s).1, F e) : I (history as s).2 := by
  induction as generalizing s with
  | nil => exact h
  | cons a as ih =>
    rw [List.forall_mem_cons] at hstep
    have ha := hstep.1 s h
    rw [history] at hF ⊢
    cases hp : a.perform s with
    | ok x t =>
      rw [hp] at hF
      exact ih hstep.2 (ha.ok hp) hF
    | error e t =>
      rw [hp] at hF
      have hF' := List.forall_mem_cons.1 hF
      exact ih hstep.2 (ha.error hp hF'.1) hF'.2

variable {s t : Store} {st : Option Subtyping} {lenient : Bool}

/-! ## Orderly stores -/

/-- **A store as actions leave it**: well kept, and with room for all that was handed in. -/
def Orderly (s : Store) : Prop := s.Under (Theory.anything s.subtyping s.lenient)

theorem Under.orderly (h : s.Under (Theory.anything st lenient)) : s.Orderly := by
  obtain rfl : s.subtyping = st := h.good.subtyping
  obtain rfl : s.lenient = lenient := h.good.lenient
  exact h

theorem orderly_empty (st : Option Subtyping) (lenient : Bool) (logging : Logging) :
    (empty st lenient logging).Orderly :=
  under_empty (Theory.anything st lenient) logging

theorem Orderly.sound (h : s.Orderly) : s.partition.Sound := h.good.toSound

theorem orderly_reset (s : Store) : s.reset.Orderly :=
  (under_reset (Theory.anything s.subtyping s.lenient)).orderly

/-- **What is handed in leaves room for all its parts**: a closed list of kinds has them and all
members that there are, and is no longer than the new mass. -/
theorem Orderly.within (h : s.Orderly) {ks : List Kind} (hks : Kind.Closed (· ∈ ks)) {weight : Nat}
    (hlen : ks.length = weight) : ∃ (L : List Kind) (hL : Kind.Closed (· ∈ L)), ks ⊆ L ∧
      (Theory.within _ hL : Theory s.subtyping s.lenient).Good
        { s with mass := s.mass + weight }.partition ∧
      ∀ P, P.Shaped → (Theory.within _ hL : Theory s.subtyping s.lenient).Holds P →
        ∀ i, (P.members i).length ≤ s.mass + weight := by
  obtain ⟨L, hL, hsub, hmass, hgood⟩ := h.allows hks hlen
  exact ⟨L, hL, hsub, (Theory.good_and_iff.1 hgood).2, fun P hP hT i =>
    Nat.le_trans (Theory.length_members_le hL hP hT i) hmass⟩

/-- Whether an operation constrains or unifies. -/
def Operation.isCall : Operation → Bool
  | constrain .. | unifyStacks .. | unifyEffects .. => true
  | _ => false

/-- **How a call ends**: as constraining and unifying end with parts of what was handed in, in a store
that has room for them. -/
theorem Orderly.ends_call (h : s.Orderly) {Q : Unit → Store → Prop} {E : Fault → Store → Prop}
    (hcalls : ∀ (L : List Kind) (hL : Kind.Closed (· ∈ L)) (t : Store),
      t.partition = { s.partition with mass := t.mass } →
      (Theory.within _ hL : Theory s.subtyping s.lenient).Good t.partition →
      (∀ P, P.Shaped → (Theory.within _ hL : Theory s.subtyping s.lenient).Holds P →
        ∀ i, (P.members i).length ≤ t.mass) →
      (∀ n k, k ∈ L → Ends (Unify.constrain t.mass t.room n k) t Q E) ∧
        (∀ v w, .stack v ∈ L → .stack w ∈ L →
          Ends (Unify.unifyStacks t.mass t.room v w) t Q E) ∧
        ∀ f g, f ∈ L → g ∈ L →
          Ends (Unify.unifyEffects (Unify.unifyStacks t.mass t.room) f g) t Q E)
    {o : Operation} (ho : o.isCall = true) : Ends o.perform s Q E := by
  cases o with
  | constrain n k =>
    obtain ⟨L, hL, hsub, hgood, hw⟩ := h.within (Kind.closed_parts k) (Kind.length_parts k)
    exact (hcalls L hL { s with mass := s.mass + k.weight } rfl hgood hw).1 n k
      (hsub (Kind.self_mem_parts k))
  | unifyStacks v w =>
    obtain ⟨L, hL, hsub, hgood, hw⟩ := h.within
      ((Kind.closed_slotsParts v).append (Kind.closed_slotsParts w))
      (by rw [List.length_append, Kind.length_slotsParts, Kind.length_slotsParts])
    exact (hcalls L hL { s with mass := s.mass + (Kind.slotsWeight v + Kind.slotsWeight w) } rfl
      hgood hw).2.1 v w
      (hsub (List.mem_append_left _ (Kind.stack_mem_slotsParts v)))
      (hsub (List.mem_append_right _ (Kind.stack_mem_slotsParts w)))
  | unifyEffects f g =>
    obtain ⟨L, hL, hsub, hgood, hw⟩ := h.within
      ((Kind.closed_parts f).append (Kind.closed_parts g))
      (by rw [List.length_append, Kind.length_parts, Kind.length_parts])
    exact (hcalls L hL { s with mass := s.mass + (f.weight + g.weight) } rfl hgood hw).2.2 f g
      (hsub (List.mem_append_left _ (Kind.self_mem_parts f)))
      (hsub (List.mem_append_right _ (Kind.self_mem_parts g)))
  | solve | members | sameClass | text | reset => cases ho

/-- The settings are no part of what a store keeps in order. -/
theorem Orderly.configure (h : s.Orderly) (st : Option Subtyping) (lenient : Bool)
    (logging : Logging) :
    { s with subtyping := st, lenient := lenient, logging := logging }.Orderly where
  good := { h.good with subtyping := rfl, lenient := rfl }
  filled := h.filled

theorem Orderly.ends_action (h : s.Orderly) (a : Action) :
    Ends a.perform s (fun _ t => t.Orderly) fun _ t => t.Orderly := by
  cases a with
  | configure st lenient logging => exact h.configure st lenient logging
  | operate o =>
    cases ho : o.isReset with
    | false => exact (ends_perform h ho).mono (fun _ _ ht => ht.1.orderly) fun _ _ ht => ht.orderly
    | true =>
      cases o <;> simp only [Operation.isReset, Bool.false_eq_true] at ho
      exact orderly_reset s

theorem orderly_history (st : Option Subtyping) (lenient : Bool) (logging : Logging)
    (as : List Action) : (history as (empty st lenient logging)).2.Orderly :=
  history_keeps (F := fun _ => True) (fun a _ _ hs => (hs.ends_action a).mono (fun _ _ ht => ht)
    fun _ _ ht _ => ht) (orderly_empty st lenient logging) fun _ _ => trivial

/-! ## What was told -/

/-- Names that belong to classes that ended up in one class share it. -/
theorem sameClass_of_root_eq (h : s.partition.Shaped) {a b : String} {i j : Nat}
    (hi : s.partition.index a = some i) (hj : s.partition.index b = some j)
    (hij : s.partition.root i = s.partition.root j) : s.sameClass a b = true := by
  rw [h.index_root hi, h.index_root hj] at hij
  exact sameClass_iff.2 ⟨i, hi, hij ▸ hj⟩

theorem sameClass_of_grows (ht : t.partition.Shaped) (h : s.partition.Grows t.partition)
    {a b : String} (hab : s.sameClass a b = true) : t.sameClass a b = true := by
  obtain ⟨i, hi, hj⟩ := sameClass_iff.1 hab
  obtain ⟨i', hi', hri, -⟩ := h.index hi
  obtain ⟨j', hj', hrj, -⟩ := h.index hj
  exact sameClass_of_root_eq ht hi' hj' (hri.trans hrj.symm)

theorem mem_membersFor_of_grows (h : s.partition.Grows t.partition) {n : String} {k : Kind}
    (hk : k ∈ s.membersFor n) : k ∈ t.membersFor n := by
  obtain ⟨i, hi, hki⟩ := mem_membersFor.1 hk
  obtain ⟨j, hj, -, hsub⟩ := h.index hi
  exact mem_membersFor.2 ⟨j, hj, hsub hki⟩

/-- Names that share a class share its members. -/
theorem membersFor_eq_of_sameClass {a b : String} (h : s.sameClass a b = true) :
    s.membersFor a = s.membersFor b := by
  unfold sameClass at h
  rw [membersFor, membersFor, classMembers?, classMembers?]
  split at h
  · next i j hi hj => rw [hi, hj, eq_of_beq h]
  · cases h

/-- A variable that is a member of a class shares it. -/
theorem sameClass_of_mem_membersFor (h : s.partition.Sound) {n m : String} {k : Kind}
    (hk : k ∈ s.membersFor n) (hm : k.varName? = some m) : s.sameClass n m = true := by
  obtain ⟨i, hi, hki⟩ := mem_membersFor.1 hk
  obtain ⟨j, hj, hji⟩ := h.member_var hki hm
  exact sameClass_of_root_eq h.toShaped hi hj hji.symm

theorem sameClass_self (h : s.partition.Shaped) {n : String} (hn : n ∈ s.names) :
    s.sameClass n n = true := by
  have hn' : n ∈ s.partition.names := Array.mem_toList_iff.2 hn
  obtain ⟨i, hi⟩ := Option.isSome_iff_exists.1 (h.mem_names.1 hn')
  exact sameClass_iff.2 ⟨i, hi, hi⟩

/-- **What a store was told stays told.**  After any history, an operation that succeeds leaves names
in one class that were in one class, and every member in its class.  After a name was constrained to
equal a kind, the kind is in the class of the name, without the stacks of one slot around it; and if
it is another variable, or the name is registered, the two names share their class and its members.
-/
theorem told_stays_told (st : Option Subtyping) (lenient : Bool) (logging : Logging)
    (as : List Action) (o : Operation) (ho : o.isReset = false) (t : Store)
    (ht : o.perform (history as (empty st lenient logging)).2 = .ok () t) :
    let s := (history as (empty st lenient logging)).2
    (∀ a b, s.sameClass a b = true → t.sameClass a b = true) ∧
      (∀ n, ∀ k ∈ s.membersFor n, k ∈ t.membersFor n) ∧
      (∀ a b, t.sameClass a b = true → t.membersFor a = t.membersFor b) ∧
      ∀ n k, o = .constrain n k →
        (k.unwrap.varName? = some n ∨ k.unwrap ∈ t.membersFor n) ∧
          ∀ m, k.unwrap.varName? = some m → (m = n → n ∈ t.names) → t.sameClass n m = true := by
  intro s
  have hs : s.Orderly := orderly_history st lenient logging as
  obtain ⟨hu, hstep⟩ := (ends_perform hs ho).ok ht
  have hsound : t.partition.Sound := hu.good.toSound
  refine ⟨fun a b => sameClass_of_grows hsound.toShaped hstep.grows, fun n k =>
    mem_membersFor_of_grows hstep.grows, fun a b => membersFor_eq_of_sameClass, ?_⟩
  rintro n k rfl
  have hbound : t.partition.Bound n k := ((hs.performs_constrain trivial).ok ht).2.2
  have hmember : k.unwrap.varName? = some n ∨ k.unwrap ∈ t.membersFor n :=
    hbound.imp_right mem_membersFor.2
  refine ⟨hmember, fun m hm hself => ?_⟩
  rcases hmember with hn | hk
  · obtain rfl : m = n := Option.some.inj (hm.symm.trans hn)
    exact sameClass_self hsound.toShaped (hself rfl)
  · exact sameClass_of_mem_membersFor hsound hk hm

/-- `'a` is made equal to `'b`, and `'b` to an effect; then `'a` is made equal to `'c`, around which
is a stack of one slot, and which is a number. -/
theorem told_stays_told_chain :
    let as : List Action := [
      .operate (.constrain "'a" (.typeVar "'b")),
      .operate (.constrain "'b" (.effect [.typeVar "'a"] [] false)),
      .operate (.constrain "'c" (.simple "int"))]
    let o : Operation := .constrain "'a" (.stack [.typeVar "'c"])
    let s := (history as (empty none false .silent)).2
    s.sameClass "'b" "'c" = false ∧ ∃ t, o.perform s = .ok () t ∧ t.sameClass "'a" "'c" = true ∧
      t.membersFor "'b" = t.membersFor "'c" ∧ ∀ k ∈ s.membersFor "'b", k ∈ t.membersFor "'b" := by
  intro as o s
  refine ⟨by decide +kernel, ?_⟩
  have hok : Ends o.perform s (fun _ _ => True) fun _ _ => False := by decide +kernel
  obtain ⟨_, t, ht, -⟩ := hok.exists_ok
  obtain ⟨hsame, hmembers, hshared, htold⟩ := told_stays_told none false .silent as o rfl t ht
  have hac := (htold _ _ rfl).2 "'c" rfl fun h => absurd h (by decide)
  have hab := hsame "'a" "'b" (by decide +kernel)
  exact ⟨t, ht, hac, (hshared _ _ hab).symm.trans (hshared _ _ hac), hmembers "'b"⟩

end Store

end StackEffect
