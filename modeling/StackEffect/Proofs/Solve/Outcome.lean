import StackEffect.Proofs.Solve.Solution
import StackEffect.Proofs.Unify.Tidy

/-!
# Proofs/Solve/Outcome — what a pass over tidy kinds leaves behind

    Outcome sort L P θ        classes of tidy kinds from L, and a solution of them

Every name has a representative, which is tidy as well.  A variable that is a member of a class is
resolved to what its class is resolved to, if no class leads back to itself.
-/

namespace StackEffect

variable {st : Option Subtyping} {lenient : Bool} {sort : String → VarSort}

/-! ## Progress -/

/-- A name has a representative if the members of its class are tidy. -/
theorem Theory.Complete.exists_repOf {T : Theory st lenient} {P : Partition} (h : T.Complete P)
    (htidy : ∀ n k, T.eqn n k → k.Tidy sort) {n : String} (hn : (P.index n).isSome) :
    ∃ r, P.repOf n = some r := by
  obtain ⟨i, k, hi, hk, -⟩ := h.called hn
  obtain ⟨r, hr, -⟩ := Partition.exists_rep (List.ne_nil_of_mem hk) fun l hl =>
    (htidy n l (h.member (Partition.names_of_index hi) hl)).isOrdinary
  exact ⟨r, by rw [Partition.repOf, hi]; exact hr⟩

/-- **Constraints over tidy kinds can be solved.** -/
theorem Theory.Complete.exists_solution {T : Theory st lenient} {s : Store}
    (h : T.Complete s.partition) (htidy : ∀ n k, T.eqn n k → k.Tidy sort) :
    ∃ t, Store.solve s = .ok () t ∧ t.partition = s.partition ∧
      ∃ order, s.partition.Solution order fun n => t.solution[n]? := by
  refine Store.exists_solution h.toShaped fun n hn => ?_
  obtain ⟨r, hr⟩ := h.exists_repOf htidy hn
  exact hr ▸ Option.some_ne_none r

/-! ## Outcomes -/

/-- **What a pass over tidy kinds leaves behind.** -/
structure Outcome (sort : String → VarSort) (L : Kind → Prop) (P : Partition)
    (θ : String → Option Kind) : Prop where
  sound : P.Sound
  closed : Kind.Closed L
  tidy : ∀ {k}, L k → k.Tidy sort
  member : ∀ {i k}, k ∈ P.members i → L k
  unwrapped : ∀ {i slot}, Kind.stack [slot] ∉ P.members i
  linked : P.LinkedIn P
  called : ∀ {n}, (P.index n).isSome →
    ∃ i k, P.index n = some i ∧ k ∈ P.members i ∧ (sort n = .slot → k.isSlot = true)
  solution : ∃ order, P.Solution order θ

theorem Theory.Complete.outcome {L : Kind → Prop} {hL : Kind.Closed L}
    {hT : ∀ k, L k → k.Tidy sort} {P : Partition} {θ : String → Option Kind}
    (h : (Theory.tidy sort L hL hT : Theory st lenient).Complete P)
    (hsol : ∃ order, P.Solution order θ) : Outcome sort L P θ where
  sound := h.toSound
  closed := hL
  tidy := hT _
  member hk := by
    obtain ⟨_, _, hk⟩ := Theory.Admits.of_mem h.toGood hk
    exact hk.1
  unwrapped hk := by
    obtain ⟨_, _, hk⟩ := Theory.Admits.of_mem h.toGood hk
    exact hk.2 _ rfl
  linked := h.linked
  called hn := by
    obtain ⟨i, k, hi, hk, hc⟩ := h.called hn
    exact ⟨i, k, hi, hk, hc.2⟩
  solution := hsol

namespace Outcome

variable {L : Kind → Prop} {P : Partition} {θ : String → Option Kind} {i : Nat} {k l r : Kind}
  {n m : String}

theorem repOf_of_names (h : Outcome sort L P θ) (hn : P.Names n i) : P.repOf n = P.rep i := by
  obtain ⟨j, hj, hji⟩ := hn
  rw [Partition.repOf, hj]
  exact h.sound.rep_congr hji

theorem represents (h : Outcome sort L P θ) (hr : P.rep i = some r) :
    r.Represents P.subtyping (P.members i) :=
  Partition.represents_of_rep hr fun _ hk => (h.tidy (h.member hk)).isOrdinary

/-- A class with members has a representative. -/
theorem exists_rep (h : Outcome sort L P θ) (hk : k ∈ P.members i) : ∃ r, P.rep i = some r := by
  obtain ⟨r, hr, -⟩ := Partition.exists_rep (List.ne_nil_of_mem hk) fun l hl =>
    (h.tidy (h.member hl)).isOrdinary
  exact ⟨r, hr⟩

theorem rep_tidy (h : Outcome sort L P θ) (hr : P.rep i = some r) : r.Tidy sort := by
  rcases (h.represents hr).tidy_or_simple fun _ hk => h.tidy (h.member hk) with ht | ⟨a, rfl⟩
  · exact ht
  · simp [Kind.Tidy, Kind.wellFormed, Kind.vars]

/-- Only nominal types are represented by a kind that is no member. -/
theorem rep_mem (h : Outcome sort L P θ) (hr : P.rep i = some r) (hs : r.isSimple = false) :
    r ∈ P.members i := by
  rcases (h.represents hr).mem with hm | ⟨_, _, _, _, _, rfl⟩
  · exact hm
  · simp [Kind.isSimple] at hs

/-- A variable that represents a class represents itself. -/
theorem repOf_rep (h : Outcome sort L P θ) (hr : P.rep i = some r) (hm : r.varName? = some m) :
    P.repOf m = some r := by
  have hmem := h.rep_mem hr (by cases r <;> simp_all [Kind.varName?, Kind.isSimple])
  rw [h.repOf_of_names (h.sound.member_var hmem hm), hr]

/-- A variable that represents a class stays as it is. -/
theorem resolve_rep (h : Outcome sort L P θ) (hr : P.rep i = some r) (hm : r.varName? = some m) :
    r.resolve θ = r := by
  obtain ⟨order, hsol⟩ := h.solution
  have hself := hsol.eq_self (h.repOf_rep hr hm) hm
  exact Kind.resolve_of_varName? hm fun u hu => Option.some.inj (hu.symm.trans hself)

/-- **A name stands for its representative with all names replaced.** -/
theorem eq_resolve (h : Outcome sort L P θ) (hac : P.Acyclic) (hn : P.Names n i)
    (hr : P.rep i = some r) : θ n = some (r.resolve θ) := by
  obtain ⟨order, hsol⟩ := h.solution
  exact hsol.eq_resolve hac ((h.repOf_of_names hn).trans hr)

/-- A variable is resolved to what represents a class to which it belongs. -/
theorem resolve_var (h : Outcome sort L P θ) (hac : P.Acyclic) (hn : P.Names n i)
    (hr : P.rep i = some r) (hk : k.varName? = some n) : k.resolve θ = r.resolve θ := by
  obtain ⟨v, rfl, rfl⟩ := Kind.eq_varKind_of_varName? hk
  rw [Kind.resolve_varKind, h.eq_resolve hac hn hr, Option.getD_some]

end Outcome

/-! ## Classes that lead back to themselves -/

namespace Store

variable {s : Store}

/-- The representative of a class, if it has one. -/
def representative? (s : Store) (id : Nat) : Option Kind :=
  match represent id s with
  | .ok k _ => k
  | .error _ _ => none

/-- The representative of the class of `n` mentions `m`. -/
def Mentions (s : Store) (n m : String) : Prop :=
  ∃ id, s.classOf? n = some id ∧ ∃ k, s.representative? id = some k ∧ ∃ v ∈ k.vars, v.name = m

/-- **No class leads back to itself**: no representative mentions, be it through other
representatives, a variable of its own class, unless it is that variable. -/
def Acyclic (s : Store) : Prop :=
  ∀ n m, Relation.TransGen s.Mentions n m → s.sameClass n m = true →
    ∃ id, s.classOf? n = some id ∧ ∃ k, s.representative? id = some k ∧ k.varName? = some m

theorem representative?_eq (h : s.partition.Shaped) {id : Nat} (hid : s.root id = id) :
    s.representative? id = s.partition.rep id := by
  have hends := ends_represent h hid
  unfold representative?
  split
  · next hok => exact (hends.ok hok).2
  · next herr => exact (hends.error herr).2.symm

theorem repOf_eq (h : s.partition.Shaped) {n : String} {id : Nat} (hn : s.classOf? n = some id) :
    s.partition.repOf n = s.representative? id := by
  rw [Partition.repOf, show s.partition.index n = some id from hn,
    representative?_eq h (h.index_root hn)]
  rfl

theorem Acyclic.partition (hs : s.Acyclic) (h : s.partition.Shaped) : s.partition.Acyclic := by
  have hmentions : ∀ n m, s.partition.Mentions n m → s.Mentions n m := by
    rintro n m ⟨-, r, hr, hm⟩
    obtain ⟨id, hid⟩ := Option.isSome_iff_exists.1 (Partition.isSome_of_repOf hr)
    exact ⟨id, hid, r, (repOf_eq h hid).symm.trans hr, hm⟩
  rintro n m i hnm ⟨j, hj, hji⟩ ⟨j', hj', hji'⟩
  have hroot : j = j' := by
    rw [← h.index_root hj, ← h.index_root hj', hji, hji']
  have hsame : s.sameClass n m = true := sameClass_iff.2 ⟨j, hj, hroot ▸ hj'⟩
  obtain ⟨id, hid, k, hk, hm⟩ := hs n m (Relation.TransGen.mono hmentions _ _ hnm) hsame
  exact ⟨k, (repOf_eq h hid).trans hk, hm⟩

theorem lt_size_of_representative? {id : Nat} {k : Kind} (hk : s.representative? id = some k) :
    id < s.members.size := by
  by_contra hid
  have hnil : s.kept id = #[] := by
    rw [kept, Array.getD_eq_getD_getElem?, Array.getElem?_eq_none (by omega), Option.getD_none]
  have hends : Ends (represent id) s (fun r _ => r = none) fun _ _ => True := by
    refine Ends.bind_iff.2 (Site.ends_look_iff.2 ?_)
    rw [hnil]
    refine Ends.bind (p := findNames id) (Ends.mono (Ends.self _ s) (fun _ _ h => h)
      fun _ _ _ => trivial) fun names t _ => ?_
    split
    · rfl
    · trivial
  unfold representative? at hk
  split at hk
  · next hok => cases hk.symm.trans (hends.ok hok)
  · cases hk

/-- Classes do not lead back to themselves if their representatives mention only variables of
classes further down. -/
theorem acyclic_of_rank (rank : Nat → Nat)
    (h : ∀ id < s.members.size, ∀ k ∈ s.representative? id, ∀ v ∈ k.vars, ∀ j ∈ s.classOf? v.name,
      rank j < rank id) : s.Acyclic := by
  have hdown : ∀ n m, Relation.TransGen s.Mentions n m →
      ∃ id, s.classOf? n = some id ∧ ∀ j, s.classOf? m = some j → rank j < rank id := by
    intro n m hnm
    induction hnm with
    | single hm =>
      obtain ⟨id, hid, k, hk, v, hv, rfl⟩ := hm
      exact ⟨id, hid, fun j hj => h id (lt_size_of_representative? hk) k hk v hv j hj⟩
    | tail _ hm ih =>
      obtain ⟨id, hid, hlt⟩ := ih
      obtain ⟨mid, hmid, k, hk, v, hv, rfl⟩ := hm
      exact ⟨id, hid, fun j hj => Nat.lt_trans
        (h mid (lt_size_of_representative? hk) k hk v hv j hj) (hlt mid hmid)⟩
  intro n m hnm hsame
  obtain ⟨id, hid, hlt⟩ := hdown n m hnm
  unfold sameClass at hsame
  rw [hid] at hsame
  split at hsame
  · next hi hj =>
    cases hi
    exact absurd (hlt _ hj) (by rw [eq_of_beq hsame]; exact Nat.lt_irrefl _)
  · simp at hsame

end Store

/-! ## Outcomes of calls -/

/-- **Calls that a theory without clashes relates** fail for their depth only. -/
theorem Store.performAll_reset {cs : List Call} {u s : Store}
    {T : Theory u.subtyping u.lenient} (hT : ¬T.mayClash) (hcs : ∀ c ∈ cs, c.Relates T.par)
    {faults : List Fault} (hs : performAll cs u.reset = (faults, s)) :
    s.Under T ∧ (∀ e ∈ faults, e = .tooDeep) ∧ (faults = [] → T.Complete s.partition) := by
  obtain ⟨hu, hfails, hstep⟩ := (under_reset T).performAll hcs hs
  refine ⟨hu, fun e he => (hfails e he).resolve_right fun h => hT h.1, fun hnil => ?_⟩
  exact Theory.Step.complete
    (show Theory.Step _ (Store.empty _ _ u.logging).partition _ from (hstep hnil).1) hu.good

/-- They can be solved if they are over tidy kinds. -/
theorem Store.eq_tooDeep_of_relates {cs : List Call} {u : Store} {T : Theory u.subtyping u.lenient}
    (hT : ¬T.mayClash) (htidy : ∀ n k, T.eqn n k → k.Tidy sort) (hcs : ∀ c ∈ cs, c.Relates T.par)
    {fault : Fault} (h : fault ∈ (performAll cs u.reset).1 ∨
      ∃ s t, performAll cs u.reset = ([], s) ∧ solve s = .error fault t) : fault = .tooDeep := by
  rcases h with h | ⟨s, t, hs, hst⟩
  · exact (performAll_reset hT hcs rfl).2.1 fault h
  · obtain ⟨-, -, hcomplete⟩ := performAll_reset hT hcs hs
    obtain ⟨t, ht, -⟩ := (hcomplete rfl).exists_solution htidy
    simp [ht] at hst

/-- **Calls over tidy kinds that all succeed can be solved**, and are settled in the outcome. -/
theorem Store.outcome_of_performAll_reset {L : Kind → Prop} (hL : Kind.Closed L)
    (hT : ∀ k, L k → k.Tidy sort) {cs : List Call} {u s : Store}
    (hcs : ∀ c ∈ cs, L c.sides.1 ∧ L c.sides.2) (hs : performAll cs u.reset = ([], s)) :
    s.partition.subtyping = u.subtyping ∧ s.partition.lenient = u.lenient ∧
      (∀ c ∈ cs, c.Relates s.partition.Settled) ∧
      ∃ t, solve s = .ok () t ∧ Outcome sort L s.partition (fun n => t.solution[n]?) := by
  have hpar : ∀ c ∈ cs,
      c.Relates (Theory.tidy sort L hL hT : Theory u.subtyping u.lenient).par := by
    intro c hc
    obtain ⟨h₁, h₂⟩ := hcs c hc
    cases c with
    | onStacks v w => exact ⟨h₁, h₂⟩
    | onEffects f g =>
      rintro _ _ _ _ _ _ rfl rfl
      exact ⟨⟨hL.consumed h₁, hL.consumed h₂⟩, hL.produced h₁, hL.produced h₂⟩
  obtain ⟨hu, -, hstep⟩ := (under_reset _).performAll hpar hs
  obtain ⟨hstep, hsettled⟩ := hstep rfl
  have hcomplete : (Theory.tidy sort L hL hT : Theory u.subtyping u.lenient).Complete s.partition :=
    Theory.Step.complete (show Theory.Step _ (Store.empty _ _ u.logging).partition _ from hstep) hu.good
  obtain ⟨t, ht, -, hsol⟩ := hcomplete.exists_solution fun _ _ hk => hT _ hk.1
  exact ⟨hu.good.subtyping, hu.good.lenient, hsettled, t, ht, hcomplete.outcome hsol⟩

theorem Store.outcome_of_performAll {L : Kind → Prop} (hL : Kind.Closed L)
    (hT : ∀ k, L k → k.Tidy sort) {logging : Logging} {cs : List Call} {s : Store}
    (hcs : ∀ c ∈ cs, L c.sides.1 ∧ L c.sides.2)
    (hs : performAll cs (.empty st lenient logging) = ([], s)) :
    s.partition.subtyping = st ∧ s.partition.lenient = lenient ∧
      (∀ c ∈ cs, c.Relates s.partition.Settled) ∧
      ∃ t, solve s = .ok () t ∧ Outcome sort L s.partition (fun n => t.solution[n]?) :=
  outcome_of_performAll_reset (u := .empty st lenient logging) hL hT hcs hs

end StackEffect
