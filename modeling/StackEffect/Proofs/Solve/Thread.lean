import StackEffect.Proofs.Solve.Agreement
import StackEffect.Proofs.Solve.Exact
import StackEffect.Proofs.Unify.Shallow

/-!
# Proofs/Solve/Thread — stacks that are passed on by variables of their own

    'R ≡ s        't 'S ≡ 'R'        on one side of each call is a variable that only passes a stack on

The variables of a thread stand for what they face, and all others for themselves.  So no class has two
members to compare, all calls succeed, and what a variable of the thread is resolved to is what the
stack that it faces is resolved to: the solution is exact (`Valuation.Threads.exists_exact`).
-/

namespace StackEffect

/-! ## Kinds along a thread -/

/-- **A tidy kind along a thread**: a variable of the thread alone, or a kind that mentions none. -/
def Kind.Along (sort : String → VarSort) (thread : String → Prop) (k : Kind) : Prop :=
  k.Tidy sort ∧ ((∃ a, thread a ∧ (k = .stackVar a ∨ k = .stack [.stackVar a])) ∨
    ∀ v ∈ k.vars, ¬ thread v.name)

namespace Kind

variable {sort : String → VarSort} {thread : String → Prop} {k l : Kind}

theorem closed_along : Closed (Along sort thread) where
  slot {k s} h := by
    refine ⟨(closed_tidy sort).slot h.1, h.2.imp ?_ fun h v hv => h v (List.mem_append_right _ hv)⟩
    rintro ⟨a, ha, h | h⟩
    · cases h
    · exact ⟨a, ha, .inl (List.cons.inj (Kind.stack.inj h)).1⟩
  rest {k s} h := by
    refine ⟨(closed_tidy sort).rest h.1, .inr ?_⟩
    rcases h.2 with ⟨a, -, h | h⟩ | h
    · cases h
    · rw [(List.cons.inj (Kind.stack.inj h)).2]
      exact fun _ hv => absurd hv List.not_mem_nil
    · exact fun v hv => h v (List.mem_append_left _ hv)
  consumed {c p i} h := by
    refine ⟨(closed_tidy sort).consumed h.1, .inr ?_⟩
    rcases h.2 with ⟨a, -, h | h⟩ | h
    · cases h
    · cases h
    · exact fun v hv => h v (List.mem_append_left _ hv)
  produced {c p i} h := by
    refine ⟨(closed_tidy sort).produced h.1, .inr ?_⟩
    rcases h.2 with ⟨a, -, h | h⟩ | h
    · cases h
    · cases h
    · exact fun v hv => h v (List.mem_append_right _ hv)

/-- A kind that is no variable, and no stack of one slot, is told by its slots. -/
theorem eq_of_asSlots_eq (hk : ∀ slot, k ≠ stack [slot]) (hl : ∀ slot, l ≠ stack [slot])
    (h : k.asSlots = l.asSlots) : k = l := by
  by_cases hks : ∃ s, k = stack s <;> by_cases hls : ∃ s, l = stack s
  · obtain ⟨s, rfl⟩ := hks
    obtain ⟨t, rfl⟩ := hls
    exact congrArg stack h
  · obtain ⟨s, rfl⟩ := hks
    rw [asSlots_eq_singleton (not_exists.1 hls)] at h
    exact absurd (congrArg stack h) (hk l)
  · obtain ⟨t, rfl⟩ := hls
    rw [asSlots_eq_singleton (not_exists.1 hks)] at h
    exact absurd (congrArg stack h.symm) (hl k)
  · rw [asSlots_eq_singleton (not_exists.1 hks), asSlots_eq_singleton (not_exists.1 hls)] at h
    exact List.singleton_inj.1 h

end Kind

/-! ## Threads -/

/-- **Calls along a thread**: the variables of the thread have values that solve the calls, and all
others stand for themselves; and one side of each call is a stack variable alone. -/
structure Valuation.Threads (σ : Valuation) (sort : String → VarSort) (thread : String → Prop)
    (cs : List Call) : Prop where
  keeps : ∀ v : Var, ¬ thread v.name → σ.value v.kind = [v.kind]
  sort_eq : ∀ a, thread a → sort a = .stack
  solves : σ.Solves cs
  calls : ∀ c ∈ cs, ∃ v w, c = .onStacks v w ∧ (Kind.stack v).Along sort thread ∧
    (Kind.stack w).Along sort thread ∧ ((∃ a, v = [.stackVar a]) ∨ ∃ a, w = [.stackVar a])

namespace Valuation.Threads

variable {σ : Valuation} {sort : String → VarSort} {thread : String → Prop} {cs : List Call}
  {st : Option Subtyping} {lenient : Bool} {k l r : Kind} {n a : String} {i : Nat}
  {P : Partition} {θ : String → Option Kind}

/-- What is no variable amounts to its slots. -/
theorem value_eq (h : σ.Threads sort thread cs) (hk : k.Along sort thread) (hvar : k.isVar = false)
    (hslot : ∀ slot, k ≠ .stack [slot]) : σ.value k = k.asSlots := by
  obtain ⟨htidy, ⟨a, -, rfl | rfl⟩ | hfree⟩ := hk
  · cases hvar
  · exact absurd rfl (hslot _)
  by_cases hstack : ∃ s, k = .stack s
  · obtain ⟨s, rfl⟩ := hstack
    have hvalues := values_eq_map (r := id) (fun v hv => h.keeps v (hfree v hv)) htidy
    rwa [List.map_congr_left fun k _ => Kind.relabel_id, List.map_id'] at hvalues
  · rw [Kind.asSlots_eq_singleton (not_exists.1 hstack)]
    have hvalue := value_eq_relabel (r := id) (fun v hv => h.keeps v (hfree v hv)) htidy
      (not_exists.1 hstack)
    rwa [Kind.relabel_id] at hvalue

/-- **Kinds of one value are the same**, but for variables. -/
theorem eq_of_value_eq (h : σ.Threads sort thread cs) (hk : k.Along sort thread)
    (hl : l.Along sort thread) (hkv : k.isVar = false) (hlv : l.isVar = false)
    (hks : ∀ slot, k ≠ .stack [slot]) (hls : ∀ slot, l ≠ .stack [slot])
    (hvalue : σ.value k = σ.value l) : k = l :=
  Kind.eq_of_asSlots_eq hks hls (by rw [← h.value_eq hk hkv hks, ← h.value_eq hl hlv hls, hvalue])

/-- **The theory of a thread.** -/
def theory (σ : Valuation) (sort : String → VarSort) (thread : String → Prop)
    (st : Option Subtyping) (lenient : Bool) : Theory st lenient :=
  (σ.theory sort st lenient).and (.tidy sort (Kind.Along sort thread) Kind.closed_along fun _ h => h.1)

theorem single (h : σ.Threads sort thread cs) : (theory σ sort thread st lenient).Single := by
  rintro n k l ⟨⟨-, hk⟩, hkL, hks⟩ ⟨⟨-, hl⟩, hlL, hls⟩ halike
  refine h.eq_of_value_eq hkL hlL ?_ ?_ hks hls (hk.symm.trans hl)
  · cases k <;> first | rfl | exact halike.elim
  · cases l <;> first | rfl | exact halike.symm.elim

/-! ## What is left after the calls -/

section

variable (h : σ.Threads sort thread cs) (hP : (theory σ sort thread st lenient).Good P)
  (hout : Outcome sort (Kind.Along sort thread) P θ)

include hP in
theorem value_rep (hout : Outcome sort (Kind.Along sort thread) P θ) (hn : P.Names n i)
    (hr : P.rep i = some r) : σ.value r = σ.nameValue sort n :=
  (value_repOf (Theory.good_and_iff.1 hP).1 ((hout.repOf_of_names hn).trans hr)).2

omit hP in
include hout in
theorem along_rep (hr : P.rep i = some r) :
    r.Along sort thread ∧ ∀ slot, r ≠ .stack [slot] := by
  cases hs : r.isSimple with
  | false =>
    have hmem := hout.rep_mem hr hs
    exact ⟨hout.member hmem, fun slot he => hout.unwrapped (he ▸ hmem)⟩
  | true =>
    refine ⟨⟨hout.rep_tidy hr, .inr fun v hv => ?_⟩, ?_⟩
    · cases r <;> simp_all [Kind.isSimple, Kind.vars]
    · rintro slot rfl
      cases hs

include h hP hout

/-- **Names that are not of the thread only share their classes with names.** -/
theorem isVar_rep (hn : P.Names n i) (hthread : ¬ thread n) (hr : P.rep i = some r) :
    r.isVar = true := by
  by_contra hvar
  rw [Bool.not_eq_true] at hvar
  obtain ⟨hL, hslot⟩ := along_rep hout hr
  have hvalue : r.asSlots = [(⟨sort n, n⟩ : Var).kind] := by
    rw [← h.value_eq hL hvar hslot, value_rep hP hout hn hr]
    exact h.keeps _ hthread
  have hkind : ∀ s, (⟨sort n, n⟩ : Var).kind ≠ .stack s := by cases sort n <;> simp [Var.kind]
  rw [← Kind.asSlots_eq_singleton hkind] at hvalue
  rw [Kind.eq_of_asSlots_eq hslot (fun _ => hkind _) hvalue] at hvar
  cases hsort : sort n <;> simp [hsort, Var.kind, Kind.isVar] at hvar

/-- **A member that is no variable represents its class.** -/
theorem rep_eq_of_mem (hk : k ∈ P.members i) (hvar : k.isVar = false) (hr : P.rep i = some r) :
    r = k := by
  have hrank := (hout.represents hr).rank_le k hk
  have hkL := hout.member hk
  have hordinary := hkL.1.isOrdinary
  obtain ⟨hrL, hrslot⟩ := along_rep hout hr
  have hrvar : r.isVar = false := by
    cases k <;> cases r <;> simp_all [Kind.rank, Kind.isVar, Kind.isOrdinary]
  obtain ⟨n, hn, hnk⟩ := Theory.Admits.of_mem hP hk
  exact h.eq_of_value_eq hrL hkL hrvar hvar hrslot (fun slot he => hout.unwrapped (he ▸ hk))
    ((value_rep hP hout hn hr).trans hnk.1.2)

/-- **No class leads back to itself.** -/
theorem acyclic : P.Acyclic := by
  -- what a representative mentions is represented by a variable
  have hmentions : ∀ {n m r}, P.Mentions n m → P.repOf m = some r → r.isVar = true := by
    rintro n m r ⟨-, r', hr', v, hv, rfl⟩ hr
    obtain ⟨i, hi, hri⟩ := Option.bind_eq_some_iff.1 hr'
    obtain ⟨j, hj, hrj⟩ := Option.bind_eq_some_iff.1 hr
    cases hvar : r'.varName? with
    | some x =>
      obtain ⟨w, rfl, rfl⟩ := Kind.eq_varKind_of_varName? hvar
      rw [Kind.vars_varKind, List.mem_singleton] at hv
      rw [hv, hout.repOf_rep hri hvar] at hr
      rw [← Option.some.inj hr, ← Kind.varName?_isSome, hvar]
      rfl
    | none =>
      obtain ⟨⟨-, ⟨a, -, rfl | rfl⟩ | hfree⟩, hslot⟩ := along_rep hout hri
      · cases hvar
      · exact absurd rfl (hslot _)
      · exact isVar_rep h hP hout (Partition.names_of_index hj) (hfree v hv) hrj
  -- and a variable mentions itself alone
  have hself : ∀ {n m r x}, Relation.TransGen P.Mentions n m → P.repOf n = some r →
      r.varName? = some x → m = x := by
    intro n m r x hnm hr hx
    have hstep : ∀ {n m}, P.repOf n = some r → P.Mentions n m → m = x := by
      rintro n m hn ⟨-, r', hr', v, hv, rfl⟩
      obtain rfl := Option.some.inj (hn.symm.trans hr')
      obtain ⟨w, rfl, rfl⟩ := Kind.eq_varKind_of_varName? hx
      rw [Kind.vars_varKind, List.mem_singleton] at hv
      rw [hv]
    obtain ⟨i, -, hri⟩ := Option.bind_eq_some_iff.1 hr
    induction hnm with
    | single hm => exact hstep hr hm
    | tail _ hm ih =>
      subst ih
      exact hstep (hout.repOf_rep hri hx) hm
  intro n m i hnm hn hm
  obtain ⟨_, ⟨-, r, hr, -⟩, -⟩ := Relation.TransGen.head'_iff.1 hnm
  have hrm : P.repOf m = some r := by
    rw [hout.repOf_of_names hm, ← hout.repOf_of_names hn, hr]
  obtain ⟨_, -, hlast⟩ := Relation.TransGen.tail'_iff.1 hnm
  obtain ⟨x, hx⟩ := Option.isSome_iff_exists.1
    ((Kind.varName?_isSome r).trans (hmentions hlast hrm))
  exact ⟨r, hr, by rw [hself hnm hr hx, hx]⟩

/-- **Variables of slots are resolved to slots.** -/
theorem isSlot_resolve (ha : sort a = .slot) : ((Kind.typeVar a).resolve θ).isSlot = true := by
  have hthread : ¬ thread a := fun ht => by simpa [ha] using h.sort_eq a ht
  obtain ⟨order, hsol⟩ := hout.solution
  cases hi : P.index a with
  | none =>
    have hnone : θ a = none := hsol.eq_none fun hm => by simpa [hi] using hsol.mem_order.1 hm
    rw [Kind.resolve, hnone]
    rfl
  | some i =>
    obtain ⟨j, k, hj, hk, hslot⟩ := hout.called (n := a) (by rw [hi]; rfl)
    obtain ⟨r, hr⟩ := hout.exists_rep hk
    have hname := Partition.names_of_index hj
    have hrank := (hout.represents hr).rank_le k hk
    have hslot := hslot ha
    have hordinary := (hout.member hk).1.isOrdinary
    have hvar := isVar_rep h hP hout hname hthread hr
    obtain ⟨x, hx⟩ := Option.isSome_iff_exists.1 ((Kind.varName?_isSome r).trans hvar)
    rw [hout.resolve_var (acyclic h hP hout) hname hr rfl, hout.resolve_rep hr hx]
    cases r <;> cases k <;> simp_all [Kind.rank, Kind.isVar, Kind.isSlot, Kind.isOrdinary]

/-- **A variable of the thread is resolved to what the stack that it faces is resolved to.** -/
theorem resolveSlots_eq (ha : (Kind.stackVar a).Along sort thread) {w : Stack}
    (hw : (Kind.stack w).Along sort thread) (hb : P.Bound a (.stack w)) :
    Kind.resolveSlots θ [.stackVar a] = Kind.resolveSlots θ w := by
  have hac := acyclic h hP hout
  have hshown := hout.relates_of_bound (φ := id) (R := Eq) hac (fun _ => rfl) ?_ ha hw hb
  · simpa [shown] using hshown
  intro i hi r k hr hk hne
  rw [shown, List.map_id, List.map_id]
  cases hvar : k.isVar with
  | true =>
    cases k <;> simp only [Kind.isVar, Bool.false_eq_true] at hvar
    case stackVar b => exact absurd rfl (hne b)
    case typeVar b =>
      have hslot := isSlot_resolve h hP hout (Kind.tidy_typeVar_iff.1 (hout.tidy (hout.member hk)))
      rw [← hout.resolve_var hac (hout.sound.member_var hk rfl) hr (k := .typeVar b) rfl,
        Kind.asSlots_eq_singleton (by rintro s hs; simp [hs] at hslot)]
      rfl
  | false =>
    rw [rep_eq_of_mem h hP hout hk hvar hr]
    cases k <;> first | rfl | cases hvar

end

/-! ## Solving -/

/-- **Calls along a thread all succeed, and have an exact solution.** -/
theorem exists_exact (h : σ.Threads sort thread cs) {u : Store} (hstrict : u.lenient = false) :
    ∃ s t, Store.performAll cs u.reset = ([], s) ∧ Store.solve s = .ok () t ∧
      ∀ vs : List Var, (∀ v ∈ vs, sort v.name = v.sort) → t.Exact vs cs := by
  have hroom : 4 ≤ u.reset.room := by
    rw [Store.room, nestingLimit]
    exact Nat.le_of_ble_eq_true rfl
  have hpar : ∀ v w, Call.onStacks v w ∈ cs → (Kind.stack v).Along sort thread →
      (Kind.stack w).Along sort thread →
      (theory σ sort thread u.subtyping u.lenient).par v w := fun v w hc hv hw =>
    ⟨⟨hv.1, hw.1, h.solves _ hc⟩, hv, hw⟩
  obtain ⟨s, hs⟩ : ∃ s, Store.performAll cs u.reset = ([], s) := by
    refine (Store.under_reset (theory σ sort thread _ _)).performAll_succeeds h.single hroom
      fun c hc => ?_
    obtain ⟨v, w, rfl, hv, hw, hvar⟩ := h.calls c hc
    refine ⟨v, w, rfl, hpar v w hc hv hw, fun slot hslot inner => ?_, hvar⟩
    rcases List.mem_append.1 hslot with hslot | hslot
    · exact (hv.1.of_mem hslot).2 _
    · exact (hw.1.of_mem hslot).2 _
  have hsides : ∀ c ∈ cs, c.sides.1.Along sort thread ∧ c.sides.2.Along sort thread := by
    intro c hc
    obtain ⟨v, w, rfl, hv, hw, -⟩ := h.calls c hc
    exact ⟨hv, hw⟩
  have hgood : (theory σ sort thread u.subtyping u.lenient).Good s.partition := by
    refine ((Store.under_reset _).performAll (fun c hc => ?_) hs).1.good
    obtain ⟨v, w, rfl, hv, hw, -⟩ := h.calls c hc
    exact hpar v w hc hv hw
  obtain ⟨-, hlenient, hsettled, t, ht, hout⟩ := Store.outcome_of_performAll_reset Kind.closed_along
    (fun _ hk => hk.1) hsides hs
  rw [hstrict] at hlenient
  refine ⟨s, t, hs, ht, fun vs hvs => ⟨fun c hc => ?_, fun v hv hslot => ?_⟩⟩
  · obtain ⟨v, w, rfl, hv, hw, hvar⟩ := h.calls c hc
    have hvw : s.partition.Settled v w := hsettled _ hc
    have heq : ∀ {a : String} {w : Stack}, (Kind.stack [.stackVar a]).Along sort thread →
        (Kind.stack w).Along sort thread → s.partition.Bound a (.stack w) →
        Kind.resolveSlots (fun n => t.solution[n]?) [.stackVar a] =
          Kind.resolveSlots (fun n => t.solution[n]?) w := fun ha hw hb =>
      resolveSlots_eq h hgood hout (Kind.closed_along.slot ha) hw hb
    refine congrArg Kind.stack ?_
    rcases hvar with ⟨a, rfl⟩ | ⟨a, rfl⟩
    · refine heq hv hw ?_
      rcases w with - | ⟨l, w⟩
      · exact hvw.resolve_left (by simp [hlenient])
      · cases l <;> first | exact hvw.1 | exact hvw
    · refine (heq hw hv ?_).symm
      rcases v with - | ⟨k, v⟩
      · exact hvw.resolve_left (by simp [hlenient])
      · cases k <;> first | exact hvw.2 | exact hvw
  · rcases v with ⟨_ | _, a⟩
    · exact isSlot_resolve h hgood hout (hvs _ hv)
    · cases hslot

end Valuation.Threads

end StackEffect
