import StackEffect.Proofs.Solve.Relabel

/-!
# Proofs/Solve/Variant — solutions that differ by names

    θ' (ρ n)  =  τ (θ n)          τ m = ρ m, unless a variable stands for m;
                                  then it is the variable that stands for ρ m

Two stores that differ by names `ρ` have solutions that differ by names `τ` (`Solution.relabel`).
Different names that are left in a solution stay different (`Relabeled.standIn_injOn`), so what is
resolved by the one solution and by the other has the same closed canonical form
(`Relabeled.together_solve`).
-/

namespace StackEffect

/-! ## Replacing variables, under other names -/

namespace Kind

variable {ρ τ : String → String} {σ σ' : String → Option Kind} {k : Kind} {s : Stack}

theorem asSlots_relabel (k : Kind) : asSlots (k.relabel τ) = (asSlots k).map (relabel τ) := by
  cases k with
  | stack t => rw [relabel_stack]; rfl
  | effect c p i => rw [relabel_effect]; exact congrArg ([·]) relabel_effect.symm
  | _ => rfl

/-- What replaces a name differs by `τ` from what replaces its new name, also if nothing does. -/
def Matches (ρ τ : String → String) (σ σ' : String → Option Kind) (n : String) : Prop :=
  σ' (ρ n) = (σ n).map (relabel τ) ∧ (σ n = none → τ n = ρ n)

/-- **Replacing variables commutes with new names.** -/
theorem resolve_relabel (h : ∀ v ∈ k.vars, Matches ρ τ σ σ' v.name) :
    (k.relabel ρ).resolve σ' = (k.resolve σ).relabel τ := by
  have hvar : ∀ v : Var, Matches ρ τ σ σ' v.name →
      (v.kind.relabel ρ).resolve σ' = (v.kind.resolve σ).relabel τ := by
    rintro v ⟨hsome, hnone⟩
    rw [relabel_varKind, resolve_varKind, resolve_varKind, Var.relabel, hsome]
    cases hv : σ v.name with
    | none => rw [Option.map_none, Option.getD_none, Option.getD_none, relabel_varKind, Var.relabel,
        hnone hv]
    | some u => rfl
  have hslots : ∀ s : Stack, (∀ k ∈ s, (k.relabel ρ).resolve σ' = (k.resolve σ).relabel τ) →
      resolveSlots σ' (s.map (relabel ρ)) = (resolveSlots σ s).map (relabel τ) := by
    intro s hs
    induction s with
    | nil => rfl
    | cons k s ih =>
      rw [List.forall_mem_cons] at hs
      have hspread : spread σ' (k.relabel ρ) = (spread σ k).map (relabel τ) := by
        cases k with
        | stackVar a =>
          change asSlots (resolve σ' ((stackVar a).relabel ρ)) = (asSlots _).map _
          rw [hs.1, asSlots_relabel]
        | stack | effect =>
          rw [spread_eq_singleton (by simp), hs.1]
          rfl
        | _ => exact congrArg ([·]) hs.1
      rw [List.map_cons, resolveSlots_cons, resolveSlots_cons, hspread, ih hs.2, List.map_append]
  induction k using Kind.slotInduction with
  | typeVar a => exact hvar ⟨.slot, a⟩ (h _ List.mem_cons_self)
  | stackVar a => exact hvar ⟨.stack, a⟩ (h _ List.mem_cons_self)
  | stack s ih =>
    rw [relabel_stack, resolve, resolve, relabel_stack, hslots s fun k hk => ih k hk fun v hv =>
      h v (mem_slotVars.2 ⟨k, hk, hv⟩)]
  | effect c p i hc hp =>
    rw [relabel_effect, resolve, resolve, relabel_effect, hslots c fun k hk => hc k hk fun v hv =>
      h v (List.mem_append_left _ (mem_slotVars.2 ⟨k, hk, hv⟩)), hslots p fun k hk => hp k hk
      fun v hv => h v (List.mem_append_right _ (mem_slotVars.2 ⟨k, hk, hv⟩))]
  | _ => rfl

end Kind

/-! ## Names that are left in a solution -/

namespace Partition

variable {P : Partition} {order : List String} {θ : String → Option Kind} {n m : String} {v : Var}

/-- **A name that no other variable stands for.** -/
def Stays (P : Partition) (n : String) : Prop := ∀ v : Var, P.repOf n = some v.kind → v.name = n

/-- All that a variable leads to is represented by it. -/
theorem Sound.repOf_of_reach (h : P.Sound) (hm : P.repOf m = some v.kind)
    (hmn : Relation.ReflTransGen P.Mentions m n) : P.repOf n = some v.kind := by
  induction hmn with
  | refl => exact hm
  | tail _ hstep ih =>
    obtain ⟨-, r, hr, w, hw, rfl⟩ := hstep
    obtain rfl := Option.some.inj (hr.symm.trans ih)
    rw [Kind.vars_varKind, List.mem_singleton] at hw
    subst hw
    exact h.repOf_self ih

/-- **What a variable stands for is solved before all that mentions it**, but for what it stands for
as well. -/
theorem Solution.mem_pre (h : P.Solution order θ) (hP : P.Sound) {pre post : List String}
    (ho : order = pre ++ n :: post) {r : Kind} (hr : P.repOf n = some r) {w : Var} (hw : w ∈ r.vars)
    (hv : P.repOf w.name = some v.kind) : w.name ∈ pre ∨ r = v.kind := by
  refine (h.before ho w.name ⟨isSome_of_repOf hv, r, hr, w, hw, rfl⟩).imp_right fun hback => ?_
  exact Option.some.inj (hr.symm.trans (hP.repOf_of_reach hv hback))

theorem Solution.repOf_ne_none (h : P.Solution order θ) (hn : (P.index n).isSome) :
    P.repOf n ≠ none := by
  obtain ⟨pre, post, ho⟩ := List.append_of_mem (h.mem_order.2 hn)
  obtain ⟨r, hr, -⟩ := h.eq_some ho
  simp [hr]

theorem Solution.exists_eq_some (h : P.Solution order θ) (hn : n ∈ order) :
    ∃ u, θ n = some u := by
  obtain ⟨pre, post, ho⟩ := List.append_of_mem hn
  obtain ⟨r, -, hr⟩ := h.eq_some ho
  exact ⟨_, hr⟩

/-- **Names that other variables stand for are not left in a solution.** -/
theorem Solution.stays (h : P.Solution order θ) (hP : P.Sound) :
    ∀ n ∈ order, ∀ u, θ n = some u → ∀ v ∈ u.vars, P.Stays v.name := by
  refine Solving.forall_of_before fun pre n post ho hbefore u hu v hv => ?_
  obtain ⟨r, hr, hθ⟩ := h.eq_some ho
  obtain rfl := Option.some.inj (hu.symm.trans hθ)
  obtain ⟨w, hw, hvw⟩ := Kind.mem_vars_of_resolve hv
  split at hvw
  · next hpre =>
    obtain ⟨u, hu⟩ := h.exists_eq_some (n := w.name) (ho ▸ List.mem_append_left _ hpre)
    rw [hu, Option.getD_some] at hvw
    exact hbefore _ hpre u hu v hvw
  · next hpre =>
    rw [Option.getD_none, Kind.vars_varKind, List.mem_singleton] at hvw
    subst hvw
    intro x hx
    obtain rfl := (h.mem_pre hP ho hr hw hx).resolve_left hpre
    rw [Kind.vars_varKind, List.mem_singleton] at hw
    rw [hw]

theorem Solution.stays_resolve (h : P.Solution order θ) (hP : P.Sound) {k : Kind}
    (hv : v ∈ (k.resolve θ).vars) : P.Stays v.name := by
  obtain ⟨w, -, hvw⟩ := Kind.mem_vars_of_resolve hv
  by_cases hw : w.name ∈ order
  · obtain ⟨u, hu⟩ := h.exists_eq_some hw
    rw [hu, Option.getD_some] at hvw
    exact h.stays hP _ hw u hu v hvw
  · rw [h.eq_none hw, Option.getD_none, Kind.vars_varKind, List.mem_singleton] at hvw
    subst hvw
    intro x hx
    exact absurd (h.mem_order.2 (isSome_of_repOf hx)) hw

end Partition

/-! ## Two solutions -/

namespace Store.Relabeled

variable {ρ : Equiv.Perm String} {s t : Store} {n m : String} {v w : Var}
  {order order' : List String} {θ θ' : String → Option Kind}

/-- **The name that takes the place of a name**: that of the variable that stands for it in the other
store, if there is one. -/
def standIn (ρ : Equiv.Perm String) (t : Store) (n : String) : String :=
  ((t.partition.repOf (ρ n)).bind Kind.varName?).getD (ρ n)

theorem standIn_of_var (h : t.partition.repOf (ρ n) = some w.kind) : standIn ρ t n = w.name := by
  rw [standIn, h, Option.bind_some, Kind.varName?_varKind, Option.getD_some]

/-- A name that stands for no variable. -/
theorem standIn_of_not_var (h : s.Relabeled ρ t) (hn : ∀ v : Var, s.partition.repOf n ≠ some v.kind) :
    standIn ρ t n = ρ n ∧ ∀ w : Var, t.partition.repOf (ρ n) ≠ some w.kind := by
  have hvar : ∀ w : Var, t.partition.repOf (ρ n) ≠ some w.kind := by
    intro w hw
    have hrel := h.repOf n
    rw [hw] at hrel
    generalize hx : s.partition.repOf n = x at hrel
    cases hrel with
    | some hk =>
      obtain ⟨v, rfl⟩ := Kind.isVar_iff.1 (hk.isVar_eq.symm.trans (Kind.isVar_iff.2 ⟨w, rfl⟩))
      exact hn v hx
  refine ⟨?_, hvar⟩
  unfold standIn
  cases hr : t.partition.repOf (ρ n) with
  | none => rfl
  | some r =>
    cases hv : r.varName? with
    | none => rw [Option.bind_some, hv, Option.getD_none]
    | some a =>
      obtain ⟨w, -, rfl⟩ := Kind.eq_varKind_of_varName? hv
      exact absurd hr (hvar w)

/-- **A name that stands for a variable.** -/
theorem repOf_of_var (h : s.Relabeled ρ t) (hn : s.partition.repOf n = some v.kind) :
    ∃ w : Var, w.sort = v.sort ∧ t.partition.repOf (ρ n) = some w.kind := by
  have hrel := h.repOf n
  rw [hn] at hrel
  generalize hx : t.partition.repOf (ρ n) = x at hrel
  cases hrel with
  | some hk =>
    obtain ⟨w, rfl⟩ := Kind.isVar_iff.1 (hk.isVar_eq.trans (Kind.isVar_iff.2 ⟨v, rfl⟩))
    refine ⟨w, ?_, rfl⟩
    have := hk.rank_eq
    rcases v with ⟨_ | _, _⟩ <;> rcases w with ⟨_ | _, _⟩ <;> simp_all [Var.kind, Kind.rank]

/-- The variable that stands for a name is told by the variable that stands for it in the other
store. -/
theorem relabel_standIn (h : s.Relabeled ρ t) (hs : s.partition.Sound) (ht : t.partition.Sound)
    (hn : s.partition.repOf n = some v.kind) :
    t.partition.repOf (ρ n) = some (v.kind.relabel (standIn ρ t)) := by
  obtain ⟨i, hi, hri⟩ := Option.bind_eq_some_iff.1 hn
  obtain ⟨w, hsort, hw⟩ := h.repOf_of_var hn
  -- the two variables belong to the same class
  obtain ⟨j, hj, hji⟩ := hs.names_of_rep hri
  have hv : t.partition.repOf (ρ v.name) = some w.kind := by
    rw [← hw, Partition.repOf, Partition.repOf, h.index_partition, h.index_partition, hi, hj]
    refine ht.rep_congr ?_
    change t.root j = t.root i
    rw [h.root]
    exact hji
  rw [hw, Kind.relabel_varKind, Var.relabel, standIn_of_var hv, ← hsort]

/-- Names that get one name belong to one class, if variables stand for them. -/
theorem root_of_standIn (h : s.Relabeled ρ t) (ht : t.partition.Sound)
    (hn : s.partition.repOf n = some v.kind) (hm : s.partition.repOf m = some w.kind)
    (he : standIn ρ t n = standIn ρ t m) (i j : Nat) (hi : s.partition.index n = some i)
    (hj : s.partition.index m = some j) : s.partition.root i = s.partition.root j := by
  obtain ⟨v', -, hv'⟩ := h.repOf_of_var hn
  obtain ⟨w', -, hw'⟩ := h.repOf_of_var hm
  rw [standIn_of_var hv', standIn_of_var hw'] at he
  rw [Partition.repOf, h.index_partition, hi] at hv'
  rw [Partition.repOf, h.index_partition, hj] at hw'
  obtain ⟨a, ha, hai⟩ := ht.names_of_rep hv'
  obtain ⟨b, hb, hbj⟩ := ht.names_of_rep hw'
  rw [he, hb] at ha
  obtain rfl := Option.some.inj ha
  have hroot : t.partition.root = s.partition.root := h.root
  rw [← hroot, ← hai, hbj]

/-- **Names that stay are told apart.** -/
theorem standIn_injOn (h : s.Relabeled ρ t) (hs : s.partition.Sound) (ht : t.partition.Sound) :
    Set.InjOn (standIn ρ t) {n | s.partition.Stays n} := by
  -- the name of a variable that stands for another is not that of one that does not
  have hmixed : ∀ {n m : String} {v : Var}, s.partition.repOf n = some v.kind →
      (∀ w : Var, s.partition.repOf m ≠ some w.kind) → standIn ρ t n ≠ standIn ρ t m := by
    intro n m v hn hm he
    obtain ⟨w, -, hw⟩ := h.repOf_of_var hn
    obtain ⟨hm', hvar⟩ := h.standIn_of_not_var hm
    rw [standIn_of_var hw, hm'] at he
    exact hvar w (he ▸ ht.repOf_self hw)
  intro n hn m hm he
  by_cases hv : ∃ v : Var, s.partition.repOf n = some v.kind <;>
    by_cases hw : ∃ w : Var, s.partition.repOf m = some w.kind
  · obtain ⟨v, hv⟩ := hv
    obtain ⟨w, hw⟩ := hw
    have hclass := h.root_of_standIn ht hv hw he
    obtain ⟨i, hi, hri⟩ := Option.bind_eq_some_iff.1 hv
    obtain ⟨j, hj, hrj⟩ := Option.bind_eq_some_iff.1 hw
    have hvw : v.kind = w.kind := by
      rw [hs.rep_congr (hclass i j hi hj), hrj] at hri
      exact (Option.some.inj hri).symm
    have := congrArg Kind.varName? hvw
    rw [Kind.varName?_varKind, Kind.varName?_varKind, hn v hv, hm w hw] at this
    exact Option.some.inj this
  · obtain ⟨v, hv⟩ := hv
    exact absurd he (hmixed hv fun w hw' => hw ⟨w, hw'⟩)
  · obtain ⟨w, hw⟩ := hw
    exact absurd he.symm (hmixed hw fun v hv' => hv ⟨v, hv'⟩)
  · rw [(h.standIn_of_not_var fun v hv' => hv ⟨v, hv'⟩).1,
      (h.standIn_of_not_var fun w hw' => hw ⟨w, hw'⟩).1] at he
    exact ρ.injective he

/-- What was solved before a solid name is the same in both orders, as far as solid names go. -/
theorem mem_pre_iff (h : s.Relabeled ρ t) (hnodup : order.Nodup)
    (horder : order'.filter t.partition.solid = (order.filter s.partition.solid).map ρ)
    {pre post pre' post' : List String} (ho : order = pre ++ n :: post)
    (ho' : order' = pre' ++ ρ n :: post') (hn : s.partition.solid n = true)
    (hm : s.partition.solid m = true) : ρ m ∈ pre' ↔ m ∈ pre := by
  have hnt : t.partition.solid (ρ n) = true := (h.solid_eq n).trans hn
  have hmt : t.partition.solid (ρ m) = true := (h.solid_eq m).trans hm
  rw [ho, List.nodup_middle, List.nodup_cons, List.mem_append, not_or] at hnodup
  rw [ho, ho', List.filter_append, List.filter_append, List.filter_cons_of_pos hnt,
    List.filter_cons_of_pos hn, List.map_append, List.map_cons] at horder
  have hout : ∀ l : List String, n ∉ l → ρ n ∉ (l.filter s.partition.solid).map ρ := by
    intro l hl hmem
    rw [List.mem_map_of_injective ρ.injective] at hmem
    exact hl (List.mem_filter.1 hmem).1
  have hpre := ((List.append_cons_inj_of_notMem (hout pre hnodup.1.1) (hout post hnodup.1.2)).1
    horder.symm).1
  calc ρ m ∈ pre' ↔ ρ m ∈ pre'.filter t.partition.solid := by simp [hmt]
    _ ↔ m ∈ pre := by
      rw [← hpre, List.mem_map_of_injective ρ.injective]
      simp [hm]

/-- The solutions of a name that a variable stands for. -/
theorem solution_relabel_var (h : s.Relabeled ρ t) (hs : s.partition.Sound) (ht : t.partition.Sound)
    (hθ : s.partition.Solution order θ) (hθ' : t.partition.Solution order' θ')
    (hn : s.partition.repOf n = some v.kind) :
    θ' (ρ n) = (θ n).map (Kind.relabel (standIn ρ t)) := by
  have hn' := h.relabel_standIn hs ht hn
  rw [hθ.eq_var hn (Kind.varName?_varKind v) (hs.repOf_self hn), Option.map_some]
  rw [Kind.relabel_varKind] at hn' ⊢
  exact hθ'.eq_var hn' (Kind.varName?_varKind _) (ht.repOf_self hn')

theorem repOf_of_solid (h : s.Relabeled ρ t) {r : Kind} (hr : s.partition.repOf n = some r)
    (hn : s.partition.solid n = true) : t.partition.repOf (ρ n) = some (r.relabel ρ) := by
  have hrel := h.repOf n
  rw [hr] at hrel
  generalize t.partition.repOf (ρ n) = x at hrel
  cases hrel with
  | some hk =>
    rw [hk.resolve_right fun hv => by simp [Partition.solid, hr, hv.1] at hn]

/-- What replaces the variables of a solid name's representative differs by names, given that it does
for the names that were solved before. -/
theorem matches_before (h : s.Relabeled ρ t) (hs : s.partition.Sound)
    (ht : t.partition.Sound) (hθ : s.partition.Solution order θ)
    (hθ' : t.partition.Solution order' θ')
    (horder : order'.filter t.partition.solid = (order.filter s.partition.solid).map ρ)
    {pre post pre' post' : List String} (ho : order = pre ++ n :: post)
    (ho' : order' = pre' ++ ρ n :: post') {r : Kind} (hr : s.partition.repOf n = some r)
    (hn : s.partition.solid n = true)
    (hbefore : ∀ m ∈ pre, θ' (ρ m) = (θ m).map (Kind.relabel (standIn ρ t))) (hv : v ∈ r.vars) :
    Kind.Matches ρ (standIn ρ t) (fun m => if m ∈ pre then θ m else none)
      (fun m => if m ∈ pre' then θ' m else none) v.name := by
  have hsome : v.name ∈ pre → ρ v.name ∈ pre' → Kind.Matches ρ (standIn ρ t)
      (fun m => if m ∈ pre then θ m else none) (fun m => if m ∈ pre' then θ' m else none) v.name := by
    intro hpre hpre'
    obtain ⟨u, hu⟩ := hθ.exists_eq_some (n := v.name) (ho ▸ List.mem_append_left _ hpre)
    simp [Kind.Matches, hpre, hpre', hbefore _ hpre, hu]
  by_cases hw : ∃ w : Var, s.partition.repOf v.name = some w.kind
  · have hvar : r.isVar = false := by simpa [Partition.solid, hr] using hn
    obtain ⟨w, hw⟩ := hw
    obtain ⟨w', -, hw'⟩ := h.repOf_of_var hw
    have hpre := (hθ.mem_pre hs ho hr hv hw).resolve_right fun e => by
      simp [e, Kind.isVar_iff.2 ⟨w, rfl⟩] at hvar
    have hv' : v.relabel ρ ∈ (r.relabel ρ).vars := by
      rw [Kind.vars_relabel]
      exact List.mem_map_of_mem hv
    refine hsome hpre ((hθ'.mem_pre ht ho' (h.repOf_of_solid hr hn) hv' hw').resolve_right fun e => ?_)
    rw [← Kind.isVar_relabel (ρ := ρ), e, Kind.isVar_iff.2 ⟨w', rfl⟩] at hvar
    simp at hvar
  · have hiff : ρ v.name ∈ pre' ↔ v.name ∈ pre := by
      by_cases hvo : v.name ∈ order
      · obtain ⟨pre₁, post₁, ho₁⟩ := List.append_of_mem hvo
        obtain ⟨r₁, hr₁, -⟩ := hθ.eq_some ho₁
        refine h.mem_pre_iff hθ.nodup horder ho ho' hn (Partition.solid_of_repOf hr₁ ?_)
        exact fun w hw' => hw ⟨w, hw' ▸ hr₁⟩
      · have hvo' : ρ v.name ∉ order' := by
          rwa [hθ'.mem_order, h.index_partition, ← hθ.mem_order]
        exact iff_of_false (fun hm => hvo' (ho' ▸ List.mem_append_left _ hm))
          fun hm => hvo (ho ▸ List.mem_append_left _ hm)
    by_cases hpre : v.name ∈ pre
    · exact hsome hpre (hiff.2 hpre)
    · have hstand := (h.standIn_of_not_var fun w hw' => hw ⟨w, hw'⟩).1
      simp [Kind.Matches, hpre, mt hiff.1 hpre, hstand]

/-- **Solutions of stores that differ by names differ by names.**  The induction is along the order of
the names: the solid ones that were solved before are the same. -/
theorem solution_relabel (h : s.Relabeled ρ t) (hs : s.partition.Sound) (ht : t.partition.Sound)
    (hθ : s.partition.Solution order θ) (hθ' : t.partition.Solution order' θ')
    (horder : order'.filter t.partition.solid = (order.filter s.partition.solid).map ρ)
    (n : String) : θ' (ρ n) = (θ n).map (Kind.relabel (standIn ρ t)) := by
  have hmem : ∀ m, ρ m ∈ order' ↔ m ∈ order := fun m => by
    rw [hθ'.mem_order, hθ.mem_order, h.index_partition]
  by_cases hn : n ∈ order
  · revert n
    refine Solving.forall_of_before fun pre n post ho hbefore => ?_
    obtain ⟨r, hr, hθn⟩ := hθ.eq_some ho
    by_cases hv : ∃ v : Var, r = v.kind
    · obtain ⟨v, rfl⟩ := hv
      exact h.solution_relabel_var hs ht hθ hθ' hr
    have hsolid := Partition.solid_of_repOf hr fun v hv' => hv ⟨v, hv'⟩
    obtain ⟨pre', post', ho'⟩ := List.append_of_mem ((hmem n).2 (by simp [ho]))
    obtain ⟨r', hr', hθn'⟩ := hθ'.eq_some ho'
    obtain rfl := Option.some.inj (hr'.symm.trans (h.repOf_of_solid hr hsolid))
    rw [hθn, hθn', Option.map_some, Kind.resolve_relabel]
    exact fun v hv => h.matches_before hs ht hθ hθ' horder ho ho' hr hsolid hbefore hv
  · rw [hθ.eq_none hn, hθ'.eq_none (mt (hmem n).1 hn), Option.map_none]

/-- **What two solutions resolve to has one closed canonical form.** -/
theorem canonical_resolve (h : s.Relabeled ρ t) (hs : s.partition.Sound) (ht : t.partition.Sound)
    (hθ : s.partition.Solution order θ) (hθ' : t.partition.Solution order' θ')
    (horder : order'.filter t.partition.solid = (order.filter s.partition.solid).map ρ)
    (f : Effect) : ((f.relabel ρ).resolve θ').close.generalize = (f.resolve θ).close.generalize := by
  have hmatch : ∀ n, Kind.Matches ρ (standIn ρ t) θ θ' n := by
    intro n
    refine ⟨h.solution_relabel hs ht hθ hθ' horder n, fun hn => (h.standIn_of_not_var ?_).1⟩
    intro v hv
    obtain ⟨u, hu⟩ := hθ.exists_eq_some (hθ.mem_order.2 (Partition.isSome_of_repOf hv))
    simp [hn] at hu
  have hresolve : (f.relabel ρ).resolve θ' = (f.resolve θ).relabel (standIn ρ t) :=
    Effect.kind_injective (Kind.resolve_relabel (k := f.kind) fun v _ => hmatch v.name)
  rw [hresolve]
  refine Effect.close_generalize_relabel ((h.standIn_injOn hs ht).mono fun n hn => ?_)
  obtain ⟨v, hv, rfl⟩ := Kind.mem_freeVars.1 hn
  exact hθ.stays_resolve hs (k := f.kind) hv

/-- **Solving stores that differ by names**: it fails for both, or what they resolve to has one closed
canonical form. -/
theorem together_solve (h : s.Relabeled ρ t) (hs : s.partition.Sound) (ht : t.partition.Sound) :
    Together Store.solve s Store.solve t fun _ s' _ t' => ∀ f : Effect,
      (t'.resolveEffect (f.relabel ρ)).close.generalize = (s'.resolveEffect f).close.generalize := by
  have hrep : ∀ n, t.partition.repOf (ρ n) = none ↔ s.partition.repOf n = none := by
    intro n
    have hrel := h.repOf n
    generalize s.partition.repOf n = x at hrel
    generalize t.partition.repOf (ρ n) = y at hrel
    cases hrel <;> simp
  refine .of_ends (ends_solve_nameOrder hs.toShaped) (ends_solve_nameOrder ht.toShaped) ?_ ?_ ?_
  · rintro _ s' _ t' ⟨-, hθ⟩ ⟨-, hθ'⟩
    exact h.canonical_resolve hs ht hθ hθ' (h.filter_nameOrder hs ht)
  · rintro _ s' e t' ⟨-, hθ⟩ ⟨-, n, hn, hnone⟩
    obtain ⟨m, rfl⟩ := ρ.surjective n
    rw [h.index_partition] at hn
    exact hθ.repOf_ne_none hn ((hrep m).1 hnone)
  · rintro e s' _ t' ⟨-, n, hn, hnone⟩ ⟨-, hθ'⟩
    exact hθ'.repOf_ne_none (by rwa [h.index_partition]) ((hrep n).2 hnone)

end Store.Relabeled

end StackEffect
