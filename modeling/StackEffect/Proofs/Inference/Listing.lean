import StackEffect.Proofs.Inference.Definitions

/-!
# Proofs/Inference/Listing — the order in which definitions are listed

    Layered defs      definitions that lead to each other are the same

A group of definitions without mutual recursion has the same results in whatever order it is listed
(`results_of_permutation`).  The order of the graph may be another one, and so may be the dictionary
by which a definition is judged; but what the definition refers to was judged before it, in both
runs alike.  A callee that failed falls back, in both runs, to what its name is declared as outside
the group.
-/

namespace StackEffect

namespace Definition

variable {defs defs' : List Definition}

/-- **A group without mutual recursion**: definitions that lead to each other are the same.  A
definition may refer to itself. -/
def Layered (defs : List Definition) : Prop :=
  ∀ D ∈ defs, ∀ E ∈ defs, Reaches defs D E → Reaches defs E D → D = E

theorem reaches_eq_of_perm (h : defs.Perm defs') : Reaches defs = Reaches defs' := by
  have hmem : ∀ D, D ∈ defs ↔ D ∈ defs' := fun D => h.mem_iff
  simp only [Reaches, hmem]

theorem Layered.perm (hdefs : Layered defs) (h : defs.Perm defs') : Layered defs' := by
  unfold Layered at hdefs ⊢
  simpa only [h.mem_iff, reaches_eq_of_perm h] using hdefs

/-- Definitions that can be ranked, so that callees other than the caller itself rank lower, are
without mutual recursion. -/
theorem layered_of_rank (rank : Definition → Nat)
    (h : ∀ D ∈ defs, ∀ E ∈ defs, D.Refers E → D = E ∨ rank E < rank D) : Layered defs := by
  have hreach : ∀ {D E}, D ∈ defs → Reaches defs D E → E ∈ defs ∧ (D = E ∨ rank E < rank D) := by
    intro D E hD hDE
    induction hDE with
    | refl => exact ⟨hD, .inl rfl⟩
    | tail _ hstep ih =>
      refine ⟨hstep.1, ?_⟩
      rcases h _ ih.1 _ hstep.1 hstep.2 with rfl | hlt
      · exact ih.2
      · exact .inr (ih.2.elim (fun he => he ▸ hlt) hlt.trans)
  intro D hD E hE hDE hED
  rcases (hreach hD hDE).2 with he | hlt
  · exact he
  · exact (hreach hE hED).2.elim Eq.symm fun hlt' => absurd hlt' hlt.asymm

end Definition

namespace Infer.Run

open Definition

variable {c : Option Subtyping × Bool} {defs defs' : Array Definition} {d : Dictionary}
  {rs pre post : List (Fin defs.size × Inferred)}
  {rs' pre' post' : List (Fin defs'.size × Inferred)}
  {i : Fin defs.size} {r : Inferred}

/-- **Without mutual recursion a definition is judged alone**: nothing else is being inferred. -/
theorem eq_judge (h : (defs.toList.map Definition.name).Nodup) (hlayered : Layered defs.toList)
    (hrs : Run c defs d (pre ++ (i, r) :: post)) :
    r = (ofGroup defs i).judge c [(ofGroup defs i).name]
      (d.enter.recordAll (pre.map Prod.snd)) := by
  obtain ⟨group, hgroup, hi, P, hP, hname, rfl⟩ := hrs.judgedIn
  have hlone : ∀ j ∈ group, j = i := by
    intro j hj
    refine eq_of_name_eq h (congrArg name ?_)
    exact hlayered _ (mem_toList_iff.2 ⟨j, rfl⟩) _ (mem_toList_iff.2 ⟨i, rfl⟩)
      (reaches_of_mem_groups h hgroup hj hi) (reaches_of_mem_groups h hgroup hi hj)
  have hall : ∀ n ∈ P, n = (ofGroup defs i).name := by
    intro n hn
    obtain ⟨j, hj, rfl⟩ := List.mem_map.1 (hP.subset hn)
    rw [hlone j hj]
  have hgroup := nodup_group_names h hgroup
  have hnodup : P.Nodup := hgroup.sublist hP
  have hP' : P = [(ofGroup defs i).name] :=
    List.perm_singleton.1 ((List.perm_ext_iff_of_nodup hnodup (List.nodup_singleton _)).2
      fun n => by
        rw [List.mem_singleton]
        exact ⟨hall n, fun hn => hn ▸ hname hgroup⟩)
  rw [hP']

/-! ## Two runs -/

section

variable (hperm : defs.toList.Perm defs'.toList) (h : (defs.toList.map Definition.name).Nodup)

include hperm h

/-- **A name is declared alike in two runs**, if it is not that of a definition, or if the
definition was judged alike in both. -/
theorem lookup_agrees (hrs : Run c defs d (pre ++ post)) (hrs' : Run c defs' d (pre' ++ post'))
    {n : String} (hboth : n ∈ defs.toList.map Definition.name →
      ∃ i i' r, (i, r) ∈ pre ∧ (i', r) ∈ pre' ∧ r.name = n) :
    (d.enter.recordAll (pre'.map Prod.snd)).lookup n =
      (d.enter.recordAll (pre.map Prod.snd)).lookup n := by
  have hnames := hperm.map Definition.name
  by_cases hn : n ∈ defs.toList.map Definition.name
  · obtain ⟨i, i', r, hr, hr', rfl⟩ := hboth hn
    rw [hrs.lookup_recordAll h hr, hrs'.lookup_recordAll (hnames.nodup_iff.1 h) hr']
  · rw [hrs.lookup_of_not_mem hn, hrs'.lookup_of_not_mem (mt hnames.mem_iff.2 hn)]

/-- **A definition is judged alike in two runs**, if those before it are. -/
theorem judged_alike (hlayered : Layered defs.toList) {i' : Fin defs'.size} {r' : Inferred}
    (hrs : Run c defs d (pre ++ (i, r) :: post)) (hrs' : Run c defs' d (pre' ++ (i', r') :: post'))
    (hi : ofGroup defs i = ofGroup defs' i')
    (hbefore : ∀ p ∈ pre, ∀ p' ∈ pre', ofGroup defs p.1 = ofGroup defs' p'.1 → p.2 = p'.2) :
    r = r' := by
  have h' : (defs'.toList.map Definition.name).Nodup := (hperm.map _).nodup_iff.1 h
  rw [hrs.eq_judge h hlayered, hrs'.eq_judge h' (hlayered.perm hperm), ← hi, Definition.judge,
    Definition.judge]
  congr 1
  refine (verdict_congr fun n href hne => ?_).symm
  refine lookup_agrees hperm h hrs hrs' fun hn => ?_
  obtain ⟨E, hE, rfl⟩ := List.mem_map.1 hn
  -- what the definition refers to, itself apart, does not lead back to it
  have hback : ¬ Reaches defs.toList E (ofGroup defs i) := by
    intro hreach
    have hsame := hlayered E hE _ (mem_toList_iff.2 ⟨i, rfl⟩) hreach (.single ⟨hE, href⟩)
    exact hne (hsame ▸ List.mem_singleton_self _)
  obtain ⟨j, rfl⟩ := mem_toList_iff.1 hE
  obtain ⟨j', hj'⟩ := mem_toList_iff.1 (hperm.mem_iff.1 hE)
  obtain ⟨q, hq⟩ := hrs.mem_before h href hback
  rw [reaches_eq_of_perm hperm, ← hj', hi] at hback
  obtain ⟨q', hq'⟩ := hrs'.mem_before h' (j := j') (hi ▸ hj'.symm ▸ href) hback
  obtain rfl : q = q' := hbefore _ hq _ hq' hj'.symm
  exact ⟨j, j', q, hq, hq', hrs.name_eq (List.mem_append_left _ hq)⟩

/-- **Two runs judge all definitions alike.** -/
theorem agree (hlayered : Layered defs.toList) (hrs : Run c defs d rs) (hrs' : Run c defs' d rs') :
    ∀ p ∈ rs, ∀ p' ∈ rs', ofGroup defs p.1 = ofGroup defs' p'.1 → p.2 = p'.2 := by
  refine Solving.forall_of_before fun pre p post hsplit hbefore p' hp' hi => ?_
  obtain ⟨pre', post', rfl⟩ := List.append_of_mem hp'
  subst hsplit
  exact judged_alike hperm h hlayered hrs hrs' hi fun q hq q' hq' =>
    hbefore q hq q' (List.mem_append_left _ hq')

/-- Every definition has an entry in both runs, and it is the same. -/
theorem exists_mem_both (hlayered : Layered defs.toList) (hrs : Run c defs d rs)
    (hrs' : Run c defs' d rs') {D : Definition} (hD : D ∈ defs.toList) :
    ∃ i i' r, (i, r) ∈ rs ∧ (i', r) ∈ rs' ∧ ofGroup defs i = D ∧ ofGroup defs' i' = D ∧
      r.name = D.name := by
  obtain ⟨i, rfl⟩ := mem_toList_iff.1 hD
  obtain ⟨i', hi'⟩ := mem_toList_iff.1 (hperm.mem_iff.1 hD)
  obtain ⟨r, hr⟩ := hrs.exists_mem i
  obtain ⟨r', hr'⟩ := hrs'.exists_mem i'
  obtain rfl : r = r' := agree hperm h hlayered hrs hrs' _ hr _ hr' hi'.symm
  exact ⟨i, i', r, hr, hr', rfl, hi', hrs.name_eq hr⟩

/-- The results of a run are among those of the other. -/
theorem subset_results (hlayered : Layered defs.toList) (hrs : Run c defs d rs)
    (hrs' : Run c defs' d rs') : rs.map Prod.snd ⊆ rs'.map Prod.snd := by
  intro r hr
  obtain ⟨p, hp, rfl⟩ := List.mem_map.1 hr
  obtain ⟨i, i', r', hr', hr'', hi, -⟩ :=
    exists_mem_both hperm h hlayered hrs hrs' (mem_toList_iff.2 ⟨p.1, rfl⟩)
  obtain rfl : i = p.1 := eq_of_name_eq h (congrArg Definition.name hi)
  rw [hrs.eq_of_mem (r := p.2) hp hr']
  exact List.mem_map_of_mem (f := Prod.snd) hr''

end

end Infer.Run

/-- **The order in which definitions are listed does not matter** without mutual recursion.  For
every order of the same definitions all are inferred, each with the same result, there are no other
results, and every name is declared alike in the scopes that are returned. -/
theorem results_of_permutation {c : Option Subtyping × Bool} {s s' : Session} (hs : s.Ready c)
    (hs' : s'.Ready c) {d : Dictionary} (hd : d.Whole) (defs defs' : Array Definition)
    (hperm : defs.toList.Perm defs'.toList) (hnames : (defs.toList.map Definition.name).Nodup)
    (hlayered : Definition.Layered defs.toList) :
    ∃ rs scope t rs' scope' t', Infer.definitions defs d s = .ok (rs, scope) t ∧
      Infer.definitions defs' d s' = .ok (rs', scope') t' ∧
      (∀ D ∈ defs.toList, ∃ i i' r, (i, r) ∈ rs ∧ (i', r) ∈ rs' ∧ Definition.ofGroup defs i = D ∧
        Definition.ofGroup defs' i' = D ∧ r.name = D.name) ∧
      (rs.map Prod.snd).Perm (rs'.map Prod.snd) ∧
      ∀ name, scope.lookup name = scope'.lookup name := by
  have hnames' : (defs'.toList.map Definition.name).Nodup := (hperm.map _).nodup_iff.1 hnames
  obtain ⟨rs, t, hok, hrs, -⟩ := Infer.exists_run hs hd defs
  obtain ⟨rs', t', hok', hrs', -⟩ := Infer.exists_run hs' hd defs'
  have hboth := fun {D} => Infer.Run.exists_mem_both (D := D) hperm hnames hlayered hrs hrs'
  refine ⟨rs, _, t, rs', _, t', hok, hok', fun D => hboth, ?_, fun name => ?_⟩
  · refine (List.perm_ext_iff_of_nodup (hrs.nodup_name hnames).of_map
      (hrs'.nodup_name hnames').of_map).2 fun r => ⟨fun hr => ?_, fun hr => ?_⟩
    · exact Infer.Run.subset_results hperm hnames hlayered hrs hrs' hr
    · exact Infer.Run.subset_results hperm.symm hnames' (hlayered.perm hperm) hrs' hrs hr
  · have hall : Infer.Run c defs d (rs ++ []) := (List.append_nil rs).symm ▸ hrs
    have hall' : Infer.Run c defs' d (rs' ++ []) := (List.append_nil rs').symm ▸ hrs'
    refine (Infer.Run.lookup_agrees hperm hnames hall hall' fun hname => ?_).symm
    obtain ⟨D, hD, rfl⟩ := List.mem_map.1 hname
    obtain ⟨i, i', r, hr, hr', -, -, hrname⟩ := hboth hD
    exact ⟨i, i', r, hr, hr', hrname⟩

/-- A definition that refers to itself, and to one that fails and is declared outside the group:
listed first or last, it has one result. -/
theorem results_of_permutation_fallback :
    let caller : Definition := ⟨"main", [.quotation [.word "main"], .word "helper"]⟩
    let callee : Definition := ⟨"helper", [.word "gone"]⟩
    let d := Dictionary.empty.declare "helper" (some ⟨[], [.simple "int"], false⟩)
    let s := Session.start none false .silent
    s.Ready (none, false) ∧ d.Whole ∧ [caller, callee].Perm [callee, caller] ∧
      ([caller, callee].map Definition.name).Nodup ∧ Definition.Layered [caller, callee] ∧
      ∃ rs scope t rs' scope' t', Infer.definitions #[caller, callee] d s = .ok (rs, scope) t ∧
        Infer.definitions #[callee, caller] d s = .ok (rs', scope') t' ∧
        (∃ r, (0, r) ∈ rs ∧ (1, r) ∈ rs' ∧ r.name = "main") ∧
        (rs.map Prod.snd).Perm (rs'.map Prod.snd) ∧
        ∀ name, scope.lookup name = scope'.lookup name := by
  intro caller callee d s
  have hready : s.Ready (none, false) := Session.ready_start .silent
  have hwhole : d.Whole := Dictionary.whole_empty.declare _ _
  have hperm : [caller, callee].Perm [callee, caller] := .swap _ _ _
  have hnames : ([caller, callee].map Definition.name).Nodup := by decide
  have hlayered : Definition.Layered [caller, callee] := by
    refine Definition.layered_of_rank (fun D => D.body.length) fun D hD E hE hDE => ?_
    revert hDE
    rcases List.mem_pair.1 hD with rfl | rfl <;> rcases List.mem_pair.1 hE with rfl | rfl
    · exact fun _ => .inl rfl
    · exact fun _ => .inr (by decide)
    · exact fun hDE => absurd hDE (by decide)
    · exact fun _ => .inl rfl
  obtain ⟨rs, scope, t, rs', scope', t', hok, hok', hboth, hsame, hlookup⟩ :=
    results_of_permutation hready hready hwhole #[caller, callee] #[callee, caller] hperm hnames
      hlayered
  refine ⟨hready, hwhole, hperm, hnames, hlayered,
    rs, scope, t, rs', scope', t', hok, hok', ?_, hsame, hlookup⟩
  obtain ⟨i, i', r, hr, hr', hi, hi', hname⟩ := hboth caller List.mem_cons_self
  obtain rfl : i = 0 := Definition.eq_of_name_eq hnames (congrArg Definition.name hi)
  have hnames' : (#[callee, caller].toList.map Definition.name).Nodup := by decide
  obtain rfl : i' = 1 := Definition.eq_of_name_eq hnames' (congrArg Definition.name hi')
  exact ⟨r, hr, hr', hname⟩

end StackEffect
