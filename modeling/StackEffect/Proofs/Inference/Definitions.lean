import StackEffect.Proofs.Inference.Verdict

/-!
# Proofs/Inference/Definitions — groups of definitions, callees first

    D.Refers E             a word in the body of D, at any depth, is the name of E
    Reaches defs D E       references lead from D to E

A group of definitions is inferred component by component, and a component comes after those it
refers to.  Every definition is inferred once, whatever fails, and a definition that has an effect
is declared with it (`definitions_once_callees_first`).  A definition does not survive the failure
of one that it refers to, unless that refers back or the name is declared outside the group.
-/

namespace StackEffect

/-! ## References -/

namespace Definition

/-- A definition refers to another. -/
def Refers (D E : Definition) : Prop := E.name ∈ Body.references D.body

instance (D E : Definition) : Decidable (D.Refers E) :=
  inferInstanceAs (Decidable (E.name ∈ Body.references D.body))

/-- **References lead from a definition to another**, through definitions of the group. -/
def Reaches (defs : List Definition) : Definition → Definition → Prop :=
  Relation.ReflTransGen fun D E => E ∈ defs ∧ D.Refers E

/-- A definition of a group, by its number. -/
def ofGroup (defs : Array Definition) (i : Fin defs.size) : Definition := defs.toVector.get i

variable {defs : Array Definition} {i j : Fin defs.size}

theorem mem_toList_iff {D : Definition} : D ∈ defs.toList ↔ ∃ i, ofGroup defs i = D := by
  rw [Array.mem_toList_iff, Array.mem_iff_getElem]
  constructor
  · rintro ⟨i, hi, rfl⟩
    exact ⟨⟨i, hi⟩, rfl⟩
  · rintro ⟨i, rfl⟩
    exact ⟨i, i.isLt, rfl⟩

theorem map_ofGroup (defs : Array Definition) :
    (List.finRange defs.size).map (ofGroup defs) = defs.toList := by
  refine List.ext_getElem (by simp) fun n _ _ => ?_
  simp [ofGroup, Vector.get]

/-- Definitions of different names have different numbers. -/
theorem eq_of_name_eq (h : (defs.toList.map name).Nodup)
    (hij : (ofGroup defs i).name = (ofGroup defs j).name) : i = j := by
  rw [← map_ofGroup, List.map_map] at h
  exact List.inj_on_of_nodup_map h (List.mem_finRange i) (List.mem_finRange j) hij

end Definition

namespace Infer

open Definition

variable {defs : Array Definition} {i j : Fin defs.size}

/-- **An edge of the graph is a reference.** -/
theorem mem_succ_referenceGraph (h : (defs.toList.map Definition.name).Nodup) :
    j ∈ (referenceGraph defs).succ i ↔ (ofGroup defs i).Refers (ofGroup defs j) := by
  have hpos : ∀ x, ((List.finRange defs.size).foldl
      (fun (m : Std.TreeMap String (Fin defs.size)) i => m.insert (ofGroup defs i).name i) ∅)[x]? =
        some j ↔ x = (ofGroup defs j).name := by
    refine fun x => ⟨fun hx => ?_, ?_⟩
    · exact (Store.eq_of_getElem?_foldl_insert (f := fun i => (ofGroup defs i).name) (by simp)
        hx).symm
    · rintro rfl
      exact Store.getElem?_foldl_insert (fun _ _ => eq_of_name_eq h) (.inl (List.mem_finRange j))
  unfold referenceGraph
  rw [Digraph.mem_succ_ofEdges]
  simp only [List.mem_flatMap, List.mem_filterMap, Option.map_eq_some_iff, Prod.mk.injEq]
  constructor
  · rintro ⟨i', -, x, hx, j', hj', rfl, rfl⟩
    rwa [(hpos x).1 hj'] at hx
  · intro hij
    exact ⟨i, List.mem_finRange i, _, hij, j, (hpos _).2 rfl, rfl, rfl⟩

/-- A path of the graph is made of references. -/
theorem reaches_of_reach (h : (defs.toList.map Definition.name).Nodup)
    (hij : (referenceGraph defs).Reach i j) :
    Reaches defs.toList (ofGroup defs i) (ofGroup defs j) :=
  hij.lift (ofGroup defs) fun _ b hab =>
    ⟨mem_toList_iff.2 ⟨b, rfl⟩, (mem_succ_referenceGraph h).1 hab⟩

/-! ## The order of inference -/

/-- The groups in which definitions are inferred: the components of the graph, each in the order its
definitions are given. -/
def groups (defs : Array Definition) : List (List (Fin defs.size)) :=
  (referenceGraph defs).components.map fun c => c.mergeSort fun i j => decide (i ≤ j)

theorem perm_groups (defs : Array Definition) :
    (groups defs).flatten.Perm (List.finRange defs.size) := by
  obtain ⟨hnodup, hall, -⟩ := (referenceGraph defs).dependencyOrder_spec
  have hsorted : ∀ cs : List (List (Fin defs.size)),
      (cs.map fun c => c.mergeSort fun i j => decide (i ≤ j)).flatten.Perm cs.flatten := by
    intro cs
    induction cs with
    | nil => exact .refl _
    | cons c cs ih => exact (List.mergeSort_perm c _).append ih
  refine (hsorted _).trans ?_
  exact (List.perm_ext_iff_of_nodup hnodup (List.nodup_finRange _)).2 fun v =>
    ⟨fun _ => List.mem_finRange v, fun _ => hall v⟩

theorem nodup_groups (defs : Array Definition) : (groups defs).flatten.Nodup :=
  (perm_groups defs).nodup_iff.2 (List.nodup_finRange _)

theorem nodup_group_names (h : (defs.toList.map Definition.name).Nodup)
    {group : List (Fin defs.size)} (hgroup : group ∈ groups defs) :
    (group.map fun i => (ofGroup defs i).name).Nodup :=
  ((List.nodup_flatten.1 (nodup_groups defs)).1 group hgroup).map_on
    fun _ _ _ _ hij => eq_of_name_eq h hij

/-- Definitions of one group refer to each other. -/
theorem reaches_of_mem_groups (h : (defs.toList.map Definition.name).Nodup)
    {group : List (Fin defs.size)} (hgroup : group ∈ groups defs) (hi : i ∈ group)
    (hj : j ∈ group) :
    Reaches defs.toList (ofGroup defs i) (ofGroup defs j) := by
  obtain ⟨c, hc, rfl⟩ := List.mem_map.1 hgroup
  exact reaches_of_reach h
    (Digraph.reach_of_mem_component hc (List.mem_mergeSort.1 hi) (List.mem_mergeSort.1 hj))

/-- What stands before a list's tail stands before every entry of the tail. -/
theorem mem_of_append_eq {α : Type} {a b : α} {l l' m m' : List α} (h : m ++ m' = l ++ a :: l')
    (ha : a ∉ m) (hb : b ∈ m) : b ∈ l := by
  rcases List.append_eq_append_iff.1 h with ⟨x, rfl, -⟩ | ⟨x, rfl, hx⟩
  · exact List.mem_append_left x hb
  · cases x with
    | nil => simpa using hb
    | cons y x =>
      obtain ⟨rfl, -⟩ := List.cons.inj hx
      simp at ha

/-- A definition comes after those it refers to, unless they lead back. -/
theorem mem_groups_before (h : (defs.toList.map Definition.name).Nodup)
    {pre post : List (Fin defs.size)} (horder : (groups defs).flatten = pre ++ i :: post)
    (hij : (ofGroup defs i).Refers (ofGroup defs j))
    (hback : ¬ Reaches defs.toList (ofGroup defs j) (ofGroup defs i)) : j ∈ pre := by
  have hnodup := nodup_groups defs
  have hmem : i ∈ (groups defs).flatten := horder ▸ List.mem_append_right pre List.mem_cons_self
  obtain ⟨group, hgroup, hi⟩ := List.mem_flatten.1 hmem
  obtain ⟨gs, gs', hgs⟩ := List.append_of_mem hgroup
  rw [hgs, List.flatten_append, List.flatten_cons] at horder hnodup
  refine mem_of_append_eq horder (fun hi' => ?_) ?_
  · exact (List.nodup_append.1 hnodup).2.2 i hi' i (List.mem_append_left _ hi) rfl
  · -- the group of `i` is a component, and `j` is in an earlier one
    obtain ⟨cs, _, hcs, rfl, htail⟩ := List.map_eq_append_iff.1 hgs
    obtain ⟨c, _, rfl, rfl, -⟩ := List.map_eq_cons_iff.1 htail
    have hj := Digraph.mem_components_before hcs (List.mem_mergeSort.1 hi)
      ((mem_succ_referenceGraph h).2 hij) fun hreach => hback (reaches_of_reach h hreach)
    obtain ⟨c', hc', hj⟩ := List.mem_flatten.1 hj
    exact List.mem_flatten.2 ⟨_, List.mem_map_of_mem hc', List.mem_mergeSort.2 hj⟩

/-! ## Inferring a group -/

/-- **What a run over a group of definitions is**: they are judged in the order of the groups, each
by the dictionary in which those before it are recorded. -/
structure Run (c : Option Subtyping × Bool) (defs : Array Definition) (d : Dictionary)
    (rs : List (Fin defs.size × Inferred)) : Prop where
  order : rs.map Prod.fst = (groups defs).flatten
  judged : Judged (fun d i r => ∃ group ∈ groups defs, JudgedIn c (ofGroup defs) group d i r)
    d.enter rs

/-- **A group of definitions is always inferred to its end.** -/
theorem exists_run {c : Option Subtyping × Bool} {s : Session} (hs : s.Ready c) {d : Dictionary}
    (hd : d.Whole) (defs : Array Definition) :
    ∃ rs t, definitions defs d s = .ok (rs, d.enter.recordAll (rs.map Prod.snd)) t ∧
      Run c defs d rs ∧ t.Ready c ∧ t.pending = [] := by
  have hrun : Ends (definitions defs d) s
      (fun r t => (r.2 = d.enter.recordAll (r.1.map Prod.snd) ∧ Run c defs d r.1) ∧
        t.Ready c ∧ t.pending = []) fun _ _ => False := by
    refine (ends_definitionGroups hs hd.enter (groups defs)).bind ?_
    rintro r t ⟨horder, hrec, hjudged, ht⟩
    exact ⟨⟨hrec, horder, hjudged⟩, ht.withPending _, rfl⟩
  obtain ⟨r, t, hok, ⟨hrec, hrs⟩, ht⟩ := hrun.exists_ok
  exact ⟨r.1, t, hrec ▸ hok, hrs, ht⟩

namespace Run

variable {c : Option Subtyping × Bool} {d : Dictionary}
  {rs pre post : List (Fin defs.size × Inferred)} {r r' : Inferred}

theorem perm_fst (hrs : Run c defs d rs) : (rs.map Prod.fst).Perm (List.finRange defs.size) :=
  hrs.order ▸ perm_groups defs

theorem nodup_fst (hrs : Run c defs d rs) : (rs.map Prod.fst).Nodup :=
  hrs.order ▸ nodup_groups defs

theorem eq_of_mem (hrs : Run c defs d rs) (hr : (i, r) ∈ rs) (hr' : (i, r') ∈ rs) : r = r' :=
  congrArg Prod.snd (List.inj_on_of_nodup_map hrs.nodup_fst hr hr' rfl)

/-- Every definition is inferred. -/
theorem exists_mem (hrs : Run c defs d rs) (i : Fin defs.size) : ∃ r, (i, r) ∈ rs := by
  obtain ⟨p, hp, rfl⟩ := List.mem_map.1 (hrs.perm_fst.mem_iff.2 (List.mem_finRange i))
  exact ⟨p.2, hp⟩

theorem judgedIn (hrs : Run c defs d (pre ++ (i, r) :: post)) : ∃ group ∈ groups defs,
    JudgedIn c (ofGroup defs) group (d.enter.recordAll (pre.map Prod.snd)) i r :=
  hrs.judged.entry

/-- What becomes of a definition goes by its name. -/
theorem name_eq (hrs : Run c defs d rs) (hr : (i, r) ∈ rs) : r.name = (ofGroup defs i).name := by
  obtain ⟨pre, post, rfl⟩ := List.append_of_mem hr
  obtain ⟨_, _, -, P, -, -, rfl⟩ := hrs.judgedIn
  rfl

theorem map_name (hrs : Run c defs d rs) : (rs.map Prod.snd).map Inferred.name =
    (rs.map Prod.fst).map fun i => (ofGroup defs i).name := by
  rw [List.map_map, List.map_map]
  exact List.map_congr_left fun p hp => hrs.name_eq (i := p.1) (r := p.2) hp

theorem nodup_name (hrs : Run c defs d rs) (h : (defs.toList.map Definition.name).Nodup) :
    ((rs.map Prod.snd).map Inferred.name).Nodup := by
  rw [hrs.map_name]
  exact hrs.nodup_fst.map_on fun _ _ _ _ hij => eq_of_name_eq h hij

/-- **Callees come first**, unless they lead back. -/
theorem mem_before (h : (defs.toList.map Definition.name).Nodup)
    (hrs : Run c defs d (pre ++ (i, r) :: post)) (hij : (ofGroup defs i).Refers (ofGroup defs j))
    (hback : ¬ Reaches defs.toList (ofGroup defs j) (ofGroup defs i)) : ∃ r', (j, r') ∈ pre := by
  have horder : (groups defs).flatten = pre.map Prod.fst ++ i :: post.map Prod.fst := by
    rw [← hrs.order, List.map_append, List.map_cons]
  obtain ⟨p, hp, rfl⟩ := List.mem_map.1 (mem_groups_before h horder hij hback)
  exact ⟨p.2, hp⟩

/-- A name of the group is that of a definition. -/
theorem mem_names_of_mem (hrs : Run c defs d rs) (hr : (i, r) ∈ rs) :
    r.name ∈ defs.toList.map Definition.name :=
  List.mem_map.2 ⟨_, mem_toList_iff.2 ⟨i, rfl⟩, (hrs.name_eq hr).symm⟩

theorem lookup_of_not_mem (hrs : Run c defs d (pre ++ post)) {n : String}
    (hn : n ∉ defs.toList.map Definition.name) :
    (d.enter.recordAll (pre.map Prod.snd)).lookup n = d.lookup n := by
  have hpre : n ∉ (pre.map Prod.snd).map Inferred.name := by
    intro hmem
    obtain ⟨r, hr, rfl⟩ := List.mem_map.1 hmem
    obtain ⟨p, hp, rfl⟩ := List.mem_map.1 hr
    exact hn (hrs.mem_names_of_mem (List.mem_append_left post hp))
  rw [Dictionary.lookup_enter_recordAll, Dictionary.get?_scope_recordAll_of_not_mem hpre]
  rfl

/-- **What a name is declared as** when some of the group is recorded: the effect of the definition
that has it, or else what it is outside the group. -/
theorem lookup_recordAll (h : (defs.toList.map Definition.name).Nodup)
    (hrs : Run c defs d (pre ++ post)) (hr : (j, r) ∈ pre) :
    (d.enter.recordAll (pre.map Prod.snd)).lookup r.name =
      (r.effect?.map some).or (d.lookup r.name) := by
  have hnodup : ((pre.map Prod.snd).map Inferred.name).Nodup := by
    have hall := hrs.nodup_name h
    rw [List.map_append, List.map_append] at hall
    exact (List.nodup_append.1 hall).1
  rw [Dictionary.lookup_enter_recordAll, Dictionary.get?_scope_recordAll hnodup
    (List.mem_map_of_mem (f := Prod.snd) hr)]
  cases r.effect? <;> rfl

/-- **A definition fails with its callee**, unless the callee leads back or its name is declared
outside the group. -/
theorem failed_of_failed (h : (defs.toList.map Definition.name).Nodup) (hrs : Run c defs d rs)
    (hr : (i, r) ∈ rs) (hr' : (j, r') ∈ rs) (hij : (ofGroup defs i).Refers (ofGroup defs j))
    (hback : ¬ Reaches defs.toList (ofGroup defs j) (ofGroup defs i)) (hfailed : r'.Failed)
    (hd : d.lookup r'.name = none) : r.Failed := by
  obtain ⟨pre, post, rfl⟩ := List.append_of_mem hr
  obtain ⟨r'', hr''⟩ := mem_before h hrs hij hback
  obtain rfl : r'' = r' := hrs.eq_of_mem (List.mem_append_left _ hr'') hr'
  obtain ⟨group, hgroup, hi, P, hP, -, rfl⟩ := hrs.judgedIn
  have hname : r''.name = (ofGroup defs j).name := hrs.name_eq hr'
  by_contra hok
  obtain ⟨f, hf⟩ : ∃ f, Infer.verdict c P (d.enter.recordAll (pre.map Prod.snd))
      (ofGroup defs i).body = .ok f := by
    cases hv : Infer.verdict c P (d.enter.recordAll (pre.map Prod.snd)) (ofGroup defs i).body with
    | ok f => exact ⟨f, rfl⟩
    | error e => exact (hok ⟨e, hv⟩).elim
  rcases declared_of_verdict hf _ hij with hj | ⟨g, hg⟩
  · -- a name that is being inferred is of the same group
    obtain ⟨k, hk, hkj⟩ := List.mem_map.1 (hP.subset hj)
    obtain rfl := eq_of_name_eq h hkj
    exact hback (reaches_of_mem_groups h hgroup hk hi)
  · rw [← hname, lookup_recordAll h hrs hr'', hd, Inferred.failed_iff.1 hfailed] at hg
    cases hg

/-- **A definition with an unknown word fails**: one that is neither of the group nor declared. -/
theorem failed_of_unknown (hrs : Run c defs d rs) (hr : (i, r) ∈ rs) {n : String}
    (hin : n ∈ Body.references (ofGroup defs i).body) (hn : n ∉ defs.toList.map Definition.name)
    (hd : d.lookup n = none) : r.Failed := by
  obtain ⟨pre, post, rfl⟩ := List.append_of_mem hr
  obtain ⟨group, -, hi, P, hP, -, rfl⟩ := hrs.judgedIn
  cases hv : Infer.verdict c P (d.enter.recordAll (pre.map Prod.snd)) (ofGroup defs i).body with
  | error e => exact ⟨e, hv⟩
  | ok f =>
    rcases declared_of_verdict hv n hin with hpending | ⟨g, hg⟩
    · obtain ⟨k, -, rfl⟩ := List.mem_map.1 (hP.subset hpending)
      exact (hn (List.mem_map_of_mem (mem_toList_iff.2 ⟨k, rfl⟩))).elim
    · rw [hrs.lookup_of_not_mem hn, hd] at hg
      cases hg

/-- **The scope declares the definitions that have an effect**, each with its own. -/
theorem get?_scope_iff (h : (defs.toList.map Definition.name).Nodup) (hrs : Run c defs d rs)
    {name : String} {f : Option Effect} :
    Assoc.get? (d.enter.recordAll (rs.map Prod.snd)).scope name = some f ↔
      ∃ p ∈ rs, p.2.name = name ∧ ∃ g, p.2.effect? = some g ∧ f = some g := by
  constructor
  · intro hname
    by_cases hmem : name ∈ (rs.map Prod.snd).map Inferred.name
    · obtain ⟨r, hr, rfl⟩ := List.mem_map.1 hmem
      obtain ⟨p, hp, rfl⟩ := List.mem_map.1 hr
      rw [Dictionary.get?_scope_recordAll (hrs.nodup_name h) hr] at hname
      refine ⟨p, hp, rfl, ?_⟩
      cases heffect : p.2.effect? with
      | none => simp [heffect, Dictionary.enter, Assoc.get?] at hname
      | some g => exact ⟨g, rfl, by simpa [heffect] using hname.symm⟩
    · rw [Dictionary.get?_scope_recordAll_of_not_mem hmem] at hname
      cases hname
  · rintro ⟨p, hp, rfl, g, hg, rfl⟩
    rw [Dictionary.get?_scope_recordAll (hrs.nodup_name h) (List.mem_map_of_mem hp), hg]
    rfl

end Run

end Infer

open Definition

/-- **Every definition of a group is inferred once, callees first.**  The results have one entry for
each definition, under its name, whatever fails.  A definition comes after those that it refers to
and that do not lead back to it; if one of them fails and its name is not declared outside the
group, it fails too, and so it does with a word that is neither of the group nor declared.  The
scope that is returned declares the definitions that have an effect, each with its own, and around
it is the dictionary as it was. -/
theorem definitions_once_callees_first {c : Option Subtyping × Bool} {s : Session} (hs : s.Ready c)
    {d : Dictionary} (hd : d.Whole) (defs : Array Definition)
    (hnames : (defs.toList.map Definition.name).Nodup) :
    ∃ rs scope t, Infer.definitions defs d s = .ok (rs, scope) t ∧
      ((rs.map Prod.fst).Perm (List.finRange defs.size) ∧
        ∀ i r, (i, r) ∈ rs → r.name = (ofGroup defs i).name) ∧
      (∀ pre i r post, rs = pre ++ (i, r) :: post → ∀ j, (ofGroup defs i).Refers (ofGroup defs j) →
        ¬ Reaches defs.toList (ofGroup defs j) (ofGroup defs i) → ∃ r', (j, r') ∈ pre) ∧
      (∀ i r j r', (i, r) ∈ rs → (j, r') ∈ rs → (ofGroup defs i).Refers (ofGroup defs j) →
        ¬ Reaches defs.toList (ofGroup defs j) (ofGroup defs i) → r'.Failed →
        d.lookup r'.name = none → r.Failed) ∧
      (∀ i r n, (i, r) ∈ rs → n ∈ Body.references (ofGroup defs i).body →
        n ∉ defs.toList.map Definition.name → d.lookup n = none → r.Failed) ∧
      (∀ name f, Assoc.get? scope.scope name = some f ↔
        ∃ p ∈ rs, p.2.name = name ∧ ∃ g, p.2.effect? = some g ∧ f = some g) ∧
      scope.leave? = some d := by
  obtain ⟨rs, t, hok, hrs, -⟩ := Infer.exists_run hs hd defs
  refine ⟨rs, _, t, hok, ⟨hrs.perm_fst, fun i r => hrs.name_eq⟩, ?_, ?_, ?_, ?_, ?_⟩
  · rintro pre i r post rfl j hij hback
    exact hrs.mem_before hnames hij hback
  · intro i r j r' hr hr' hij hback hfailed hnone
    exact hrs.failed_of_failed hnames hr hr' hij hback hfailed hnone
  · exact fun i r n hr hin hn hnone => hrs.failed_of_unknown hr hin hn hnone
  · exact fun name f => hrs.get?_scope_iff hnames
  · rw [Dictionary.leave?, Dictionary.around_recordAll]
    rfl

/-- A definition that refers to one with an unknown word: the callee is inferred first, and both
fail. -/
theorem definitions_once_callees_first_unknown :
    let caller : Definition := ⟨"main", [.quotation [.word "helper"], .word "main"]⟩
    let callee : Definition := ⟨"helper", [.word "gone"]⟩
    let s := Session.start none false .silent
    s.Ready (none, false) ∧ Dictionary.empty.Whole ∧
      ([caller, callee].map Definition.name).Nodup ∧ caller.Refers callee ∧
      ¬ Definition.Reaches [caller, callee] callee caller ∧
      ∃ rs scope t, Infer.definitions #[caller, callee] .empty s = .ok (rs, scope) t ∧
        (rs.map Prod.fst).Perm [0, 1] ∧
        (∀ pre r post, rs = pre ++ (0, r) :: post → ∃ r', (1, r') ∈ pre) ∧
        (∀ r r', (0, r) ∈ rs → (1, r') ∈ rs → r'.Failed ∧ r.Failed) ∧
        scope.leave? = some .empty := by
  intro caller callee s
  have hready : s.Ready (none, false) := Session.ready_start .silent
  have hwhole := Dictionary.whole_empty
  have hnames : ([caller, callee].map Definition.name).Nodup := by decide
  have hrefers : caller.Refers callee := by decide
  have hback : ¬ Definition.Reaches [caller, callee] callee caller := by
    intro h
    rcases Relation.ReflTransGen.cases_head h with he | ⟨D, ⟨hD, hcallee⟩, -⟩
    · exact absurd (congrArg Definition.name he) (by decide)
    · revert hcallee
      rcases List.mem_pair.1 hD with rfl | rfl <;> decide
  refine ⟨hready, hwhole, hnames, hrefers, hback, ?_⟩
  obtain ⟨rs, scope, t, hok, ⟨hperm, -⟩, hfirst, hfails, hunknown, -, hleave⟩ :=
    definitions_once_callees_first hready hwhole #[caller, callee] hnames
  refine ⟨rs, scope, t, hok, hperm, ?_, ?_, hleave⟩
  · exact fun pre r post hrs => hfirst pre 0 r post hrs 1 hrefers hback
  · intro r r' hr hr'
    have hfailed : r'.Failed := hunknown 1 r' "gone" hr' List.mem_cons_self (by decide) rfl
    exact ⟨hfailed, hfails 0 r 1 r' hr hr' hrefers hback hfailed rfl⟩

end StackEffect
