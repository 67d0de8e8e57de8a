import Mathlib.Data.List.Induction
import StackEffect.Proofs.Lattice.Validate

/-!
# Proofs/Lattice/Declared — lattices as they are declared

    ofDeclarations top [d₁, d₂, …]        declares d₁, then d₂, …

What is declared of a type adds up, in whatever order; a name that is declared to stand for another
stands for the last one (`get?_aliases_iff`).  So what the lattice says can be told from the
declarations (`isType_iff`, `up_iff`), and so can which names are subtypes
(`subtyping_decides_reachability`) and whether it is valid (`valid_iff_well_declared`).
-/

namespace StackEffect

/-! ## Tables that list a key once -/

namespace Assoc

variable {α : Type} {t : Assoc α} {key k : String} {value v : α}

theorem mem_keys_drop : k ∈ keys (drop t key) ↔ k ∈ keys t ∧ k ≠ key := by
  simp only [keys, drop, List.mem_map, List.mem_filter, bne_iff_ne]
  constructor
  · rintro ⟨e, ⟨he, hne⟩, rfl⟩
    exact ⟨⟨e, he, rfl⟩, hne⟩
  · rintro ⟨⟨e, he, rfl⟩, hne⟩
    exact ⟨e, ⟨he, hne⟩, rfl⟩

theorem mem_keys_put : k ∈ keys (put t key value) ↔ k = key ∨ k ∈ keys t := by
  change k ∈ key :: keys (drop t key) ↔ _
  rw [List.mem_cons, mem_keys_drop]
  by_cases hk : k = key <;> simp [hk]

theorem nodup_keys_put (h : (keys t).Nodup) : (keys (put t key value)).Nodup := by
  refine List.nodup_cons.2 ⟨fun hmem => (mem_keys_drop.1 hmem).2 rfl, ?_⟩
  exact h.sublist (List.filter_sublist.map Prod.fst)

/-- In a table that lists every key once, the entries are what is looked up. -/
theorem mem_iff_get? (h : (keys t).Nodup) : (k, v) ∈ t ↔ get? t k = some v := by
  unfold get?
  induction t with
  | nil => simp
  | cons e t ih =>
    obtain ⟨hnew, hrest⟩ := List.nodup_cons.1 h
    rw [List.mem_cons, List.lookup_cons, ih hrest]
    by_cases hk : k = e.1
    · have hno : t.lookup k ≠ some v := fun hv =>
        hnew (hk ▸ List.mem_map.2 ⟨(k, v), (ih hrest).2 hv, rfl⟩)
      simp only [hk, beq_self_eq_true, Option.some.injEq] at hno ⊢
      exact ⟨fun hv => (congrArg Prod.snd (hv.resolve_right hno)).symm, fun hv => .inl (by rw [← hv])⟩
    · have hne : (k, v) ≠ e := fun he => hk (congrArg Prod.fst he)
      simp only [hne, false_or, beq_eq_false_iff_ne.2 hk]

end Assoc

namespace Lattice

/-! ## Declarations -/

/-- **A declaration**: of a type with its direct supertypes, or of another name for a name. -/
inductive Declaration where
  | type (name : String) (supers : List String)
  | synonym (name target : String)

/-- The lattice with one declaration more. -/
def add (l : Lattice) : Declaration → Lattice
  | .type name supers => l.declare name supers
  | .synonym name target => l.addAlias name target

/-- **The lattice that declarations make**, one after another. -/
def ofDeclarations (top : String) (ds : List Declaration) : Lattice := ds.foldl add (empty top)

/-- `a` is declared as a type. -/
def DeclaresType (ds : List Declaration) (a : String) : Prop := ∃ supers, .type a supers ∈ ds

/-- `p` is declared as a direct supertype of `a`. -/
def DeclaresSuper (ds : List Declaration) (a p : String) : Prop :=
  ∃ supers, .type a supers ∈ ds ∧ p ∈ supers

/-- `a` is declared as another name for `b`, and not as another name since. -/
def DeclaresAlias (ds : List Declaration) (a b : String) : Prop :=
  ∃ before after, ds = before ++ .synonym a b :: after ∧ ∀ c, .synonym a c ∉ after

variable {l : Lattice} {top a b p name target : String} {supers : List String}
  {ds : List Declaration} {d : Declaration}

/-! ## One declaration more -/

theorem mem_merged_iff {known : List String} :
    p ∈ supers.foldl (fun known p => if known.contains p then known else known ++ [p]) known ↔
      p ∈ known ∨ p ∈ supers := by
  induction supers generalizing known with
  | nil => simp
  | cons q supers ih =>
    rw [List.foldl_cons, ih, List.mem_cons, ← or_assoc]
    refine or_congr_left ?_
    split
    · next hq =>
      have hq' := List.contains_iff_mem.1 hq
      exact ⟨.inl, fun h => h.elim id fun he => he ▸ hq'⟩
    · rw [List.mem_append, List.mem_singleton]

theorem mem_supertypes_declare :
    p ∈ (l.declare name supers).supertypes a ↔ p ∈ l.supertypes a ∨ a = name ∧ p ∈ supers := by
  rw [supertypes, declare, Assoc.get?_put]
  split
  · next h => rw [Option.getD_some, mem_merged_iff, h, and_iff_right rfl]
  · next h => simp [supertypes, h]

theorem mem_supertypes_add : p ∈ (l.add d).supertypes a ↔
    p ∈ l.supertypes a ∨ ∃ supers, d = .type a supers ∧ p ∈ supers := by
  cases d with
  | type name supers =>
    refine mem_supertypes_declare.trans (or_congr_right ⟨?_, ?_⟩)
    · rintro ⟨rfl, hp⟩
      exact ⟨supers, rfl, hp⟩
    · rintro ⟨_, h, hp⟩
      cases h
      exact ⟨rfl, hp⟩
  | synonym name target =>
    refine (or_iff_left ?_).symm
    rintro ⟨_, h, -⟩
    cases h

theorem mem_keys_add : a ∈ Assoc.keys (l.add d).types ↔
    a ∈ Assoc.keys l.types ∨ ∃ supers, d = .type a supers := by
  cases d with
  | type name supers =>
    refine Assoc.mem_keys_put.trans (or_comm.trans (or_congr_right ⟨?_, ?_⟩))
    · rintro rfl
      exact ⟨supers, rfl⟩
    · rintro ⟨_, h⟩
      cases h
      rfl
  | synonym name target =>
    refine (or_iff_left ?_).symm
    rintro ⟨_, h⟩
    cases h

theorem get?_aliases_synonym : Assoc.get? (l.add (.synonym name target)).aliases a =
    if a = name then some target else Assoc.get? l.aliases a := Assoc.get?_put _ _ _ _

theorem top_add : (l.add d).top = l.top := by cases d <;> rfl

/-! ## All declarations -/

theorem ofDeclarations_concat :
    ofDeclarations top (ds ++ [d]) = (ofDeclarations top ds).add d := List.foldl_concat ..

theorem top_ofDeclarations : (ofDeclarations top ds).top = top := by
  induction ds using List.reverseRecOn with
  | nil => rfl
  | append_singleton ds d ih => rw [ofDeclarations_concat, top_add, ih]

/-- **The supertypes of a type add up.** -/
theorem mem_supertypes_iff : p ∈ (ofDeclarations top ds).supertypes a ↔ DeclaresSuper ds a p := by
  unfold DeclaresSuper
  induction ds using List.reverseRecOn with
  | nil => simp [ofDeclarations, empty, supertypes, Assoc.get?]
  | append_singleton ds d ih =>
    rw [ofDeclarations_concat, mem_supertypes_add, ih]
    simp only [List.mem_append, List.mem_singleton, or_and_right, exists_or, eq_comm]

theorem mem_keys_iff : a ∈ Assoc.keys (ofDeclarations top ds).types ↔ DeclaresType ds a := by
  unfold DeclaresType
  induction ds using List.reverseRecOn with
  | nil => simp [ofDeclarations, empty, Assoc.keys]
  | append_singleton ds d ih =>
    rw [ofDeclarations_concat, mem_keys_add, ih]
    simp only [List.mem_append, List.mem_singleton, exists_or, eq_comm]

theorem isType_iff : (ofDeclarations top ds).IsType a ↔ DeclaresType ds a ∨ a = top := by
  rw [IsType, mem_keys_iff, top_ofDeclarations]

/-- **A step up leads to what a declared supertype leads to.** -/
theorem up_iff : (ofDeclarations top ds).Up a b ↔
    ∃ p, DeclaresSuper ds a p ∧ (ofDeclarations top ds).canonical p = b := by
  simp only [Up, mem_supertypes_iff]

theorem nodup_keys_aliases : (Assoc.keys (ofDeclarations top ds).aliases).Nodup := by
  induction ds using List.reverseRecOn with
  | nil => exact List.nodup_nil
  | append_singleton ds d ih =>
    rw [ofDeclarations_concat]
    cases d with
    | type name supers => exact ih
    | synonym name target => exact Assoc.nodup_keys_put ih

/-- The last declaration counts, unless it is about another name. -/
theorem declaresAlias_concat_iff : DeclaresAlias (ds ++ [d]) a b ↔
    d = .synonym a b ∨ (∀ c, d ≠ .synonym a c) ∧ DeclaresAlias ds a b := by
  constructor
  · rintro ⟨before, after, h, hno⟩
    rcases List.eq_nil_or_concat after with rfl | ⟨after, d', rfl⟩
    · exact .inl (List.cons.inj (List.append_inj' h rfl).2).1
    · rw [List.concat_eq_append] at h hno
      rw [← List.cons_append, ← List.append_assoc] at h
      obtain ⟨rfl, hd⟩ := List.append_inj' h rfl
      obtain rfl := (List.cons.inj hd).1
      simp only [List.mem_append, List.mem_singleton, not_or] at hno
      exact .inr ⟨fun c hc => (hno c).2 hc.symm, before, after, rfl, fun c => (hno c).1⟩
  · rintro (rfl | ⟨hd, before, after, rfl, hno⟩)
    · exact ⟨ds, [], rfl, fun c => List.not_mem_nil⟩
    · refine ⟨before, after ++ [d], by simp, fun c hc => ?_⟩
      rcases List.mem_append.1 hc with hc | hc
      · exact hno c hc
      · exact hd c (List.mem_singleton.1 hc).symm

/-- **A name stands for the last one that it was declared to stand for.** -/
theorem get?_aliases_iff :
    Assoc.get? (ofDeclarations top ds).aliases a = some b ↔ DeclaresAlias ds a b := by
  induction ds using List.reverseRecOn with
  | nil =>
    refine ⟨fun h => (by cases h), ?_⟩
    rintro ⟨before, after, h, -⟩
    simp at h
  | append_singleton ds d ih =>
    rw [ofDeclarations_concat, declaresAlias_concat_iff, ← ih]
    cases d with
    | type name supers =>
      change Assoc.get? (ofDeclarations top ds).aliases a = some b ↔ _
      simp
    | synonym name target =>
      rw [get?_aliases_synonym]
      by_cases ha : a = name
      · simp [ha]
      · simp [ha, Ne.symm ha]

/-! ## Subtyping -/

/-- **Subtyping decides reachability**, in every lattice that declarations make, valid or not.  A name
is a subtype of another if the other leads to the top type, or to a name that can be reached by steps,
each from a name to what one of its declared supertypes leads to.  Searching for it ends in whatever
order names are looked at, and with that answer. -/
theorem subtyping_decides_reachability (top : String) (ds : List Declaration) (a b : String) :
    let l := ofDeclarations top ds
    let goal := l.canonical b
    (l.isSubtypeOf a b = true ↔ goal = top ∨ Relation.ReflTransGen
      (fun x y => ∃ p, DeclaresSuper ds x p ∧ l.canonical p = y) (l.canonical a) goal) ∧
    WellFounded (fun t s => Ascent.Step l goal s t) ∧
    ∀ s, Relation.ReflTransGen (Ascent.Step l goal) (.start l (l.canonical a)) s →
      ((∃ t, Ascent.Step l goal s t) ∨ ∃ r, s.Answers l goal r) ∧
      (l.canonical a ≠ goal → goal ≠ top →
        ∀ r, s.Answers l goal r → r = l.isSubtypeOf a b) := by
  intro l goal
  have htop : l.top = top := top_ofDeclarations
  have hup : l.Up = fun x y => ∃ p, DeclaresSuper ds x p ∧ l.canonical p = y :=
    funext₂ fun _ _ => propext up_iff
  have hiff : l.isSubtypeOf a b = true ↔ goal = top ∨ l.Below (l.canonical a) goal :=
    htop ▸ isSubtypeOf_iff
  rw [← hup]
  refine ⟨hiff, Ascent.wellFounded_step l goal, fun s hs => ⟨Ascent.step_or_answers l goal s, ?_⟩⟩
  intro hne hgoal r hr
  rw [Bool.eq_iff_iff, hiff, or_iff_right hgoal]
  exact (Ascent.sound_of_steps hne hs).answers_iff hr

/-- Types that are supertypes of each other, names that stand for each other, and a supertype that is
not declared: the search goes from `int` to `number`, and finds `ghost` there. -/
theorem subtyping_decides_reachability_in_circles :
    let ds : List Declaration := [.type "int" ["number"], .type "number" ["int", "ghost"],
      .synonym "integer" "int", .synonym "x" "y", .synonym "y" "x"]
    let l := ofDeclarations "any" ds
    let s : Ascent := ⟨["number", "int"], ["int", "ghost"]⟩
    l.canonical "integer" ≠ l.canonical "ghost" ∧ l.canonical "ghost" ≠ "any" ∧
      Relation.ReflTransGen (Ascent.Step l (l.canonical "ghost"))
        (.start l (l.canonical "integer")) s ∧
      s.Answers l (l.canonical "ghost") true ∧ true = l.isSubtypeOf "integer" "ghost" := by
  intro ds l s
  have hne : l.canonical "integer" ≠ l.canonical "ghost" := by decide +kernel
  have hgoal : l.canonical "ghost" ≠ "any" := by decide +kernel
  have hmark : Ascent.Step l (l.canonical "ghost") ⟨["int"], "number" ::ₘ 0⟩ s :=
    .mark (by decide +kernel) (by decide +kernel)
  have hsteps : Relation.ReflTransGen (Ascent.Step l (l.canonical "ghost"))
      (.start l (l.canonical "integer")) s := .single hmark
  have hfound : s.Answers l (l.canonical "ghost") true :=
    .found (p := "ghost") (by decide +kernel) rfl
  obtain ⟨-, -, hsearch⟩ := subtyping_decides_reachability "any" ds "integer" "ghost"
  exact ⟨hne, hgoal, hsteps, hfound, (hsearch s hsteps).2 hne hgoal true hfound⟩

/-! ## Validity -/

/-- **A lattice is valid if and only if it is declared well.**  Its top type has a name; what a name
was declared to stand for, and what was declared as a supertype, leads to a declared type or to the
top type; and no steps up, each to what a declared supertype leads to, lead back to where they
began. -/
theorem valid_iff_well_declared (top : String) (ds : List Declaration) :
    let l := ofDeclarations top ds
    let isType := fun a => DeclaresType ds a ∨ a = top
    l.validate = .ok () ↔
      top ≠ "" ∧
      (∀ a b, DeclaresAlias ds a b → isType (l.canonical b)) ∧
      (∀ a p, DeclaresSuper ds a p → isType (l.canonical p)) ∧
      ∀ a, ¬ Relation.TransGen (fun x y => ∃ p, DeclaresSuper ds x p ∧ l.canonical p = y) a a := by
  intro l isType
  have htype : ∀ {a}, l.IsType a ↔ isType a := isType_iff
  have hup : l.Up = fun x y => ∃ p, DeclaresSuper ds x p ∧ l.canonical p = y :=
    funext₂ fun _ _ => propext up_iff
  have hentry : ∀ {a b}, (a, b) ∈ l.aliases ↔ DeclaresAlias ds a b :=
    (Assoc.mem_iff_get? nodup_keys_aliases).trans get?_aliases_iff
  have halias : (∀ e ∈ l.aliases, l.IsType (l.canonical e.2)) ↔
      ∀ a b, DeclaresAlias ds a b → isType (l.canonical b) := by
    simp only [Prod.forall, hentry, htype]
  have hsuper : (∀ name ∈ Assoc.keys l.types, ∀ p ∈ l.supertypes name, l.IsType (l.canonical p)) ↔
      ∀ a p, DeclaresSuper ds a p → isType (l.canonical p) := by
    have hmem : ∀ {a p}, p ∈ l.supertypes a ↔ DeclaresSuper ds a p := mem_supertypes_iff
    simp only [← htype, ← hmem]
    exact ⟨fun h a p hp => h a (mem_keys_of_up ⟨p, hp, rfl⟩) p hp, fun h a _ p hp => h a p hp⟩
  have htop : l.top = top := top_ofDeclarations
  rw [validate_iff_wellDeclared, ← hup, ← halias, ← hsuper, ← htop]
  constructor
  · exact fun h => ⟨h.top_ne, h.alias_type, h.super_type, h.acyclic⟩
  · rintro ⟨hne, haliases, hsupers, hacyclic⟩
    exact ⟨hne, haliases, hsupers, hacyclic⟩

end Lattice

end StackEffect
