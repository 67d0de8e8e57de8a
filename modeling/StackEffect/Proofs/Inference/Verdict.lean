import StackEffect.Inference.Definitions
import StackEffect.Proofs.Inference.Echo

/-!
# Proofs/Inference/Verdict — what becomes of definitions, one after another

    D.judge c P d     what becomes of D by the dictionary d, with P being inferred
    d.record r        d, with r declared if it has an effect

Every session that is ready comes to the same verdict on a definition (`ends_definition`). 
Inferring definitions in a row is therefore judging them in turn, each by the dictionary in which
those before it are recorded (`Judged`).  A body with an effect has all its words declared, or being
inferred; a dictionary without broken words breaks nothing off.
-/

namespace StackEffect

/-! ## Dictionaries -/

namespace Inferred

/-- The effect of a definition, if it has one. -/
def effect? (r : Inferred) : Option Effect := r.outcome.toOption.map Prod.fst

/-- The definition has no effect. -/
def Failed (r : Inferred) : Prop := ∃ e, r.outcome = .error e

theorem failed_iff {r : Inferred} : r.Failed ↔ r.effect? = none := by
  unfold Failed effect?
  cases r.outcome <;> simp [Except.toOption]

end Inferred

namespace Dictionary

variable {d : Dictionary} {name n : String} {r : Inferred} {rs : List Inferred}

/-- **A whole dictionary**: no word is declared without an effect. -/
def Whole (d : Dictionary) : Prop := ∀ name, d.lookup name ≠ some none

/-- A definition is declared if it has an effect. -/
def record (d : Dictionary) (r : Inferred) : Dictionary :=
  r.effect?.elim d fun f => d.declare r.name (some f)

/-- Definitions are recorded one after another. -/
def recordAll (d : Dictionary) (rs : List Inferred) : Dictionary := rs.foldl record d

theorem lookup_eq_or (d : Dictionary) (name : String) :
    d.lookup name = (Assoc.get? d.scope name).or (d.around.findSome? (Assoc.get? · name)) := by
  rw [lookup, List.findSome?_cons]
  cases Assoc.get? d.scope name <;> rfl

theorem lookup_declare (d : Dictionary) (name : String) (f : Option Effect) (n : String) :
    (d.declare name f).lookup n = if n = name then some f else d.lookup n := by
  rw [lookup_eq_or, lookup_eq_or, declare, Assoc.get?_put]
  split <;> rfl

theorem whole_empty : empty.Whole := fun _ h => by cases h

theorem Whole.enter (hd : d.Whole) : d.enter.Whole := hd

theorem Whole.declare (hd : d.Whole) (name : String) (f : Effect) :
    (d.declare name (some f)).Whole := by
  intro n
  rw [lookup_declare]
  split
  · simp
  · exact hd n

theorem Whole.record (hd : d.Whole) (r : Inferred) : (d.record r).Whole := by
  unfold Dictionary.record
  cases r.effect? with
  | none => exact hd
  | some f => exact hd.declare r.name f

theorem around_recordAll (d : Dictionary) (rs : List Inferred) :
    (d.recordAll rs).around = d.around := by
  induction rs generalizing d with
  | nil => rfl
  | cons r rs ih =>
    refine (ih _).trans ?_
    unfold Dictionary.record
    cases r.effect? <;> rfl

theorem get?_scope_record (d : Dictionary) (r : Inferred) (n : String) :
    Assoc.get? (d.record r).scope n =
      if n = r.name then (r.effect?.map some).or (Assoc.get? d.scope n) else
        Assoc.get? d.scope n := by
  unfold Dictionary.record
  cases r.effect? with
  | none => simp
  | some f =>
    rw [Option.elim_some, declare, Assoc.get?_put]
    split <;> rfl

/-- A name that no definition has is not recorded. -/
theorem get?_scope_recordAll_of_not_mem (hn : n ∉ rs.map Inferred.name) :
    Assoc.get? (d.recordAll rs).scope n = Assoc.get? d.scope n := by
  induction rs generalizing d with
  | nil => rfl
  | cons r rs ih =>
    rw [List.map_cons, List.mem_cons, not_or] at hn
    exact (ih hn.2).trans (by rw [get?_scope_record, if_neg hn.1])

/-- **Of definitions with different names each is recorded with its own effect.** -/
theorem get?_scope_recordAll (hrs : (rs.map Inferred.name).Nodup) (hr : r ∈ rs) :
    Assoc.get? (d.recordAll rs).scope r.name =
      (r.effect?.map some).or (Assoc.get? d.scope r.name) := by
  induction rs generalizing d with
  | nil => cases hr
  | cons r' rs ih =>
    rw [List.map_cons, List.nodup_cons] at hrs
    rcases List.mem_cons.1 hr with rfl | hr
    · exact (get?_scope_recordAll_of_not_mem hrs.1).trans (by rw [get?_scope_record, if_pos rfl])
    · have hne : r.name ≠ r'.name := fun h => hrs.1 (h ▸ List.mem_map_of_mem hr)
      exact (ih hrs.2 hr).trans (by rw [get?_scope_record, if_neg hne])

/-- **A word is looked up among the definitions first.** -/
theorem lookup_enter_recordAll (d : Dictionary) (rs : List Inferred) (n : String) :
    (d.enter.recordAll rs).lookup n =
      (Assoc.get? (d.enter.recordAll rs).scope n).or (d.lookup n) := by
  rw [lookup_eq_or, around_recordAll]
  rfl

end Dictionary

/-! ## What a pass asks of the words of a body -/

namespace InferError

/-- The error breaks a row of definitions off. -/
def Breaks (e : InferError) : Prop := ∃ name, e = .brokenWord name

theorem not_breaks_constraint (fault : Fault) : ¬ (constraint fault).Breaks := by
  rintro ⟨name, h⟩
  cases h

theorem not_breaks_unknownWord (name : String) : ¬ (unknownWord name).Breaks := by
  rintro ⟨name, h⟩
  cases h

theorem not_breaks_emptyTerm : ¬ emptyTerm.Breaks := by
  rintro ⟨name, h⟩
  cases h

end InferError

namespace Infer

variable {α : Type} {c : Option Subtyping × Bool} {P : List String} {d : Dictionary} {s : Session}
  {p : Infer α}

/-- A step of a pass leaves its frame alone. -/
theorem ends_frame (h : Echoed c P p p) (hs : s.frame = (c, true, P)) :
    Ends p s (fun _ t => t.frame = (c, true, P)) fun _ t => t.frame = (c, true, P) :=
  (h.alike (s := s) ⟨rfl, hs⟩).ends_self.mono (fun _ _ ht => ht.frame) fun _ _ ht => ht.frame

theorem ends_onStore_unbroken (p : Pass α) :
    Ends (onStore p) s (fun _ _ => True) fun e _ => ¬ e.Breaks := by
  refine ends_onStore_iff.2 ?_
  unfold Ends
  cases p s.store with
  | ok => trivial
  | error fault => exact InferError.not_breaks_constraint fault

/-- A word that has an effect is declared with one, or is being inferred. -/
theorem ends_word_declared (d : Dictionary) (name : String) : Ends (word d name) s
    (fun _ _ => name ∈ s.pending ∨ ∃ f, d.lookup name = some (some f))
    fun e _ => d.Whole → ¬ e.Breaks := by
  refine Ends.bind_iff.2 (Ends.get_iff.2 (Ends.ite (fun hname => ?_) fun _ => ?_))
  · exact .inl (List.contains_iff_mem.1 hname)
  · split
    · exact fun _ => InferError.not_breaks_unknownWord name
    · next hbroken => exact fun hd => (hd name hbroken).elim
    · next f hf => exact .inr ⟨f, hf⟩

theorem ends_pad (f : Effect) : Ends (pad f) s (fun _ _ => True) fun _ _ => False :=
  Ends.ite (fun _ => trivial) fun _ => trivial

theorem ends_finish_unbroken (f : Effect) :
    Ends (finish f) s (fun _ _ => True) fun e _ => ¬ e.Breaks :=
  (ends_onStore_unbroken _).bind fun _ _ _ => trivial

theorem ends_identity (hs : s.frame = (c, true, P)) :
    Ends identity s (fun _ t => t.frame = (c, true, P)) fun _ _ => False := hs

theorem ends_composeTerm_unbroken (t : Term) (acc f : Effect) :
    Ends (composeTerm t acc f) s (fun _ _ => True) fun e _ => ¬ e.Breaks := by
  refine ends_composeTerm_iff.2 ((ends_pad f).mono (fun g u _ => ?_) fun _ _ => False.elim)
  exact (ends_onStore_unbroken _).bind fun _ _ _ => trivial

mutual
/-- The words of a term that has an effect are declared, or are being inferred. -/
theorem ends_term_declared : ∀ (t : Term) {s : Session}, s.frame = (c, true, P) →
    Ends (term d t) s
      (fun _ u => u.frame = (c, true, P) ∧ ∀ name, .word name ∈ t.walk →
        name ∈ P ∨ ∃ f, d.lookup name = some (some f))
      fun e _ => d.Whole → ¬ e.Breaks
  | .word name, s, hs => by
    have hword :=
      (ends_frame (echoed_word (d := d) fun _ => rfl) hs).and (ends_word_declared d name)
    rw [show s.pending = P from congrArg (·.2.2) hs] at hword
    refine Ends.bind_iff.2 (hword.mono (fun f u hu => ⟨hu.1, fun n hn => ?_⟩) fun _ _ he => he.2)
    obtain rfl : n = name := Term.word.inj (List.mem_singleton.1 hn)
    exact hu.2
  | .literal text kind, s, hs => by
    rw [term]
    refine Ends.ite (fun _ _ => InferError.not_breaks_emptyTerm) fun _ => ⟨hs, fun n hn => ?_⟩
    cases List.mem_singleton.1 hn
  | .quotation ts, s, hs => by
    rw [term]
    refine Ends.bind_iff.2 ((ends_identity hs).mono (fun f u hu => ?_) fun _ _ => False.elim)
    refine (ends_body_declared ts hu f).bind fun r v hv => ?_
    refine Ends.bind_iff.2 (Ends.get_iff.2 ⟨hv.1, fun n hn => ?_⟩)
    exact hv.2 n ((List.mem_cons.1 hn).resolve_left fun h => by cases h)
  | .missing, _, _ => fun _ => InferError.not_breaks_emptyTerm
/-- The words of a body that has an effect are declared, or are being inferred. -/
theorem ends_body_declared : ∀ (ts : List Term) {s : Session}, s.frame = (c, true, P) →
    ∀ acc : Effect, Ends (body d acc ts) s
      (fun _ u => u.frame = (c, true, P) ∧ ∀ name, .word name ∈ Term.walkBody ts →
        name ∈ P ∨ ∃ f, d.lookup name = some (some f))
      fun e _ => d.Whole → ¬ e.Breaks
  | [], s, hs, acc => ⟨hs, fun n hn => by cases hn⟩
  | t :: ts, s, hs, acc => by
    rw [body]
    refine (ends_term_declared t hs).bind fun r u hu => ?_
    have hcompose := (ends_frame (echoed_composeTerm t acc r.1) hu.1).and
      (ends_composeTerm_unbroken t acc r.1)
    refine Ends.bind_iff.2 (hcompose.mono (fun g v hv => ?_) fun _ _ he _ => he.2)
    refine (ends_body_declared ts hv.1 g).bind fun r' w hw => ⟨hw.1, fun n hn => ?_⟩
    exact (List.mem_append.1 hn).elim (hu.2 n) (hw.2 n)
end

end Infer

/-! ## Verdicts -/

/-- A new session, in which `P` is being inferred. -/
def Session.within (c : Option Subtyping × Bool) (P : List String) : Session :=
  { start c.1 c.2 .silent with pending := P }

/-- **The verdict on a body**: its effect and those of its terms, or why there is none, by the
dictionary `d` and with `P` being inferred. -/
def Infer.verdict (c : Option Subtyping × Bool) (P : List String) (d : Dictionary) (ts : Body) :
    Except InferError (Effect × List Effect) :=
  match inferBody d ts (Session.within c P) with
  | .ok r _ => .ok r
  | .error e _ => .error e

/-- **What becomes of a definition.** -/
def Definition.judge (c : Option Subtyping × Bool) (P : List String) (d : Dictionary)
    (D : Definition) : Inferred := ⟨D.name, Infer.verdict c P d D.body⟩

namespace Session

variable {c : Option Subtyping × Bool} {P : List String} {s : Session}

theorem ready_within (c : Option Subtyping × Bool) (P : List String) : (within c P).Ready c :=
  ⟨rfl, .inr rfl⟩

theorem ready_of_frame (h : s.frame = (c, true, P)) : s.Ready c :=
  ⟨congrArg Prod.fst h, .inl (congrArg (·.2.1) h)⟩

theorem frame_note (s : Session) (line : Unit → String) : (s.note line).frame = s.frame :=
  congrArg (·, s.used, s.pending) (Store.mode_note _ _)

theorem Ready.withPending (h : s.Ready c) (P : List String) : ({ s with pending := P }).Ready c :=
  ⟨h.mode, h.idle.imp id fun hclear => congrArg (fun s : Session => { s with pending := P }) hclear⟩

end Session

namespace Infer

variable {c : Option Subtyping × Bool} {P : List String} {d d' : Dictionary} {s : Session}
  {ts : Body}

/-- **The verdict depends on what the words of the body are declared as**, those apart that are
being inferred. -/
theorem verdict_congr (h : ∀ name ∈ Body.references ts, name ∉ P → d'.lookup name = d.lookup name) :
    verdict c P d' ts = verdict c P d ts := by
  have hready := Session.ready_within c P
  have halike := hready.alike_inferBody hready rfl ts h
  unfold verdict
  cases hd : inferBody d ts (Session.within c P) with
  | ok r t =>
    obtain ⟨t', ht', -⟩ := halike.exists_ok hd
    rw [ht']
  | error e t =>
    obtain ⟨t', ht', -⟩ := halike.exists_error hd
    rw [ht']

/-- **Every session that is ready comes to the verdict.** -/
theorem ends_inferBody (hs : s.Ready c) (d : Dictionary) (ts : Body) : Ends (inferBody d ts) s
    (fun r t => verdict c s.pending d ts = .ok r ∧ t.frame = (c, true, s.pending))
    fun e t => verdict c s.pending d ts = .error e ∧ t.frame = (c, true, s.pending) := by
  have halike := hs.alike_inferBody (Session.ready_within c s.pending) rfl (d := d) ts
    fun _ _ _ => rfl
  unfold verdict
  refine (Ends.self (inferBody d ts) s).mono (fun r t hr => ?_) fun e t he => ?_
  · obtain ⟨t', ht', hst⟩ := halike.exists_ok hr
    exact ⟨by rw [ht'], hst.frame⟩
  · obtain ⟨t', ht', hst⟩ := halike.exists_error he
    exact ⟨by rw [ht'], hst.frame⟩

/-- What a pass over a body asks of its words. -/
theorem ends_inferBody_declared (hs : s.Ready c) (d : Dictionary) (ts : Body) :
    Ends (inferBody d ts) s
    (fun _ _ => ∀ name ∈ Body.references ts, name ∈ s.pending ∨ ∃ f, d.lookup name = some (some f))
    fun e _ => d.Whole → ¬ e.Breaks := by
  have hbegin := (Session.frame_note s.begin fun _ => "infer " ++ Body.text ts).trans
    (hs.echoes_begin hs rfl).frame
  refine Ends.bind_iff.2 (Ends.modify_iff.2 (Ends.bind (R := fun _ _ => ∀ name ∈ Body.references ts,
    name ∈ s.pending ∨ ∃ f, d.lookup name = some (some f)) ?_ fun r t ht => ht))
  refine ends_recorded_iff.2 (Ends.bind_iff.2 ?_)
  refine (ends_identity hbegin).mono (fun f t ht => ?_) fun _ _ => False.elim
  refine (ends_body_declared ts ht f).bind fun r u hu => Ends.bind_iff.2 ?_
  refine (ends_finish_unbroken r.1).mono (fun _ _ _ => ?_) fun e v he _ => he
  exact fun name hname => hu.2 name (Body.mem_references_iff.1 hname)

/-- **The words of a body that has an effect are declared**, or are being inferred. -/
theorem declared_of_verdict {r : Effect × List Effect} (h : verdict c P d ts = .ok r) :
    ∀ name ∈ Body.references ts, name ∈ P ∨ ∃ f, d.lookup name = some (some f) := by
  have hends := ends_inferBody_declared (Session.ready_within c P) d ts
  unfold verdict at h
  split at h
  · next hok => exact hends.ok hok
  · cases h

/-- **By a whole dictionary nothing breaks off.** -/
theorem ends_attempt (hs : s.Ready c) (hd : d.Whole) : Ends (attempt d ts) s
    (fun r t => r = verdict c s.pending d ts ∧ t.frame = (c, true, s.pending))
    fun _ _ => False := by
  have hbody := (ends_inferBody hs d ts).and (ends_inferBody_declared hs d ts)
  unfold Ends attempt
  cases h : inferBody d ts s with
  | ok r t =>
    obtain ⟨hr, -⟩ := hbody.ok h
    exact ⟨hr.1.symm, hr.2⟩
  | error e t =>
    obtain ⟨he, hunbroken⟩ := hbody.error h
    cases e with
    | brokenWord name => exact hunbroken hd ⟨name, rfl⟩
    | _ => exact ⟨he.1.symm, he.2⟩

/-- **Inferring a definition**: the verdict on it is recorded, and it is not being inferred any
more. -/
theorem ends_definition (hs : s.Ready c) (hd : d.Whole) (D : Definition) : Ends (definition D d) s
    (fun r t => r = (D.judge c s.pending d, d.record (D.judge c s.pending d)) ∧
      t.frame = (c, true, s.pending.filter (· != D.name)))
    fun _ _ => False := by
  refine (ends_attempt hs hd).bind ?_
  rintro outcome t ⟨houtcome, ht⟩
  refine Ends.bind_iff.2 (Ends.modify_iff.2 ?_)
  have hself : Session.Echoes c s.pending t t := ⟨rfl, ht⟩
  have hframe := (hself.forget D.name).frame
  have hjudge : D.judge c s.pending d = ⟨D.name, outcome⟩ := by rw [Definition.judge, houtcome]
  rw [hjudge]
  cases outcome with
  | ok r => exact ⟨rfl, hframe⟩
  | error e => exact ⟨rfl, (Session.frame_note _ _).trans hframe⟩

end Infer

/-! ## Definitions in a row -/

/-- **Definitions judged in turn**: `E d i r` holds of each, with those before it recorded in `d`.
-/
def Judged {ι : Type} (E : Dictionary → ι → Inferred → Prop) :
    Dictionary → List (ι × Inferred) → Prop
  | _, [] => True
  | d, (i, r) :: rs => E d i r ∧ Judged E (d.record r) rs

namespace Judged

variable {ι : Type} {E E' : Dictionary → ι → Inferred → Prop} {d : Dictionary}
  {rs rs' : List (ι × Inferred)}

theorem mono (h : Judged E d rs) (hE : ∀ d i r, E d i r → E' d i r) : Judged E' d rs := by
  induction rs generalizing d with
  | nil => trivial
  | cons p rs ih => exact ⟨hE _ _ _ h.1, ih h.2⟩

theorem append_iff : Judged E d (rs ++ rs') ↔
    Judged E d rs ∧ Judged E (d.recordAll (rs.map Prod.snd)) rs' := by
  induction rs generalizing d with
  | nil => exact ⟨fun h => ⟨trivial, h⟩, And.right⟩
  | cons p rs ih =>
    change E d p.1 p.2 ∧ Judged E _ (rs ++ rs') ↔ (E d p.1 p.2 ∧ Judged E _ rs) ∧ _
    rw [ih, and_assoc]
    rfl

/-- Each is judged by what was recorded before it. -/
theorem entry {pre post : List (ι × Inferred)} {i : ι} {r : Inferred}
    (h : Judged E d (pre ++ (i, r) :: post)) : E (d.recordAll (pre.map Prod.snd)) i r :=
  (append_iff.1 h).2.1

end Judged

/-- **What becomes of a definition of a group**: it is judged with some of the group being inferred,
itself among them unless another one has its name. -/
structure JudgedIn {ι : Type} (c : Option Subtyping × Bool) (defs : ι → Definition) (group : List ι)
    (d : Dictionary) (i : ι) (r : Inferred) : Prop where
  mem : i ∈ group
  judge : ∃ P : List String, P.Sublist (group.map fun j => (defs j).name) ∧
    ((group.map fun j => (defs j).name).Nodup → (defs i).name ∈ P) ∧ r = (defs i).judge c P d

namespace Infer

variable {ι : Type} {c : Option Subtyping × Bool} {defs : ι → Definition} {group : List ι}
  {d : Dictionary} {s : Session}

/-- **Inferring definitions of a group in a row** is judging them in turn. -/
theorem ends_definitionRow (hs : s.Ready c) (hd : d.Whole) {is : List ι} (his : is.Sublist group)
    (hsub : s.pending.Sublist (group.map fun j => (defs j).name))
    (hpending : (group.map fun j => (defs j).name).Nodup → ∀ i ∈ is, (defs i).name ∈ s.pending) :
    Ends (definitionRow defs is d) s
      (fun r t => r.1.map Prod.fst = is ∧ r.2 = d.recordAll (r.1.map Prod.snd) ∧ r.2.Whole ∧
        Judged (JudgedIn c defs group) d r.1 ∧ t.Ready c)
      fun _ _ => False := by
  induction is generalizing d s with
  | nil => exact ⟨rfl, rfl, hd, trivial, hs⟩
  | cons i is ih =>
    refine (ends_definition hs hd (defs i)).bind ?_
    rintro _ t ⟨rfl, ht⟩
    have htp : t.pending = s.pending.filter (· != (defs i).name) := congrArg (·.2.2) ht
    refine Ends.bind (ih (Session.ready_of_frame ht) (hd.record _)
      ((List.sublist_cons_self i is).trans his) ?_ fun hnodup j hj => ?_) ?_
    · exact htp ▸ List.filter_sublist.trans hsub
    · have hnames : ((i :: is).map fun j => (defs j).name).Nodup := hnodup.sublist (his.map _)
      rw [List.map_cons, List.nodup_cons] at hnames
      have hne : (defs j).name ≠ (defs i).name := fun he =>
        hnames.1 (he ▸ List.mem_map_of_mem (f := fun j => (defs j).name) hj)
      rw [htp, List.mem_filter]
      exact ⟨hpending hnodup j (List.mem_cons_of_mem _ hj), bne_iff_ne.2 hne⟩
    · rintro ⟨rs, d'⟩ u ⟨hfst, hrec, hwhole, hrs, hu⟩
      exact ⟨congrArg (i :: ·) hfst, hrec, hwhole, ⟨⟨his.subset List.mem_cons_self, _, hsub,
        fun hnodup => hpending hnodup i List.mem_cons_self, rfl⟩, hrs⟩, hu⟩

/-- **Inferring groups of definitions**, one group after another. -/
theorem ends_definitionGroups (hs : s.Ready c) (hd : d.Whole) (groups : List (List ι)) :
    Ends (definitionGroups defs groups d) s
      (fun r t => r.1.map Prod.fst = groups.flatten ∧ r.2 = d.recordAll (r.1.map Prod.snd) ∧
        Judged (fun d i r => ∃ group ∈ groups, JudgedIn c defs group d i r) d r.1 ∧ t.Ready c)
      fun _ _ => False := by
  induction groups generalizing d s with
  | nil => exact ⟨rfl, rfl, trivial, hs⟩
  | cons group groups ih =>
    refine Ends.bind_iff.2 (Ends.modify_iff.2 ?_)
    refine (ends_definitionRow (hs.withPending _) hd (.refl group) (.refl _)
      fun _ i hi => List.mem_map_of_mem (f := fun i => (defs i).name) hi).bind ?_
    rintro ⟨rs, d'⟩ t ⟨hfst, hrec, hwhole, hrs, ht⟩
    refine (ih ht hwhole).bind ?_
    rintro ⟨rest, d''⟩ u ⟨hfst', hrec', hrest, hu⟩
    dsimp only at hfst hrec hrs hfst' hrec' hrest
    refine ⟨by rw [List.map_append, hfst, hfst', List.flatten_cons], ?_, ?_, hu⟩
    · rw [hrec', hrec, List.map_append, Dictionary.recordAll, Dictionary.recordAll,
        Dictionary.recordAll, List.foldl_append]
    · refine Judged.append_iff.2 ⟨hrs.mono fun _ _ _ h => ⟨group, List.mem_cons_self, h⟩, ?_⟩
      exact hrec ▸ hrest.mono fun _ _ _ ⟨g, hg, h⟩ => ⟨g, List.mem_cons_of_mem _ hg, h⟩

end Infer

end StackEffect
