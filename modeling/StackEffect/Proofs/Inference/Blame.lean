import StackEffect.Proofs.Inference.Renewal
import StackEffect.Proofs.Solve.Progress

/-!
# Proofs/Inference/Blame — the term that is to blame for a failure

    t₀ … tᵢ₋₁   tᵢ   …        bodies that end before tᵢ have an effect; whatever follows tᵢ, none has

Where all kinds are known, what a body has gathered up to a term can be solved (`Store.Solvable`), so
that a pass over the body fails in the middle or not at all.  It fails at the first term that has no
effect, or whose effect does not go on from what is before it, and never looks at the terms behind
(`exists_failing_term`).  In a quotation that is a term inside.
-/

namespace StackEffect

/-! ## Known kinds -/

namespace Kind

variable {k : Kind}

/-- Known kinds are made of known kinds. -/
theorem closed_known : Closed fun k => k.all known = true where
  slot h := (Bool.and_eq_true_iff.1 h).1
  rest h := (Bool.and_eq_true_iff.1 h).2
  consumed h := (Bool.and_eq_true_iff.1 h).1
  produced h := (Bool.and_eq_true_iff.1 h).2

theorem isOrdinary_of_known (h : k.all known = true) : k.isOrdinary = true := by
  cases k with
  | foreign | absent => exact h
  | _ => rfl

theorem known_var (v : Var) : v.kind.all known = true := by
  obtain ⟨_ | _, a⟩ := v <;> rfl

theorem known_subst {f : Var → Kind} (hf : ∀ v, (f v).all known = true) (h : k.all known = true) :
    (k.subst f).all known = true := by
  have hslots : ∀ s : Stack, (∀ k ∈ s, k.all known = true → (k.subst f).all known = true) →
      slotsAll known s = true → slotsAll known (substSlots f s) = true := by
    intro s ih hs
    rw [substSlots_eq_map, slotsAll_iff, List.forall_mem_map]
    exact fun k hk => ih k hk (slotsAll_iff.1 hs k hk)
  induction k using Kind.slotInduction with
  | typeVar a => exact hf ⟨.slot, a⟩
  | stackVar a => exact hf ⟨.stack, a⟩
  | stack s ih => exact hslots s ih h
  | effect c p i hc hp =>
    obtain ⟨h₁, h₂⟩ := Bool.and_eq_true_iff.1 h
    exact Bool.and_eq_true_iff.2 ⟨hslots c hc h₁, hslots p hp h₂⟩
  | _ => exact h

end Kind

/-- An effect of known kinds. -/
def Effect.Known (f : Effect) : Prop := f.kind.all Kind.known = true

theorem Effect.known_iff {f : Effect} : f.Known ↔
    Kind.slotsAll Kind.known f.consumed = true ∧ Kind.slotsAll Kind.known f.produced = true :=
  Bool.and_eq_true_iff

/-- **A dictionary of known effects**: no word is declared without one. -/
structure Dictionary.Known (d : Dictionary) : Prop where
  whole : d.Whole
  effect : ∀ name f, d.lookup name = some (some f) → f.Known

theorem Dictionary.known_empty : empty.Known := ⟨whole_empty, fun _ _ h => by cases h⟩

theorem Dictionary.Known.declare {d : Dictionary} (hd : d.Known) (name : String) {f : Effect}
    (hf : f.Known) : (d.declare name (some f)).Known := by
  refine ⟨hd.whole.declare name f, fun n g hg => ?_⟩
  rw [lookup_declare] at hg
  split at hg
  · cases hg
    exact hf
  · exact hd.effect n g hg

theorem Term.self_mem_walk (t : Term) : t ∈ t.walk := by cases t <;> exact List.mem_cons_self

/-- Whether a term is there, and of a known kind if it is a literal. -/
def Term.isKnown : Term → Bool
  | missing => false
  | literal _ kind => kind.all Kind.known
  | _ => true

/-- **Whether the terms of a body are known**, at every depth. -/
def Body.isKnown (ts : Body) : Bool := (Term.walkBody ts).all Term.isKnown

theorem Body.isKnown_iff {ts : Body} :
    Body.isKnown ts = true ↔ ∀ t ∈ ts, t.walk.all Term.isKnown = true := by
  unfold isKnown
  induction ts with
  | nil => simp [Term.walkBody]
  | cons t ts ih =>
    rw [Term.walkBody, List.all_append, Bool.and_eq_true_iff, ih, List.forall_mem_cons]

/-! ## What can be solved -/

namespace Store

variable {s : Store} {v w : Stack}

/-- **A store that can be solved**: every name has a member, and all members are known. -/
structure Solvable (s : Store) : Prop where
  orderly : s.Orderly
  occupied : s.partition.Occupied
  covers : (Vocabulary.within Kind.closed_known).Covers s

theorem solvable_empty (st : Option Subtyping) (lenient : Bool) (logging : Logging) :
    (empty st lenient logging).Solvable :=
  ⟨orderly_empty st lenient logging, occupied_empty st lenient logging,
    covers_empty _ st lenient logging⟩

/-- **Unifying known stacks leaves a store that can be solved**, unless it fails. -/
theorem Solvable.ends_unifyStacks (h : s.Solvable) (hv : Kind.slotsAll Kind.known v = true)
    (hw : Kind.slotsAll Kind.known w = true) :
    Ends (unifyStacks v w) s (fun _ t => t.Solvable) fun _ _ => True := by
  have horderly := h.orderly.ends_action (.operate (.unifyStacks v w))
  have hoccupied := h.orderly.occupies_operation h.occupied (.unifyStacks v w)
  have hcovers := ends_operation h.orderly.sound.toShaped h.covers (.unifyStacks v w)
    (List.forall_mem_cons.2 ⟨hv, List.forall_mem_singleton.2 hw⟩) fun _ _ => trivial
  refine (horderly.and (hoccupied.and hcovers)).mono ?_ fun _ _ _ => trivial
  rintro _ t ⟨h₁, h₂, h₃⟩
  exact ⟨h₁, h₂, h₃⟩

theorem Solvable.ends_solve (h : s.Solvable) :
    Ends solve s (fun _ _ => True) fun _ _ => False := by
  refine (Store.ends_solve h.orderly.sound.toShaped).mono (fun _ _ _ => trivial) ?_
  rintro _ _ ⟨-, n, hn, hnone⟩
  obtain ⟨i, hi⟩ := Option.isSome_iff_exists.1 hn
  have hmembers : ∀ k ∈ s.partition.members i, k.isOrdinary = true := fun k hk =>
    Kind.isOrdinary_of_known (h.covers.members _ k (Array.mem_toList_iff.1 hk))
  obtain ⟨r, hr, -⟩ := Partition.exists_rep (h.occupied n i hi) hmembers
  rw [Partition.repOf, hi, Option.bind_some, hr] at hnone
  cases hnone

end Store

/-! ## Passes over known terms -/

/-- **A session in which nothing went wrong so far**: what was gathered can be solved, and no term is
to blame. -/
structure Session.Fine (s : Session) : Prop where
  solvable : s.store.Solvable
  blamed : s.blamed = none

theorem Session.fine_begin_within (c : Option Subtyping × Bool) (P : List String) :
    (within c P).begin.Fine := ⟨Store.solvable_empty c.1 c.2 .silent, rfl⟩

namespace Infer

variable {s : Session} {d : Dictionary} {f acc : Effect} {E : InferError → Session → Prop}

/-- **A step finds a known effect and leaves all fine**, or fails in a session that satisfies `E`. -/
def Fares (p : Infer Effect) (s : Session) (E : InferError → Session → Prop) : Prop :=
  Ends p s (fun f t => t.Fine ∧ f.Known) E

theorem fares_identity (h : s.Fine) : Fares identity s E := ⟨⟨h.solvable, h.blamed⟩, rfl⟩

theorem fares_recursive (h : s.Fine) : Fares recursive s E := ⟨⟨h.solvable, h.blamed⟩, rfl⟩

theorem fares_instantiate (h : s.Fine) (hf : f.Known) : Fares (instantiate f) s E :=
  ⟨⟨h.solvable, h.blamed⟩, Kind.known_subst (fun _ => Kind.known_var _) hf⟩

theorem fares_pad (h : s.Fine) (hf : f.Known) : Fares (pad f) s E := by
  refine Ends.ite (fun _ => ⟨h, hf⟩) fun _ => ⟨⟨h.solvable, h.blamed⟩, ?_⟩
  obtain ⟨hc, hp⟩ := Effect.known_iff.1 hf
  have hrest : ∀ {v : Stack} (a : String), Kind.slotsAll Kind.known v = true →
      Kind.slotsAll Kind.known (v ++ [.stackVar a]) = true := by
    intro v a hv
    rw [Kind.slotsAll_iff, List.forall_mem_append, List.forall_mem_singleton]
    exact ⟨Kind.slotsAll_iff.1 hv, rfl⟩
  exact Effect.known_iff.2 ⟨hrest _ hc, hrest _ hp⟩

theorem fares_word (hd : d.Known) (h : s.Fine) (name : String) :
    Fares (word d name) s fun _ u => u.blamed = some (.word name) := by
  refine Ends.bind_iff.2 (Ends.get_iff.2 (Ends.ite (fun _ => fares_recursive h) fun _ => ?_))
  split
  · exact rfl
  · next hnone => exact absurd hnone (hd.whole name)
  · next f hf => exact fares_instantiate h (hd.effect name f hf)

/-- **A term whose effect does not go on from what is before it is to blame.** -/
theorem fares_composeTerm (h : s.Fine) (t : Term) (hacc : acc.Known) (hf : f.Known) :
    Fares (composeTerm t acc f) s fun _ u => u.blamed = some t := by
  refine ends_composeTerm_iff.2 ((fares_pad h hf).mono ?_ fun _ _ => id)
  rintro g u ⟨hu, hg⟩
  obtain ⟨hac, hap⟩ := Effect.known_iff.1 hacc
  obtain ⟨hgc, hgp⟩ := Effect.known_iff.1 hg
  refine Ends.bind_iff.2 (ends_onStore_iff.2 ((hu.solvable.ends_unifyStacks hap hgc).mono ?_
    fun _ _ _ => rfl))
  exact fun _ v hv => ⟨⟨hv, hu.blamed⟩, Effect.known_iff.2 ⟨hac, hgp⟩⟩

theorem known_pushes {k : Kind} (hk : k.all Kind.known = true) : (pushes k).Known :=
  Effect.known_iff.2 ⟨rfl, Bool.and_eq_true_iff.2 ⟨hk, rfl⟩⟩

mutual
/-- **A term is inferred, and so are all terms in it; or one of them is to blame.** -/
theorem ends_term_fine (hd : d.Known) : ∀ (t : Term) {s : Session}, t.walk.all Term.isKnown = true →
    s.Fine → Ends (term d t) s
      (fun r u => u.Fine ∧ r.1.Known ∧ r.2.length = t.walk.length)
      fun _ u => ∃ w ∈ t.walk, u.blamed = some w
  | .word name, s, _, h => by
    rw [term]
    refine Ends.bind_iff.2 ((fares_word hd h name).mono (fun f u hu => ⟨hu.1, hu.2, rfl⟩) ?_)
    exact fun _ u hu => ⟨_, List.mem_singleton_self _, hu⟩
  | .literal text kind, s, hknown, h => by
    have hkind : kind.all Kind.known = true := (Bool.and_eq_true_iff.1 hknown).1
    rw [term]
    refine Ends.ite (fun habsent => ?_) fun _ => ⟨h, known_pushes hkind, rfl⟩
    rw [habsent] at hkind
    cases hkind
  | .quotation ts, s, hknown, h => by
    rw [term]
    refine (fares_identity h).bind ?_
    rintro f u ⟨hu, hf⟩
    refine Ends.bind_iff.2 ((ends_body_fine hd ts (Bool.and_eq_true_iff.1 hknown).2 hu hf).mono
      ?_ ?_)
    · rintro ⟨g, inner⟩ v ⟨hv, hg, hlength⟩
      refine Ends.bind_iff.2 (Ends.get_iff.2 ⟨hv, ?_, congrArg Nat.succ hlength⟩)
      dsimp only
      split
      · exact rfl
      · exact known_pushes hg
    · rintro _ v ⟨w, hw, hv⟩
      exact ⟨w, List.mem_cons_of_mem _ hw, hv⟩
  | .missing, _, hknown, _ => by cases hknown
/-- **A body is inferred, and so are all terms in it; or one of them is to blame.** -/
theorem ends_body_fine (hd : d.Known) : ∀ (ts : List Term) {s : Session} {acc : Effect},
    Body.isKnown ts = true → s.Fine → acc.Known → Ends (body d acc ts) s
      (fun r u => u.Fine ∧ r.1.Known ∧ r.2.length = (Term.walkBody ts).length)
      fun _ u => ∃ w ∈ Term.walkBody ts, u.blamed = some w
  | [], s, acc, _, h, hacc => ⟨h, hacc, rfl⟩
  | t :: ts, s, acc, hknown, h, hacc => by
    rw [Body.isKnown, Term.walkBody, List.all_append] at hknown
    obtain ⟨ht, hts⟩ := Bool.and_eq_true_iff.1 hknown
    rw [body]
    refine Ends.bind_iff.2 ((ends_term_fine hd t ht h).mono ?_ ?_)
    · rintro ⟨f, effects⟩ u ⟨hu, hf, hlength⟩
      refine Ends.bind_iff.2 ((fares_composeTerm hu t hacc hf).mono ?_ ?_)
      · rintro g v ⟨hv, hg⟩
        refine Ends.bind_iff.2 ((ends_body_fine hd ts hts hv hg).mono ?_ ?_)
        · rintro ⟨r, rest⟩ w ⟨hw, hr, hrest⟩
          refine ⟨hw, hr, ?_⟩
          rw [Term.walkBody, List.length_append, List.length_append, hlength, hrest]
        · rintro _ w ⟨u, hu, hw⟩
          exact ⟨u, List.mem_append_right _ hu, hw⟩
      · exact fun _ v hv => ⟨t, List.mem_append_left _ (Term.self_mem_walk t), hv⟩
    · rintro _ u ⟨w, hw, hu⟩
      exact ⟨w, List.mem_append_left _ hw, hu⟩
end

/-! ## The first failure -/

variable {ts us : List Term} {e : InferError} {u : Session}

/-- A body is inferred part by part. -/
theorem body_append (d : Dictionary) (acc : Effect) (ts us : List Term) :
    body d acc (ts ++ us) = do
      let r ← body d acc ts
      let r' ← body d r.1 us
      return (r'.1, r.2 ++ r'.2) := by
  induction ts generalizing acc with
  | nil => simp [body]
  | cons t ts ih => simp [body, ih]

/-- **Behind a failure nothing is looked at.** -/
theorem body_append_of_error (h : body d acc ts s = .error e u) (us : List Term) :
    body d acc (ts ++ us) s = .error e u := by
  rw [body_append]
  exact Ends.bind_eq_error_iff.2 (.inl h)

/-- **A body fails at a term**: those before it have an effect, from which the term does not go on. -/
theorem exists_failing_term (h : body d acc ts s = .error e u) :
    ∃ i t r v, ts[i]? = some t ∧ body d acc (ts.take i) s = .ok r v ∧
      body d r.1 [t] v = .error e u := by
  induction ts generalizing acc s with
  | nil => cases h
  | cons t ts ih =>
    rw [← List.singleton_append, body_append] at h
    rcases Ends.bind_eq_error_iff.1 h with h | ⟨r, v, hr, h⟩
    · exact ⟨0, t, (acc, []), s, rfl, rfl, h⟩
    rcases Ends.bind_eq_error_iff.1 h with h | ⟨r', v', -, h⟩
    · obtain ⟨i, t', r', v', hi, hr', h⟩ := ih h
      refine ⟨i + 1, t', (r'.1, r.2 ++ r'.2), v', hi, ?_, h⟩
      rw [List.take_succ_cons, ← List.singleton_append, body_append]
      exact Ends.bind_eq_ok_iff.2 ⟨r, v, hr, Ends.bind_eq_ok_iff.2 ⟨r', v', hr', rfl⟩⟩
    · cases h

/-- What a body has gathered before it is solved: its effect, and those of its terms. -/
def gatherBody (d : Dictionary) (ts : Body) : Infer (Effect × List Effect) := do
  body d (← identity) ts

/-- **A new session infers a body** by gathering and then solving; a failure is taken note of. -/
theorem ends_inferBody_within_iff {c : Option Subtyping × Bool} {P : List String}
    {Q : Effect × List Effect → Session → Prop} :
    Ends (inferBody d ts) (Session.within c P) Q E ↔
      Ends (gatherBody d ts) (Session.within c P).begin
        (fun r u => Ends (finish r.1) u (fun f v => Q (f, r.2.map v.finalize) v)
          fun e v => E e (v.fail e))
        fun e u => E e (u.fail e) := by
  rw [inferBody, Ends.bind_iff, Ends.modify_iff, Ends.bind_iff, ends_recorded_iff]
  simp only [gatherBody, Ends.bind_iff, Ends.get_iff, Ends.pure_iff]
  rfl

variable {c : Option Subtyping × Bool} {P : List String}

theorem ends_gatherBody (hd : d.Known) (hts : Body.isKnown ts = true) :
    Ends (gatherBody d ts) (Session.within c P).begin
      (fun r u => u.Fine ∧ r.1.Known ∧ r.2.length = (Term.walkBody ts).length)
      fun _ u => ∃ w ∈ Term.walkBody ts, u.blamed = some w :=
  (fares_identity (Session.fine_begin_within c P)).bind fun _ _ hf =>
    ends_body_fine hd ts hts hf.1 hf.2

theorem ends_finish_fine (h : s.Fine) (f : Effect) :
    Ends (finish f) s (fun _ t => t.blamed = none) fun _ _ => False :=
  Ends.bind_iff.2 (ends_onStore_iff.2 (h.solvable.ends_solve.mono (fun _ _ _ => h.blamed)
    fun _ _ => False.elim))

/-- **What is gathered is solved**: a body of known terms fails only while it is gathered. -/
theorem ends_inferBody_fine (hd : d.Known) (hts : Body.isKnown ts = true) :
    Ends (inferBody d ts) (Session.within c P)
      (fun r v => v.blamed = none ∧ r.2.length = (Term.walkBody ts).length)
      fun e v => ∃ u, gatherBody d ts (Session.within c P).begin = .error e u ∧ v = u.fail e := by
  refine ends_inferBody_within_iff.2 (((ends_gatherBody hd hts).and (Ends.self _ _)).mono ?_
    fun e u hu => ⟨u, hu.2, rfl⟩)
  rintro r u ⟨⟨hu, -, hlength⟩, -⟩
  refine (ends_finish_fine hu r.1).mono (fun f v hv => ⟨hv, ?_⟩) fun _ _ => False.elim
  rw [List.length_map, hlength]

theorem inferBody_of_gather_error (h : gatherBody d ts (Session.within c P).begin = .error e u) :
    inferBody d ts (Session.within c P) = .error e (u.fail e) := by
  have hends : Ends (inferBody d ts) (Session.within c P) (fun _ _ => False)
      fun e' v => e' = e ∧ v = u.fail e := ends_inferBody_within_iff.2 (.of_error h ⟨rfl, rfl⟩)
  obtain ⟨_, _, hrun, rfl, rfl⟩ := hends.exists_error
  exact hrun

/-- **The first term that fails is to blame.**  Bodies that end before it have an effect; bodies that
go on behind it fail as it does. -/
theorem exists_first_failure (hd : d.Known) (hts : Body.isKnown ts = true)
    (h : inferBody d ts (Session.within c P) = .error e u) :
    ∃ i t w, ts[i]? = some t ∧ u.blamed = some w ∧ w ∈ t.walk ∧
      (∀ j ≤ i, ∃ r v, inferBody d (ts.take j) (Session.within c P) = .ok r v) ∧
      ∀ us, inferBody d (ts.take (i + 1) ++ us) (Session.within c P) = .error e u := by
  obtain ⟨u, hgather, rfl⟩ := (ends_inferBody_fine hd hts).error h
  rcases Ends.bind_eq_error_iff.1 hgather with hnone | ⟨f, s, hstart, hbody⟩
  · cases hnone
  obtain ⟨hs, hf⟩ := (fares_identity (E := fun _ _ => True)
    (Session.fine_begin_within c P)).ok hstart
  obtain ⟨i, t, r, v, hi, hbefore, hfail⟩ := exists_failing_term hbody
  rw [Body.isKnown_iff] at hts
  have htake : ∀ j, Body.isKnown (ts.take j) = true := fun j =>
    Body.isKnown_iff.2 fun t ht => hts t (List.mem_of_mem_take ht)
  have ht : Body.isKnown [t] = true :=
    Body.isKnown_iff.2 (List.forall_mem_singleton.2 (hts t (List.mem_of_getElem? hi)))
  obtain ⟨hv, hr, -⟩ := (ends_body_fine hd _ (htake i) hs hf).ok hbefore
  obtain ⟨w, hw, hblamed⟩ := (ends_body_fine hd [t] ht hv hr).error hfail
  refine ⟨i, t, w, hi, ?_, by simpa [Term.walkBody] using hw, fun j hj => ?_, fun us => ?_⟩
  · cases e <;> exact hblamed
  · -- the shorter body is the first part of the body before the term
    rw [← List.take_append_drop j (ts.take i), List.take_take, Nat.min_eq_left hj,
      body_append] at hbefore
    obtain ⟨r', v', hshort, -⟩ := Ends.bind_eq_ok_iff.1 hbefore
    have hok : gatherBody d (ts.take j) (Session.within c P).begin = .ok r' v' :=
      Ends.bind_eq_ok_iff.2 ⟨f, s, hstart, hshort⟩
    cases hrun : inferBody d (ts.take j) (Session.within c P) with
    | ok r v => exact ⟨r, v, rfl⟩
    | error e v =>
      obtain ⟨w, hw, -⟩ := (ends_inferBody_fine hd (htake j)).error hrun
      cases hok.symm.trans hw
  · have hlonger : body d f (ts.take (i + 1)) s = .error e u := by
      rw [List.take_add_one, hi, Option.toList_some, body_append]
      exact Ends.bind_eq_error_iff.2 (.inr ⟨r, v, hbefore, Ends.bind_eq_error_iff.2 (.inl hfail)⟩)
    refine inferBody_of_gather_error (Ends.bind_eq_error_iff.2 (.inr ⟨f, s, hstart, ?_⟩))
    exact body_append_of_error hlonger us

end Infer

/-! ## Annotated bodies -/

/-- **A session at rest infers and annotates a body as a new one does**, and blames the same term. -/
theorem AnnotatedBody.ends_infer {c : Option Subtyping × Bool} {s : Session} (hs : s.Rested c)
    (d : Dictionary) (a : AnnotatedBody) : Ends (Infer.inferBody d a.body) (.within c [])
      (fun r u => ∃ t, a.infer d s = (.ok r.1, ⟨a.body, r.2.map some⟩, t) ∧ t.blamed = u.blamed)
      fun e u => ∃ t, a.infer d s = (.error e, a, t) ∧ t.blamed = u.blamed := by
  have halike := (Session.ready_within c []).alike_inferBody hs.toReady hs.pending (d := d) a.body
    fun _ _ _ => rfl
  refine (Ends.self _ _).mono (fun r u hr => ?_) fun e u he => ?_
  · obtain ⟨t, ht, hecho⟩ := halike.exists_ok hr
    exact ⟨t, by rw [infer, ht], congrArg (·.blamed) hecho.mute⟩
  · obtain ⟨t, ht, hecho⟩ := halike.exists_error he
    exact ⟨t, by rw [infer, ht], congrArg (·.blamed) hecho.mute⟩

/-- **A failure is blamed on the first term that fails, and changes no annotation.**  If a body of
known terms has no effect, then some term is the first to fail: the bodies that end before it have an
effect, and whatever follows it, the failure is the same and blamed on the same term, which is the
first to fail or a term in it.  If the body has an effect, all terms at every depth are annotated,
and none is to blame. -/
theorem failure_blames_first_term {c : Option Subtyping × Bool} {d : Dictionary} (hd : d.Known)
    {a : AnnotatedBody} (ha : Body.isKnown a.body = true) {s : Session} (hs : s.Rested c) :
    (∀ e after t, a.infer d s = (.error e, after, t) → after = a ∧
      ∃ i first u, a.body[i]? = some first ∧ t.blamed = some u ∧ u ∈ first.walk ∧
        (∀ j ≤ i, ∀ (b : AnnotatedBody) (s' : Session), b.body = a.body.take j → s'.Rested c →
          ∃ f, (b.infer d s').1 = .ok f) ∧
        ∀ (us : Body) (b : AnnotatedBody) (s' : Session), b.body = a.body.take (i + 1) ++ us →
          s'.Rested c → (b.infer d s').1 = .error e ∧ (b.infer d s').2.2.blamed = some u) ∧
    ∀ f after t, a.infer d s = (.ok f, after, t) → after.body = a.body ∧
      after.effects.length = (Term.walkBody a.body).length ∧
      (∀ x ∈ after.effects, x.isSome = true) ∧ t.blamed = none := by
  have hends := Infer.ends_inferBody_fine (c := c) (P := []) hd ha
  cases hrun : Infer.inferBody d a.body (.within c []) with
  | ok r u =>
    obtain ⟨t, hinfer, hblamed⟩ := (a.ends_infer hs d).ok hrun
    obtain ⟨hnone, hlength⟩ := hends.ok hrun
    rw [hinfer]
    refine ⟨fun e after t h => ?_, fun f after t h => ?_⟩
    · cases h
    · cases h
      refine ⟨rfl, by rw [List.length_map, hlength], ?_, hblamed.trans hnone⟩
      exact List.forall_mem_map.2 fun _ _ => rfl
  | error e u =>
    obtain ⟨t, hinfer, hblamed⟩ := (a.ends_infer hs d).error hrun
    obtain ⟨i, first, w, hi, hw, hwalk, hbefore, hbehind⟩ := Infer.exists_first_failure hd ha hrun
    rw [hinfer]
    refine ⟨fun e after t h => ?_, fun f after t h => ?_⟩
    · cases h
      refine ⟨rfl, i, first, w, hi, hblamed.trans hw, hwalk, ?_, ?_⟩
      · intro j hj b s' hb hs'
        obtain ⟨r, v, hok⟩ := hbefore j hj
        obtain ⟨t', ht', -⟩ := (b.ends_infer hs' d).ok (hb ▸ hok)
        exact ⟨r.1, by rw [ht']⟩
      · intro us b s' hb hs'
        obtain ⟨t', ht', hblamed'⟩ := (b.ends_infer hs' d).error (hb ▸ hbehind us)
        rw [ht']
        exact ⟨rfl, hblamed'.trans hw⟩
    · cases h

/-- In `1 ["a" add] dup` the quotation fails, and `add` in it is to blame. -/
theorem failure_blames_first_term_inside :
    let int := Kind.simple "int"
    let dup : Effect := ⟨[.typeVar "'a"], [.typeVar "'a", .typeVar "'a"], false⟩
    let add : Effect := ⟨[int, int], [int], false⟩
    let d := (Dictionary.empty.declare "dup" (some dup)).declare "add" (some add)
    let a := AnnotatedBody.plain [.literal "1" int,
      .quotation [.literal "a" (.simple "string"), .word "add"], .word "dup"]
    let s := Session.start none false .silent
    d.Known ∧ Body.isKnown a.body = true ∧ s.Rested (none, false) ∧
      ∃ e t, a.infer d s = (.error e, a, t) ∧ t.blamed.bind Term.wordName? = some "add" ∧
        ∃ i first u, a.body[i]? = some first ∧ t.blamed = some u ∧ u ∈ first.walk ∧
          (∀ j ≤ i, ∀ (b : AnnotatedBody) (s' : Session), b.body = a.body.take j →
            s'.Rested (none, false) → ∃ f, (b.infer d s').1 = .ok f) ∧
          ∀ (us : Body) (b : AnnotatedBody) (s' : Session), b.body = a.body.take (i + 1) ++ us →
            s'.Rested (none, false) →
              (b.infer d s').1 = .error e ∧ (b.infer d s').2.2.blamed = some u := by
  intro int dup add d a s
  have hdup : dup.Known := rfl
  have hsum : add.Known := rfl
  have hd : d.Known := (Dictionary.known_empty.declare "dup" hdup).declare "add" hsum
  have ha : Body.isKnown a.body = true := by decide +kernel
  have hs : s.Rested (none, false) := Session.rested_start .silent
  have hends : Ends (Infer.inferBody d a.body) s (fun _ _ => False)
      fun _ t => t.blamed.bind Term.wordName? = some "add" := by decide +kernel
  obtain ⟨e, t, hrun, hadd⟩ := hends.exists_error
  have hinfer : a.infer d s = (.error e, a, t) := by rw [AnnotatedBody.infer, hrun]
  exact ⟨hd, ha, hs, e, t, hinfer, hadd, ((failure_blames_first_term hd ha hs).1 e a t hinfer).2⟩

end StackEffect
