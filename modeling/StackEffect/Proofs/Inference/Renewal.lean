import StackEffect.Proofs.Inference.Definitions

/-!
# Proofs/Inference/Renewal — a session that was used is as good as a new one

    u.outcome s       what a use u of the session s answers, or why it fails
    u.after s         the session that it leaves

Whatever a session was used for, and however that ended, it is ready for a pass and has no
definitions pending (`Session.Rested`).  Every pass clears what the one before has left, so the next
use has the same outcome as it has for a new session, and a pass leaves the same error, the same
solution and the same constraints (`used_session_as_new`).  Composing an effect that is not there
begins no pass and clears nothing.
-/

namespace StackEffect

/-! ## Sessions between passes -/

namespace Session

variable {c : Option Subtyping × Bool} {P : List String} {s t : Session}

/-- **Sessions are on a level**: both are ready, with the same definitions pending. -/
structure Level (c : Option Subtyping × Bool) (s t : Session) : Prop where
  left : s.Ready c
  right : t.Ready c
  pending : t.pending = s.pending

theorem Echoes.level (h : Echoes c P s t) : Level c s t :=
  ⟨h.ready_left, h.ready_right, h.pending_right.trans h.pending.symm⟩

theorem Ready.reset_eq (h : s.Ready c) : s.reset = s.clear := by
  unfold reset
  split
  · rfl
  · next hused => exact (h.idle.resolve_left hused).symm

/-- **A session at rest**: it is ready, and nothing is pending. -/
structure Rested (c : Option Subtyping × Bool) (s : Session) : Prop extends s.Ready c where
  pending : s.pending = []

theorem rested_start {st : Option Subtyping} {lenient : Bool} (logging : Logging) :
    (start st lenient logging).Rested (st, lenient) := ⟨ready_start logging, rfl⟩

theorem Rested.level (hs : s.Rested c) (ht : t.Rested c) : Level c s t :=
  ⟨hs.toReady, ht.toReady, ht.pending.trans hs.pending.symm⟩

theorem Echoes.rested (h : Echoes c [] s t) : s.Rested c := ⟨h.ready_left, h.pending⟩

theorem Rested.reset (h : s.Rested c) : s.reset.Rested c := by
  rw [h.toReady.reset_eq]
  exact ⟨⟨h.mode, .inr rfl⟩, h.pending⟩

end Session

namespace Infer

open Session

variable {c : Option Subtyping × Bool} {d : Dictionary} {s t : Session}

theorem alike_attempt (h : Level c s t) (ts : Body) :
    Alike (attempt d ts) s (attempt d ts) t (Echoes c s.pending) := by
  have hbody := h.left.alike_inferBody h.right h.pending (d := d) ts fun _ _ _ => rfl
  rcases hbody.ok_or_error with ⟨r, u, v, hs, ht, huv⟩ | ⟨e, u, v, hs, ht, huv⟩
  · exact .of_ok (by rw [attempt, hs]) (by rw [attempt, ht]) huv
  · cases e with
    | brokenWord => exact .of_error (by rw [attempt, hs]) (by rw [attempt, ht]) huv
    | _ => exact .of_ok (by rw [attempt, hs]) (by rw [attempt, ht]) huv

/-- **Sessions on a level infer a definition alike.** -/
theorem steady_definition (D : Definition) (d : Dictionary) :
    Steady (Level c) (definition D d) (definition D d) := by
  refine .steady fun s t h => ?_
  refine (alike_attempt h D.body).bind (fun outcome u v huv => ?_) fun _ _ => Echoes.level
  refine .modify_bind ?_
  cases outcome with
  | ok r => exact ⟨rfl, (huv.forget D.name).level⟩
  | error e => exact .modify_bind ⟨rfl, ((huv.forget D.name).note _ _).level⟩

theorem steady_definitionRow {ι : Type} (defs : ι → Definition) (is : List ι) (d : Dictionary) :
    Steady (Level c) (definitionRow defs is d) (definitionRow defs is d) := by
  induction is generalizing d with
  | nil => exact .pure
  | cons i is ih => exact (steady_definition (defs i) d).bind fun r => (ih r.2).bind fun _ => .pure

theorem steady_withPending (P : List String) :
    Steady (Level c) (modify fun s => { s with pending := P } : Infer PUnit)
      (modify fun s => { s with pending := P }) :=
  .modify fun _ _ h => ⟨h.left.withPending P, h.right.withPending P, rfl⟩

theorem steady_definitionGroups {ι : Type} (defs : ι → Definition) (groups : List (List ι))
    (d : Dictionary) :
    Steady (Level c) (definitionGroups defs groups d) (definitionGroups defs groups d) := by
  induction groups generalizing d with
  | nil => exact .pure
  | cons group groups ih =>
    exact (steady_withPending _).seq <| (steady_definitionRow defs group d).bind fun r =>
      (ih r.2).bind fun _ => .pure

/-- **Sessions on a level infer a group of definitions alike.** -/
theorem steady_definitions (defs : Array Definition) (d : Dictionary) :
    Steady (Level c) (definitions defs d) (definitions defs d) :=
  (steady_definitionGroups _ _ d.enter).bind fun _ => (steady_withPending []).seq .pure

end Infer

/-! ## Uses of a session -/

/-- **What a session is used for.** -/
inductive Use where
  | compose (f g : Option Effect)
  | composeAll (fs : List (Option Effect))
  | infer (d : Dictionary) (ts : Body)
  | definitions (defs : Array Definition) (d : Dictionary)
  | reset

namespace Use

/-- What a use answers. -/
def Answer : Use → Type
  | compose _ _ | composeAll _ => Effect
  | infer _ _ => Effect × List Effect
  | definitions defs _ => List (Fin defs.size × Inferred) × Dictionary
  | reset => PUnit

/-- Uses a session. -/
def run : (u : Use) → Infer u.Answer
  | compose f g => Infer.composeTwo f g
  | composeAll fs => Infer.composeAll fs
  | infer d ts => Infer.inferBody d ts
  | definitions defs d => Infer.definitions defs d
  | reset => modify Session.reset

/-- **The outcome of a use**: its answer, or why it fails. -/
def outcome (u : Use) (s : Session) : Except InferError u.Answer :=
  match u.run s with
  | .ok a _ => .ok a
  | .error e _ => .error e

/-- **The session that a use leaves**, be it answered or not. -/
def after (u : Use) (s : Session) : Session :=
  match u.run s with
  | .ok _ t => t
  | .error _ t => t

/-- The use clears the session: all do, except that effects which are not there are not composed. -/
def Clears : Use → Prop
  | compose f g => f.isSome = true ∧ g.isSome = true
  | _ => True

/-- The use is about a group of definitions. -/
def Groups : Use → Prop
  | definitions _ _ => True
  | _ => False

variable {u : Use} {s t : Session} {c : Option Subtyping × Bool} {history : List Use}

theorem after_of_ends {Q : Session → Prop} (h : Ends u.run s (fun _ t => Q t) fun _ t => Q t) :
    Q (u.after s) := by
  unfold after
  unfold Ends at h
  cases hu : u.run s <;> rwa [hu] at h

theorem outcome_eq_of_alike {R : Session → Session → Prop} (h : Alike u.run s u.run t R) :
    u.outcome s = u.outcome t ∧ R (u.after s) (u.after t) := by
  unfold outcome after
  rcases h.ok_or_error with ⟨a, s', t', hs, ht, hst⟩ | ⟨e, s', t', hs, ht, hst⟩
  · rw [hs, ht]
    exact ⟨rfl, hst⟩
  · rw [hs, ht]
    exact ⟨rfl, hst⟩

theorem composeTwo_of_isSome {f g : Option Effect} (h : f.isSome = true ∧ g.isSome = true) :
    Infer.composeTwo f g = Infer.composeAll [f, g] := by
  obtain ⟨f, rfl⟩ := Option.isSome_iff_exists.1 h.1
  obtain ⟨g, rfl⟩ := Option.isSome_iff_exists.1 h.2
  rfl

/-- **Sessions on a level are used alike**, for anything but groups of definitions, and look alike
afterwards. -/
theorem alike_mute (h : s.Level c t) (hu : u.Clears) (hgroups : ¬ u.Groups) :
    Alike u.run s u.run t fun s t => t.mute = s.mute := by
  cases u with
  | compose f g =>
    change Alike (Infer.composeTwo f g) s (Infer.composeTwo f g) t _
    rw [composeTwo_of_isSome hu]
    exact (h.left.alike_composeAll h.right h.pending [f, g]).mono fun _ _ hst => hst.mute
  | composeAll fs =>
    exact (h.left.alike_composeAll h.right h.pending fs).mono fun _ _ hst => hst.mute
  | infer d ts =>
    exact (h.left.alike_inferBody h.right h.pending ts fun _ _ _ => rfl).mono
      fun _ _ hst => hst.mute
  | definitions defs d => exact (hgroups trivial).elim
  | reset =>
    refine ⟨rfl, ?_⟩
    rw [h.left.reset_eq, h.right.reset_eq]
    exact h.left.mute_clear h.right h.pending

/-! ## Histories -/

/-- A group of definitions is inferred to its end: no broken word breaks it off. -/
def Returns (u : Use) (s : Session) : Prop := u.Groups → ∃ a, u.outcome s = .ok a

/-- The session that a history of uses leaves. -/
def afterAll (history : List Use) (s : Session) : Session := history.foldl (fun s u => u.after s) s

/-- All groups of definitions of a history are inferred to their ends. -/
def ReturnAll : List Use → Session → Prop
  | [], _ => True
  | u :: history, s => u.Returns s ∧ ReturnAll history (u.after s)

theorem rested_composeAll (h : s.Rested c) (fs : List (Option Effect)) :
    Ends (Infer.composeAll fs) s (fun _ t => t.Rested c) fun _ t => t.Rested c := by
  have halike := h.toReady.alike_composeAll h.toReady rfl fs
  rw [h.pending] at halike
  exact halike.ends_self.mono (fun _ _ ht => ht.rested) fun _ _ ht => ht.rested

/-- **A use leaves a session at rest**, however it ends. -/
theorem rested_after (h : s.Rested c) (hu : u.Returns s) : (u.after s).Rested c := by
  cases u with
  | compose f g =>
    refine after_of_ends (u := compose f g) (Ends.ite (fun _ => h) fun _ => ?_)
    exact rested_composeAll h [f, g]
  | composeAll fs => exact after_of_ends (u := composeAll fs) (rested_composeAll h fs)
  | infer d ts =>
    have halike := h.toReady.alike_inferBody h.toReady rfl (d := d) ts fun _ _ _ => rfl
    rw [h.pending] at halike
    exact after_of_ends (u := infer d ts)
      (halike.ends_self.mono (fun _ _ ht => ht.rested) fun _ _ ht => ht.rested)
  | definitions defs d =>
    -- the last step of a run that comes to its end is to have nothing pending
    have hready := ((Infer.steady_definitions defs d).alike (h.level h)).ends_self
    have hpending : Ends (Infer.definitions defs d) s (fun _ t => t.pending = []) fun _ _ => True :=
      Ends.bind_iff.2 ((Ends.self _ s).mono (fun _ _ _ => rfl) fun _ _ _ => trivial)
    obtain ⟨a, ha⟩ := hu trivial
    unfold outcome at ha
    unfold after
    cases hrun : (definitions defs d).run s with
    | ok a t => exact ⟨(hready.ok hrun).left, hpending.ok hrun⟩
    | error e t =>
      rw [hrun] at ha
      cases ha
  | reset => exact after_of_ends (u := reset) h.reset

-- a group that a broken word breaks off stays pending, and no later pass clears that
example : ((definitions #[⟨"main", [.word "broken"]⟩] (Dictionary.empty.declare "broken" none)).after
    (.start none false .silent)).pending = ["main"] := by decide +kernel

theorem rested_afterAll (h : s.Rested c) (hhistory : ReturnAll history s) :
    (afterAll history s).Rested c := by
  induction history generalizing s with
  | nil => exact h
  | cons u history ih => exact ih (rested_after h hhistory.1) hhistory.2

/-- **By whole dictionaries all groups of definitions are inferred to their ends.** -/
theorem returnAll_of_whole (h : s.Rested c)
    (hwhole : ∀ defs d, definitions defs d ∈ history → d.Whole) : ReturnAll history s := by
  induction history generalizing s with
  | nil => trivial
  | cons u history ih =>
    have hreturns : u.Returns s := by
      intro hgroups
      cases u with
      | definitions defs d =>
        obtain ⟨rs, t, hok, -⟩ := Infer.exists_run h.toReady (hwhole _ _ List.mem_cons_self) defs
        exact ⟨(rs, _), by rw [outcome, run, hok]⟩
      | _ => exact hgroups.elim
    exact ⟨hreturns, ih (rested_after h hreturns) fun defs d hmem =>
      hwhole defs d (List.mem_cons_of_mem _ hmem)⟩

end Use

/-- **A session that was used is as good as a new one.**  After every history of uses, be they
answered or not, whose groups of definitions were inferred to their ends, the next use has the
outcome it has for a new session that goes by the same order of types and the same treatment of
sizes, whatever either of them logs.  A use other than a group of definitions leaves the same error,
the same term to blame, the same solution and the same constraints. -/
theorem used_session_as_new {st : Option Subtyping} {lenient : Bool} {logging : Logging}
    (logging' : Logging) {history : List Use}
    (hhistory : Use.ReturnAll history (.start st lenient logging)) {u : Use} (hu : u.Clears) :
    let s := Use.afterAll history (.start st lenient logging)
    let new := Session.start st lenient logging'
    u.outcome s = u.outcome new ∧
      (¬ u.Groups → (u.after s).error = (u.after new).error ∧
        (u.after s).blamed = (u.after new).blamed ∧
        (u.after s).store.solution = (u.after new).store.solution ∧
        (u.after s).store.text = (u.after new).store.text) := by
  intro s new
  have hs : s.Rested (st, lenient) := Use.rested_afterAll (Session.rested_start logging) hhistory
  have hlevel := hs.level (Session.rested_start logging')
  by_cases hgroups : u.Groups
  · refine ⟨?_, fun h => (h hgroups).elim⟩
    cases u with
    | definitions defs d =>
      exact (Use.outcome_eq_of_alike (u := .definitions defs d)
        ((Infer.steady_definitions defs d).alike hlevel)).1
    | _ => exact hgroups.elim
  · obtain ⟨houtcome, hmute⟩ := Use.outcome_eq_of_alike (Use.alike_mute hlevel hu hgroups)
    have herror := congrArg Session.error hmute
    have hblamed := congrArg Session.blamed hmute
    have hsolution := congrArg (·.store.solution) hmute
    have htext := congrArg (·.store.text) hmute
    exact ⟨houtcome, fun _ => ⟨herror.symm, hblamed.symm, hsolution.symm, htext.symm⟩⟩

/-- A history of an unknown word, of definitions one of which fails, and of effects that are not
there; then a body is inferred. -/
theorem used_session_as_new_after_failures :
    let d := Dictionary.empty.declare "one" (some ⟨[], [.simple "int"], false⟩)
    let defs : Array Definition :=
      #[⟨"main", [.word "helper", .quotation [.word "main"]]⟩, ⟨"helper", [.word "gone"]⟩]
    let history : List Use := [.infer d [.word "gone"], .definitions defs d, .compose none none,
      .composeAll [some ⟨[.simple "int"], [], false⟩, none]]
    let u := Use.infer d [.word "one", .quotation [.word "one"]]
    Use.ReturnAll history (.start none false .all) ∧ u.Clears ∧ ¬ u.Groups ∧
      let s := Use.afterAll history (.start none false .all)
      let new := Session.start none false .silent
      u.outcome s = u.outcome new ∧
        (¬ u.Groups → (u.after s).error = (u.after new).error ∧
          (u.after s).blamed = (u.after new).blamed ∧
          (u.after s).store.solution = (u.after new).store.solution ∧
          (u.after s).store.text = (u.after new).store.text) := by
  intro d defs history u
  have hreturn : Use.ReturnAll history (.start none false .all) := by
    refine Use.returnAll_of_whole (Session.rested_start .all) fun defs' d' hmem => ?_
    have hd : d' = d := by
      rcases List.mem_cons.1 hmem with h | hmem
      · cases h
      rcases List.mem_cons.1 hmem with h | hmem
      · exact (Use.definitions.inj h).2
      · simp at hmem
    exact hd ▸ Dictionary.whole_empty.declare _ _
  exact ⟨hreturn, trivial, id, used_session_as_new .silent hreturn trivial⟩

end StackEffect
