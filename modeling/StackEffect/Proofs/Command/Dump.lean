import Mathlib.Control.Monad.Basic
import StackEffect.Command.Run
import StackEffect.Proofs.Inference.Identity
import StackEffect.Proofs.Inference.Verdict
import StackEffect.Proofs.Settings

/-!
# Proofs/Command/Dump — the canonical effect of every word

    dup     ('b -> 'b 'b)   ('a -> 'a 'a)
    over    (oops           error:...

Each word is looked up under its own name and composed alone, in one session after another pass.  So
`dump` shows the canonical form of every signature that can be read, and the error of every other one
(`Command.shows_dump`).
-/

namespace StackEffect

/-! ## The dictionary of the words -/

namespace Settings

/-- **What a word that settings declare is found to be.** -/
structure Finds (r : Dictionary × Assoc SignatureError) (w : String × String) : Prop where
  ok : ∀ f, Effect.parse w.2 = .ok f → Assoc.get? r.2 w.1 = .none ∧ r.1.lookup w.1 = some (some f)
  error : ∀ e, Effect.parse w.2 = .error e → Assoc.get? r.2 w.1 = some e

variable {r : Dictionary × Assoc SignatureError} {name : String}

/-- Words of other names are found as before. -/
theorem foldl_declare {step : Dictionary × Assoc SignatureError → String × String →
      Dictionary × Assoc SignatureError}
    (hok : ∀ r w f, Effect.parse w.2 = .ok f → step r w = (r.1.declare w.1 (some f), r.2))
    (herror : ∀ r w e, Effect.parse w.2 = .error e → step r w = (r.1, Assoc.put r.2 w.1 e))
    {ws : Assoc String} (hname : ∀ w ∈ ws, w.1 ≠ name) :
    (ws.foldl step r).1.lookup name = r.1.lookup name ∧
      Assoc.get? (ws.foldl step r).2 name = Assoc.get? r.2 name := by
  induction ws generalizing r with
  | nil => exact ⟨rfl, rfl⟩
  | cons w ws ih =>
    rw [List.forall_mem_cons] at hname
    obtain ⟨hlookup, hget⟩ := ih (r := step r w) hname.2
    rw [List.foldl_cons, hlookup, hget]
    cases hparse : Effect.parse w.2 with
    | ok f =>
      rw [hok r w f hparse, Dictionary.lookup_declare, if_neg hname.1.symm]
      exact ⟨rfl, rfl⟩
    | error e =>
      rw [herror r w e hparse, Assoc.get?_put, if_neg hname.1.symm]
      exact ⟨rfl, rfl⟩

/-- **Words of different names are all found.** -/
theorem finds_foldl {step : Dictionary × Assoc SignatureError → String × String →
      Dictionary × Assoc SignatureError}
    (hok : ∀ r w f, Effect.parse w.2 = .ok f → step r w = (r.1.declare w.1 (some f), r.2))
    (herror : ∀ r w e, Effect.parse w.2 = .error e → step r w = (r.1, Assoc.put r.2 w.1 e))
    {ws : Assoc String} (hnames : ws.Pairwise fun a b => a.1 ≠ b.1)
    (hr : ∀ w ∈ ws, Assoc.get? r.2 w.1 = .none) : ∀ w ∈ ws, Finds (ws.foldl step r) w := by
  induction ws generalizing r with
  | nil => exact fun _ hw => absurd hw List.not_mem_nil
  | cons w ws ih =>
    rw [List.pairwise_cons] at hnames
    rw [List.forall_mem_cons] at hr ⊢
    rw [List.foldl_cons]
    obtain ⟨hlookup, hget⟩ := foldl_declare (r := step r w) hok herror
      fun v hv => (hnames.1 v hv).symm
    refine ⟨⟨fun f hf => ?_, fun e he => ?_⟩, ih hnames.2 fun v hv => ?_⟩
    · rw [hlookup, hget, hok r w f hf, Dictionary.lookup_declare, if_pos rfl]
      exact ⟨hr.1, rfl⟩
    · rw [hget, herror r w e he, Assoc.get?_put, if_pos rfl]
    · cases hparse : Effect.parse w.2 with
      | ok f =>
        rw [hok r w f hparse]
        exact hr.2 v hv
      | error e =>
        rw [herror r w e hparse, Assoc.get?_put, if_neg (hnames.1 v hv).symm]
        exact hr.2 v hv

theorem InOrder.finds {s : Settings} (h : s.InOrder) : ∀ w ∈ s.words, Finds s.dictionary w := by
  refine finds_foldl (fun r w f hf => ?_) (fun r w e he => ?_) (h.imp fun hab => hab.ne)
    fun _ _ => rfl
  · simp [Dictionary.declareSignature, hf, Except.map]
  · simp [Dictionary.declareSignature, he, Except.map]

end Settings

/-! ## Lines -/

theorem Session.Ready.idle_session {c : Option Subtyping × Bool} {s : Session} (h : s.Ready c) :
    s.Idle := h.idle.imp_right fun hclear => congrArg Session.store hclear

namespace Command

/-- **What `dump` shows of a word**: its name, its signature, and the canonical form or the error. -/
structure Shows (w : String × String) (l : Line) : Prop where
  ok : ∀ f, Effect.parse w.2 = .ok f →
    l = ⟨w.1 ++ "\t" ++ w.2 ++ "\t" ++ f.close.generalize.text, false⟩
  error : ∀ e, Effect.parse w.2 = .error e →
    l = ⟨w.1 ++ "\t" ++ w.2 ++ "\terror:" ++ e.message, true⟩

variable {st : Option Subtyping} {s : Session} {w : String × String} {ws : Assoc String}
  {lines : List Line}

theorem shows_dumpLine {r : Dictionary × Assoc SignatureError} (hw : Settings.Finds r w)
    (hcount : ∀ f, Effect.parse w.2 = .ok f → f.bases.length + 2 ≤ 2 ^ 64)
    (hs : s.Ready (st, false)) : Shows w (dumpLine r.1 r.2 w.1 w.2 s).1 ∧
      (dumpLine r.1 r.2 w.1 w.2 s).2.Ready (st, false) := by
  cases hparse : Effect.parse w.2 with
  | error e =>
    rw [dumpLine, hw.error e hparse]
    refine ⟨⟨fun f hf => ?_, fun e' he' => ?_⟩, hs⟩
    · cases hparse.symm.trans hf
    · rw [Except.error.inj (hparse.symm.trans he')]
  | ok f =>
    obtain ⟨hget, hlookup⟩ := hw.ok f hparse
    obtain ⟨g, t, hrun, rfl⟩ := (hs.idle_session.ends_amid (congrArg Prod.snd hs.mode) ⟨_, hparse⟩
      (m := 0) (n := 0) (by simpa using hcount f hparse)).exists_ok
    have hready := (hs.alike_composeAll hs rfl [some f]).ends_self.ok hrun
    have hline : dumpLine r.1 r.2 w.1 w.2 s =
        (⟨w.1 ++ "\t" ++ w.2 ++ "\t" ++ f.close.generalize.text, false⟩, t) := by
      change Infer.composeAll [some f] s = .ok _ t at hrun
      simp [dumpLine, hget, hlookup, hrun]
    rw [hline]
    refine ⟨⟨fun f' hf' => ?_, fun e he => ?_⟩, hready.ready_left⟩
    · rw [Except.ok.inj (hparse.symm.trans hf')]
    · cases hparse.symm.trans he

/-- A line for each word, one session after another. -/
theorem foldl_shows {step : List Line × Session → String × String → List Line × Session}
    (hstep : ∀ w ∈ ws, ∀ lines s, s.Ready (st, false) → ∃ l t, step (lines, s) w = (lines ++ [l], t) ∧
      Shows w l ∧ t.Ready (st, false)) (lines : List Line) (hs : s.Ready (st, false)) :
    ∃ ls t, ws.foldl step (lines, s) = (lines ++ ls, t) ∧ List.Forall₂ Shows ws ls := by
  induction ws generalizing lines s with
  | nil => exact ⟨[], s, by simp, .nil⟩
  | cons w ws ih =>
    rw [List.forall_mem_cons] at hstep
    obtain ⟨l, t, hl, hshows, ht⟩ := hstep.1 lines s hs
    obtain ⟨ls, u, hls, hrest⟩ := ih hstep.2 (lines ++ [l]) ht
    refine ⟨l :: ls, u, ?_, .cons hshows hrest⟩
    rw [List.foldl_cons, hl, hls, List.append_assoc]
    rfl

/-- **`dump` shows every word.** -/
theorem shows_dump {settings : Settings} (horder : settings.InOrder)
    (hcount : ∀ w ∈ settings.words, ∀ f, Effect.parse w.2 = .ok f → f.bases.length + 2 ≤ 2 ^ 64)
    (hs : s.Ready (st, false)) : List.Forall₂ Shows settings.words (dump settings s).lines := by
  let line (w : String × String) (s : Session) : Line × Session :=
    dumpLine settings.dictionary.1 settings.dictionary.2 w.1 w.2 s
  let step (r : List Line × Session) (w : String × String) : List Line × Session :=
    (r.1 ++ [(line w r.2).1], (line w r.2).2)
  have hdump : (dump settings s).lines = (settings.words.foldl step ([], s)).1 := rfl
  have hstep : ∀ w ∈ settings.words, ∀ lines s, s.Ready (st, false) →
      ∃ l t, step (lines, s) w = (lines ++ [l], t) ∧ Shows w l ∧ t.Ready (st, false) :=
    fun w hw lines s hs => ⟨_, _, rfl, shows_dumpLine (horder.finds w hw) (hcount w hw) hs⟩
  obtain ⟨lines, t, hlines, hshows⟩ := foldl_shows hstep [] hs
  rwa [hdump, hlines]

theorem Shows.isError_iff {l : Line} (h : Shows w l) :
    l.isError = true ↔ (Effect.parse w.2).isOk = false := by
  cases hparse : Effect.parse w.2 with
  | ok f => simp [h.ok f hparse, Except.isOk, Except.toBool]
  | error e => simp [h.error e hparse, Except.isOk, Except.toBool]

theorem any_isError_iff (h : List.Forall₂ Shows ws lines) :
    lines.any Line.isError = true ↔ ∃ w ∈ ws, (Effect.parse w.2).isOk = false := by
  induction h with
  | nil => simp
  | cons hw _ ih =>
    rw [List.any_cons, Bool.or_eq_true, hw.isError_iff, ih]
    simp only [List.mem_cons, exists_eq_or_imp]

end Command

/-- **Doing nothing is neutral, and `dump` prints canonical forms.**  An effect that a signature writes,
composed alone, after doing nothing or before doing nothing, answers its closed canonical form.  So
`dump` prints a line for every word, in the order of the names: with the canonical form of the
signature if it can be read, and with an error if it cannot.  It fails if there is an error.  (No
effect has so many variables that counting the fresh names begins again.) -/
theorem nop_neutral_and_dump_canonical :
    (∀ (f : Effect) (s : Session), f.Read → s.Idle → s.store.lenient = false →
      f.bases.length + 3 ≤ 2 ^ 64 →
      (∃ t, (Request.composeAll [f]).run s = .ok f.close.generalize t) ∧
      (∃ t, (Request.compose .nop f).run s = .ok f.close.generalize t) ∧
      ∃ t, (Request.compose f .nop).run s = .ok f.close.generalize t) ∧
    Effect.parse "( -> )" = .ok .nop ∧
    (∀ src settings, Settings.parse src = .ok settings → settings.InOrder) ∧
    ∀ (settings : Settings) (l : Lattice) (o : Options) (color : Bool),
      settings.InOrder → settings.lenient = false →
      (∀ w ∈ settings.words, ∀ f, Effect.parse w.2 = .ok f → f.bases.length + 2 ≤ 2 ^ 64) →
      let outcome := Command.perform "dump" color o settings l
      (∃ lines, List.Forall₂ Command.Shows settings.words lines ∧
        outcome.out = String.join (lines.map (Command.Line.written color))) ∧
      outcome.code =
        if ∃ w ∈ settings.words, (Effect.parse w.2).isOk = false then 1 else 0 := by
  refine ⟨fun f s hf hs hstrict hcount => ?_, by decide +kernel,
    fun _ _ => Settings.inOrder_of_parse, fun settings l o color horder hlenient hcount => ?_⟩
  · have hends : ∀ m n, m + n ≤ 1 → ∃ t, (Request.composeAll
        (List.replicate m .nop ++ f :: List.replicate n .nop)).run s = .ok f.close.generalize t := by
      intro m n hmn
      obtain ⟨_, t, ht, rfl⟩ := (hs.ends_amid hstrict hf (m := m) (n := n) (by omega)).exists_ok
      exact ⟨t, ht⟩
    exact ⟨hends 0 0 (by decide), hends 1 0 (by decide), hends 0 1 (by decide)⟩
  · let logging : Logging := if settings.verbose || o.verbose then .all else .warnings
    let start := Session.start (some l.subtyping) false logging
    have hready : start.Ready (some l.subtyping, false) := Session.ready_start logging
    have hshows := Command.shows_dump horder hcount hready
    have hperform : Command.perform "dump" color o settings l =
        (Command.dump settings start).outcome color := by
      rw [Command.perform, if_pos rfl, hlenient]
    rw [hperform]
    exact ⟨⟨_, hshows, rfl⟩, if_congr (Command.any_isError_iff hshows) rfl rfl⟩

/-- Copying, alone and among words of which another one cannot be read. -/
theorem nop_neutral_and_dump_canonical_dup :
    let f : Effect := ⟨[.typeVar "'b"], [.typeVar "'b", .typeVar "'b"], false⟩
    let s := Session.start none false .silent
    let settings : Settings := ⟨"", false, false, [("bad", "(int"), ("dup", "('b -> 'b 'b)")], []⟩
    Effect.parse "('b -> 'b 'b)" = .ok f ∧ f.close.generalize.text = "('a -> 'a 'a)" ∧
      (∃ t, (Request.compose .nop f).run s = .ok f.close.generalize t) ∧
      (Effect.parse "(int").isOk = false ∧ settings.InOrder ∧
      (Command.perform "dump" false default settings .default).code = 1 := by
  intro f s settings
  have hf : Effect.parse "('b -> 'b 'b)" = .ok f := by decide +kernel
  have hbad : (Effect.parse "(int").isOk = false := by decide +kernel
  have horder : settings.InOrder := by
    refine List.pairwise_pair.2 ?_
    decide
  have hcount : ∀ w ∈ settings.words, ∀ f, Effect.parse w.2 = .ok f → f.bases.length + 2 ≤ 2 ^ 64 := by
    refine List.forall_mem_cons.2 ⟨fun g hg => ?_, List.forall_mem_singleton.2 fun g hg => ?_⟩
    · change Effect.parse "(int" = .ok g at hg
      rw [hg] at hbad
      cases hbad
    · rw [← Except.ok.inj (hf.symm.trans hg)]
      decide
  obtain ⟨hneutral, -, -, hdump⟩ := nop_neutral_and_dump_canonical
  refine ⟨hf, by decide +kernel, ?_, hbad, horder, ?_⟩
  · exact (hneutral f s ⟨_, hf⟩ (Session.idle_start .silent) rfl (by decide)).2.1
  · rw [(hdump settings .default default false horder rfl hcount).2]
    exact if_pos ⟨_, List.mem_cons_self, hbad⟩

end StackEffect
