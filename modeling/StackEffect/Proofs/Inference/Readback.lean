import StackEffect.Proofs.Inference.Pass
import StackEffect.Proofs.Signature.Reader
import StackEffect.Proofs.Solve.Flat

/-!
# Proofs/Inference/Readback — which results can be read back

    parse (text r) = ok r   ↔   r is flat, and its type names can be written

What a pass over signatures finds has stack variables only at the bottom of stacks.  It is flat
unless it uses a variable of one slot that a stack took the place of (`result_reads_back_iff`), as
may happen (`result_with_stack_inside_stack`).  A session is idle at the start and after every
request (`Session.idle_start`, `Request.ends_run_idle`).
-/

namespace StackEffect

open Signature

/-! ## Requests -/

/-- **What an effect is asked for**: two effects, a row of effects, or a body. -/
inductive Request where
  | compose (f g : Effect)
  | composeAll (fs : List Effect)
  | infer (d : Dictionary) (ts : Body)

/-- An effect that some signature writes. -/
def Effect.Read (f : Effect) : Prop := ∃ src, Effect.parse src = .ok f

namespace Request

/-- The effects and the body were read. -/
def Read : Request → Prop
  | compose f g => f.Read ∧ g.Read
  | composeAll fs => ∀ f ∈ fs, f.Read
  | infer d ts => (∃ src, Body.parse src = .ok ts) ∧
      ∀ name f, d.lookup name = some (some f) → f.Read

/-- Infers the effect that is asked for. -/
def run : Request → Infer Effect
  | compose f g => Infer.composeTwo (some f) (some g)
  | composeAll fs => Infer.composeAll (fs.map some)
  | infer d ts => do return (← Infer.inferBody d ts).1

/-- The effect that is asked for, before the constraints are solved. -/
def gather : Request → Infer Effect
  | compose f g => do
    modify Session.begin
    Infer.composeFrom (← Infer.identity) [some f, some g]
  | composeAll fs => do
    modify Session.begin
    Infer.composeFrom (← Infer.identity) (fs.map some)
  | infer d ts => do
    modify fun s => s.begin.note fun _ => "infer " ++ Body.text ts
    return (← Infer.body d (← Infer.identity) ts).1

end Request

/-- Nothing is left of an earlier pass, or the next one will clear it. -/
def Session.Idle (s : Session) : Prop := s.used = true ∨ s.store.reset = s.store

namespace Session

variable {s t : Session} {st : Option Subtyping} {lenient : Bool}

theorem idle_start (logging : Logging) : (start st lenient logging).Idle := .inr rfl

theorem Idle.store_begin (h : s.Idle) : s.begin.store = s.store.reset := by
  unfold begin reset
  split
  · rfl
  · next hused => exact (h.resolve_left hused).symm

theorem Idle.gathers_begin (h : s.Idle) : s.begin.Gathers s.store.subtyping s.store.lenient where
  used := rfl
  under := by
    have hempty := Store.under_empty (.written s.store.subtyping s.store.lenient) .silent
    exact h.store_begin ▸ ⟨hempty.good, hempty.filled⟩
  step := h.store_begin ▸ .refl _ _

end Session

namespace Request

variable {q : Request} {s t : Session} {r : Effect}

theorem finds_gather (hq : q.Read) (hs : s.Idle) :
    Infer.Finds s.store.subtyping s.store.lenient q.gather s := by
  have hwritten : ∀ {f : Effect}, f.Read → f.kind.Written := fun ⟨_, hf⟩ =>
    Effect.written_of_parse hf
  have hrow : ∀ {fs : List Effect}, (∀ f ∈ fs, f.Read) →
      Infer.Finds s.store.subtyping s.store.lenient (gather (composeAll fs)) s := by
    intro fs hfs
    refine Ends.bind_iff.2 (Ends.modify_iff.2 ?_)
    refine (Infer.finds_identity hs.gathers_begin).bind fun f u ⟨hu, hf⟩ => ?_
    exact Infer.finds_composeFrom hu hf fun g hg => hwritten (hfs g hg)
  cases q with
  | compose f g => exact @hrow [f, g] (by simpa [Read] using hq)
  | composeAll fs => exact hrow hq
  | infer d ts =>
    obtain ⟨⟨src, hsrc⟩, hd⟩ := hq
    refine Ends.bind_iff.2 (Ends.modify_iff.2 ?_)
    refine (Infer.finds_identity (hs.gathers_begin.note _)).bind fun f u ⟨hu, hf⟩ => ?_
    refine (Infer.ends_body (fun name f hf => hwritten (hd name f hf)) ts
      (Body.plain_of_parse hsrc) hu hf).bind ?_
    exact fun _ _ hr => hr

/-- **A request gathers an effect and finishes it**; a failure is taken note of. -/
theorem ends_run_iff {Q : Effect → Session → Prop} {E : InferError → Session → Prop} :
    Ends q.run s Q E ↔ Ends (q.gather >>= Infer.finish) s Q fun e t => E e (t.fail e) := by
  cases q with
  | compose f g =>
    simp only [run, gather, Infer.composeTwo, Infer.composeAll, Infer.ends_recorded_iff,
      Ends.bind_iff, Ends.modify_iff, Option.isNone_some, Bool.or_self, Bool.false_eq_true,
      if_false]
  | composeAll fs =>
    simp only [run, gather, Infer.composeAll, Infer.ends_recorded_iff, Ends.bind_iff,
      Ends.modify_iff]
  | infer d ts =>
    simp only [run, gather, Infer.inferBody, Infer.ends_recorded_iff, Ends.bind_iff,
      Ends.modify_iff, Ends.get_iff, Ends.pure_iff]

theorem exists_gather (h : q.run s = .ok r t) :
    ∃ f u, q.gather s = .ok f u ∧ Infer.finish f u = .ok r t := by
  have hself := ends_run_iff (E := fun _ _ => True).2
    ((Ends.self (q.gather >>= Infer.finish) s).mono (fun _ _ => id) fun _ _ _ => trivial)
  exact Ends.bind_eq_ok_iff.1 (hself.ok h)

end Request

/-! ## Results -/

namespace Infer

variable {st : Option Subtyping} {lenient : Bool} {s t : Session} {f r : Effect}

/-- **A pass answers the effect it has gathered, solved.** -/
theorem ends_finish (h : s.Gathers st lenient) (f : Effect) : Ends (finish f) s
    (fun r t => r = t.finalize f ∧
      Outcome sortOf Kind.Written t.store.partition (fun n => t.store.solution[n]?) ∧
      t.store.partition.subtyping = st ∧ t.used = true)
    fun _ t => t.used = true := by
  have hcomplete := h.step.complete h.under.good
  refine Ends.bind_iff.2 (ends_onStore_iff.2 ((Store.ends_solve hcomplete.toShaped).mono ?_
    fun _ _ _ => h.used))
  rintro _ t ⟨ht, hsol⟩
  refine Ends.bind_iff.2 (Ends.get_iff.2 (Ends.bind_iff.2 (Ends.modify_iff.2 ?_)))
  refine Ends.pure_iff.2 ?_
  rw [Session.finalize_note, Session.partition_note, Session.solution_note]
  rw [← ht] at hcomplete hsol
  exact ⟨rfl, hcomplete.outcome hsol, hcomplete.subtyping, h.used⟩

end Infer

/-- **Every request leaves an idle session**, be it answered or not. -/
theorem Request.ends_run_idle {q : Request} (hq : q.Read) {s : Session} (hs : s.Idle) :
    Ends q.run s (fun _ t => t.Idle) fun _ t => t.Idle := by
  refine ends_run_iff.2 (((finds_gather hq hs).bind fun f u ⟨hu, _⟩ => ?_).mono
    (fun _ _ ht => .inl ht) fun e t ht => .inl ?_)
  · exact (Infer.ends_finish hu f).mono (fun _ _ ht => ht.2.2.2) fun _ _ ht => ht
  · cases e <;> exact ht

namespace Outcome

variable {P : Partition} {θ : String → Option Kind} {order : List String} {f r : Effect}

theorem reshaped_result (h : Outcome sortOf Kind.Written P θ) (hf : f.kind.Written)
    (hr : r = (f.resolve θ).close.generalize) :
    Kind.Reshaped (Kind.writableOr (Subtyping.topOf P.subtyping)) (f.kind.resolve θ) r.kind := by
  have hwritten : ∀ k : Kind, k.Written →
      k.all (Kind.writableOr (Subtyping.topOf P.subtyping)) = true := fun k hk =>
    Kind.all_mono (fun l hl => by simp [Kind.writableOr, hl]) hk.2.2
  have hall :=
    Kind.all_resolve (h.all_solution hwritten (by simp [Kind.writableOr])) (hwritten _ hf)
  have hclose : Kind.Reshaped _ _ (f.kind.resolve θ).close := Kind.reshaped_closeWith hall
  have hkind : r.kind = (f.kind.resolve θ).close.generalize := by
    rw [hr, Effect.kind_generalize, Effect.kind_close]
    rfl
  rw [hkind]
  exact hclose.trans (Kind.reshaped_generalize hclose.all)

/-- **A result has stack variables only at the bottom of stacks.** -/
theorem bottomed_result (h : Outcome sortOf Kind.Written P θ) (hf : f.kind.Written)
    (hr : r = (f.resolve θ).close.generalize) : r.kind.bottomed = true :=
  (h.reshaped_result hf hr).bottomed (Kind.bottomed_resolve h.bottomed_solution hf.1 hf.tidy.2).1

end Outcome

/-- **What is made of writable parts and the top type can be read back** if it is bottomed and flat,
and the top type can be written or does not occur. -/
theorem Effect.parse_text_iff_flat {r : Effect} {top : String} (hb : r.kind.bottomed = true)
    (hall : r.kind.all (Kind.writableOr top) = true) :
    Effect.parse r.text = .ok r ↔ r.kind.flat = true ∧
      (isTypeName top = true ∨ r.kind.all (· != .simple top) = true) := by
  rw [Effect.parse_text_iff]
  constructor
  · rintro ⟨-, hflat, hwrite⟩
    refine ⟨hflat, or_iff_not_imp_left.2 fun htop => Kind.all_mono (fun l hl => ?_) hwrite⟩
    rw [bne_iff_ne]
    rintro rfl
    exact htop hl
  · rintro ⟨hflat, htop⟩
    refine ⟨hb, hflat, ?_⟩
    rcases htop with htop | htop
    · refine Kind.all_mono (fun l hl => ?_) hall
      rcases Bool.or_eq_true_iff.1 hl with hl | hl
      · exact hl
      · rw [beq_iff_eq.1 hl]
        exact htop
    · refine Kind.all_imp₂ (fun l hl hne => ?_) hall htop
      exact (Bool.or_eq_true_iff.1 hl).resolve_right fun he => bne_iff_ne.1 hne (beq_iff_eq.1 he)

/-- **A result may have a stack inside a stack.**  `'R` is made equal to the slot `'a` and to
`int int`, so that `'a` becomes a stack; and the text of the result is no signature. -/
theorem result_with_stack_inside_stack :
    ∃ f g : Effect, Effect.parse "('a -> ('a -> int) (int int -> int))" = .ok f ∧
      Effect.parse "(('R -> int) ('R -> int) -> ('R -> ))" = .ok g ∧
      ∃ r t, (Request.composeAll [f, g]).run (Session.start none false .silent) = .ok r t ∧
        r.kind.flat = false ∧ r.text = "([int int] -> (int int -> ))" ∧
        Effect.parse r.text = .error ⟨1, .unexpected (some (.illegal '['))⟩ := by
  refine ⟨⟨[.typeVar "'a"], [.effect [.simple "int", .simple "int"] [.simple "int"] false,
      .effect [.typeVar "'a"] [.simple "int"] false], false⟩,
    ⟨[.effect [.stackVar "'R"] [.simple "int"] false,
      .effect [.stackVar "'R"] [.simple "int"] false], [.effect [.stackVar "'R"] [] false], false⟩,
    by decide +kernel, by decide +kernel, ?_⟩
  refine Ends.exists_ok ?_
  decide +kernel

/-- **Which results can be read back.**  The result of composing effects that were read, or of
inferring a body that was read with words that were, has stack variables only at the bottom of
stacks.  It has no stack inside a stack exactly if no variable of one slot that it uses is
represented by a stack; and it is read back from its text exactly if this is so and the top type,
where it occurs, can be written. -/
theorem result_reads_back_iff {q : Request} (hq : q.Read) {s t : Session} (hs : s.Idle) {r : Effect}
    (h : q.run s = .ok r t) :
    r.kind.bottomed = true ∧
    (Effect.parse r.text = .ok r ↔ r.kind.flat = true ∧
      (isTypeName (Subtyping.topOf s.store.subtyping) = true ∨
        r.kind.all (· != .simple (Subtyping.topOf s.store.subtyping)) = true)) ∧
    ∃ f u order, q.gather s = .ok f u ∧ r = t.finalize f ∧
      t.store.partition.Solution order (fun n => t.store.solution[n]?) ∧
      (r.kind.flat = true ↔ ∀ n, t.store.partition.Uses order f.kind n → sortOf n = .slot →
        ∀ v, t.store.partition.repOf n ≠ some (.stack v)) := by
  obtain ⟨f, u, hgather, hfinish⟩ := Request.exists_gather h
  obtain ⟨hu, hf⟩ := (Request.finds_gather hq hs).ok hgather
  obtain ⟨hr, hout, hst, -⟩ := (Infer.ends_finish hu f).ok hfinish
  obtain ⟨order, hsol⟩ := hout.solution
  have hshape := hout.reshaped_result hf hr
  have hbottomed := hout.bottomed_result hf hr
  rw [hst] at hshape
  refine ⟨hbottomed, Effect.parse_text_iff_flat hbottomed hshape.all,
    f, u, order, hgather, hr, hsol, ?_⟩
  rw [hshape.flat, hout.flat_resolve_iff_uses hsol hf.tidy rfl]
  refine forall_congr' fun n => imp_congr_right fun _ => imp_congr_right fun _ => ?_
  constructor
  · rintro hrep v hv
    simpa [Kind.isStack] using hrep _ hv
  · intro hrep k hk
    rw [← Bool.not_eq_true, Kind.isStack_iff]
    rintro ⟨v, rfl⟩
    exact hrep v hk

/-- The result of `1 [dup] apply` is read back. -/
theorem result_reads_back_iff_apply :
    let dup : Effect := ⟨[.typeVar "'a"], [.typeVar "'a", .typeVar "'a"], false⟩
    let apply : Effect := ⟨[.effect [.stackVar "'A"] [.stackVar "'B"] false, .stackVar "'A"],
      [.stackVar "'B"], false⟩
    let q := Request.infer ⟨[("apply", some apply), ("dup", some dup)], []⟩
      [.literal "1" (.simple "int"), .quotation [.word "dup"], .word "apply"]
    let s := Session.start none false .silent
    q.Read ∧ s.Idle ∧ ∃ r t, q.run s = .ok r t ∧ r.text = "( -> int int)" ∧
      r.kind.bottomed = true ∧ Effect.parse r.text = .ok r ∧
      ∃ f u order, q.gather s = .ok f u ∧ r = t.finalize f ∧
        t.store.partition.Solution order (fun n => t.store.solution[n]?) ∧
        ∀ n, t.store.partition.Uses order f.kind n → sortOf n = .slot →
          ∀ v, t.store.partition.repOf n ≠ some (.stack v) := by
  intro dup apply q s
  have hread : q.Read := by
    refine ⟨⟨"1 [dup] apply", by rfl⟩, fun name f hf => ⟨f.text, Effect.parse_text_iff.2 ?_⟩⟩
    have hf' : f = apply ∨ f = dup := by
      simp only [Dictionary.lookup, List.findSome?_cons, List.findSome?_nil, Assoc.get?,
        List.lookup_cons, List.lookup_nil] at hf
      grind
    rcases hf' with rfl | rfl
    · decide +kernel
    · decide +kernel
  have hidle : s.Idle := Session.idle_start .silent
  have hrun : Ends q.run s (fun r _ => r.text = "( -> int int)" ∧ r.kind.flat = true ∧
      r.kind.all (· != .simple (Subtyping.topOf s.store.subtyping)) = true) fun _ _ => False := by
    decide +kernel
  obtain ⟨r, t, hrt, htext, hflat, htop⟩ := hrun.exists_ok
  obtain ⟨hb, hparse, f, u, order, hgather, hr, hsol, huses⟩ :=
    result_reads_back_iff hread hidle hrt
  exact ⟨hread, hidle, r, t, hrt, htext, hb, hparse.2 ⟨hflat, .inr htop⟩, f, u, order, hgather, hr,
    hsol, huses.1 hflat⟩

end StackEffect
