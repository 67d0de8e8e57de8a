import StackEffect.Proofs.Inference.Readback
import StackEffect.Proofs.Inference.Renewal
import StackEffect.Proofs.Kind.Relabel

/-!
# Proofs/Inference/Spelling — bodies that spell a row of effects

    1  dup  add        ( -> int)  ('a -> 'a 'a)  (int int -> int)

A word stands for the effect it is declared with, and a literal without variables for pushing its
kind.  A body of such terms and the row of their effects draw the same names in the same order, and
the constraints are between the same stacks: a literal has no variables, so an instance of its effect
is that effect and draws no name (`Fresh.instantiateEffect_eq_self`).  Only the term that is to blame
tells the two apart (`Infer.ends_body_of_row`, `body_composes_as_row`).
-/

namespace StackEffect

/-- Only the variables of an instance are new. -/
theorem Fresh.instantiateEffect_eq_self {f : Effect} (hf : f.kind.vars = []) (c : Fresh) :
    c.instantiateEffect f = (f, c) := by
  have hstored : f.kind.storedVars = [] := List.eq_nil_iff_forall_not_mem.2 fun v hv =>
    List.not_mem_nil (hf ▸ Kind.mem_storedVars.1 hv)
  have hsubst : f.kind.subst (apply []) = f.kind := Kind.relabel_id (k := f.kind)
  rw [instantiateEffect, hstored]
  exact congrArg (·, c) (Effect.kind_injective hsubst)

/-- **The effect that a term stands for**: what a word is declared as, and pushing the kind of a literal
without variables. -/
inductive Term.StandsFor (d : Dictionary) : Term → Effect → Prop
  | word {name : String} {f : Effect} (h : d.lookup name = some (some f)) : StandsFor d (.word name) f
  | literal {text : String} {kind : Kind} (h : kind ≠ .absent) (hvars : kind.vars = []) :
    StandsFor d (.literal text kind) (Infer.pushes kind)

namespace Infer

variable {c : Option Subtyping × Bool} {d : Dictionary} {s : Session} {t : Term} {f acc : Effect}
  {ts : List Term} {fs : List Effect} {E E' : InferError → Session → Prop}

theorem vars_pushes {k : Kind} : (pushes k).kind.vars = k.vars := by
  simp [pushes, Effect.kind, Kind.vars, Kind.slotVars]

/-- **A term outside definitions is inferred as an instance of the effect it stands for.** -/
theorem ends_term_iff (h : t.StandsFor d f) (hs : s.pending = [])
    {Q : Effect × List Effect → Session → Prop} :
    Ends (term d t) s Q E ↔ Ends (instantiate f) s (fun g u => Q (g, [g]) u) E := by
  cases h with
  | @word name f h =>
    have hword : word d name s = instantiate f s := by
      change (if s.pending.contains name then recursive else _ : Infer Effect) s = _
      rw [hs, h]
      rfl
    rw [term, Ends.bind_iff]
    unfold Ends
    rw [hword]
    rfl
  | @literal text kind h hvars =>
    have hpushes : instantiate (pushes kind) s = .ok (pushes kind) s := by
      rw [instantiate, Fresh.instantiateEffect_eq_self (vars_pushes.trans hvars)]
    rw [term, if_neg h]
    unfold Ends
    rw [hpushes]
    rfl

/-- **A body goes as the row of effects that its terms stand for**; where the row fails, a term is to
blame. -/
theorem ends_body_of_row (h : List.Forall₂ (Term.StandsFor d) ts fs) {Q : Effect → Session → Prop}
    (hE : ∀ e v t, E e v → E' e { v with blamed := some t }) (hs : s.frame = (c, true, []))
    (hrow : Ends (composeFrom acc (fs.map some)) s Q E) :
    Ends (body d acc ts) s (fun r u => Q r.1 u) E' := by
  induction h generalizing acc s with
  | nil => exact hrow
  | @cons t f ts fs htf h ih =>
    rw [List.map_cons, composeFrom, Ends.bind_iff] at hrow
    rw [body]
    refine Ends.bind_iff.2 ((ends_term_iff htf (congrArg (·.2.2) hs)).2 ?_)
    have hinstance : Ends (instantiate f) s (fun _ u => u.frame = (c, true, [])) fun _ _ => False :=
      hs
    refine (hrow.and hinstance).mono ?_ fun _ _ h => h.2.elim
    rintro g u ⟨hg, hu⟩
    have hpad := (ends_frame (echoed_pad g) hu).and (ends_pad g)
    refine Ends.bind_iff.2 (ends_composeTerm_iff.2 (((Ends.bind_iff.1 hg).and hpad).mono ?_
      fun _ _ h => h.2.2.elim))
    rintro g u ⟨hg, hu, -⟩
    have hcompose := ends_frame (echoed_compose acc g) hu
    refine ((Ends.bind_iff.1 hg).and hcompose).mono ?_ fun e v he => hE e v t he.1
    rintro acc v ⟨hrest, hv⟩
    exact (ih hv hrest).bind fun _ _ => id

end Infer

variable {c : Option Subtyping × Bool} {d : Dictionary} {ts : Body} {fs : List Effect} {s t : Session}

theorem Session.fail_blamed (s : Session) (b : Option Term) (e : InferError) :
    ({ s with blamed := b }).fail e = { s.fail e with blamed := b } := by cases e <;> rfl

/-- An echo shows the same solution, the same constraints and the same error. -/
theorem Session.Echoes.shown {P : List String} (h : Echoes c P s t) :
    t.store.solution = s.store.solution ∧ t.store.text = s.store.text ∧ t.error = s.error :=
  ⟨congrArg (·.store.solution) h.mute, congrArg (·.store.text) h.mute, congrArg (·.error) h.mute⟩

/-- **In a new session, a body and the row that it spells** end alike: only the term that is to blame
tells what they leave apart. -/
theorem Request.alike_spelled (h : List.Forall₂ (Term.StandsFor d) ts fs) :
    Alike (infer d ts).run (.within c []) (composeAll fs).run (.within c [])
      fun u v => ∃ b, u = { v with blamed := b } := by
  have hrow := ends_run_iff.1 (Ends.self (composeAll fs).run (.within c []))
  simp only [gather, Ends.bind_iff, Ends.modify_iff] at hrow
  refine .of_ends (ends_run_iff.2 ?_)
  simp only [gather, Ends.bind_iff, Ends.modify_iff, Ends.pure_iff]
  -- a silent session takes no note of the body, so both passes begin in the same session
  refine (hrow.and (Infer.ends_identity (c := c) (P := []) rfl)).mono ?_ fun _ _ h => h.2.elim
  rintro f u ⟨hf, hu⟩
  refine (Infer.ends_body_of_row h ?_ hu hf).mono ?_ fun _ _ => id
  · exact fun e v t he => ⟨v.fail e, he, some t, v.fail_blamed (some t) e⟩
  · exact fun r v hr => hr.mono (fun g w hg => ⟨w, hg, w.blamed, rfl⟩)
      fun e w he => ⟨w.fail e, he, (w.fail e).blamed, rfl⟩

/-- **A body composes as the row of effects that it spells.**  Where every term is a declared word or a
literal without variables, inferring the body and composing the effects that the terms stand for have
the same result or fail for the same reason, in any two sessions at rest that go by the same order of
types and the same treatment of sizes.  They leave the same solution, the same constraints and the
same error. -/
theorem body_composes_as_row (h : List.Forall₂ (Term.StandsFor d) ts fs) (hs : s.Rested c)
    (ht : t.Rested c) : Alike (Request.infer d ts).run s (Request.composeAll fs).run t fun u v =>
      v.store.solution = u.store.solution ∧ v.store.text = u.store.text ∧ v.error = u.error := by
  have hnew : (Session.within c []).Rested c := ⟨Session.ready_within c [], rfl⟩
  have hinfer : Alike (Request.infer d ts).run s (Request.infer d ts).run (.within c [])
      (Session.Echoes c s.pending) :=
    (hs.toReady.alike_inferBody hnew.toReady hs.pending.symm ts fun _ _ _ => rfl).bind
      (fun _ _ _ h => ⟨rfl, h⟩) fun _ _ => id
  have hrow := hnew.toReady.alike_composeAll ht.toReady ht.pending (fs.map some)
  refine ((hinfer.trans (Request.alike_spelled h)).trans hrow).mono ?_
  rintro u v ⟨v', ⟨_, hu, b, rfl⟩, hv⟩
  obtain ⟨hsolution, htext, herror⟩ := hv.shown
  obtain ⟨hsolution', htext', herror'⟩ := hu.shown
  exact ⟨hsolution.trans hsolution', htext.trans htext', herror.trans herror'⟩

/-- `1 dup add` in a session that a failure has left, and its effects in a new one. -/
theorem body_composes_as_row_sum :
    let int := Kind.simple "int"
    let dup : Effect := ⟨[.typeVar "'a"], [.typeVar "'a", .typeVar "'a"], false⟩
    let add : Effect := ⟨[int, int], [int], false⟩
    let d := (Dictionary.empty.declare "dup" (some dup)).declare "add" (some add)
    let ts : Body := [.literal "1" int, .word "dup", .word "add"]
    let fs := [Infer.pushes int, dup, add]
    let s : Session := { Session.start none false .all with
      fresh := ⟨7⟩, used := true, error := some (.unknownWord "gone"), blamed := some (.word "gone") }
    let t := Session.start none false .silent
    List.Forall₂ (Term.StandsFor d) ts fs ∧ s.Rested (none, false) ∧ t.Rested (none, false) ∧
      Alike (Request.infer d ts).run s (Request.composeAll fs).run t (fun u v =>
        v.store.solution = u.store.solution ∧ v.store.text = u.store.text ∧ v.error = u.error) ∧
      Ends (Request.composeAll fs).run t (fun r _ => r.text = "( -> int)") fun _ _ => False := by
  intro int dup add d ts fs s t
  have hspell : List.Forall₂ (Term.StandsFor d) ts fs :=
    .cons (.literal (by decide) (by decide)) (.cons (.word (by decide +kernel))
      (.cons (.word (by decide +kernel)) .nil))
  have hs : s.Rested (none, false) := ⟨⟨rfl, .inl rfl⟩, rfl⟩
  have ht : t.Rested (none, false) := Session.rested_start .silent
  exact ⟨hspell, hs, ht, body_composes_as_row hspell hs ht, by decide +kernel⟩

end StackEffect
