import StackEffect.Inference.Body
import StackEffect.Proofs.Inference.Names
import StackEffect.Proofs.Solve.Outcome
import StackEffect.Proofs.Term.Reader

/-!
# Proofs/Inference/Pass — passes over written effects

    Gathers s        the constraints of s are between written kinds

A pass over written effects, or over a body whose words and literals have written kinds, goes from
one such session to another, and the effect it finds is written before it is solved
(`finds_composeFrom`, `ends_body`).
-/

namespace StackEffect

namespace Kind

/-- Written kinds are made of written kinds. -/
theorem closed_written : Closed Written where
  slot h := (written_cons_iff.1 h).2.1
  rest h := (written_cons_iff.1 h).2.2
  consumed h := (written_effect_iff.1 h).1
  produced h := (written_effect_iff.1 h).2

/-- A slot may be written below closed slots. -/
theorem written_concat {s : Stack} {k : Kind} (h : (stack s).Written)
    (hs : Stack.isOpen s = false) (hk : k.Written) (hstack : k.isStack = false) :
    (stack (s ++ [k])).Written :=
  concat_of written_nil written_cons_iff h hs hk hstack

end Kind

/-- The theory of written kinds. -/
def Theory.written (st : Option Subtyping) (lenient : Bool) : Theory st lenient :=
  .tidy Signature.sortOf Kind.Written Kind.closed_written fun _ h => h.tidy

/-- **A session in use whose constraints are between written kinds**, and come from an empty
store. -/
structure Session.Gathers (st : Option Subtyping) (lenient : Bool) (s : Session) : Prop where
  used : s.used = true
  under : s.store.Under (.written st lenient)
  step : (Theory.written st lenient).Step (Store.empty st lenient .silent).partition
    s.store.partition

namespace Session

variable {s : Session} {st : Option Subtyping} {lenient : Bool}

theorem asked_note (s : Session) (line : Unit → String) : s.store.Asked (s.note line).store :=
  Store.Asked.note s.store fun _ => "catinfer: " ++ line ()

theorem partition_note (s : Session) (line : Unit → String) :
    (s.note line).store.partition = s.store.partition :=
  (asked_note s line).partition

theorem solution_note (s : Session) (line : Unit → String) :
    (s.note line).store.solution = s.store.solution := (asked_note s line).solution

/-- What is finalized does not depend on notes. -/
theorem finalize_note (s : Session) (line : Unit → String) (f : Effect) :
    (s.note line).finalize f = s.finalize f := by
  rw [finalize, finalize, Store.resolveEffect, Store.resolveEffect, solution_note]

theorem Gathers.note (h : s.Gathers st lenient) (line : Unit → String) :
    (s.note line).Gathers st lenient where
  used := h.used
  under := h.under.congr (partition_note s line)
  step := (partition_note s line).symm ▸ h.step

end Session

namespace Infer

variable {st : Option Subtyping} {lenient : Bool} {s : Session} {α : Type}

/-- A step on the store ends as it does there. -/
theorem ends_onStore_iff {p : Pass α} {Q : α → Session → Prop} {E : InferError → Session → Prop} :
    Ends (onStore p) s Q E ↔ Ends p s.store (fun a t => Q a { s with store := t })
      fun e t => E (.constraint e) { s with store := t } := by
  unfold Ends onStore
  cases p s.store <;> rfl

theorem ends_recorded_iff {p : Infer α} {Q : α → Session → Prop} {E : InferError → Session → Prop} :
    Ends (recorded p) s Q E ↔ Ends p s Q fun e t => E e (t.fail e) := by
  unfold Ends recorded
  cases p s <;> rfl

/-- **A step of a pass finds a written effect**, or fails; the session stays in use. -/
def Finds (st : Option Subtyping) (lenient : Bool) (p : Infer Effect) (s : Session) : Prop :=
  Ends p s (fun f t => t.Gathers st lenient ∧ f.kind.Written) fun _ t => t.used = true

theorem ends_freshStack (h : s.Gathers st lenient) {base : String}
    (hbase : Signature.isVarName base = true) (hsort : Signature.sortOf base = .stack) :
    Ends (freshStack base) s (fun k t => t.Gathers st lenient ∧ k.Written ∧ k.isStack = false)
      fun _ t => t.used = true := by
  obtain ⟨hname, hnameSort⟩ := Fresh.isVarName_name hbase s.fresh
  exact ⟨⟨h.used, h.under, h.step⟩,
    Kind.written_var (v := ⟨.stack, _⟩) hname (hnameSort.trans hsort), rfl⟩

/-- New names are found for an effect that may be written. -/
theorem finds_instantiate (h : s.Gathers st lenient) {f : Effect} (hf : f.kind.Written) :
    Finds st lenient (instantiate f) s :=
  ⟨⟨h.used, h.under, h.step⟩, Fresh.written_instantiateEffect hf s.fresh⟩

/-- Padding finds an effect that may be written. -/
theorem finds_pad (h : s.Gathers st lenient) {f : Effect} (hf : f.kind.Written) :
    Finds st lenient (pad f) s := by
  obtain ⟨hc, hp⟩ := Kind.written_effect_iff.1 hf
  refine Ends.ite (fun _ => ⟨h, hf⟩) fun hopen => ?_
  obtain ⟨hoc, hop⟩ : Stack.isOpen f.consumed = false ∧ Stack.isOpen f.produced = false := by
    simpa using hopen
  refine (ends_freshStack h (by decide +kernel) (by decide +kernel)).bind ?_
  rintro k t ⟨ht, hk, hstack⟩
  exact ⟨ht, Kind.written_effect_iff.2
    ⟨Kind.written_concat hc hoc hk hstack, Kind.written_concat hp hop hk hstack⟩⟩

theorem finds_identity (h : s.Gathers st lenient) : Finds st lenient identity s := by
  refine (ends_freshStack h (by decide +kernel) (by decide +kernel)).bind ?_
  rintro k t ⟨ht, hk, hstack⟩
  have hsingle := Kind.written_concat Kind.written_nil rfl hk hstack
  exact ⟨ht, Kind.written_effect_iff.2 ⟨hsingle, hsingle⟩⟩

theorem finds_recursive (h : s.Gathers st lenient) : Finds st lenient recursive s := by
  refine (ends_freshStack h (by decide +kernel) (by decide +kernel)).bind ?_
  rintro k t ⟨ht, hk, hstack⟩
  refine (ends_freshStack ht (by decide +kernel) (by decide +kernel)).bind ?_
  rintro l u ⟨hu, hl, hstack'⟩
  exact ⟨hu, Kind.written_effect_iff.2 ⟨Kind.written_concat Kind.written_nil rfl hk hstack,
    Kind.written_concat Kind.written_nil rfl hl hstack'⟩⟩

/-- **Written effects compose to a written one.** -/
theorem finds_compose (h : s.Gathers st lenient) {f g : Effect} (hf : f.kind.Written)
    (hg : g.kind.Written) : Finds st lenient (compose f g) s := by
  obtain ⟨hfc, hfp⟩ := Kind.written_effect_iff.1 hf
  obtain ⟨hgc, hgp⟩ := Kind.written_effect_iff.1 hg
  refine Ends.bind (R := fun _ t => t.Gathers st lenient) ?_ fun _ t ht =>
    ⟨ht, Kind.written_effect_iff.2 ⟨hfc, hgp⟩⟩
  refine ends_onStore_iff.2 ((h.under.performs_unifyStacks ⟨hfp, hgc⟩).mono ?_ fun _ _ _ => h.used)
  rintro _ t ⟨ht, hstep, -⟩
  exact ⟨h.used, ht, h.step.trans hstep⟩

/-- **A row of written effects composes to a written one.** -/
theorem finds_composeFrom (h : s.Gathers st lenient) {f : Effect} (hf : f.kind.Written)
    {gs : List Effect} (hgs : ∀ g ∈ gs, g.kind.Written) :
    Finds st lenient (composeFrom f (gs.map some)) s := by
  induction gs generalizing s f with
  | nil => exact ⟨h, hf⟩
  | cons g gs ih =>
    rw [List.forall_mem_cons] at hgs
    refine (finds_instantiate h hgs.1).bind fun g' t ⟨ht, hg'⟩ => ?_
    refine (finds_pad ht hg').bind fun g'' u ⟨hu, hg''⟩ => ?_
    exact (finds_compose hu hf hg'').bind fun f' v ⟨hv, hf'⟩ => ih hv hf' hgs.2

end Infer

/-! ## Bodies -/

/-- Words are declared with written effects. -/
def Dictionary.Written (d : Dictionary) : Prop :=
  ∀ name f, d.lookup name = some (some f) → f.kind.Written

namespace Infer

variable {st : Option Subtyping} {lenient : Bool} {s : Session} {d : Dictionary}

theorem written_pushes {k : Kind} (hk : k.Written) (hstack : k.isStack = false) :
    (pushes k).kind.Written :=
  Kind.written_effect_iff.2 ⟨Kind.written_nil, Kind.written_concat Kind.written_nil rfl hk hstack⟩

/-- **What is found for a word may be written**, if all entries of the dictionary may. -/
theorem finds_word (h : s.Gathers st lenient) (hd : d.Written) (name : String) :
    Finds st lenient (word d name) s := by
  refine Ends.bind_iff.2 (Ends.get_iff.2 (Ends.ite (fun _ => finds_recursive h) fun _ => ?_))
  split
  · exact h.used
  · exact h.used
  · next f hf => exact finds_instantiate h (hd name f hf)

/-- A term is to blame if its effect cannot be composed with what is before it. -/
theorem ends_composeTerm_iff {t : Term} {acc f : Effect} {Q : Effect → Session → Prop}
    {E : InferError → Session → Prop} : Ends (composeTerm t acc f) s Q E ↔
    Ends (pad f) s (fun g u => Ends (compose acc g) u Q fun e v => E e { v with blamed := some t })
      E := by
  refine Ends.bind_iff.trans (iff_of_eq (congrArg (Ends (pad f) s · E) (funext₂ fun g u => ?_)))
  unfold Ends
  cases hc : compose acc g u <;> simp only [hc]

/-- Composing with the effect of a term finds an effect that may be written. -/
theorem finds_composeTerm (h : s.Gathers st lenient) (t : Term) {acc f : Effect}
    (hacc : acc.kind.Written) (hf : f.kind.Written) : Finds st lenient (composeTerm t acc f) s := by
  refine ends_composeTerm_iff.2 ((finds_pad h hf).mono ?_ fun _ _ => id)
  rintro g u ⟨hu, hg⟩
  exact finds_compose hu hacc hg

mutual
/-- **The effect of a term is written.** -/
theorem ends_term (hd : d.Written) : ∀ (t : Term) {s : Session}, t.Plain → s.Gathers st lenient →
    Ends (term d t) s (fun r u => u.Gathers st lenient ∧ r.1.kind.Written)
      fun _ u => u.used = true
  | .word name, s, _, h => (finds_word h hd name).bind fun f u ⟨hu, hf⟩ => ⟨hu, hf⟩
  | .literal text kind, s, hplain, h => by
    rw [term]
    refine Ends.ite (fun _ => h.used) fun _ => ⟨h, ?_⟩
    obtain ⟨type, htype, rfl⟩ := hplain text kind List.mem_cons_self
    exact written_pushes ⟨rfl, rfl, htype⟩ rfl
  | .quotation ts, s, hplain, h => by
    rw [Term.plain_quotation_iff] at hplain
    rw [term]
    refine (finds_identity h).bind fun f u ⟨hu, hf⟩ => ?_
    refine (ends_body hd ts hplain hu hf).bind ?_
    rintro ⟨g, inner⟩ v ⟨hv, hg⟩
    refine Ends.bind_iff.2 (Ends.get_iff.2 ⟨hv, ?_⟩)
    dsimp only
    split
    · exact written_pushes ⟨rfl, rfl, rfl⟩ rfl
    · exact written_pushes hg rfl
  | .missing, _, _, h => h.used
/-- **The effect of a body is written.** -/
theorem ends_body (hd : d.Written) : ∀ (ts : List Term) {s : Session} {acc : Effect},
    (∀ t ∈ ts, t.Plain) → s.Gathers st lenient → acc.kind.Written →
    Ends (body d acc ts) s (fun r u => u.Gathers st lenient ∧ r.1.kind.Written)
      fun _ u => u.used = true
  | [], s, acc, _, h, hacc => ⟨h, hacc⟩
  | t :: ts, s, acc, hplain, h, hacc => by
    rw [List.forall_mem_cons] at hplain
    rw [body]
    refine (ends_term hd t hplain.1 h).bind ?_
    rintro ⟨f, effects⟩ u ⟨hu, hf⟩
    refine (finds_composeTerm hu t hacc hf).bind fun g v ⟨hv, hg⟩ => ?_
    refine (ends_body hd ts hplain.2 hv hg).bind ?_
    rintro ⟨r, rest⟩ w hw
    exact hw
end

end Infer

end StackEffect
