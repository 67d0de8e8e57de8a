import StackEffect.Constraint.Solve
import StackEffect.Proofs.Unify.Alongside

/-!
# Proofs/Solve/Alongside — asking two sites the same

    c ──solve──▸ c'
    │            │
    d ──solve──▸ d'

Whoever asks a site for members, names or a solution finds classes, looks at what they have kept, and
writes to the log.  A relation between two sites that these steps keep is kept by asking (`Asking`),
and the answers are the same.
-/

namespace StackEffect

variable {σ τ : Type} [Site σ] [Site τ] {I : σ → τ → Prop} {E : Fault → σ → Fault → τ → Prop}

/-- **What is asked of a relation between two sites** so that whoever asks both gets the same answers,
and leaves it. -/
structure Asking (I : σ → τ → Prop) (E : Fault → σ → Fault → τ → Prop) : Prop where
  find : ∀ id, Abreast I E (Site.find id) (Site.find id)
  classOf : ∀ name, Abreast I E (Site.classOf name) (Site.classOf name)
  kept : ∀ {c d}, I c d → (Site.store d).kept = (Site.store c).kept
  size : ∀ {c d}, I c d → (Site.store d).members.size = (Site.store c).members.size
  names : ∀ {c d}, I c d → (Site.store d).names = (Site.store c).names
  subtyping : ∀ {c d}, I c d → (Site.store d).subtyping = (Site.store c).subtyping
  note : ∀ {c d}, I c d → ∀ line, I (Site.change (·.note line) c) (Site.change (·.note line) d)
  warn : ∀ {c d}, I c d → ∀ line, I (Site.change (·.warn line) c) (Site.change (·.warn line) d)
  solved : ∀ {c d}, I c d → ∀ f : Std.TreeMap String Kind → Std.TreeMap String Kind,
    I (Site.change (fun s => { s with solution := f s.solution }) c)
      (Site.change (fun s => { s with solution := f s.solution }) d)
  throw : ∀ {c d}, I c d → ∀ e, E e c e d

namespace Asking

open Store

variable (h : Asking I E) {id : Nat}

include h

/-! ## Members and names -/

/-- The classes that are left are found in the same order. -/
theorem findLive : Abreast I E (findLive : EStateM Fault σ _) findLive := by
  refine .of_look fun c d hcd => ?_
  rw [h.size hcd]
  exact .filterM fun id => (h.find id).bind fun _ => .pure

theorem findNames : Abreast I E (findNames id : EStateM Fault σ _) (findNames id) := by
  refine .of_look fun c d hcd => ?_
  rw [h.names hcd]
  exact .filterM fun name => (h.classOf name).bind fun _ => .pure

/-- A name has the same members on both sides. -/
theorem findMembers (name : String) :
    Abreast I E (findMembers name : EStateM Fault σ _) (findMembers name) := by
  refine (h.classOf name).bind fun id => ?_
  cases id with
  | none => exact .pure
  | some id =>
    refine .of_look fun c d hcd => ?_
    rw [h.kept hcd]
    exact .pure

/-- Whether two names are the same is answered alike. -/
theorem findSame (a b : String) :
    Abreast I E (findSame a b : EStateM Fault σ _) (findSame a b) :=
  (h.classOf a).bind fun _ => (h.classOf b).bind fun _ => .pure

theorem findText : Abreast I E (findText : EStateM Fault σ _) findText := by
  refine h.findLive.bind fun live => .of_look fun c d hcd => ?_
  rw [h.kept hcd]
  exact .pure

/-! ## Solving -/

theorem lowerType (a b : String) :
    Abreast I E (lowerType a b : EStateM Fault σ _) (lowerType a b) := by
  refine .of_look fun c d hcd => ?_
  rw [h.subtyping hcd]
  exact .ite .pure (.ite .pure (.seq (.alter fun _ _ hcd => h.warn hcd _) .pure))

/-- Which of two kinds is preferred is answered alike. -/
theorem representative (k l : Kind) :
    Abreast I E (representative k l : EStateM Fault σ _) (representative k l) := by
  unfold Store.representative
  refine .ite .pure (.ite .pure ?_)
  split <;> first
    | exact .pure
    | exact h.lowerType _ _
    | exact .throw fun _ _ hcd => h.throw hcd _

/-- **A class is represented by the same kind on both sides.** -/
theorem represent : Abreast I E (represent id : EStateM Fault σ _) (represent id) := by
  refine .of_look fun c d hcd => ?_
  rw [h.kept hcd]
  dsimp only
  split
  · exact h.findNames.bind fun _ => .ite .pure (.throw fun _ _ hcd => h.throw hcd _)
  refine .seq (.alter fun _ _ hcd => h.note hcd _) (.bind (.foldlM h.representative _) fun k => ?_)
  refine .ite ?_ (.seq (.alter fun _ _ hcd => h.note hcd _) .pure)
  exact h.findNames.bind fun _ => .seq (.throw fun _ _ hcd => h.throw hcd _)
    (.seq (.alter fun _ _ hcd => h.note hcd _) .pure)

/-- All classes are, in their order. -/
theorem representatives : Abreast I E (representatives : EStateM Fault σ _) representatives := by
  refine h.findLive.bind fun live => .foldlM (fun reps id => h.represent.bind fun k => ?_) ∅
  cases k <;> exact .pure

/-- Names are given the same kinds. -/
theorem nameKinds (reps : Std.TreeMap Nat Kind) :
    Abreast I E (nameKinds reps : EStateM Fault σ _) (nameKinds reps) := by
  refine .of_look fun c d hcd => ?_
  rw [h.names hcd]
  refine .mapM fun name => (h.classOf name).bind fun id => ?_
  split
  · exact .pure
  · exact .throw fun _ _ hcd => h.throw hcd _

/-- **Two sites are solved alike.** -/
theorem solve : Abreast I E (solve : EStateM Fault σ Unit) solve :=
  .seq (.alter fun _ _ hcd => h.solved hcd fun _ => ∅) <|
    h.representatives.bind fun reps => (h.nameKinds reps).bind fun kinds =>
      .forM fun i => .alter fun _ _ hcd => h.solved hcd fun θ =>
        θ.insert kinds.toArray[i].1 (kinds.toArray[i].2.resolve fun name => θ[name]?)

end Asking

end StackEffect
