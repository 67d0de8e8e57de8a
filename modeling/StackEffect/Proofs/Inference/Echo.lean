import StackEffect.Proofs.Inference.Pass
import StackEffect.Proofs.Store.Unheard

/-!
# Proofs/Inference/Echo — what a pass depends on

    s.Ready c        s goes by c, and what an earlier pass has left in it will be cleared
    Echoes c P s t   s and t are in the same pass, except for what they log

A pass over a body looks up the words of the body that are not being inferred, and sees nothing else
of its dictionary.  It clears its session first, and sees nothing else of it than what it goes by
and which definitions are being inferred (`alike_inferBody`).
-/

namespace StackEffect

namespace Session

/-- The session without its log. -/
def mute (s : Session) : Session := { s with store := s.store.hush }

/-- What a step of a pass leaves alone: what the session goes by, that it is in use, and what is
being inferred. -/
def frame (s : Session) : (Option Subtyping × Bool) × Bool × List String :=
  (s.store.mode, s.used, s.pending)

/-- **One session echoes another** that is in use, goes by `c` and has `P` pending: only what they
log may differ. -/
structure Echoes (c : Option Subtyping × Bool) (P : List String) (s t : Session) : Prop where
  mute : t.mute = s.mute
  frame : s.frame = (c, true, P)

/-- **A session is ready for a pass**: nothing is left of an earlier one, or it will be cleared. -/
structure Ready (c : Option Subtyping × Bool) (s : Session) : Prop where
  mode : s.store.mode = c
  idle : s.used = true ∨ s.clear = s

variable {c : Option Subtyping × Bool} {P : List String} {s t : Session}

namespace Echoes

/-- The stores of sessions that echo each other do so. -/
theorem store (h : Echoes c P s t) : Store.Echoes c s.store t.store :=
  ⟨congrArg Session.store h.mute, congrArg Prod.fst h.frame⟩

/-- The next fresh name is the same. -/
theorem fresh (h : Echoes c P s t) : t.fresh = s.fresh := by
  change t.mute.fresh = s.mute.fresh
  rw [h.mute]

theorem used (h : Echoes c P s t) : s.used = true := congrArg (·.2.1) h.frame

theorem pending (h : Echoes c P s t) : s.pending = P := congrArg (·.2.2) h.frame

theorem pending_right (h : Echoes c P s t) : t.pending = P := by
  change t.mute.pending = P
  rw [h.mute]
  exact h.pending

/-- Both sessions are framed alike. -/
theorem frame_right (h : Echoes c P s t) : t.frame = (c, true, P) :=
  (congrArg Session.frame h.mute).trans h.frame

theorem ready_left (h : Echoes c P s t) : s.Ready c := ⟨h.store.mode, .inl h.used⟩

theorem ready_right (h : Echoes c P s t) : t.Ready c :=
  ⟨congrArg Prod.fst h.frame_right, .inl (congrArg (·.2.1) h.frame_right)⟩

/-- A change that the log has no part in leaves echoes. -/
theorem map {f : Session → Session} (h : Echoes c P s t) (hf : ∀ s, f s.mute = (f s).mute)
    (hframe : ∀ s, (f s).frame = s.frame) : Echoes c P (f s) (f t) where
  mute := by rw [← hf, h.mute, hf]
  frame := (hframe s).trans h.frame

/-- A change of the constraints. -/
theorem withStore {u v : Store} (h : Echoes c P s t) (huv : Store.Echoes c u v) :
    Echoes c P { s with store := u } { t with store := v } where
  mute := by
    change { t.mute with store := v.hush } = { s.mute with store := u.hush }
    rw [h.mute, huv.hush]
  frame := by
    change (u.mode, s.used, s.pending) = _
    rw [huv.mode, h.used, h.pending]

/-- Notes may be taken on both sides, in whatever words. -/
theorem note (h : Echoes c P s t) (line line' : Unit → String) :
    Echoes c P (s.note line) (t.note line') :=
  h.withStore (h.store.note _ _)

/-- A definition is not being inferred any more. -/
theorem forget (h : Echoes c P s t) (name : String) : Echoes c (P.filter (· != name))
    { s with pending := s.pending.filter (· != name) }
    { t with pending := t.pending.filter (· != name) } where
  mute := congrArg (fun s : Session => { s with pending := s.pending.filter (· != name) }) h.mute
  frame := by
    rw [← h.pending, ← h.store.mode, ← h.used]
    rfl

/-- Both sessions may fail. -/
theorem fail (h : Echoes c P s t) (e : InferError) : Echoes c P (s.fail e) (t.fail e) := by
  cases e with
  | brokenWord => exact h
  | _ => exact h.map (f := fun s => { s with error := some _ }) (fun _ => rfl) fun _ => rfl

theorem finalize (h : Echoes c P s t) (f : Effect) : t.finalize f = s.finalize f :=
  congrArg (·.finalize f) h.mute

end Echoes

theorem ready_start {st : Option Subtyping} {lenient : Bool} (logging : Logging) :
    (start st lenient logging).Ready (st, lenient) := ⟨rfl, .inr rfl⟩

/-- A pass begins from a clear session. -/
theorem Ready.begin_eq (h : s.Ready c) : s.begin = { s.clear with used := true } := by
  unfold begin reset
  split
  · rfl
  · next hused => rw [h.idle.resolve_left hused]

/-- **Sessions that are ready are cleared alike.** -/
theorem Ready.mute_clear (hs : s.Ready c) (ht : t.Ready c) (hp : t.pending = s.pending) :
    t.clear.mute = s.clear.mute := by
  have hmode : t.store.mode = s.store.mode := ht.mode.trans hs.mode.symm
  obtain ⟨hst, hlenient⟩ := Prod.mk.inj hmode
  simp only [mute, clear, Store.reset, Store.hush, Store.empty, hst, hlenient, hp]

/-- **Sessions that are ready begin a pass alike.** -/
theorem Ready.echoes_begin (hs : s.Ready c) (ht : t.Ready c) (hp : t.pending = s.pending) :
    Echoes c s.pending s.begin t.begin := by
  rw [hs.begin_eq, ht.begin_eq]
  exact ⟨congrArg (fun s : Session => { s with used := true }) (hs.mute_clear ht hp),
    congrArg (·, true, s.pending) hs.mode⟩

end Session

/-- **Two steps of a pass cannot be told apart** by sessions that echo each other. -/
abbrev Echoed {α : Type} (c : Option Subtyping × Bool) (P : List String) (p q : Infer α) : Prop :=
  Steady (Session.Echoes c P) p q

namespace Infer

variable {α : Type} {c : Option Subtyping × Bool} {P : List String} {p q : Infer α}
  {d d' : Dictionary}

/-! ## Steps of a pass -/

/-- **What is unheard in stores is echoed by sessions.** -/
theorem echoed_onStore {p : Pass α} (h : Unheard c p) : Echoed c P (onStore p) (onStore p) := by
  refine .steady fun s t hst => ?_
  rcases (h.alike hst.store).ok_or_error with ⟨a, u, v, hp, hq, huv⟩ | ⟨e, u, v, hp, hq, huv⟩
  · exact .of_ok (by rw [onStore, hp]) (by rw [onStore, hq]) (hst.withStore huv)
  · exact .of_error (by rw [onStore, hp]) (by rw [onStore, hq]) (hst.withStore huv)

/-- What is recorded of a failure does not matter. -/
theorem echoed_recorded (h : Echoed c P p q) : Echoed c P (recorded p) (recorded q) := by
  refine .steady fun s t hst => ?_
  rcases (h.alike hst).ok_or_error with ⟨a, u, v, hp, hq, huv⟩ | ⟨e, u, v, hp, hq, huv⟩
  · exact .of_ok (by rw [recorded, hp]) (by rw [recorded, hq]) huv
  · exact .of_error (by rw [recorded, hp]) (by rw [recorded, hq]) (huv.fail e)

theorem echoed_freshStack (base : String) : Echoed c P (freshStack base) (freshStack base) := by
  intro s t hst
  refine ⟨by rw [hst.fresh], ?_⟩
  exact hst.map (f := fun s => { s with fresh := (s.fresh.name base).2 }) (fun _ => rfl)
    fun _ => rfl

/-- Effects are given the same new names. -/
theorem echoed_instantiate (f : Effect) : Echoed c P (instantiate f) (instantiate f) := by
  intro s t hst
  refine ⟨by rw [hst.fresh], ?_⟩
  exact hst.map (f := fun s => { s with fresh := (s.fresh.instantiateEffect f).2 }) (fun _ => rfl)
    fun _ => rfl

theorem echoed_pad (f : Effect) : Echoed c P (pad f) (pad f) := by
  unfold pad
  split
  · exact .pure
  · exact (echoed_freshStack restName).bind fun _ => .pure

theorem echoed_identity : Echoed c P identity identity :=
  (echoed_freshStack restName).bind fun _ => .pure

theorem echoed_recursive : Echoed c P recursive recursive :=
  (echoed_freshStack restName).bind fun _ => (echoed_freshStack "'S").bind fun _ => .pure

theorem echoed_compose (f g : Effect) : Echoed c P (compose f g) (compose f g) :=
  (echoed_onStore (Store.unheard_unifyStacks f.produced g.consumed)).seq .pure

theorem echoed_finish (f : Effect) : Echoed c P (finish f) (finish f) := by
  refine (echoed_onStore Store.unheard_solve).seq (.of_get fun s t hst => ?_)
  rw [hst.finalize f]
  exact Abreast.seq (.modify fun _ _ h => h.note _ _) .pure

/-- Rows are composed alike. -/
theorem echoed_composeFrom (f : Effect) (gs : List (Option Effect)) :
    Echoed c P (composeFrom f gs) (composeFrom f gs) := by
  induction gs generalizing f with
  | nil => exact .pure
  | cons g gs ih =>
    cases g with
    | none => exact .throw fun _ _ h => ⟨rfl, h⟩
    | some g =>
      exact (echoed_instantiate g).bind fun _ => (echoed_pad _).bind fun _ =>
        (echoed_compose f _).bind ih

/-! ## Bodies -/

theorem echoed_blame (t : Term) (e : InferError) :
    Echoed c P (blame t e : Infer α) (blame t e) :=
  Abreast.seq (.modify fun _ _ h => h.map (f := fun s => { s with blamed := some t }) (fun _ => rfl)
    fun _ => rfl) (.throw fun _ _ h => ⟨rfl, h⟩)

/-- **A word is looked up unless it is being inferred.** -/
theorem echoed_word {name : String} (h : name ∉ P → d'.lookup name = d.lookup name) :
    Echoed c P (word d name) (word d' name) := by
  refine .of_get fun s t hst => ?_
  rw [hst.pending, hst.pending_right]
  by_cases hname : name ∈ P
  · rw [if_pos (List.contains_iff_mem.2 hname), if_pos (List.contains_iff_mem.2 hname)]
    exact echoed_recursive
  rw [if_neg (mt List.contains_iff_mem.1 hname), if_neg (mt List.contains_iff_mem.1 hname), h hname]
  split
  · exact echoed_blame _ _
  · exact .throw fun _ _ h => ⟨rfl, h⟩
  · exact echoed_instantiate _

/-- So are the effects of terms. -/
theorem echoed_composeTerm (t : Term) (acc f : Effect) :
    Echoed c P (composeTerm t acc f) (composeTerm t acc f) := by
  refine (echoed_pad f).bind fun g => .steady fun s s' hs => ?_
  rcases ((echoed_compose acc g).alike hs).ok_or_error with
    ⟨a, u, v, hc, hc', huv⟩ | ⟨e, u, v, hc, hc', huv⟩
  · exact .of_ok (a := a) (by simp only [hc]) (by simp only [hc']) huv
  · have hblamed := huv.map (f := fun s => { s with blamed := some t }) (fun _ => rfl) fun _ => rfl
    exact .of_error (e := e) (by simp only [hc]) (by simp only [hc']) hblamed

mutual
/-- A term, as far as the dictionaries agree on the words in it. -/
theorem echoed_term : ∀ t : Term,
    (∀ name, .word name ∈ t.walk → name ∉ P → d'.lookup name = d.lookup name) →
      Echoed c P (term d t) (term d' t)
  | .word name, h => (echoed_word (h name List.mem_cons_self)).bind fun _ => .pure
  | .literal text kind, _ => by
    rw [term, term]
    split
    · exact echoed_blame _ _
    · exact .pure
  | .quotation ts, h => by
    rw [term, term]
    refine echoed_identity.bind fun f => Abreast.bind
      (echoed_body ts f fun name hname => h name (List.mem_cons_of_mem _ hname)) fun r => ?_
    refine .of_get fun s t hst => ?_
    rw [hst.pending, hst.pending_right]
    exact .pure
  | .missing, _ =>
    Abreast.seq (.modify fun _ _ h => h.map (f := fun s => { s with blamed := none }) (fun _ => rfl)
      fun _ => rfl) (.throw fun _ _ h => ⟨rfl, h⟩)
/-- A body, as far as the dictionaries agree on the words in it. -/
theorem echoed_body : ∀ (ts : List Term) (acc : Effect),
    (∀ name, .word name ∈ Term.walkBody ts → name ∉ P → d'.lookup name = d.lookup name) →
      Echoed c P (body d acc ts) (body d' acc ts)
  | [], _, _ => .pure
  | t :: ts, acc, h => by
    rw [body, body]
    refine Abreast.bind (echoed_term t fun name hname =>
      h name (List.mem_append_left _ hname)) fun r => ?_
    refine (echoed_composeTerm t acc r.1).bind fun g => ?_
    exact Abreast.bind (echoed_body ts g fun name hname =>
      h name (List.mem_append_right _ hname)) fun _ => .pure
end

end Infer

/-! ## Passes -/

/-- The references of a body are its words. -/
theorem Body.mem_references_iff {ts : Body} {name : String} :
    name ∈ Body.references ts ↔ .word name ∈ Term.walkBody ts := by
  rw [references, List.mem_eraseDups, List.mem_filterMap]
  constructor
  · rintro ⟨t, ht, hname⟩
    cases t with
    | word n =>
      obtain rfl : n = name := Option.some.inj hname
      exact ht
    | _ => cases hname
  · exact fun h => ⟨_, h, rfl⟩

namespace Session

variable {c : Option Subtyping × Bool} {s t : Session} {d d' : Dictionary}

/-- **Sessions that are ready infer a body alike**, with dictionaries that agree on the words it
refers to and that are not being inferred. -/
theorem Ready.alike_inferBody (hs : s.Ready c) (ht : t.Ready c) (hp : t.pending = s.pending)
    (ts : Body) (hd : ∀ name ∈ Body.references ts, name ∉ s.pending →
      d'.lookup name = d.lookup name) :
    Alike (Infer.inferBody d ts) s (Infer.inferBody d' ts) t (Echoes c s.pending) := by
  have hbegin := (hs.echoes_begin ht hp).note (fun _ => "infer " ++ Body.text ts)
    fun _ => "infer " ++ Body.text ts
  refine .modify_bind (Abreast.alike (.bind ?_ fun r => ?_) hbegin)
  · refine Infer.echoed_recorded (Infer.echoed_identity.bind fun f => Abreast.bind
      (Infer.echoed_body ts f fun name hname => hd name (Body.mem_references_iff.2 hname))
      fun r => ?_)
    exact (Infer.echoed_finish r.1).bind fun _ => .pure
  · refine .of_get fun u v huv => ?_
    rw [show v.finalize = u.finalize from funext huv.finalize]
    exact .pure

/-- **Sessions that are ready compose effects alike.** -/
theorem Ready.alike_composeAll (hs : s.Ready c) (ht : t.Ready c) (hp : t.pending = s.pending)
    (fs : List (Option Effect)) :
    Alike (Infer.composeAll fs) s (Infer.composeAll fs) t (Echoes c s.pending) :=
  (Infer.echoed_recorded (Infer.echoed_identity.bind fun f =>
    (Infer.echoed_composeFrom f fs).bind Infer.echoed_finish)).alike (hs.echoes_begin ht hp)

end Session

end StackEffect
