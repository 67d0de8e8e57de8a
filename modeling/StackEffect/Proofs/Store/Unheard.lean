import StackEffect.Proofs.Solve.Alongside

/-!
# Proofs/Store/Unheard — nobody reads the log

    s.hush            s, with nothing logged and nothing to be logged
    s.mode            what s goes by: its order of types, and whether sizes matter

Stores that are equal but for their logs and for how much they log are unified and solved alike,
failures included, and are left equal but for their logs (`Unheard`).  No step changes what a store
goes by.
-/

namespace StackEffect

namespace Store

/-- **The store without its log.** -/
def hush (s : Store) : Store := { s with logging := .silent, log := #[] }

/-- What a store goes by: the order of nominal types, and whether sizes matter. -/
def mode (s : Store) : Option Subtyping × Bool := (s.subtyping, s.lenient)

/-- **One store echoes another** that goes by `c`: only what they log may differ. -/
structure Echoes (c : Option Subtyping × Bool) (s t : Store) : Prop where
  hush : t.hush = s.hush
  mode : s.mode = c

variable {s t : Store} {c : Option Subtyping × Bool}

/-- A note is forgotten. -/
theorem hush_note (s : Store) (line : Unit → String) : (s.note line).hush = s.hush := by
  unfold note
  split <;> rfl

theorem mode_note (s : Store) (line : Unit → String) : (s.note line).mode = s.mode := by
  unfold note
  split <;> rfl

/-- So is a warning. -/
theorem hush_warn (s : Store) (line : String) : (s.warn line).hush = s.hush := by
  unfold warn
  split <;> rfl

theorem mode_warn (s : Store) (line : String) : (s.warn line).mode = s.mode := by
  unfold warn
  split <;> rfl

/-- **A change that the log has no part in** leaves echoes. -/
theorem Echoes.map {f : Store → Store} (h : Echoes c s t) (hf : ∀ s, f s.hush = (f s).hush)
    (hmode : ∀ s, (f s).mode = s.mode) : Echoes c (f s) (f t) where
  hush := by rw [← hf, h.hush, hf]
  mode := (hmode s).trans h.mode

/-- Notes may be taken on both sides, in whatever words. -/
theorem Echoes.note (h : Echoes c s t) (line line' : Unit → String) :
    Echoes c (s.note line) (t.note line') where
  hush := by rw [hush_note, h.hush, hush_note]
  mode := (mode_note s line).trans h.mode

end Store

open Store

/-- **A step that nobody hears**: it does the same to stores that echo each other. -/
abbrev Unheard {α : Type} (c : Option Subtyping × Bool) (p : Pass α) : Prop :=
  Steady (Store.Echoes c) p p

section

variable {α : Type} {c : Option Subtyping × Bool}

/-- A change that does not look at what is logged is unheard. -/
theorem unheard_alter {f : Store → Store} (hf : ∀ s, f s.hush = (f s).hush)
    (hmode : ∀ s, (f s).mode = s.mode) : Unheard c (Site.alter f : Pass Unit) :=
  .alter fun _ _ h => h.map hf hmode

theorem unheard_look {f : Store → Pass α} (hf : ∀ s, f s.hush = f s) (h : ∀ s, Unheard c (f s)) :
    Unheard c (Site.look >>= f) :=
  .of_look fun s t hst => by
    rw [Site.store_eq, Site.store_eq, ← hf t, hst.hush, hf s]
    exact h s

end

/-! ## Unifying -/

theorem Store.Echoes.eq {c : Option Subtyping × Bool} {s t : Store} (h : Echoes c s t) :
    t = { s with logging := t.logging, log := t.log } := by
  obtain ⟨⟩ := t
  cases h.hush
  rfl

/-- Echoes differ in nothing that calls look at. -/
theorem Store.Echoes.relabeled {c : Option Subtyping × Bool} {s t : Store} (h : Echoes c s t) :
    s.Relabeled (.refl String) t := .of_eq (by rw [h.eq])

/-- Each single step leaves echoes. -/
theorem Store.Echoes.change {c : Option Subtyping × Bool} {s t : Store} (h : Echoes c s t)
    {f g : Store → Store} (hfg : Counterpart (.refl String) .everything f g) :
    Echoes c (f s) (g t) := by
  cases hfg with
  | link id up => exact h.map (f := (·.link id up)) (fun _ => rfl) fun _ => rfl
  | settle n id => exact h.map (f := (·.settle n id)) (fun _ => rfl) fun _ => rfl
  | @register n _ id => exact h.map (f := (·.register n id)) (fun _ => rfl) fun _ => rfl
  | @registerNew n => exact h.map (f := (·.registerNew n)) (fun _ => rfl) fun _ => rfl
  | @append id k =>
    rw [Kind.relabel_refl]
    exact h.map (f := (·.append id k)) (fun _ => rfl) fun _ => rfl
  | takeFirst id => exact h.map (f := (·.takeFirst id)) (fun _ => rfl) fun _ => rfl
  | absorb _ src dst =>
    exact (h.note _ _).map (f := (·.link src dst)) (fun _ => rfl) fun _ => rfl

/-- Stores that echo each other can be called alongside. -/
theorem Store.pairing_echoes (c : Option Subtyping × Bool) :
    Pairing (.refl String) .everything (fun _ => Echoes c)
      fun _ e s f t => f = e ∧ Echoes c s t where
  relabeled h := h.relabeled
  covers {_ s _} _ := Vocabulary.everything_covers s
  change hfg h := h.change hfg
  late _ := .pure
  clash h m := ⟨by rw [Mismatch.relabel, Kind.relabel_refl, Kind.relabel_refl], h⟩
  refuse h := ⟨rfl, h.map (f := deeper) (fun _ => rfl) fun _ => rfl⟩
  nested hpq := hpq.nested (fun _ _ h => h.map (f := deeper) (fun _ => rfl) fun _ => rfl)
    (fun _ _ h => h.map (f := shallower) (fun _ => rfl) fun _ => rfl)
    fun _ _ _ _ h => ⟨h.1, h.2.map (f := shallower) (fun _ => rfl) fun _ => rfl⟩

namespace Store

variable {c : Option Subtyping × Bool} {id : Nat}

/-- **What is logged does not matter for unifying two stacks.** -/
theorem unheard_unifyStacks (v w : Stack) : Unheard c (unifyStacks v w) := by
  refine Abreast.seq (unheard_alter (fun _ => rfl) fun _ => rfl)
    (unheard_look (fun _ => rfl) fun s => ?_)
  have h := ((pairing_echoes c).calls s.mass s.room).equate v w trivial trivial
  rwa [Kind.map_relabel_refl, Kind.map_relabel_refl] at h

/-! ## Solving -/

/-- Stores that echo each other answer the same. -/
theorem asking_echoes (c : Option Subtyping × Bool) :
    Asking (Echoes c) fun e s f t => f = e ∧ Echoes c s t where
  find id := (pairing_echoes c).find (n := 0) id
  classOf name := (pairing_echoes c).classOf (n := 0) name
  kept h := by rw [h.eq]; rfl
  size h := by rw [h.eq]; rfl
  names h := by rw [h.eq]; rfl
  subtyping h := by rw [h.eq]; rfl
  note h line := h.note line line
  warn h line := ⟨by rw [Site.change_eq, Site.change_eq, hush_warn, h.hush, hush_warn],
    (mode_warn _ line).trans h.mode⟩
  solved h f := h.map (f := fun s => { s with solution := f s.solution }) (fun _ => rfl) fun _ => rfl
  throw h _ := ⟨rfl, h⟩

/-- **Solving goes unheard.** -/
theorem unheard_solve : Unheard c solve := (asking_echoes c).solve

end Store

end StackEffect
