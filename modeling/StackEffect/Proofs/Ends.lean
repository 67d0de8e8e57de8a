import StackEffect.Constraint.Unify

/-!
# Proofs/Ends — how a step ends

    Ends p s Q E        p, begun in s, answers a in a state t with Q a t,
                        or fails with e in a state t with E e t

A step changes a state and may fail; the changes made up to a failure stay.  The rules below take a
step apart: one for each way of putting steps together, so that a proof about a step never looks at
how answers and failures are passed on.
-/

namespace StackEffect

variable {ε σ α β : Type}

/-- **How a step ends**: with an answer and a state that satisfy `Q`, or with a failure and a state
that satisfy `E`. -/
def Ends (p : EStateM ε σ α) (s : σ) (Q : α → σ → Prop) (E : ε → σ → Prop) : Prop :=
  match p s with
  | .ok a t => Q a t
  | .error e t => E e t

namespace Ends

variable {s : σ} {Q Q' : α → σ → Prop} {E E' : ε → σ → Prop}

/-- What is known of the ends may be weakened. -/
theorem mono {p : EStateM ε σ α} (h : Ends p s Q E) (hQ : ∀ a t, Q a t → Q' a t)
    (hE : ∀ e t, E e t → E' e t) : Ends p s Q' E' := by
  unfold Ends at h ⊢
  split at h
  · exact hQ _ _ h
  · exact hE _ _ h

/-- What is known of a step in two ways is known of it at once. -/
theorem and {p : EStateM ε σ α} (h : Ends p s Q E) (h' : Ends p s Q' E') :
    Ends p s (fun a t => Q a t ∧ Q' a t) fun e t => E e t ∧ E' e t := by
  unfold Ends at h h' ⊢
  split at h <;> simp_all only [and_self]

/-- What holds of an answer holds if the step is known to answer. -/
theorem ok {p : EStateM ε σ α} {a : α} {t : σ} (h : Ends p s Q E) (hp : p s = .ok a t) :
    Q a t := by
  unfold Ends at h
  rwa [hp] at h

/-- What is known of a failure. -/
theorem error {p : EStateM ε σ α} {e : ε} {t : σ} (h : Ends p s Q E) (hp : p s = .error e t) :
    E e t := by
  unfold Ends at h
  rwa [hp] at h

theorem of_error {p : EStateM ε σ α} {e : ε} {t : σ} (hp : p s = .error e t) (h : E e t) :
    Ends p s Q E := by
  unfold Ends
  rwa [hp]

/-- A program ends as it ends. -/
theorem self (p : EStateM ε σ α) (s : σ) :
    Ends p s (fun a t => p s = .ok a t) fun e t => p s = .error e t := by
  unfold Ends
  split
  · assumption
  · assumption

/-- A step that cannot fail answers. -/
theorem exists_ok {p : EStateM ε σ α} (h : Ends p s Q fun _ _ => False) :
    ∃ a t, p s = .ok a t ∧ Q a t := by
  match hp : p s with
  | .ok a t => exact ⟨a, t, rfl, h.ok hp⟩
  | .error e t => exact (h.error hp).elim

/-- A step that cannot answer fails. -/
theorem exists_error {p : EStateM ε σ α} (h : Ends p s (fun _ _ => False) E) :
    ∃ e t, p s = .error e t ∧ E e t := by
  cases hp : p s with
  | ok a t => exact (h.ok hp).elim
  | error e t => exact ⟨e, t, rfl, h.error hp⟩

/-- A step after another answers if both do. -/
theorem bind_eq_ok_iff {p : EStateM ε σ α} {f : α → EStateM ε σ β} {b : β} {t : σ} :
    (p >>= f) s = .ok b t ↔ ∃ a u, p s = .ok a u ∧ f a u = .ok b t := by
  change EStateM.bind p f s = .ok b t ↔ _
  unfold EStateM.bind
  cases p s <;> simp [and_assoc]

/-- A step after another fails if the first one does, or the second one after it. -/
theorem bind_eq_error_iff {p : EStateM ε σ α} {f : α → EStateM ε σ β} {e : ε} {t : σ} :
    (p >>= f) s = .error e t ↔ p s = .error e t ∨ ∃ a u, p s = .ok a u ∧ f a u = .error e t := by
  change EStateM.bind p f s = .error e t ↔ _
  unfold EStateM.bind
  cases p s <;> simp [and_assoc]

instance (p : EStateM ε σ α) (s : σ) [∀ a t, Decidable (Q a t)] [∀ e t, Decidable (E e t)] :
    Decidable (Ends p s Q E) :=
  match h : p s with
  | .ok a t => decidable_of_iff (Q a t) (by rw [Ends, h])
  | .error e t => decidable_of_iff (E e t) (by rw [Ends, h])

@[simp] theorem pure_iff {a : α} : Ends (pure a : EStateM ε σ α) s Q E ↔ Q a s := Iff.rfl

@[simp] theorem throw_iff {e : ε} : Ends (throw e : EStateM ε σ α) s Q E ↔ E e s := Iff.rfl

@[simp] theorem get_iff {Q : σ → σ → Prop} : Ends (get : EStateM ε σ σ) s Q E ↔ Q s s := Iff.rfl

@[simp] theorem modify_iff {f : σ → σ} {Q : PUnit → σ → Prop} :
    Ends (modify f : EStateM ε σ PUnit) s Q E ↔ Q ⟨⟩ (f s) := Iff.rfl

/-- **One step after another.** -/
@[simp] theorem bind_iff {p : EStateM ε σ α} {f : α → EStateM ε σ β} {Q : β → σ → Prop} :
    Ends (p >>= f) s Q E ↔ Ends p s (fun a t => Ends (f a) t Q E) E := by
  unfold Ends
  change (match EStateM.bind p f s with | .ok a t => Q a t | .error e t => E e t) ↔ _
  unfold EStateM.bind
  cases p s <;> rfl

/-- What comes next ends as it does after what came first. -/
theorem bind {p : EStateM ε σ α} {f : α → EStateM ε σ β} {Q : β → σ → Prop} {R : α → σ → Prop}
    (hp : Ends p s R E) (hf : ∀ a t, R a t → Ends (f a) t Q E) : Ends (p >>= f) s Q E :=
  bind_iff.2 (hp.mono hf fun _ _ he => he)

/-- Both branches end so. -/
theorem ite {c : Prop} [Decidable c] {p q : EStateM ε σ α} (hp : c → Ends p s Q E)
    (hq : ¬c → Ends q s Q E) : Ends (if c then p else q) s Q E := by
  split
  · exact hp ‹_›
  · exact hq ‹_›

/-- **A step for every entry of a list**: what the steps keep holds at the end, or where one of them
fails.  The invariant may speak of the entries that are left. -/
theorem forM {l : List α} {f : α → EStateM ε σ PUnit} {I : List α → σ → Prop}
    (h : I l s) (hf : ∀ a as t, I (a :: as) t → Ends (f a) t (fun _ u => I as u) E) :
    Ends (l.forM f) s (fun _ t => I [] t) E := by
  induction l generalizing s with
  | nil => exact h
  | cons a as ih =>
    change Ends (f a >>= fun _ => as.forM f) s _ E
    exact (hf a as s h).bind fun _ t ht => ih ht

end Ends

/-! ## Steps on the store -/

section Store

variable {s : Store} {Q : α → Store → Prop} {E : Fault → Store → Prop}

namespace Site

@[simp] theorem store_eq (s : Store) : store s = s := rfl

@[simp] theorem change_eq (f : Store → Store) (s : Store) : change f s = f s := rfl

@[simp] theorem ends_look_iff {Q : Store → Store → Prop} : Ends (look : Pass Store) s Q E ↔ Q s s :=
  Iff.rfl

@[simp] theorem ends_alter_iff {f : Store → Store} {Q : Unit → Store → Prop} :
    Ends (alter f : Pass Unit) s Q E ↔ Q () (f s) := Iff.rfl

/-- Nothing is done about a loop on a store that has not ended. -/
@[simp] theorem ends_late_iff {Q : Unit → Store → Prop} : Ends (late : Pass Unit) s Q E ↔ Q () s :=
  Iff.rfl

end Site

namespace Unify

/-- A step one level deeper ends as the step does, but for the level. -/
theorem ends_nested_iff {p : Pass α} : Ends (nested p) s Q E ↔
    Ends p s.deeper (fun a t => Q a t.shallower) (fun e t => E e t.shallower) := by
  unfold Ends nested
  rw [show Site.change Store.deeper s = s.deeper from rfl]
  cases p s.deeper <;> rfl

@[simp] theorem ends_refuse_iff : Ends (refuse : Pass α) s Q E ↔ E .tooDeep s.deeper := Iff.rfl

@[simp] theorem ends_clash_iff {k l : Kind} {reason : String} :
    Ends (clash k l reason : Pass α) s Q E ↔ E (.mismatch ⟨k, l, reason⟩) s := Iff.rfl

end Unify

/-- What comes after something was handed in. -/
theorem Store.ends_handIn_iff {weight : Nat} {f : Store → Pass α} :
    Ends (do handIn weight; let s ← Site.look; f s) s Q E ↔
      Ends (f { s with mass := s.mass + weight }) { s with mass := s.mass + weight } Q E := Iff.rfl

end Store

end StackEffect
