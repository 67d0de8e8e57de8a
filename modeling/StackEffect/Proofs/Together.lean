import StackEffect.Proofs.Ends

/-!
# Proofs/Together — two steps side by side

    Together p s q t R        p, begun in s, and q, begun in t, both fail,
                              or both answer, and R relates what they answer and leave

Each way of putting steps together has its rule, as for `Ends`.  What a failure leaves is not
compared: nothing is done with it.  Where something is done with it, failures are compared as well:

    Alike p s q t R           p and q answer the same, or fail the same, and R relates what they
                              leave

Steps that keep side by side wherever they begin have rules of their own (`Abreast`).
-/

namespace StackEffect

variable {ε ε' σ τ α β γ δ : Type}

/-- **Two steps go together**: both fail, or both answer and `R` relates their answers and states. -/
def Together (p : EStateM ε σ α) (s : σ) (q : EStateM ε' τ β) (t : τ) (R : α → σ → β → τ → Prop) :
    Prop :=
  match p s, q t with
  | .ok a s, .ok b t => R a s b t
  | .error .., .error .. => True
  | _, _ => False

namespace Together

variable {s : σ} {t : τ} {p : EStateM ε σ α} {q : EStateM ε' τ β} {R R' : α → σ → β → τ → Prop}

/-- What is related in the end may be weakened. -/
theorem mono (h : Together p s q t R) (hR : ∀ a s b t, R a s b t → R' a s b t) :
    Together p s q t R' := by
  unfold Together at h ⊢
  split at h
  · exact hR _ _ _ _ h
  · trivial
  · exact h.elim

/-- What two steps are known to answer is related. -/
theorem ok {a : α} {b : β} {s' : σ} {t' : τ} (h : Together p s q t R) (hp : p s = .ok a s')
    (hq : q t = .ok b t') : R a s' b t' := by
  unfold Together at h
  rwa [hp, hq] at h

/-- If the one step answers, so does the other. -/
theorem exists_ok {a : α} {s' : σ} (h : Together p s q t R) (hp : p s = .ok a s') :
    ∃ b t', q t = .ok b t' ∧ R a s' b t' := by
  unfold Together at h
  rw [hp] at h
  cases hq : q t with
  | ok b t' => exact ⟨b, t', rfl, by rwa [hq] at h⟩
  | error e t' => simp [hq] at h

/-- How two steps end tells how they go together, if neither fails where the other answers. -/
theorem of_ends {Q : α → σ → Prop} {E : ε → σ → Prop} {Q' : β → τ → Prop} {E' : ε' → τ → Prop}
    (hp : Ends p s Q E) (hq : Ends q t Q' E') (hR : ∀ a s b t, Q a s → Q' b t → R a s b t)
    (hQ : ∀ a s e t, Q a s → ¬ E' e t) (hQ' : ∀ e s b t, E e s → ¬ Q' b t) :
    Together p s q t R := by
  unfold Together
  cases hps : p s with
  | ok a s' =>
    cases hqt : q t with
    | ok b t' => exact hR _ _ _ _ (hp.ok hps) (hq.ok hqt)
    | error e t' => exact hQ _ _ _ _ (hp.ok hps) (hq.error hqt)
  | error e s' =>
    cases hqt : q t with
    | ok b t' => exact hQ' _ _ _ _ (hp.error hps) (hq.ok hqt)
    | error e' t' => trivial

/-- What is known of two steps by themselves is known of them together. -/
theorem and_ends {Q : α → σ → Prop} {E : ε → σ → Prop} {Q' : β → τ → Prop} {E' : ε' → τ → Prop}
    (h : Together p s q t R) (hp : Ends p s Q E) (hq : Ends q t Q' E') :
    Together p s q t fun a s b t => R a s b t ∧ Q a s ∧ Q' b t := by
  unfold Together at h ⊢
  cases hps : p s <;> cases hqt : q t <;> rw [hps, hqt] at h
  · exact ⟨h, hp.ok hps, hq.ok hqt⟩
  · exact h
  · exact h
  · trivial

/-- Two programs that go together do so the other way round. -/
theorem symm (h : Together p s q t R) : Together q t p s fun b t a s => R a s b t := by
  unfold Together at h ⊢
  cases hps : p s <;> cases hqt : q t <;> rw [hps, hqt] at h <;> exact h

/-- Steps that go together with one step go together. -/
theorem trans {ε'' υ γ : Type} {r : EStateM ε'' υ γ} {u : υ} {R' : β → τ → γ → υ → Prop}
    (h : Together p s q t R) (h' : Together q t r u R') :
    Together p s r u fun a s c u => ∃ b t, R a s b t ∧ R' b t c u := by
  unfold Together at h h' ⊢
  cases hps : p s <;> cases hqt : q t <;> cases hru : r u <;> rw [hps, hqt] at h <;>
    rw [hqt, hru] at h'
  · exact ⟨_, _, h, h'⟩
  all_goals first | exact h.elim | exact h'.elim | trivial

/-- **One step after another**, on both sides. -/
theorem bind {f : α → EStateM ε σ γ} {g : β → EStateM ε' τ δ} {R' : γ → σ → δ → τ → Prop}
    (h : Together p s q t R) (hf : ∀ a s b t, R a s b t → Together (f a) s (g b) t R') :
    Together (p >>= f) s (q >>= g) t R' := by
  unfold Together at h ⊢
  change (match EStateM.bind p f s, EStateM.bind q g t with
    | .ok a s, .ok b t => R' a s b t
    | .error .., .error .. => True
    | _, _ => False)
  unfold EStateM.bind
  cases hp : p s <;> cases hq : q t <;> rw [hp, hq] at h
  · exact hf _ _ _ _ h
  · exact h.elim
  · exact h.elim
  · trivial

theorem modify_bind {f : σ → σ} {g : τ → τ} {k : PUnit → EStateM ε σ α} {l : PUnit → EStateM ε' τ β}
    (h : Together (k ⟨⟩) (f s) (l ⟨⟩) (g t) R) :
    Together (modify f >>= k) s (modify g >>= l) t R := h

end Together

/-! ## Failures compared -/

/-- **Two steps end alike**: with the same answer or with the same failure, in states that `R`
relates. -/
def Alike (p : EStateM ε σ α) (s : σ) (q : EStateM ε τ α) (t : τ) (R : σ → τ → Prop) : Prop :=
  match p s, q t with
  | .ok a s, .ok b t => b = a ∧ R s t
  | .error e s, .error e' t => e' = e ∧ R s t
  | _, _ => False

namespace Alike

variable {s : σ} {t : τ} {p : EStateM ε σ α} {q : EStateM ε τ α} {R R' : σ → τ → Prop}

theorem of_ok {a : α} {s' : σ} {t' : τ} (hp : p s = .ok a s') (hq : q t = .ok a t')
    (h : R s' t') : Alike p s q t R := by
  unfold Alike
  rw [hp, hq]
  exact ⟨rfl, h⟩

theorem of_error {e : ε} {s' : σ} {t' : τ} (hp : p s = .error e s') (hq : q t = .error e t')
    (h : R s' t') : Alike p s q t R := by
  unfold Alike
  rw [hp, hq]
  exact ⟨rfl, h⟩

/-- **Steps that end alike** both answer the same or both fail the same. -/
theorem ok_or_error (h : Alike p s q t R) :
    (∃ a s' t', p s = .ok a s' ∧ q t = .ok a t' ∧ R s' t') ∨
      ∃ e s' t', p s = .error e s' ∧ q t = .error e t' ∧ R s' t' := by
  unfold Alike at h
  cases hp : p s <;> cases hq : q t <;> rw [hp, hq] at h
  · obtain ⟨rfl, h⟩ := h
    exact .inl ⟨_, _, _, rfl, rfl, h⟩
  · exact h.elim
  · exact h.elim
  · obtain ⟨rfl, h⟩ := h
    exact .inr ⟨_, _, _, rfl, rfl, h⟩

/-- One program that ends as the other one does is alike. -/
theorem of_ends (h : Ends p s (fun a s' => ∃ t', q t = .ok a t' ∧ R s' t')
    fun e s' => ∃ t', q t = .error e t' ∧ R s' t') : Alike p s q t R := by
  cases hp : p s with
  | ok a s' =>
    obtain ⟨t', hq, hst⟩ := h.ok hp
    exact of_ok hp hq hst
  | error e s' =>
    obtain ⟨t', hq, hst⟩ := h.error hp
    exact of_error hp hq hst

theorem mono (h : Alike p s q t R) (hR : ∀ s t, R s t → R' s t) : Alike p s q t R' := by
  rcases h.ok_or_error with ⟨a, s', t', hp, hq, hst⟩ | ⟨e, s', t', hp, hq, hst⟩
  · exact of_ok hp hq (hR _ _ hst)
  · exact of_error hp hq (hR _ _ hst)

/-- What a step is known to leave when it is compared with itself. -/
theorem ends_self {R : σ → σ → Prop} (h : Alike p s p s R) :
    Ends p s (fun _ t => R t t) fun _ t => R t t := by
  unfold Alike at h
  unfold Ends
  cases hp : p s <;> rw [hp] at h
  · exact h.2
  · exact h.2

/-- A program that is alike answers the same. -/
theorem exists_ok {a : α} {s' : σ} (h : Alike p s q t R) (hp : p s = .ok a s') :
    ∃ t', q t = .ok a t' ∧ R s' t' := by
  rcases h.ok_or_error with ⟨b, s'', t', hp', hq, hst⟩ | ⟨e, s'', t', hp', -, -⟩
  · cases hp.symm.trans hp'
    exact ⟨t', hq, hst⟩
  · cases hp.symm.trans hp'

/-- It also fails alike. -/
theorem exists_error {e : ε} {s' : σ} (h : Alike p s q t R) (hp : p s = .error e s') :
    ∃ t', q t = .error e t' ∧ R s' t' := by
  rcases h.ok_or_error with ⟨b, s'', t', hp', -, -⟩ | ⟨e', s'', t', hp', hq, hst⟩
  · cases hp.symm.trans hp'
  · cases hp.symm.trans hp'
    exact ⟨t', hq, hst⟩

/-- Steps that end like one step end alike. -/
theorem trans {υ : Type} {r : EStateM ε υ α} {u : υ} {R' : τ → υ → Prop} (h : Alike p s q t R)
    (h' : Alike q t r u R') : Alike p s r u fun s u => ∃ t, R s t ∧ R' t u := by
  rcases h.ok_or_error with ⟨a, s', t', hp, hq, hst⟩ | ⟨e, s', t', hp, hq, hst⟩
  · obtain ⟨u', hr, htu⟩ := h'.exists_ok hq
    exact of_ok hp hr ⟨t', hst, htu⟩
  · obtain ⟨u', hr, htu⟩ := h'.exists_error hq
    exact of_error hp hr ⟨t', hst, htu⟩

/-- **One step after another**, on both sides. -/
theorem bind {f : α → EStateM ε σ γ} {g : α → EStateM ε τ γ} (h : Alike p s q t R)
    (hf : ∀ a s t, R s t → Alike (f a) s (g a) t R') (hR : ∀ s t, R s t → R' s t) :
    Alike (p >>= f) s (q >>= g) t R' := by
  change Alike (EStateM.bind p f) s (EStateM.bind q g) t R'
  rcases h.ok_or_error with ⟨a, s', t', hp, hq, hst⟩ | ⟨e, s', t', hp, hq, hst⟩
  · have hnext := hf a s' t' hst
    unfold Alike at hnext ⊢
    rwa [EStateM.bind, EStateM.bind, hp, hq]
  · exact of_error (by rw [EStateM.bind, hp]) (by rw [EStateM.bind, hq]) (hR _ _ hst)

/-- The same, with what is known of the one step by itself. -/
theorem bind_ends {f : α → EStateM ε σ γ} {g : α → EStateM ε τ γ} {Q : α → τ → Prop}
    {E : ε → τ → Prop} (h : Alike p s q t R) (hq : Ends q t Q E)
    (hf : ∀ a s t, R s t → Q a t → Alike (f a) s (g a) t R) :
    Alike (p >>= f) s (q >>= g) t R := by
  change Alike (EStateM.bind p f) s (EStateM.bind q g) t R
  rcases h.ok_or_error with ⟨a, s', t', hp, hq', hst⟩ | ⟨e, s', t', hp, hq', hst⟩
  · have hnext := hf a s' t' hst (hq.ok hq')
    unfold Alike at hnext ⊢
    rwa [EStateM.bind, EStateM.bind, hp, hq']
  · exact of_error (by rw [EStateM.bind, hp]) (by rw [EStateM.bind, hq']) hst

theorem modify_bind {f : σ → σ} {g : τ → τ} {k : PUnit → EStateM ε σ α} {l : PUnit → EStateM ε τ α}
    (h : Alike (k ⟨⟩) (f s) (l ⟨⟩) (g t) R) : Alike (modify f >>= k) s (modify g >>= l) t R := h

end Alike

/-! ## Steps that keep side by side -/

/-- **Two steps keep abreast** wherever `I` relates the states they are begun in: they give the same
answer, and leave states that `I` relates, or both fail, with what `E` relates. -/
def Abreast (I : σ → τ → Prop) (E : ε → σ → ε' → τ → Prop) (p : EStateM ε σ α)
    (q : EStateM ε' τ α) : Prop :=
  ∀ s t, I s t → match p s, q t with
    | .ok a s, .ok b t => b = a ∧ I s t
    | .error e s, .error f t => E e s f t
    | _, _ => False

/-- Two steps cannot be told apart by states that `R` relates. -/
abbrev Steady (R : σ → σ → Prop) (p q : EStateM ε σ α) : Prop :=
  Abreast R (fun e s f t => f = e ∧ R s t) p q

/-- Two steps are the same wherever `I` holds, and keep it. -/
abbrev Same (I : σ → Prop) (E : ε → σ → Prop) (p q : EStateM ε σ α) : Prop :=
  Abreast (fun s t => t = s ∧ I s) (fun e s f t => f = e ∧ t = s ∧ E e s) p q

/-- **Programs that are the same** have the same results, and keep what both of them keep. -/
theorem same_iff {I : σ → Prop} {E : ε → σ → Prop} {p q : EStateM ε σ α} :
    Same I E p q ↔ ∀ s, I s → p s = q s ∧ Ends p s (fun _ t => I t) E := by
  refine ⟨fun h s hs => ?_, fun h s t hst => ?_⟩
  · have hpq := h s s ⟨rfl, hs⟩
    unfold Ends
    cases hp : p s <;> cases hq : q s <;> rw [hp, hq] at hpq
    · obtain ⟨rfl, rfl, hI⟩ := hpq
      exact ⟨rfl, hI⟩
    · exact hpq.elim
    · exact hpq.elim
    · obtain ⟨rfl, rfl, hE⟩ := hpq
      exact ⟨rfl, hE⟩
  · obtain ⟨rfl, hs⟩ := hst
    obtain ⟨hpq, hends⟩ := h t hs
    unfold Ends at hends
    cases hq : q t <;> rw [hpq, hq] at hends ⊢
    · exact ⟨rfl, rfl, hends⟩
    · exact ⟨rfl, rfl, hends⟩

namespace Abreast

variable {I : σ → τ → Prop} {E : ε → σ → ε' → τ → Prop} {p : EStateM ε σ α} {q : EStateM ε' τ α}

theorem pure {a : α} : Abreast I E (Pure.pure a : EStateM ε σ α) (Pure.pure a) := fun _ _ h => ⟨rfl, h⟩

theorem throw {e : ε} {f : ε'} (h : ∀ s t, I s t → E e s f t) :
    Abreast I E (throw e : EStateM ε σ α) (throw f) := h

theorem modify {f : σ → σ} {g : τ → τ} (h : ∀ s t, I s t → I (f s) (g t)) :
    Abreast I E (modify f) (modify g) := fun s t hst => ⟨rfl, h s t hst⟩

theorem of_get {f : σ → EStateM ε σ α} {g : τ → EStateM ε' τ α}
    (h : ∀ s t, I s t → Abreast I E (f s) (g t)) : Abreast I E (get >>= f) (get >>= g) :=
  fun s t hst => h s t hst s t hst

/-- **One step after another**, on both sides. -/
theorem bind {f : α → EStateM ε σ β} {g : α → EStateM ε' τ β} (h : Abreast I E p q)
    (hf : ∀ a, Abreast I E (f a) (g a)) : Abreast I E (p >>= f) (q >>= g) := by
  intro s t hst
  have hpq := h s t hst
  change match EStateM.bind p f s, EStateM.bind q g t with
    | .ok a s, .ok b t => b = a ∧ I s t
    | .error e s, .error f t => E e s f t
    | _, _ => False
  unfold EStateM.bind
  cases hp : p s <;> cases hq : q t <;> rw [hp, hq] at hpq
  · obtain ⟨rfl, hst'⟩ := hpq
    exact hf _ _ _ hst'
  · exact hpq.elim
  · exact hpq.elim
  · exact hpq

theorem seq {p' : EStateM ε σ β} {q' : EStateM ε' τ β} (h : Abreast I E p q)
    (h' : Abreast I E p' q') : Abreast I E (p >>= fun _ => p') (q >>= fun _ => q') :=
  h.bind fun _ => h'

theorem ite {c : Prop} [Decidable c] {p' : EStateM ε σ α} {q' : EStateM ε' τ α}
    (h : Abreast I E p q) (h' : Abreast I E p' q') :
    Abreast I E (if c then p else p') (if c then q else q') := by
  split
  · exact h
  · exact h'

theorem forM {l : List α} {f : α → EStateM ε σ PUnit} {g : α → EStateM ε' τ PUnit}
    (h : ∀ a, Abreast I E (f a) (g a)) : Abreast I E (l.forM f) (l.forM g) := by
  induction l with
  | nil => exact .pure
  | cons a l ih => exact (h a).seq ih

theorem foldlM {l : List α} {f : β → α → EStateM ε σ β} {g : β → α → EStateM ε' τ β}
    (h : ∀ b a, Abreast I E (f b a) (g b a)) (b : β) :
    Abreast I E (l.foldlM f b) (l.foldlM g b) := by
  induction l generalizing b with
  | nil => exact .pure
  | cons a l ih => exact (h b a).bind ih

theorem mapM {l : List α} {f : α → EStateM ε σ β} {g : α → EStateM ε' τ β}
    (h : ∀ a, Abreast I E (f a) (g a)) : Abreast I E (l.mapM f) (l.mapM g) := by
  induction l with
  | nil => exact .pure
  | cons a l ih =>
    rw [List.mapM_cons, List.mapM_cons]
    exact (h a).bind fun _ => ih.bind fun _ => .pure

theorem filterM {l : List α} {f : α → EStateM ε σ Bool} {g : α → EStateM ε' τ Bool}
    (h : ∀ a, Abreast I E (f a) (g a)) : Abreast I E (l.filterM f) (l.filterM g) := by
  have haux : ∀ acc : List α, Abreast I E (l.filterAuxM f acc) (l.filterAuxM g acc) := by
    induction l with
    | nil => exact fun _ => .pure
    | cons a l ih => exact fun acc => (h a).bind fun b => ih _
  exact (haux []).bind fun _ => .pure

/-- How the one step ends beside the other. -/
theorem ends (h : Abreast I E p q) {s : σ} {t : τ} (hst : I s t) :
    Ends p s (fun a s' => ∃ t', q t = .ok a t' ∧ I s' t')
      fun e s' => ∃ f t', q t = .error f t' ∧ E e s' f t' := by
  have hpq := h s t hst
  unfold Ends
  cases hp : p s <;> cases hq : q t <;> rw [hp, hq] at hpq
  · obtain ⟨rfl, hst'⟩ := hpq
    exact ⟨_, rfl, hst'⟩
  · exact hpq.elim
  · exact hpq.elim
  · exact ⟨_, _, rfl, hpq⟩

/-- How two steps that keep abreast go together. -/
theorem together (h : Abreast I E p q) {s : σ} {t : τ} (hst : I s t) :
    Together p s q t fun a s b t => b = a ∧ I s t := by
  have hpq := h s t hst
  unfold Together
  cases hp : p s <;> cases hq : q t <;> rw [hp, hq] at hpq
  · exact hpq
  · exact hpq.elim
  · exact hpq.elim
  · trivial

/-- Steps that end alike keep abreast, if the one keeps what is asked of its state. -/
theorem of_alike {R : σ → τ → Prop} {P : τ → Prop} {q : EStateM ε τ α}
    (h : ∀ s t, R s t → P t → Alike p s q t R)
    (hq : ∀ t, P t → Ends q t (fun _ u => P u) fun _ _ => True) :
    Abreast (fun s t => R s t ∧ P t) (fun e s f t => f = e ∧ R s t) p q := by
  rintro s t ⟨hst, ht⟩
  have hpost := hq t ht
  rcases (h s t hst ht).ok_or_error with ⟨a, s', t', hp, hq, hst'⟩ | ⟨e, s', t', hp, hq, hst'⟩
  · rw [hp, hq]
    exact ⟨rfl, hst', hpost.ok hq⟩
  · rw [hp, hq]
    exact ⟨rfl, hst'⟩

/-- How two steps that keep abreast, and fail the same, end alike. -/
theorem alike_of {R : σ → τ → Prop} {q : EStateM ε τ α}
    (h : Abreast I (fun e s f t => f = e ∧ R s t) p q) (hR : ∀ s t, I s t → R s t) {s : σ} {t : τ}
    (hst : I s t) : Alike p s q t R := by
  have hpq := h s t hst
  unfold Alike
  cases hp : p s <;> cases hq : q t <;> rw [hp, hq] at hpq
  · exact ⟨hpq.1, hR _ _ hpq.2⟩
  · exact hpq
  · exact hpq
  · exact hpq

theorem alike {R : σ → σ → Prop} {p q : EStateM ε σ α} (h : Steady R p q) {s t : σ} (hst : R s t) :
    Alike p s q t R := h.alike_of (fun _ _ hR => hR) hst

theorem steady {R : σ → σ → Prop} {p q : EStateM ε σ α} (h : ∀ s t, R s t → Alike p s q t R) :
    Steady R p q := by
  intro s t hst
  rcases (h s t hst).ok_or_error with ⟨a, s', t', hp, hq, hst'⟩ | ⟨e, s', t', hp, hq, hst'⟩ <;>
    rw [hp, hq] <;> exact ⟨rfl, hst'⟩

end Abreast

end StackEffect
