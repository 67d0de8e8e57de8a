import StackEffect.Inference.Body
import StackEffect.Proofs.Inference.Instance
import StackEffect.Proofs.Inference.Pass
import StackEffect.Proofs.Solve.Variant

/-!
# Proofs/Inference/Relabel — passes side by side

    Draws ρ as bs p q R        p draws fresh names with bases as, q with bases bs;
                               if ρ takes the ones to the others, they go together

Two passes that do the same to effects that differ by names go together, from sessions that differ by
names to such sessions.  The names that they are going to draw are told by what they are given
(`Effect.bases`, `Effect.padding`, `Term.bases`), so that one permutation serves for a whole pass.
-/

namespace StackEffect

/-- **Two sessions that differ by names**, both with the names `pending` in the making. -/
structure Session.Relabeled (ρ : Equiv.Perm String) (st : Option Subtyping) (lenient : Bool)
    (pending : List String) (s t : Session) : Prop where
  store : s.store.Relabeled ρ t.store
  left : s.store.Under (.anything st lenient)
  right : t.store.Under (.anything st lenient)
  pending_left : s.pending = pending
  pending_right : t.pending = pending

/-! ## Effects that differ by names -/

theorem Stack.isOpen_map_relabel {ρ : String → String} {s : Stack} :
    isOpen (s.map (Kind.relabel ρ)) = isOpen s := by
  unfold isOpen bottom?
  rw [List.getLast?_map]
  cases s.getLast? with
  | none => rfl
  | some k => cases k <;> simp

namespace Effect

variable {f g : Effect} {ρ : String → String}

/-- **The effects are the same but for the names of variables.**  Both use every name in one sort, and
different variables have different names in both. -/
structure Variant (f g : Effect) : Prop where
  left : f.OneSorted
  right : g.OneSorted
  renamed : ∃ r : Var → Var, (∀ v, (r v).sort = v.sort) ∧ Set.InjOn r {v | v ∈ f.kind.vars} ∧
    g = f.subst fun v => (r v).kind

/-- An effect is a variant of itself. -/
theorem Variant.refl (hf : f.OneSorted) : f.Variant f := by
  have hid : f.relabel id = f := kind_injective (Kind.relabel_id (k := f.kind))
  exact ⟨hf, hf, id, fun _ => rfl, Function.injective_id.injOn, hid.symm⟩

/-- Variants differ by names alone, as no name has two sorts. -/
theorem Variant.exists_relabel (h : f.Variant g) :
    ∃ r, Kind.Separates r f.kind ∧ g = f.relabel r := by
  obtain ⟨⟨sort, hsort⟩, ⟨sort', hsort'⟩, r, hr, hinj, rfl⟩ := h
  obtain ⟨ρ, hρ, heq⟩ := Kind.Renaming.exists_relabel ⟨fun v _ => hr v, hinj⟩
    (Kind.oneSorted_of_sort sort hsort) (Kind.oneSorted_of_sort sort' hsort')
  exact ⟨ρ, hρ, kind_injective heq⟩

/-- One of the stacks of an effect is open. -/
def isOpen (f : Effect) : Bool := Stack.isOpen f.consumed || Stack.isOpen f.produced

/-- Names do not tell whether an effect is open. -/
theorem isOpen_relabel : (f.relabel ρ).isOpen = f.isOpen := by
  rw [relabel_eq, isOpen, isOpen, Stack.isOpen_map_relabel, Stack.isOpen_map_relabel]

/-- The bases of the names that are drawn to pad an effect. -/
def padding (f : Effect) : List String := if f.isOpen then [] else [Infer.restName]

/-- The bases of the names that are drawn where an effect is composed. -/
def drawn (f : Effect) : List String := f.bases ++ f.padding

theorem padding_relabel : (f.relabel ρ).padding = f.padding := by
  rw [padding, padding, isOpen_relabel]

theorem Variant.padding_eq (h : f.Variant g) : f.padding = g.padding := by
  obtain ⟨r, -, rfl⟩ := h.exists_relabel
  exact padding_relabel.symm

end Effect

/-! ## Steps that draw names -/

namespace Infer

variable {α β γ δ : Type} {ρ : Equiv.Perm String} {st : Option Subtyping} {lenient : Bool}
  {pending : List String} {as bs as' bs' : List String}

/-- **Two steps draw names and go together**, if `ρ` takes the names that the one draws to those that
the other draws. -/
def Draws (ρ : Equiv.Perm String) (st : Option Subtyping) (lenient : Bool) (pending : List String)
    (as bs : List String) (p : Infer α) (q : Infer β) (R : α → β → Prop) : Prop :=
  as.length = bs.length ∧ ∀ s t : Session, s.Relabeled ρ st lenient pending t →
    (Fresh.names as s.fresh).map ρ = Fresh.names bs t.fresh →
    Together p s q t fun a s' b t' => R a b ∧ s'.Relabeled ρ st lenient pending t' ∧
      s'.fresh = Fresh.after as s.fresh ∧ t'.fresh = Fresh.after bs t.fresh

namespace Draws

variable {p : Infer α} {q : Infer β} {R : α → β → Prop}

theorem pure {a : α} {b : β} (h : R a b) :
    Draws ρ st lenient pending [] [] (Pure.pure a) (Pure.pure b) R :=
  ⟨rfl, fun _ _ hst _ => ⟨h, hst, rfl, rfl⟩⟩

/-- **One step after another.** -/
theorem bind {f : α → Infer γ} {g : β → Infer δ} {R' : γ → δ → Prop}
    (h : Draws ρ st lenient pending as bs p q R) (hlen : as'.length = bs'.length)
    (hf : ∀ a b, R a b → Draws ρ st lenient pending as' bs' (f a) (g b) R') :
    Draws ρ st lenient pending (as ++ as') (bs ++ bs') (p >>= f) (q >>= g) R' := by
  refine ⟨by simp [h.1, hlen], fun s t hst hρ => ?_⟩
  obtain ⟨hρ₁, hρ₂⟩ := (Fresh.map_names_append h.1).1 hρ
  refine (h.2 s t hst hρ₁).bind fun a s' b t' ⟨hab, hst', hs, ht⟩ => ?_
  refine ((hf a b hab).2 s' t' hst' (by rw [hs, ht, hρ₂])).mono fun _ _ _ _ hcd => ?_
  rw [Fresh.after_append, Fresh.after_append, ← hs, ← ht]
  exact hcd

/-- What draws no names may come last. -/
theorem bind_last {f : α → Infer γ} {g : β → Infer δ} {R' : γ → δ → Prop}
    (h : Draws ρ st lenient pending as bs p q R)
    (hf : ∀ a b, R a b → Draws ρ st lenient pending [] [] (f a) (g b) R') :
    Draws ρ st lenient pending as bs (p >>= f) (q >>= g) R' := by
  rw [← List.append_nil as, ← List.append_nil bs]
  exact h.bind rfl hf

/-- A step that draws no names, and then another. -/
theorem bind_nil {f : α → Infer γ} {g : β → Infer δ} {R' : γ → δ → Prop}
    (h : Draws ρ st lenient pending [] [] p q R) (hlen : as.length = bs.length)
    (hf : ∀ a b, R a b → Draws ρ st lenient pending as bs (f a) (g b) R') :
    Draws ρ st lenient pending as bs (p >>= f) (q >>= g) R' := h.bind hlen hf

theorem get_bind {f : Session → Infer α} {g : Session → Infer β}
    (h : ∀ s t : Session, s.pending = pending → t.pending = pending →
      Draws ρ st lenient pending as bs (f s) (g t) R) :
    Draws ρ st lenient pending as bs (get >>= f) (get >>= g) R :=
  let s : Session := { Session.start st lenient .silent with pending }
  ⟨(h s s rfl rfl).1, fun s t hst => (h s t hst.pending_left hst.pending_right).2 s t hst⟩

/-- Failures draw as many names as there should have been. -/
theorem fail {e e' : InferError} {k l : Session → Session} (hlen : as.length = bs.length) :
    Draws ρ st lenient pending as bs (fun s => .error e (k s)) (fun s => .error e' (l s)) R :=
  ⟨hlen, fun _ _ _ _ => trivial⟩

/-- What a failure leaves does not matter. -/
theorem onError {p' : Infer α} {q' : Infer β} (h : Draws ρ st lenient pending as bs p q R)
    (hp : ∀ s, Together p s p' s fun a s b t => b = a ∧ t = s)
    (hq : ∀ s, Together q s q' s fun a s b t => b = a ∧ t = s) :
    Draws ρ st lenient pending as bs p' q' R := by
  refine ⟨h.1, fun s t hst hρ => ?_⟩
  refine (((hp s).symm.trans (h.2 s t hst hρ)).trans (hq t)).mono ?_
  rintro a s b t ⟨_, _, ⟨_, _, ⟨rfl, rfl⟩, hR⟩, rfl, rfl⟩
  exact hR

end Draws

/-! ## The steps of a pass -/

theorem draws_onStore {p q : Pass α} (h : InStep ρ p q)
    (hp : ∀ s : Store, s.Under (.anything st lenient) →
      Ends p s (fun _ t => t.Under (.anything st lenient)) fun _ _ => True)
    (hq : ∀ s : Store, s.Under (.anything st lenient) →
      Ends q s (fun _ t => t.Under (.anything st lenient)) fun _ _ => True) :
    Draws ρ st lenient pending [] [] (onStore p) (onStore q) (· = ·) := by
  refine ⟨rfl, fun s t hst _ => ?_⟩
  have := (h.together hst.store).and_ends (hp _ hst.left) (hq _ hst.right)
  unfold Together onStore at *
  cases hps : p s.store <;> cases hqt : q t.store <;> rw [hps, hqt] at this
  · exact ⟨this.1.1.symm, ⟨this.1.2, this.2.1, this.2.2, hst.pending_left, hst.pending_right⟩, rfl, rfl⟩
  · exact this
  · exact this
  · trivial

/-- **Composing draws no names**, and gives effects that differ by names. -/
theorem draws_compose {f g f' g' : Effect} (hf : f' = f.relabel ρ) (hg : g' = g.relabel ρ) :
    Draws ρ st lenient pending [] [] (compose f g) (compose f' g') fun x y => y = x.relabel ρ := by
  subst hf hg
  have hends : ∀ v w (s : Store), s.Under (.anything st lenient) → Ends (Store.unifyStacks v w) s
      (fun _ t => t.Under (.anything st lenient)) fun _ _ => True := fun v w s hs =>
    (hs.performs_unifyStacks ⟨trivial, trivial⟩).mono (fun _ _ ht => ht.1) fun _ _ _ => trivial
  unfold compose
  simp only [Effect.relabel_eq]
  exact (draws_onStore (Store.inStep_unifyStacks f.produced g.consumed) (hends _ _)
    (hends _ _)).bind_nil rfl fun _ _ _ => .pure rfl

/-- A fresh stack variable draws one name. -/
theorem draws_freshStack (a b : String) :
    Draws ρ st lenient pending [a] [b] (freshStack a) (freshStack b)
      fun k l => ∃ n, k = .stackVar n ∧ l = .stackVar (ρ n) := by
  refine ⟨rfl, fun s t hst hρ => ⟨⟨_, rfl, ?_⟩, { hst with }, rfl, rfl⟩⟩
  obtain ⟨hname, -⟩ := List.cons.inj hρ
  exact congrArg Kind.stackVar hname.symm

theorem draws_identity :
    Draws ρ st lenient pending [restName] [restName] identity identity
      fun x y => y = x.relabel ρ := by
  refine (draws_freshStack restName restName).bind_last ?_
  rintro _ _ ⟨n, rfl, rfl⟩
  exact .pure (by rw [Effect.relabel_eq]; rfl)

theorem draws_recursive :
    Draws ρ st lenient pending [restName, "'S"] [restName, "'S"] recursive recursive
      fun x y => y = x.relabel ρ ∧ x.padding = [] := by
  change Draws _ _ _ _ ([restName] ++ ["'S"]) ([restName] ++ ["'S"]) _ _ _
  refine (draws_freshStack restName restName).bind rfl ?_
  rintro _ _ ⟨n, rfl, rfl⟩
  refine (draws_freshStack "'S" "'S").bind_last ?_
  rintro _ _ ⟨m, rfl, rfl⟩
  exact .pure ⟨by rw [Effect.relabel_eq]; rfl, rfl⟩

/-- **Making variants anew draws a name for each of theirs.** -/
theorem draws_instantiate {f g : Effect} (h : f.Variant g) :
    Draws ρ st lenient pending f.bases g.bases (instantiate f) (instantiate g)
      fun x y => y = x.relabel ρ ∧ x.padding = f.padding := by
  obtain ⟨r, hr, rfl⟩ := h.exists_relabel
  refine ⟨by rw [Effect.bases_relabel hr, List.length_map], fun s t hst hρ => ⟨⟨?_, ?_⟩, { hst with },
    Fresh.instantiateEffect_snd f _, Fresh.instantiateEffect_snd _ _⟩⟩
  · exact Fresh.instantiateEffect_relabel h.left h.right hr hρ
  · obtain ⟨m, hm, -⟩ := Fresh.exists_instantiateEffect_eq h.left s.fresh
    exact (congrArg _ hm).trans Effect.padding_relabel

theorem draws_pad {f g : Effect} (h : g = f.relabel ρ) :
    Draws ρ st lenient pending f.padding f.padding (pad f) (pad g) fun x y => y = x.relabel ρ := by
  subst h
  unfold pad Effect.padding Effect.isOpen
  rw [Effect.relabel_eq]
  simp only [Stack.isOpen_map_relabel]
  split
  · exact .pure (by rw [Effect.relabel_eq])
  · refine (draws_freshStack restName restName).bind_last ?_
    rintro _ _ ⟨n, rfl, rfl⟩
    exact .pure (by simp [Effect.relabel_eq])

end Infer

/-! ## Bodies -/

/-- The dictionaries declare the same words, with effects that are the same but for names. -/
def Dictionary.Variant (d d' : Dictionary) : Prop :=
  ∀ name, Option.Rel (Option.Rel Effect.Variant) (d.lookup name) (d'.lookup name)

namespace Term

/-- The bases of the names that are drawn to pad the effect of a term. -/
def padding (d : Dictionary) (pending : List String) : Term → List String
  | word name =>
    if pending.contains name then [] else (d.lookup name).join.elim [] Effect.padding
  | literal .. | quotation _ => [Infer.restName]
  | missing => []

mutual
/-- The bases of the names that are drawn to infer the effect of a term. -/
def bases (d : Dictionary) (pending : List String) : Term → List String
  | word name =>
    if pending.contains name then [Infer.restName, "'S"]
    else (d.lookup name).join.elim [] Effect.bases
  | literal .. | missing => []
  | quotation ts => Infer.restName :: drawn d pending ts
/-- The bases of the names that are drawn to infer and compose the effects of terms. -/
def drawn (d : Dictionary) (pending : List String) : List Term → List String
  | [] => []
  | t :: ts => bases d pending t ++ (padding d pending t ++ drawn d pending ts)
end

theorem padding_variant {d d' : Dictionary} (h : d.Variant d') (pending : List String) (t : Term) :
    t.padding d pending = t.padding d' pending := by
  cases t with
  | word name =>
    have hname := h name
    rw [padding, padding]
    generalize d.lookup name = x, d'.lookup name = y at hname ⊢
    cases hname with
    | none => rfl
    | some hfg =>
      cases hfg with
      | none => rfl
      | some hfg => simp only [Option.join_some, Option.elim_some, hfg.padding_eq]
  | _ => rfl

end Term

namespace Infer

variable {ρ : Equiv.Perm String} {st : Option Subtyping} {lenient : Bool} {pending : List String}
  {d d' : Dictionary}

/-- **A word draws the names of its effect.** -/
theorem draws_word (hd : d.Variant d') (name : String) :
    Draws ρ st lenient pending ((Term.word name).bases d pending) ((Term.word name).bases d' pending)
      (word d name) (word d' name)
      fun x y => y = x.relabel ρ ∧ x.padding = (Term.word name).padding d pending := by
  have hname := hd name
  unfold word
  rw [Term.bases, Term.bases, Term.padding]
  generalize d.lookup name = x, d'.lookup name = y at hname ⊢
  refine .get_bind fun s t hs ht => ?_
  rw [hs, ht]
  split
  · exact draws_recursive
  · cases hname with
    | none => exact .fail rfl
    | some hfg =>
      cases hfg with
      | none => exact .fail rfl
      | some hfg => exact draws_instantiate hfg

theorem draws_composeTerm (t : Term) {f g x y : Effect} (hfg : g = f.relabel ρ)
    (hxy : y = x.relabel ρ) :
    Draws ρ st lenient pending x.padding x.padding (composeTerm t f x) (composeTerm t g y)
      fun x y => y = x.relabel ρ := by
  refine (draws_pad hxy).bind_last fun x' y' hxy' => ?_
  refine (draws_compose hfg hxy').onError (fun s => ?_) fun s => ?_
  · unfold Together
    cases hc : compose f x' s <;> simp [hc]
  · unfold Together
    cases hc : compose g y' s <;> simp [hc]

mutual
/-- **The effects of a term differ by names.** -/
theorem draws_term (hd : d.Variant d') : ∀ t : Term, t.Plain →
    Draws ρ st lenient pending (t.bases d pending) (t.bases d' pending) (term d t) (term d' t)
      fun x y => y.1 = x.1.relabel ρ ∧ x.1.padding = t.padding d pending
  | .word name, _ => (draws_word hd name).bind_last fun _ _ h => .pure h
  | .literal text kind, hplain => by
    obtain ⟨type, -, rfl⟩ := hplain text kind List.mem_cons_self
    exact .pure ⟨rfl, rfl⟩
  | .quotation ts, hplain => by
    rw [Term.plain_quotation_iff] at hplain
    rw [term, term, Term.bases, Term.bases]
    refine draws_identity.bind (draws_body hd ts hplain (f := pushes .self) rfl).1 fun x y hxy => ?_
    refine (draws_body hd ts hplain hxy).bind_last ?_
    rintro ⟨f, inner⟩ ⟨g, inner'⟩ hfg
    obtain rfl : g = f.relabel ρ := hfg
    refine .get_bind fun s t hs ht => .pure ?_
    rw [hs, ht]
    dsimp only
    split
    · exact ⟨rfl, rfl⟩
    · exact ⟨rfl, rfl⟩
  | .missing, _ => .fail rfl
/-- **The effects of a body differ by names**, if those that it goes on from do. -/
theorem draws_body (hd : d.Variant d') : ∀ (ts : List Term), (∀ t ∈ ts, t.Plain) →
    ∀ {f g : Effect}, g = f.relabel ρ →
    Draws ρ st lenient pending (Term.drawn d pending ts) (Term.drawn d' pending ts) (body d f ts)
      (body d' g ts) fun x y => y.1 = x.1.relabel ρ
  | [], _, _, _, hfg => .pure hfg
  | t :: ts, hplain, f, g, hfg => by
    rw [List.forall_mem_cons] at hplain
    have hlen := (draws_body hd ts hplain.2 hfg).1
    rw [body, body, Term.drawn, Term.drawn, ← Term.padding_variant hd]
    refine (draws_term hd t hplain.1).bind (by simp [hlen]) ?_
    rintro ⟨x, effects⟩ ⟨y, effects'⟩ ⟨hxy, hx⟩
    rw [← hx]
    refine (draws_composeTerm t hfg hxy).bind hlen fun x' y' hxy' => ?_
    exact (draws_body hd ts hplain.2 hxy').bind_last fun _ _ hr => .pure hr
end

theorem draws_inferred (hd : d.Variant d') {ts : Body} (hplain : ∀ t ∈ ts, t.Plain) :
    Draws ρ st lenient pending (restName :: Term.drawn d pending ts)
      (restName :: Term.drawn d' pending ts) (do return (← body d (← identity) ts).1)
      (do return (← body d' (← identity) ts).1) fun x y => y = x.relabel ρ := by
  have hbody : ∀ {f g : Effect}, g = f.relabel ρ → Draws ρ st lenient pending _ _
      (do return (← body d f ts).1) (do return (← body d' g ts).1) fun x y => y = x.relabel ρ :=
    fun hfg => (draws_body hd ts hplain hfg).bind_last fun _ _ hr => .pure hr
  exact draws_identity.bind (hbody (f := pushes .self) rfl).1 fun _ _ => hbody

end Infer

end StackEffect
