import StackEffect.Proofs.Inference.Row

/-!
# Proofs/Inference/Variant — results do not tell the names of variables

    q.Variant q'   ⟶   run q and run q' both fail, or answer the same

Fresh names keep the name of the variable that they are for, and where classes are solved it is names
that break ties.  Two requests that differ in names therefore take different names for their results;
but these go when the result is put into canonical form (`result_of_variants`).
-/

namespace StackEffect

/-! ## The begin and the end of a pass -/

namespace Session

variable {ρ : Equiv.Perm String} {st : Option Subtyping} {lenient : Bool} {pending : List String}
  {s t : Session}

theorem pending_begin (s : Session) : s.begin.pending = s.pending := by
  unfold begin reset
  split <;> rfl

/-- Sessions of one lattice and one mode begin alike. -/
theorem Idle.relabeled_begin (ρ : Equiv.Perm String) (hs : s.Idle) (ht : t.Idle)
    (hst : t.store.subtyping = s.store.subtyping) (hl : t.store.lenient = s.store.lenient)
    (hp : t.pending = s.pending) :
    s.begin.Relabeled ρ s.store.subtyping s.store.lenient s.pending t.begin where
  store := by
    rw [hs.store_begin, ht.store_begin]
    exact .reset ρ hst hl
  left := hs.store_begin ▸ Store.under_reset _
  right := by
    rw [ht.store_begin, ← hst, ← hl]
    exact Store.under_reset _
  pending_left := pending_begin s
  pending_right := (pending_begin t).trans hp

theorem Relabeled.note (h : s.Relabeled ρ st lenient pending t) (line line' : Unit → String) :
    (s.note line).Relabeled ρ st lenient pending (t.note line') where
  store := h.store.note (fun _ => "catinfer: " ++ line ()) fun _ => "catinfer: " ++ line' ()
  left := h.left.congr (partition_note s line)
  right := h.right.congr (partition_note t line')
  pending_left := h.pending_left
  pending_right := h.pending_right

/-- **Passes that have gathered effects which differ by names find the same effect.** -/
theorem Relabeled.together_finish (h : s.Relabeled ρ st lenient pending t) (f : Effect) :
    Together (Infer.finish f) s (Infer.finish (f.relabel ρ)) t fun x _ y _ => y = x := by
  have hsolve := h.store.together_solve h.left.good.toSound h.right.good.toSound
  refine Together.bind (R := fun _ s _ t => t.finalize (f.relabel ρ) = s.finalize f) ?_ ?_
  · unfold Together Infer.onStore at *
    cases hs : Store.solve s.store <;> cases ht : Store.solve t.store <;> rw [hs, ht] at hsolve
    · exact hsolve f
    · exact hsolve
    · exact hsolve
    · trivial
  · exact fun _ _ _ _ hfg => hfg

end Session

/-! ## Requests -/

namespace Request

/-- **Requests that are the same but for the names of variables.** -/
inductive Variant : Request → Request → Prop where
  | compose {f f' g g' : Effect} : f.Variant f' → g.Variant g' →
      Variant (.compose f g) (.compose f' g')
  | composeAll {fs fs' : List Effect} : List.Forall₂ Effect.Variant fs fs' →
      Variant (.composeAll fs) (.composeAll fs')
  | infer {d d' : Dictionary} {src : String} {ts : Body} : Body.parse src = .ok ts →
      d.Variant d' → Variant (.infer d ts) (.infer d' ts)

/-- The bases of the names that a request draws, in turn. -/
def drawn (pending : List String) : Request → List String
  | compose f g => [.nop, f, g].flatMap Effect.drawn
  | composeAll fs => (.nop :: fs).flatMap Effect.drawn
  | infer d ts => Infer.restName :: Term.drawn d pending ts

variable {q q' : Request} {s t : Session}

/-- Requests go together if what they gather does, and what they make of it. -/
theorem together_run {R : Effect → Session → Effect → Session → Prop}
    (h : Together (q.gather >>= Infer.finish) s (q'.gather >>= Infer.finish) t R) :
    Together q.run s q'.run t R := by
  have hfailed : ∀ {q : Request} {s : Session},
      Together q.run s (q.gather >>= Infer.finish) s fun a s b t => b = a ∧ t = s := by
    intro q s
    have hself : Ends q.run s (fun a t => (q.gather >>= Infer.finish) s = .ok a t)
        fun e _ => ∃ t, (q.gather >>= Infer.finish) s = .error e t :=
      ends_run_iff.2 ((Ends.self _ s).mono (fun _ _ ha => ha) fun _ t he => ⟨t, he⟩)
    unfold Together
    cases hrun : q.run s with
    | ok a u => rw [hself.ok hrun]; exact ⟨rfl, rfl⟩
    | error e u =>
      obtain ⟨v, hv⟩ := hself.error hrun
      rw [hv]
      trivial
  refine ((hfailed.trans h).trans hfailed.symm).mono ?_
  rintro _ _ _ _ ⟨_, _, ⟨_, _, ⟨rfl, rfl⟩, hR⟩, rfl, rfl⟩
  exact hR

end Request

/-- **A body has one effect in dictionaries that differ by names.** -/
theorem together_infer {d d' : Dictionary} (hd : d.Variant d') {ts : Body}
    (hplain : ∀ t ∈ ts, t.Plain) {s t : Session} (hs : s.Idle) (ht : t.Idle)
    (hst : t.store.subtyping = s.store.subtyping) (hl : t.store.lenient = s.store.lenient)
    (hp : t.pending = s.pending) (hcount : ((Request.infer d ts).drawn s.pending).length ≤ 2 ^ 64) :
    Together (Request.infer d ts).run s (Request.infer d' ts).run t fun r _ r' _ => r' = r := by
  have hdraws : ∀ ρ, Infer.Draws ρ s.store.subtyping s.store.lenient s.pending _ _ _ _ _ := fun ρ =>
    Infer.draws_inferred hd hplain
  obtain ⟨ρ, hρ⟩ := Fresh.exists_perm_names (hdraws (.refl _)).1 hcount s.begin.fresh t.begin.fresh
  have hbegin := (hs.relabeled_begin ρ ht hst hl hp).note (fun _ => "infer " ++ Body.text ts)
    fun _ => "infer " ++ Body.text ts
  refine Request.together_run (Together.bind (Together.modify_bind
    ((hdraws ρ).2 _ _ hbegin hρ)) ?_)
  rintro f u _ u' ⟨rfl, hu, -⟩
  exact hu.together_finish f

/-- **Results do not tell the names of variables.**  Of two requests that are the same but for the
names of variables, in sessions of one lattice and one mode, both fail or both have the same result;
provided that counting the fresh names does not begin again in the middle. -/
theorem result_of_variants {q q' : Request} (hq : q.Variant q') {s s' : Session} (hs : s.Idle)
    (hs' : s'.Idle) (hst : s'.store.subtyping = s.store.subtyping)
    (hl : s'.store.lenient = s.store.lenient) (hp : s'.pending = s.pending)
    (hcount : (q.drawn s.pending).length ≤ 2 ^ 64) :
    Together q.run s q'.run s' fun r _ r' _ => r' = r := by
  cases hq with
  | @compose f f' g g' hf hg =>
    obtain ⟨es, hes, hes'⟩ := exists_readyAs_of_variants (.cons hf (.cons hg .nil))
    exact Request.together_rows hes hes' hs hs' hst hl hcount
  | composeAll hfs =>
    obtain ⟨es, hes, hes'⟩ := exists_readyAs_of_variants hfs
    exact Request.together_rows hes hes' hs hs' hst hl hcount
  | infer hsrc hd =>
    exact together_infer hd (Body.plain_of_parse hsrc) hs hs' hst hl hp hcount

/-- The result of `swap apply` is the same if the variables of `swap` change places, and those of
`apply` have other names. -/
theorem result_of_variants_swap_apply :
    let swap (a b : String) : Effect :=
      ⟨[.typeVar a, .typeVar b], [.typeVar b, .typeVar a], false⟩
    let apply (a b : String) : Effect :=
      ⟨[.effect [.stackVar a] [.stackVar b] false, .stackVar a], [.stackVar b], false⟩
    let request (f g : Effect) : Request :=
      .infer ⟨[("swap", some f), ("apply", some g)], []⟩ [.word "swap", .word "apply"]
    let q := request (swap "'a" "'b") (apply "'A" "'B")
    let q' := request (swap "'b" "'a") (apply "'Y" "'X")
    let s := Session.start none false .silent
    q.Variant q' ∧ s.Idle ∧ (q.drawn s.pending).length ≤ 2 ^ 64 ∧
      ∃ r t t', q.run s = .ok r t ∧ q'.run s = .ok r t' ∧
        r.text = "('A ('A 'a -> 'B) 'a -> 'B)" := by
  intro swap apply request q q' s
  let renamed (a b c : String) (v : Var) : Var := ⟨v.sort, if v.name = a then b else c⟩
  have hswap : (swap "'a" "'b").Variant (swap "'b" "'a") := by
    have hinj : ∀ v ∈ (swap "'a" "'b").kind.vars, ∀ w ∈ (swap "'a" "'b").kind.vars,
        renamed "'a" "'b" "'a" v = renamed "'a" "'b" "'a" w → v = w := by decide
    exact ⟨⟨fun _ => .slot, by decide⟩, ⟨fun _ => .slot, by decide⟩,
      renamed "'a" "'b" "'a", fun _ => rfl, fun v hv w hw => hinj v hv w hw, rfl⟩
  have happly : (apply "'A" "'B").Variant (apply "'Y" "'X") := by
    have hinj : ∀ v ∈ (apply "'A" "'B").kind.vars, ∀ w ∈ (apply "'A" "'B").kind.vars,
        renamed "'A" "'Y" "'X" v = renamed "'A" "'Y" "'X" w → v = w := by decide
    exact ⟨⟨fun _ => .stack, by decide⟩, ⟨fun _ => .stack, by decide⟩,
      renamed "'A" "'Y" "'X", fun _ => rfl, fun v hv w hw => hinj v hv w hw, rfl⟩
  have hvariant : q.Variant q' := by
    refine .infer (show Body.parse "swap apply" = _ by rfl) fun name => ?_
    simp only [Dictionary.lookup, List.findSome?_cons, List.findSome?_nil, Assoc.get?,
      List.lookup_cons, List.lookup_nil]
    cases name == "swap" with
    | true => exact .some (.some hswap)
    | false =>
      cases name == "apply" with
      | true => exact .some (.some happly)
      | false => exact .none
  have hidle : s.Idle := Session.idle_start .silent
  have hcount : (q.drawn s.pending).length ≤ 2 ^ 64 := by decide +kernel
  have hrun : Ends q.run s (fun r _ => r.text = "('A ('A 'a -> 'B) 'a -> 'B)") fun _ _ => False := by
    decide +kernel
  obtain ⟨r, t, hrt, htext⟩ := hrun.exists_ok
  obtain ⟨_, t', hrt', rfl⟩ :=
    (result_of_variants hvariant hidle hidle rfl rfl rfl hcount).exists_ok hrt
  exact ⟨hvariant, hidle, hcount, _, t, t', hrt, hrt', htext⟩

end StackEffect
