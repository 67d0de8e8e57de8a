import Mathlib.Data.Set.Finite.List
import StackEffect.Proofs.Inference.Readback
import StackEffect.Proofs.Inference.Relabel

/-!
# Proofs/Inference/Row — a pass over a row of effects

    composeAll [f, g]        unify 'R = f꜀,  unify fₚ = g꜀,  solve

Composing draws names and constrains the store by turns.  The names do not depend on the constraints:
all effects can be made ready first (`Fresh.readyAll`), and what remains is a row of calls on the
store (`Request.ends_row`).  What matters of an effect is what it is when it is ready (`ReadyAs`): rows
of effects that are the same then have the same result (`together_rows`).
-/

namespace StackEffect

/-! ## Effects that are ready to be composed -/

namespace Effect

/-- **An effect with the stack that it leaves alone** below what it consumes and produces. -/
def atop (f : Effect) (a : String) : Effect :=
  ⟨f.consumed ++ [.stackVar a], f.produced ++ [.stackVar a], f.impure⟩

/-- The effect of doing nothing. -/
def nop : Effect := ⟨[], [], false⟩

end Effect

namespace Fresh

/-- **An effect made ready to be composed**: an instance, with the stack that it leaves alone. -/
def ready (c : Fresh) (f : Effect) : Effect × Fresh :=
  let r := c.instantiateEffect f
  if r.1.isOpen then r else (r.1.atop (r.2.name Infer.restName).1, (r.2.name Infer.restName).2)

/-- Effects made ready one after another. -/
def readyAll (c : Fresh) : List Effect → List Effect
  | [] => []
  | f :: fs => (c.ready f).1 :: (c.ready f).2.readyAll fs

end Fresh

namespace Store

/-- Constrains what each effect of a row produces to be what the next one consumes. -/
def composeRow (f : Effect) : List Effect → Pass Effect
  | [] => pure f
  | g :: gs => do
    unifyStacks f.produced g.consumed
    composeRow ⟨f.consumed, g.produced, f.impure || g.impure⟩ gs

/-- **A pass over a row**: it gathers constraints and solves them. -/
def passRow (f : Effect) (gs : List Effect) : Pass Effect := do
  let f ← composeRow f gs
  solve
  return f

end Store

namespace Infer

variable {s : Session} {f g : Effect} {gs : List Effect}

theorem ends_ready (f : Effect) (s : Session) : Ends (do pad (← instantiate f)) s
    (fun g t => g = (s.fresh.ready f).1 ∧ t = { s with fresh := (s.fresh.ready f).2 })
    fun _ _ => False := by
  refine Ends.bind_iff.2 ?_
  change Ends (pad (s.fresh.instantiateEffect f).1)
    { s with fresh := (s.fresh.instantiateEffect f).2 } _ _
  refine Ends.ite (fun h => ?_) fun h => ?_
  · rw [Fresh.ready, if_pos (show Effect.isOpen _ = true from h)]
    exact ⟨rfl, rfl⟩
  · rw [Fresh.ready, if_neg (show ¬Effect.isOpen _ = true from h)]
    exact ⟨rfl, rfl⟩

/-- Composing a row ends as constraining the store does, for the row made ready. -/
theorem ends_composeFrom {Q : Effect → Store → Prop} {E : Fault → Store → Prop}
    (h : Ends (Store.composeRow f (s.fresh.readyAll gs)) s.store Q E) :
    Ends (composeFrom f (gs.map some)) s (fun x t => Q x t.store)
      fun e t => ∃ fault, e = .constraint fault ∧ E fault t.store := by
  induction gs generalizing f s with
  | nil => exact h
  | cons g gs ih =>
    rw [Fresh.readyAll, Store.composeRow, Ends.bind_iff] at h
    have hready := Ends.bind_iff.1 (ends_ready g s)
    refine Ends.bind_iff.2 (hready.mono (fun g' t hg' => ?_) fun _ _ => False.elim)
    refine (hg'.mono (fun _ _ => id) fun _ _ => False.elim).bind ?_
    rintro _ _ ⟨rfl, rfl⟩
    refine Ends.bind_iff.2 (Ends.bind_iff.2 (ends_onStore_iff.2 ?_))
    exact h.mono (fun _ u hu => ih hu) fun fault u he => ⟨fault, rfl, he⟩

end Infer

namespace Request

variable {s : Session} {fs : List Effect}

/-- **What a pass over a row finds**, and why it fails: it begins with the effect of doing nothing, and
ends as the pass over the row made ready. -/
theorem ends_row (hs : s.Idle) {Q : Effect → Store → Prop} {E : Fault → Store → Prop}
    (h : Ends (Store.passRow (s.begin.fresh.ready .nop).1 ((s.begin.fresh.ready .nop).2.readyAll fs))
      s.store.reset Q E) :
    Ends (composeAll fs).run s
      (fun r t => ∃ f u, Q f u ∧ u.Asked t.store ∧ r = (u.resolveEffect f).close.generalize)
      fun e _ => ∃ fault, e = .constraint fault ∧ ∃ u, E fault u := by
  rw [Store.passRow, Ends.bind_iff, ← hs.store_begin] at h
  refine ends_run_iff.2 (Ends.bind_iff.2 (Ends.bind_iff.2 (Ends.modify_iff.2 ?_)))
  change Ends (Infer.composeFrom (s.begin.fresh.ready .nop).1 (fs.map some))
    { s.begin with fresh := (s.begin.fresh.ready .nop).2 } _ _
  refine (Infer.ends_composeFrom h).mono (fun f t ht => ?_) ?_
  · rw [Ends.bind_iff] at ht
    refine Ends.bind_iff.2 (Infer.ends_onStore_iff.2 (ht.mono (fun _ u hu => ?_) ?_))
    · exact ⟨f, u, hu, Session.asked_note { t with store := u } _, rfl⟩
    · exact fun fault u he => ⟨fault, rfl, u, he⟩
  · rintro _ t ⟨fault, rfl, he⟩
    exact ⟨fault, rfl, t.store, he⟩

end Request

/-! ## Rows that are the same when they are ready -/

namespace Effect

variable {e f g : Effect} {a : String} {r : String → String}

/-- **What an effect is when it is ready**, but for the names that it is given then. -/
def ReadyAs (f e : Effect) : Prop :=
  ∀ c : Fresh, (c.ready f).2 = Fresh.after f.drawn c ∧
    ∃ m, (c.ready f).1 = e.relabel m ∧ (e.bases.map m).Perm (Fresh.names f.drawn c)

theorem nodup_bases (f : Effect) : f.bases.Nodup := Kind.nodup_eraseDups _

theorem relabel_relabel {m : String → String} : (f.relabel r).relabel m = f.relabel (m ∘ r) := by
  apply kind_injective
  rw [kind_relabel, kind_relabel, Kind.relabel_relabel, kind_relabel]

theorem ReadyAs.of_relabel (h : f.ReadyAs (e.relabel r)) (hr : Kind.Separates r e.kind) :
    f.ReadyAs e := by
  intro c
  obtain ⟨hafter, m, hm, hperm⟩ := h c
  refine ⟨hafter, m ∘ r, hm.trans relabel_relabel, ?_⟩
  rwa [bases_relabel hr, List.map_map] at hperm

/-- An open effect is ready as it is. -/
theorem readyAs_self (hf : f.OneSorted) (hopen : f.isOpen = true) : f.ReadyAs f := by
  intro c
  obtain ⟨m, hm, hnames⟩ := Fresh.exists_instantiateEffect_eq hf c
  have hready : c.ready f = c.instantiateEffect f := by
    rw [Fresh.ready, hm, isOpen_relabel, if_pos hopen]
  have hdrawn : f.drawn = f.bases := by rw [drawn, padding, if_pos hopen, List.append_nil]
  rw [hready, hdrawn]
  exact ⟨Fresh.instantiateEffect_snd f c, m, hm, .of_eq hnames⟩

theorem mem_vars_atop {v : Var} :
    v ∈ (f.atop a).kind.vars ↔ v ∈ f.kind.vars ∨ v = ⟨.stack, a⟩ := by
  have happend : ∀ s : Stack, v ∈ Kind.slotVars (s ++ [.stackVar a]) ↔
      v ∈ Kind.slotVars s ∨ v = ⟨.stack, a⟩ := by
    intro s
    simp only [Kind.mem_slotVars, List.mem_append, List.mem_singleton, or_and_right, exists_or,
      exists_eq_left, Kind.vars]
  change v ∈ Kind.slotVars (_ ++ _) ++ Kind.slotVars (_ ++ _) ↔
    v ∈ Kind.slotVars f.consumed ++ Kind.slotVars f.produced ∨ _
  rw [List.mem_append, List.mem_append, happend, happend, or_or_or_comm, or_self]

theorem mem_freeVars_atop {n : String} :
    n ∈ (f.atop a).kind.freeVars ↔ n ∈ f.bases ∨ n = a := by
  rw [mem_bases, Kind.mem_freeVars, Kind.mem_freeVars]
  simp only [mem_vars_atop, or_and_right, exists_or, exists_eq_left, eq_comm]

theorem bases_atop_perm (ha : a ∉ f.bases) : (f.atop a).bases.Perm (f.bases ++ [a]) := by
  refine (List.perm_ext_iff_of_nodup (nodup_bases _) ?_).2 fun b => ?_
  · exact List.nodup_append.2 ⟨nodup_bases f, List.nodup_singleton a, fun b hb c hc => by
      rintro rfl
      exact ha (List.mem_singleton.1 hc ▸ hb)⟩
  · rw [mem_bases, mem_freeVars_atop, List.mem_append, List.mem_singleton]

theorem atop_relabel : (f.atop a).relabel r = (f.relabel r).atop (r a) := by
  simp [relabel_eq, atop]

theorem relabel_congr {r' : String → String} (h : ∀ b ∈ f.bases, r b = r' b) :
    f.relabel r = f.relabel r' :=
  kind_injective (Kind.relabel_congr fun v hv =>
    h v.name (mem_bases.2 (Kind.mem_freeVars.2 ⟨v, hv, rfl⟩)))

/-- An effect that is not open is ready above a stack that it leaves alone. -/
theorem readyAs_atop (hf : f.OneSorted) (hopen : f.isOpen = false) (ha : a ∉ f.bases) :
    f.ReadyAs (f.atop a) := by
  intro c
  obtain ⟨m, hm, hnames⟩ := Fresh.exists_instantiateEffect_eq hf c
  let rest := ((c.instantiateEffect f).2.name Infer.restName).1
  have hkeep : ∀ b ∈ f.bases, Function.update m a rest b = m b := fun b hb =>
    Function.update_of_ne (ne_of_mem_of_not_mem hb ha) _ _
  have hready : c.ready f = ((f.relabel m).atop rest, Fresh.after [Infer.restName]
      (c.instantiateEffect f).2) := by
    have hclosed : (f.relabel m).isOpen = false := isOpen_relabel.trans hopen
    rw [Fresh.ready, hm, hclosed, if_neg Bool.false_ne_true]
    rfl
  have hdrawn : f.drawn = f.bases ++ [Infer.restName] := by
    rw [drawn, padding, hopen, if_neg Bool.false_ne_true]
  rw [hready, hdrawn, Fresh.after_append, Fresh.names_append, ← Fresh.instantiateEffect_snd]
  refine ⟨rfl, Function.update m a rest, ?_, ((bases_atop_perm ha).map _).trans (.of_eq ?_)⟩
  · rw [atop_relabel, relabel_congr hkeep, Function.update_self]
  · rw [List.map_append, List.map_congr_left hkeep, hnames, List.map_singleton,
      Function.update_self]
    rfl

theorem readyAs_nop : nop.ReadyAs (nop.atop Infer.restName) :=
  readyAs_atop ⟨fun _ => .slot, by simp [nop, kind, Kind.vars, Kind.slotVars]⟩ rfl List.not_mem_nil

/-- New names may be given to the parts of an effect above a stack and to that stack. -/
theorem separates_atop {b : String} (hr : Kind.Separates r f.kind) (ha : a ∉ f.bases)
    (hb : b ∉ (f.relabel r).bases) : Kind.Separates (Function.update r a b) (f.atop a).kind := by
  have hkeep : ∀ n ∈ f.bases, Function.update r a b n = r n := fun n hn =>
    Function.update_of_ne (ne_of_mem_of_not_mem hn ha) _ _
  have hne : ∀ n ∈ f.bases, r n ≠ b := by
    rintro n hn rfl
    rw [bases_relabel hr] at hb
    exact hb (List.mem_map_of_mem hn)
  intro n hn m hm hnm
  rcases mem_freeVars_atop.1 hn with hn' | hn' <;> rcases mem_freeVars_atop.1 hm with hm' | hm'
  · rw [hkeep n hn', hkeep m hm'] at hnm
    exact hr (mem_bases.1 hn') (mem_bases.1 hm') hnm
  · rw [hkeep n hn', hm', Function.update_self] at hnm
    exact absurd hnm (hne n hn')
  · rw [hkeep m hm', hn', Function.update_self] at hnm
    exact absurd hnm.symm (hne m hm')
  · rw [hn', hm']

/-- An open effect under other names is ready as the effect. -/
theorem Variant.readyAs (h : f.Variant g) (hopen : f.isOpen = true) : g.ReadyAs f := by
  obtain ⟨r, hr, rfl⟩ := h.exists_relabel
  exact (readyAs_self h.right (isOpen_relabel.trans hopen)).of_relabel hr

/-- An effect under other names that is not open is ready as the effect above a stack. -/
theorem Variant.readyAs_atop (h : f.Variant g) (hopen : f.isOpen = false) (ha : a ∉ f.bases) :
    g.ReadyAs (f.atop a) := by
  obtain ⟨r, hr, rfl⟩ := h.exists_relabel
  obtain ⟨b, hb⟩ := (List.finite_toSet (f.relabel r).bases).exists_notMem
  have hkeep : ∀ n ∈ f.bases, Function.update r a b n = r n := fun n hn =>
    Function.update_of_ne (ne_of_mem_of_not_mem hn ha) _ _
  have heq : (f.relabel r).atop b = (f.atop a).relabel (Function.update r a b) := by
    rw [atop_relabel, relabel_congr hkeep, Function.update_self]
  have hready := Effect.readyAs_atop h.right (isOpen_relabel.trans hopen) hb
  rw [heq] at hready
  exact hready.of_relabel (separates_atop hr ha hb)

/-- **Effects that differ by names are ready as one and the same effect.** -/
theorem exists_readyAs (f : Effect) : ∃ e, ∀ g, f.Variant g → g.ReadyAs e := by
  cases hopen : f.isOpen with
  | true => exact ⟨f, fun g hg => hg.readyAs hopen⟩
  | false =>
    obtain ⟨a, ha⟩ := (List.finite_toSet f.bases).exists_notMem
    exact ⟨f.atop a, fun g hg => hg.readyAs_atop hopen ha⟩

end Effect

theorem exists_readyAs_of_variants {fs gs : List Effect} (h : List.Forall₂ Effect.Variant fs gs) :
    ∃ es, List.Forall₂ Effect.ReadyAs fs es ∧ List.Forall₂ Effect.ReadyAs gs es := by
  induction h with
  | nil => exact ⟨[], .nil, .nil⟩
  | @cons f g fs gs hfg _ ih =>
    obtain ⟨es, hfs, hgs⟩ := ih
    obtain ⟨e, he⟩ := Effect.exists_readyAs f
    exact ⟨e :: es, .cons (he f (.refl hfg.left)) hfs, .cons (he g hfg) hgs⟩

/-- **Copies of effects under other names**: each effect has its own new names, which are listed in
the order of the names that they take the place of. -/
inductive Copies : List Effect → List Effect → List String → Prop where
  | nil : Copies [] [] []
  | cons {e : Effect} {es gs : List Effect} {names : List String} (m : String → String) :
      Copies es gs names → Copies (e :: es) (e.relabel m :: gs) (e.bases.map m ++ names)

namespace Copies

variable {es fs gs : List Effect} {names names' : List String} {ρ : String → String} {c : Fresh}

theorem length_names (h : Copies es gs names) : names.length = (es.flatMap Effect.bases).length := by
  induction h with
  | nil => rfl
  | cons m _ ih => simp [ih]

/-- Copies of the same effects differ by names. -/
theorem relabel (h : Copies es fs names) (h' : Copies es gs names') (hρ : names.map ρ = names') :
    gs = fs.map (Effect.relabel ρ) := by
  induction h generalizing gs names' with
  | nil => cases h'; rfl
  | @cons e es fs names m _ ih =>
    cases h' with
    | cons m' h' =>
      rw [List.map_append, List.map_map] at hρ
      obtain ⟨hm, hrest⟩ := List.append_inj hρ (by simp)
      rw [List.map_cons, ih h' hrest, Effect.relabel_relabel]
      exact congrArg (· :: _) (Effect.relabel_congr fun b hb => (List.map_inj_left.1 hm b hb).symm)

/-- **Effects made ready are copies.** -/
theorem readyAll (h : List.Forall₂ Effect.ReadyAs fs es) (c : Fresh) :
    ∃ names, Copies es (c.readyAll fs) names ∧
      names.Perm (Fresh.names (fs.flatMap Effect.drawn) c) := by
  induction h generalizing c with
  | nil => exact ⟨[], .nil, .refl _⟩
  | @cons f e fs es hfe _ ih =>
    obtain ⟨hafter, m, hm, hperm⟩ := hfe c
    obtain ⟨names, hcopies, hnames⟩ := ih (c.ready f).2
    refine ⟨_, by rw [Fresh.readyAll, hm]; exact .cons m hcopies, ?_⟩
    rw [List.flatMap_cons, Fresh.names_append, ← hafter]
    exact hperm.append hnames

end Copies

/-! ## Passes over copies -/

namespace Store

variable {ρ : Equiv.Perm String} {st : Option Subtyping} {lenient : Bool} {s t : Store}

theorem Relabeled.reset (ρ : Equiv.Perm String) (hst : t.subtyping = s.subtyping)
    (hl : t.lenient = s.lenient) : s.reset.Relabeled ρ t.reset where
  subtyping := hst
  lenient := hl
  members := by simp [Store.reset, Store.empty]
  parents := rfl
  index n := by simp [Store.reset, Store.empty]
  names := by simp [Store.reset, Store.empty]
  nesting := rfl
  mass := rfl

theorem together_composeRow (h : s.Relabeled ρ t) (hs : s.Under (.anything st lenient))
    (ht : t.Under (.anything st lenient)) (f : Effect) (gs : List Effect) :
    Together (composeRow f gs) s (composeRow (f.relabel ρ) (gs.map (Effect.relabel ρ))) t
      fun x s y t => y = x.relabel ρ ∧ s.Relabeled ρ t ∧ s.Under (.anything st lenient) ∧
        t.Under (.anything st lenient) := by
  induction gs generalizing f s t with
  | nil => exact ⟨rfl, h, hs, ht⟩
  | cons g gs ih =>
    have hends : ∀ {s : Store} (v w : Stack), s.Under (.anything st lenient) →
        Ends (unifyStacks v w) s (fun _ t => t.Under (.anything st lenient)) fun _ _ => True :=
      fun v w hs => (hs.performs_unifyStacks ⟨trivial, trivial⟩).mono (fun _ _ ht => ht.1)
        fun _ _ _ => trivial
    have hstep := ((inStep_unifyStacks f.produced g.consumed).together h).and_ends (hends _ _ hs)
      (hends _ _ ht)
    rw [Effect.relabel_eq, List.map_cons, Effect.relabel_eq]
    refine hstep.bind fun _ s' _ t' ⟨⟨_, hst'⟩, hs', ht'⟩ => ?_
    have hrest := ih hst' hs' ht' ⟨f.consumed, g.produced, f.impure || g.impure⟩
    rwa [Effect.relabel_eq] at hrest

/-- **Passes over rows that differ by names** find effects that are the same in canonical form. -/
theorem together_passRow (h : s.Relabeled ρ t) (hs : s.Under (.anything st lenient))
    (ht : t.Under (.anything st lenient)) (f : Effect) (gs : List Effect) :
    Together (passRow f gs) s (passRow (f.relabel ρ) (gs.map (Effect.relabel ρ))) t
      fun x s y t =>
        (t.resolveEffect y).close.generalize = (s.resolveEffect x).close.generalize := by
  refine (together_composeRow h hs ht f gs).bind ?_
  rintro x s' _ t' ⟨rfl, hst', hs', ht'⟩
  refine (hst'.together_solve hs'.good.toSound ht'.good.toSound).bind fun _ s _ t hfound => ?_
  exact hfound x

end Store

/-- **Rows of effects that are the same when they are ready have the same result**, in sessions of one
lattice and one mode, if counting the fresh names does not begin again in the middle. -/
theorem Request.together_rows {fs gs es : List Effect} (hfs : List.Forall₂ Effect.ReadyAs fs es)
    (hgs : List.Forall₂ Effect.ReadyAs gs es) {s t : Session} (hs : s.Idle) (ht : t.Idle)
    (hst : t.store.subtyping = s.store.subtyping) (hl : t.store.lenient = s.store.lenient)
    (hcount : ((Effect.nop :: fs).flatMap Effect.drawn).length ≤ 2 ^ 64) :
    Together (composeAll fs).run s (composeAll gs).run t fun r _ r' _ => r' = r := by
  obtain ⟨names, hcopies, hperm⟩ := Copies.readyAll (.cons Effect.readyAs_nop hfs) s.begin.fresh
  obtain ⟨names', hcopies', hperm'⟩ := Copies.readyAll (.cons Effect.readyAs_nop hgs) t.begin.fresh
  have hlen : names.length = names'.length :=
    hcopies.length_names.trans hcopies'.length_names.symm
  have hcount' : ((Effect.nop :: gs).flatMap Effect.drawn).length ≤ 2 ^ 64 := by
    rwa [← Fresh.length_names (c := t.begin.fresh), ← hperm'.length_eq, ← hlen, hperm.length_eq,
      Fresh.length_names]
  obtain ⟨ρ, hρ⟩ := Fresh.exists_perm_map_eq (hperm.nodup_iff.2 (Fresh.nodup_names hcount))
    (hperm'.nodup_iff.2 (Fresh.nodup_names hcount')) hlen
  obtain ⟨hhead, htail⟩ := List.cons.inj (hcopies.relabel hcopies' hρ)
  have hunder : ∀ {t : Session}, t.store.subtyping = s.store.subtyping →
      t.store.lenient = s.store.lenient →
      t.store.reset.Under (.anything s.store.subtyping s.store.lenient) := fun hst hl =>
    hst ▸ hl ▸ Store.under_reset _
  have hpass := Store.together_passRow (.reset ρ hst hl) (hunder rfl rfl) (hunder hst hl)
    (s.begin.fresh.ready .nop).1 ((s.begin.fresh.ready .nop).2.readyAll fs)
  rw [← hhead, ← htail] at hpass
  refine Together.of_ends (ends_row hs (Ends.self _ _)) (ends_row ht (Ends.self _ _)) ?_ ?_ ?_
  · rintro r _ r' _ ⟨f, u, hfu, -, rfl⟩ ⟨g, v, hgv, -, rfl⟩
    exact hpass.ok hfu hgv
  · rintro r _ _ _ ⟨f, u, hfu, -, rfl⟩ ⟨fault, rfl, v, hgv⟩
    obtain ⟨_, _, hok, -⟩ := hpass.exists_ok hfu
    simp [hok] at hgv
  · rintro _ _ r' _ ⟨fault, rfl, u, hfu⟩ ⟨g, v, hgv, -, rfl⟩
    obtain ⟨_, _, hok, -⟩ := hpass.symm.exists_ok hgv
    simp [hok] at hfu

end StackEffect
