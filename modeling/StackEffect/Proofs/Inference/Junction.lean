import StackEffect.Proofs.Inference.Relation
import StackEffect.Proofs.Solve.Places

/-!
# Proofs/Inference/Junction — rows in which slots meet

    x ─f─▸ y ─g─▸ z        f consumes from x and produces in y, g consumes from y and produces in z

An effect spans two lists of places if its stacks lie there, for some places of its variables
(`Effect.Spans`), and a row leads from places to places one effect after the other (`Effect.Leads`).  At
a junction several slots may be in one place: an `int` that is produced may be consumed as a `number`,
where the order of nominal types relates them.  At both ends of the row a place has one slot, and an
effect that spans the two relates the stacks.

A pass finds an effect that spans all that the row leads to, and it fails only for its depth if there is
something (`Session.Idle.ends_spans`).  So if what it finds follows from the row, it is principal
(`Session.Faithful.ends_run`).
-/

namespace StackEffect

/-! ## Effects between places -/

/-- Places that are those of a proper stack, if there is one slot in each of them. -/
def Place.ProperAll (x : List Place) : Prop := ∀ s : Stack, x = s.places → s.Proper

theorem Stack.Proper.properAll {s : Stack} (h : s.Proper) : Place.ProperAll s.places := fun _ hs =>
  Stack.places_inj hs ▸ h

namespace Placing

variable {st : Option Subtyping} {V W : Placing} {f : Effect} {x z : List Place} {m : String → String}

/-- **A placing of slots by slots and of stacks by stacks.** -/
structure Proper (V : Placing) : Prop where
  slot : ∀ a k, V.slot a = .of k → k.isSlot = true
  rest : ∀ a, Place.ProperAll (V.rest a)

/-- What a proper placing tells is given by a proper valuation. -/
theorem Proper.exists_tells (h : V.Proper) : ∃ σ : Valuation, V.Tells σ ∧ σ.Proper := by
  have hslot : ∀ a, ∃ k : Kind, (∀ l, V.slot a = .of l → k = l) ∧ k.isSlot = true := by
    intro a
    by_cases ha : ∃ k, V.slot a = .of k
    · obtain ⟨k, hk⟩ := ha
      exact ⟨k, fun l hl => Place.of_inj (hk.symm.trans hl), h.slot a k hk⟩
    · exact ⟨.absent, fun l hl => absurd ⟨l, hl⟩ ha, rfl⟩
  have hrest : ∀ a, ∃ s : Stack, (∀ t, V.rest a = Stack.places t → s = t) ∧ s.Proper := by
    intro a
    by_cases ha : ∃ s, V.rest a = Stack.places s
    · obtain ⟨s, hs⟩ := ha
      exact ⟨s, fun t ht => Stack.places_inj (hs.symm.trans ht), h.rest a s hs⟩
    · exact ⟨[], fun t ht => absurd ⟨t, ht⟩ ha, trivial⟩
  choose slot htells hproper using hslot
  choose rest htells' hproper' using hrest
  exact ⟨⟨slot, rest⟩, ⟨htells _ _, htells' _ _⟩, hproper, hproper'⟩

/-- The placing that is made of places for each name. -/
def ofNames (φ : String → Place × List Place) : Placing := ⟨fun a => (φ a).1, fun a => (φ a).2⟩

theorem ofNames_surjective : Function.Surjective ofNames := fun V =>
  ⟨fun a => (V.slot a, V.rest a), rfl⟩

/-- What may stand for a name. -/
def Suits (u : Place × List Place) : Prop :=
  (∀ k, u.1 = .of k → k.isSlot = true) ∧ Place.ProperAll u.2

theorem exists_suits : ∃ u, Suits u :=
  ⟨(.of .absent, Stack.places []), fun _ hk => Place.of_inj hk ▸ rfl,
    Stack.Proper.properAll (s := []) trivial⟩

theorem proper_ofNames_iff {φ : String → Place × List Place} :
    (ofNames φ).Proper ↔ ∀ b, Suits (φ b) :=
  ⟨fun h b => ⟨h.slot b, h.rest b⟩, fun h => ⟨fun b => (h b).1, fun b => (h b).2⟩⟩

/-- **The stacks of an effect lie in places.** -/
def Fills (V : Placing) (st : Option Subtyping) (f : Effect) (x z : List Place) : Prop :=
  V.Lies st f.consumed x ∧ V.Lies st f.produced z

/-- An effect under other names has its stacks in the same places, if its variables stand for the same
places. -/
theorem fills_relabel_iff {φ ψ : String → Place × List Place} (hm : ∀ b ∈ f.bases, ψ (m b) = φ b) :
    (ofNames ψ).Fills st (f.relabel m) x z ↔ (ofNames φ).Fills st f x z := by
  have hplaces : ∀ v ∈ f.kind.vars, (ofNames ψ).places (v.relabel m) = (ofNames φ).places v := by
    intro v hv
    have hb := hm v.name (Effect.mem_bases.2 (Kind.mem_freeVars.2 ⟨v, hv, rfl⟩))
    rcases v with ⟨_ | _, a⟩
    · exact congrArg (fun u => [u.1]) hb
    · exact congrArg Prod.snd hb
  obtain ⟨hc, hp⟩ := List.forall_mem_append.1 hplaces
  rw [Effect.relabel_eq]
  exact and_congr (lies_relabel_iff hc) (lies_relabel_iff hp)

end Placing

namespace Effect

variable {st : Option Subtyping} {sort : String → VarSort} {e f : Effect} {es fs : List Effect}
  {x y z : List Place}

/-- **An effect spans places** if its stacks lie there, for some places of its variables. -/
def Spans (st : Option Subtyping) (f : Effect) (x z : List Place) : Prop :=
  ∃ V : Placing, V.Proper ∧ V.Fills st f x z

/-- **A row leads from places to places**, one effect after the other. -/
def Leads (st : Option Subtyping) (fs : List Effect) (x z : List Place) : Prop :=
  Along (Spans st) fs x z

theorem Spans.maps {x z : Stack} (h : f.Spans st x.places z.places) : f.Maps x z := by
  obtain ⟨V, hV, hc, hp⟩ := h
  obtain ⟨σ, htells, hσ⟩ := hV.exists_tells
  exact ⟨σ, hσ, hc.values_eq htells, hp.values_eq htells⟩

/-- **An effect spans stacks if it relates them.** -/
theorem spans_places_iff {x z : Stack} : f.Spans st x.places z.places ↔ f.Maps x z := by
  refine ⟨Spans.maps, ?_⟩
  rintro ⟨σ, hσ, rfl, rfl⟩
  refine ⟨σ.placing, ⟨fun a k hk => ?_, fun a => (hσ.rest a).properAll⟩,
    Placing.lies_placing _, Placing.lies_placing _⟩
  exact Place.of_inj hk ▸ hσ.slot a

/-- A row leads where its effects relate stacks. -/
theorem Path.leads {x z : Stack} (h : Path es x z) : Leads st es x.places z.places := by
  induction es generalizing x with
  | nil => exact congrArg Stack.places h
  | cons e es ih =>
    obtain ⟨y, hxy, hyz⟩ := h
    exact ⟨y.places, spans_places_iff.2 hxy, ih hyz⟩

theorem Spans.properAll (h : f.Spans st x z) (hf : f.kind.Tidy sort) : Place.ProperAll z := by
  rintro s rfl
  obtain ⟨V, hV, -, hp⟩ := h
  obtain ⟨σ, htells, hσ⟩ := hV.exists_tells
  rw [← hp.values_eq htells]
  exact Valuation.proper_values hσ (Stack.proper_of_wellFormed (Kind.tidy_effect_iff.1 hf).2.1)

/-- **A row leads to proper stacks.** -/
theorem Leads.properAll (h : Leads st es x z) (hx : Place.ProperAll x)
    (htidy : ∀ e ∈ es, ∃ sort, e.kind.Tidy sort) : Place.ProperAll z := by
  induction es generalizing x with
  | nil =>
    obtain rfl : x = z := h
    exact hx
  | cons e es ih =>
    rw [List.forall_mem_cons] at htidy
    obtain ⟨⟨sort, he⟩, hes⟩ := htidy
    obtain ⟨y, hxy, hyz⟩ := h
    exact ih hyz (hxy.properAll he) hes

/-- Doing nothing leaves all places as they are. -/
theorem spans_nop_iff {a : String} (hx : Place.ProperAll x) : (nop.atop a).Spans st x z ↔ x = z := by
  constructor
  · rintro ⟨V, -, hc, hp⟩
    exact (Placing.lies_singleton.1 hc).trans (Placing.lies_singleton.1 hp).symm
  · rintro rfl
    refine ⟨⟨fun _ => .of .absent, fun _ => x⟩, ⟨fun _ _ hk => Place.of_inj hk ▸ rfl, fun _ => hx⟩, ?_⟩
    exact ⟨Placing.lies_singleton.2 rfl, Placing.lies_singleton.2 rfl⟩

/-! ### What follows from a row -/

/-- **An effect follows from a row** that leads from what it consumes to what it produces. -/
structure FollowsFrom (e : Effect) (st : Option Subtyping) (es : List Effect) : Prop where
  tidy : ∃ sort, e.kind.Tidy sort
  leads : Leads st es e.consumed.places e.produced.places

/-- **A principal effect for a row**: it follows from the row, and it relates all stacks that the row
leads from and to. -/
structure Principal (e : Effect) (st : Option Subtyping) (es : List Effect) : Prop
    extends e.FollowsFrom st es where
  impure : e.impure = es.any Effect.impure
  maps : ∀ x z, Stack.Proper x → Leads st es x.places z.places → e.Maps x z

theorem FollowsFrom.proper (h : e.FollowsFrom st es) : Stack.Proper e.consumed := by
  obtain ⟨sort, htidy⟩ := h.tidy
  exact Stack.proper_of_wellFormed (Kind.tidy_effect_iff.1 htidy).1.1

/-- **Principal effects for one row have one closed canonical form.** -/
theorem Principal.close_generalize_eq (he : e.Principal st es) (hf : f.Principal st es) :
    f.close.generalize = e.close.generalize := by
  obtain ⟨sort, htidy⟩ := he.tidy
  obtain ⟨sort', htidy'⟩ := hf.tidy
  obtain ⟨r, hr, rfl⟩ := exists_relabel_of_maps htidy htidy' (he.maps _ _ hf.proper hf.leads)
    (hf.maps _ _ he.proper he.leads) (hf.impure.trans he.impure.symm)
  exact close_generalize_relabel hr

end Effect

/-! ## Copies -/

namespace Copies

open Effect

variable {st : Option Subtyping} {es gs : List Effect} {names : List String} {x z : List Place}

/-- **A row leads where its copies lie**, all under one placing. -/
theorem leads_iff (h : Copies es gs names) (hnodup : names.Nodup) :
    Leads st es x z ↔ ∃ V : Placing, V.Proper ∧ Along (V.Fills st) gs x z :=
  h.along_iff hnodup Placing.ofNames_surjective (fun _ => Placing.proper_ofNames_iff)
    Placing.exists_suits fun _ => Placing.fills_relabel_iff

/-- Copies lead where the effects lead. -/
theorem leads_copies_iff (h : Copies es gs names) (hnodup : names.Nodup) :
    Leads st gs x z ↔ Leads st es x z := by
  refine ⟨fun hgs => ?_, fun hes => ?_⟩
  · clear hnodup
    induction h generalizing x with
    | nil => exact hgs
    | @cons e es gs names m hcopies ih =>
      obtain ⟨y, ⟨V, hV, hfills⟩, hgs⟩ := hgs
      obtain ⟨φ, rfl⟩ := Placing.ofNames_surjective V
      have hnames : ∀ b ∈ e.bases, φ (m b) = (φ ∘ m) b := fun _ _ => rfl
      refine ⟨y, ⟨.ofNames (φ ∘ m), ?_, (Placing.fills_relabel_iff hnames).1 hfills⟩, ih hgs⟩
      exact Placing.proper_ofNames_iff.2 fun b => Placing.proper_ofNames_iff.1 hV (m b)
  · obtain ⟨V, hV, hgs⟩ := (h.leads_iff hnodup).1 hes
    exact hgs.imp fun _ _ _ _ hfills => ⟨V, hV, hfills⟩

end Copies

/-! ## Passes -/

namespace Session

open Effect

variable {s : Session} {fs es : List Effect} {sort : String → VarSort} {V : Placing}
  {x z : List Place}

/-- **The row of a pass leads where the effects lead.** -/
theorem leads_row_iff (s : Session)
    (hcount : ((Effect.nop :: fs).flatMap Effect.drawn).length ≤ 2 ^ 64)
    (hes : List.Forall₂ ReadyAs fs es) (htidy : ∀ e ∈ es, ∃ sort, e.kind.Tidy sort)
    {st : Option Subtyping} (hx : Place.ProperAll x) :
    Leads st (s.row fs) x z ↔ Leads st es x z := by
  obtain ⟨⟨names, hcopies, hnodup⟩, -⟩ := s.exists_copies_row hcount hes htidy
  rw [hcopies.leads_copies_iff hnodup]
  constructor
  · rintro ⟨y, hnop, hes⟩
    exact (spans_nop_iff hx).1 hnop ▸ hes
  · exact fun hes => ⟨x, (spans_nop_iff hx).2 rfl, hes⟩

/-- A pass does not change the settings. -/
theorem Idle.ends_settings (hs : s.Idle) (fs : List Effect) : Ends (Request.composeAll fs).run s
    (fun _ t => t.store.subtyping = s.store.subtyping ∧ t.store.lenient = s.store.lenient)
    fun _ _ => True := by
  refine (hs.ends_pass fs).mono ?_ fun _ _ _ => trivial
  rintro _ t ⟨-, u, u', hu, hu', hasked⟩
  have hunder := ((Store.under_reset (.anything _ _)).performAll (fun c _ => ?_) hu).1
  · have hsolve := (Store.ends_solve hunder.good.toShaped).ok hu'
    have hpartition := hasked.partition.trans hsolve.1
    exact ⟨(congrArg Partition.subtyping hpartition).trans hunder.good.subtyping,
      (congrArg Partition.lenient hpartition).trans hunder.good.lenient⟩
  · cases c with
    | onStacks => exact ⟨trivial, trivial⟩
    | onEffects => exact fun _ _ _ _ _ _ _ _ => ⟨⟨trivial, trivial⟩, trivial, trivial⟩

/-- **A pass keeps the places of names**, and fails for its depth only, if at all junctions the stacks
lie in the same places. -/
theorem Idle.ends_keeps (hs : s.Idle) (hrow : ∀ f ∈ s.row fs, f.kind.Tidy sort)
    (hV : V.Solves s.store.subtyping (joints (s.row fs))) : Ends (Request.composeAll fs).run s
      (fun _ t => V.Keeps s.store.subtyping sort fun n => t.store.solution[n]?)
      fun e _ => e = .constraint .tooDeep := by
  have htidy : ∀ c ∈ joints (s.row fs), c.sides.1.Tidy sort ∧ c.sides.2.Tidy sort := fun c hc =>
    (tidyOver_joints (tidyOver_vars hrow) c hc).imp And.left And.left
  refine (hs.ends_pass fs).mono ?_ ?_
  · rintro _ t ⟨-, u, u', hu, hu', hasked⟩
    have hgood := (Store.performAll_reset id (hV.relates htidy _) hu).1.good
    obtain ⟨-, order, hsol⟩ := (Store.ends_solve hgood.toShaped).ok hu'
    rw [hasked.solution]
    exact hV.keeps htidy hu hsol
  · rintro _ t ⟨fault, rfl, hfault⟩
    rw [Store.eq_tooDeep_of_relates (T := V.theory sort _ _) id (fun _ _ h => h.1)
      (hV.relates htidy _) hfault]

/-- **What a pass finds spans all that the row leads to**, and the pass fails for its depth only if
there is something. -/
theorem Idle.ends_spans (hs : s.Idle)
    (hcount : ((Effect.nop :: fs).flatMap Effect.drawn).length ≤ 2 ^ 64)
    (hes : List.Forall₂ ReadyAs fs es) (htidy : ∀ e ∈ es, ∃ sort, e.kind.Tidy sort)
    (hx : Place.ProperAll x) (h : Leads s.store.subtyping es x z) :
    Ends (Request.composeAll fs).run s (fun _ t => (s.found fs t).Spans s.store.subtyping x z)
      fun e _ => e = .constraint .tooDeep := by
  obtain ⟨⟨names, hcopies, hnodup⟩, -, sort, hrow⟩ := s.exists_copies_row hcount hes htidy
  obtain ⟨hc, hp⟩ := Kind.tidy_effect_iff.1 (tidyOver_joinAll (tidyOver_vars hrow)).1
  obtain ⟨V, hV, halong⟩ := (hcopies.leads_iff hnodup).1 ⟨x, (spans_nop_iff hx).2 rfl, h⟩
  obtain ⟨hsolves, hlc, hlp⟩ := along_cons_iff.1 halong
  exact (hs.ends_keeps hrow hsolves).mono
    (fun _ t hkeeps => ⟨V, hV, hlc.resolve hkeeps hc.2, hlp.resolve hkeeps hp.2⟩) fun _ _ he => he

/-- **A faithful pass**: what a pass over `fs` finds follows from the row of `gs`, and it does not fail
for its depth.  It does not draw so many names that counting them begins again. -/
structure Faithful (s : Session) (fs gs : List Effect) : Prop where
  count : ((Effect.nop :: fs).flatMap Effect.drawn).length ≤ 2 ^ 64
  ends : Ends (Request.composeAll fs).run s
    (fun _ t => (s.found fs t).FollowsFrom s.store.subtyping (s.row gs))
    fun e _ => e ≠ .constraint .tooDeep

/-- **A faithful pass over a row finds a principal effect for it**, and fails only if the row leads to
nothing. -/
theorem Faithful.ends_run (h : s.Faithful fs fs) (hs : s.Idle) (hes : List.Forall₂ ReadyAs fs es)
    (htidy : ∀ e ∈ es, ∃ sort, e.kind.Tidy sort) : Ends (Request.composeAll fs).run s
      (fun r t => r = (s.found fs t).close.generalize ∧
        (s.found fs t).Principal s.store.subtyping es)
      fun _ _ => ∀ x z : Stack, Stack.Proper x → ¬Leads s.store.subtyping es x.places z.places := by
  have hspans := fun (x z : Stack) (hx : Stack.Proper x)
      (hxz : Leads s.store.subtyping es x.places z.places) =>
    hs.ends_spans h.count hes htidy hx.properAll hxz
  refine (Ends.self _ _).mono (fun r t hrt => ?_) fun e t het x z hx hxz => ?_
  · have hfound := h.ends.ok hrt
    refine ⟨((hs.ends_pass fs).ok hrt).1, ⟨hfound.tidy, ?_⟩, ?_, fun x z hx hxz => ?_⟩
    · exact (s.leads_row_iff h.count hes htidy hfound.proper.properAll).1 hfound.leads
    · exact impure_joinAll.trans (s.exists_copies_row h.count hes htidy).2.1
    · exact ((hspans x z hx hxz).ok hrt).maps
  · exact h.ends.error het ((hspans x z hx hxz).error het)

end Session

end StackEffect
