import StackEffect.Proofs.Inference.Concrete
import StackEffect.Proofs.Inference.Junction

/-!
# Proofs/Inference/Faithful — passes that find what follows from a row

    ( -> int) (number -> string) (string -> bool)      ( -> bool) follows, in one pass or in two

A row is grouped if a part of it is composed first, and what is found for the part then takes its place.
The grouping is faithful if what the second pass finds follows from the row (`Session.Groups`).

This is so where the solutions that are found are exact (`Session.Regular.groups`); and, whatever the
order of nominal types, where there are no variables (`Session.Idle.groups_concrete`), as then what is
composed by the overlap rule has its slots in the places where the row has them.
-/

namespace StackEffect

/-! ## Effects that are found and used again -/

namespace Effect

variable {st : Option Subtyping} {sort : String → VarSort} {e f g : Effect} {ds es fs : List Effect}
  {a : String} {x z : Stack}

/-- **An effect that is not changed by closing it and making it ready again.** -/
def Reopens (f : Effect) : Prop := f.ClosesOutside ∧ f.isOpen = true

instance (f : Effect) : Decidable f.Reopens := inferInstanceAs (Decidable (_ ∧ _))

/-- Such an effect is ready as it was before it was closed. -/
theorem Reopens.readyAs (h : f.Reopens) (hf : f.kind.Tidy sort) :
    f.close.generalize.ReadyAs f := by
  have hsorted : f.OneSorted := ⟨sort, hf.2⟩
  rcases h.1.cases hf with hclose | ⟨hopen, a, ha, hatop⟩
  · rw [hclose]
    exact (variant_generalize hsorted).readyAs h.2
  · have hready := (variant_generalize hsorted.close).readyAs_atop hopen ha
    rwa [← hatop] at hready

/-- Effects that are read are tidy when they are ready. -/
theorem exists_tidy_row (h : ∀ f ∈ fs, f.Read) :
    ∃ es, List.Forall₂ ReadyAs fs es ∧ ∀ e ∈ es, ∃ sort, e.kind.Tidy sort := by
  induction fs with
  | nil => exact ⟨[], .nil, fun _ he => absurd he List.not_mem_nil⟩
  | cons f fs ih =>
    rw [List.forall_mem_cons] at h
    obtain ⟨es, hes, htidy⟩ := ih h.2
    obtain ⟨_, hf⟩ := h.1
    obtain ⟨e, he, hte⟩ := exists_tidy_readyAs (written_of_parse hf).tidy
    exact ⟨e :: es, .cons he hes, List.forall_mem_cons.2 ⟨hte, htidy⟩⟩

end Effect

namespace Session

open Effect

/-- A computation that does not fail for its depth. -/
def NotTooDeep {α : Type} (m : Infer α) (s : Session) : Prop :=
  Ends m s (fun _ _ => True) fun e _ => e ≠ .constraint .tooDeep

instance {α : Type} (m : Infer α) (s : Session) : Decidable (NotTooDeep m s) :=
  inferInstanceAs (Decidable (Ends ..))

/-- **A faithful grouping**: a row of which a part is composed first.  What the first pass finds is not
changed by closing it and making it ready again, and what the second one finds follows from the whole
row.  The first pass does not fail for its depth either, nor does counting the names begin again. -/
structure Groups (s : Session) (ds gs fs : List Effect) : Prop where
  count : ((Effect.nop :: gs).flatMap Effect.drawn).length ≤ 2 ^ 64
  ends : Ends (Request.composeAll gs).run s
    (fun r t => (∃ sort, (s.found gs t).kind.Tidy sort) ∧ (s.found gs t).Reopens ∧
      t.Faithful (ds ++ r :: fs) (ds ++ gs ++ fs))
    fun e _ => e ≠ .constraint .tooDeep

end Session

/-! ## Exact solutions -/

namespace Effect

variable {st : Option Subtyping} {e f : Effect} {ds es fs : List Effect} {x z : Stack}

theorem Path.proper (h : Path es x z) (hx : Stack.Proper x)
    (htidy : ∀ e ∈ es, ∃ sort, e.kind.Tidy sort) : Stack.Proper z := by
  have hleads : Leads none es x.places z.places := h.leads
  exact hleads.properAll hx.properAll htidy z rfl

namespace Composes

theorem followsFrom (he : e.Composes es) : e.FollowsFrom st es := by
  obtain ⟨sort, hsort⟩ := he.tidy
  exact ⟨he.tidy, ((he.maps _ _).1 (maps_self hsort)).2.leads⟩

/-- **A row may be replaced by what composes it**, in the middle of another row. -/
theorem path_iff (he : e.Composes es) (hds : ∀ d ∈ ds, ∃ sort, d.kind.Tidy sort)
    (hx : Stack.Proper x) : Path (ds ++ e :: fs) x z ↔ Path (ds ++ es ++ fs) x z := by
  rw [List.append_assoc, path_append, path_append]
  refine exists_congr fun y => and_congr_right fun hxy => ?_
  rw [path_append]
  refine exists_congr fun w => and_congr_left' ?_
  rw [he.maps, and_iff_right (hxy.proper hx hds)]

/-- What composes a row with the part replaced composes the row. -/
theorem replace (he : e.Composes es) (hds : ∀ d ∈ ds, ∃ sort, d.kind.Tidy sort)
    (hf : f.Composes (ds ++ e :: fs)) : f.Composes (ds ++ es ++ fs) where
  tidy := hf.tidy
  impure := by
    rw [hf.impure, List.any_append, List.any_cons, he.impure, List.any_append, List.any_append,
      Bool.or_assoc]
  maps x z := (hf.maps x z).trans (and_congr_right fun hx => he.path_iff hds hx)

end Composes

end Effect

namespace Session

open Effect

variable {s t : Session} {ds gs fs : List Effect}

/-- What follows from effects that are ready follows from the row of a pass. -/
theorem followsFrom_row (s : Session)
    (hcount : ((Effect.nop :: fs).flatMap Effect.drawn).length ≤ 2 ^ 64) {es : List Effect}
    (hes : List.Forall₂ ReadyAs fs es) (htidy : ∀ e ∈ es, ∃ sort, e.kind.Tidy sort)
    {st : Option Subtyping} {e : Effect} (he : e.FollowsFrom st es) : e.FollowsFrom st (s.row fs) :=
  ⟨he.tidy, (s.leads_row_iff hcount hes htidy he.proper.properAll).2 he.leads⟩

/-- **A regular pass is faithful.** -/
theorem Regular.faithful (h : s.Regular fs) (hs : s.Idle) (hfs : ∀ f ∈ fs, f.Read) :
    s.Faithful fs fs := by
  obtain ⟨es, hes, htidy⟩ := exists_tidy_row hfs
  refine ⟨h.count, ((h.ends_run hs hes htidy).and h.ends).mono ?_ fun _ _ he => he.2⟩
  rintro _ t ⟨⟨-, hfound⟩, -⟩
  exact s.followsFrom_row h.count hes htidy hfound.followsFrom

/-- **A grouping is faithful if both passes are regular.** -/
theorem Regular.groups (ht : t.Idle) (hread : ∀ f ∈ ds ++ gs ++ fs, f.Read)
    (hcount : ((Effect.nop :: (ds ++ gs ++ fs)).flatMap Effect.drawn).length ≤ 2 ^ 64)
    (hpart : t.Regular gs) (hrest : Ends (Request.composeAll gs).run t
      (fun r u => (t.found gs u).Reopens ∧ u.Regular (ds ++ r :: fs)) fun _ _ => True) :
    t.Groups ds gs fs := by
  rw [List.forall_mem_append, List.forall_mem_append] at hread
  obtain ⟨⟨hds, hgs⟩, hfs⟩ := hread
  obtain ⟨es, hes, htidy⟩ := exists_tidy_row hds
  obtain ⟨es', hes', htidy'⟩ := exists_tidy_row hgs
  obtain ⟨es'', hes'', htidy''⟩ := exists_tidy_row hfs
  have hrow : List.Forall₂ ReadyAs (ds ++ gs ++ fs) (es ++ es' ++ es'') :=
    List.rel_append (List.rel_append hes hes') hes''
  have hall : ∀ e ∈ es ++ es' ++ es'', ∃ sort, e.kind.Tidy sort :=
    List.forall_mem_append.2 ⟨List.forall_mem_append.2 ⟨htidy, htidy'⟩, htidy''⟩
  refine ⟨hpart.count, (Ends.self _ _).mono (fun r u hru => ?_) fun e u => hpart.ends.error⟩
  obtain ⟨rfl, hfound⟩ := (hpart.ends_run ht hes' htidy').ok hru
  obtain ⟨hreopens, hregular⟩ := hrest.ok hru
  have hu := (Request.ends_run_idle (q := .composeAll gs) hgs ht).ok hru
  have hready : (t.found gs u).close.generalize.ReadyAs (t.found gs u) := by
    obtain ⟨sort, hsort⟩ := hfound.tidy
    exact hreopens.readyAs hsort
  have hsecond := hregular.ends_run hu (List.rel_append hes (.cons hready hes''))
    (List.forall_mem_append.2 ⟨htidy, List.forall_mem_cons.2 ⟨hfound.tidy, htidy''⟩⟩)
  refine ⟨hfound.tidy, hreopens, hregular.count,
    (hsecond.and hregular.ends).mono ?_ fun _ _ he => he.2⟩
  rintro _ v ⟨⟨-, hv⟩, -⟩
  exact u.followsFrom_row hcount hrow hall (hfound.replace htidy hv).followsFrom

end Session

/-! ## Rows without variables -/

/-- A kind without variables is its own value. -/
theorem Valuation.value_of_concrete {σ : Valuation} {k : Kind} (hk : k.concrete = true) :
    σ.value k = [k] := by
  have hvars : ∀ v ∈ k.vars, σ.value v.kind = [(v.relabel id).kind] := by
    rw [Kind.vars_of_concrete hk]
    exact fun _ hv => absurd hv List.not_mem_nil
  have hstack : ∀ s, k ≠ .stack s := by
    rintro s rfl
    cases hk
  have htidy : k.Tidy fun _ => .slot := Kind.tidy_of_concrete hk
  rw [value_eq_relabel hvars htidy hstack, Kind.relabel_id]

namespace Placing

variable {V : Placing} {st : Option Subtyping} {k l : Kind} {s t : Stack}

/-- Only variables have places of their own. -/
theorem liesAt_of_concrete (hk : k.concrete = true) : V.LiesAt st k [.of k] := by
  have hvars : ∀ v ∈ k.vars, V.places (v.relabel id) = Valuation.ident.placing.places v := by
    rw [Kind.vars_of_concrete hk]
    exact fun _ hv => absurd hv List.not_mem_nil
  have hlies : V.LiesAt st (k.relabel id) _ := (liesAt_relabel_iff hvars).2 (liesAt_placing k)
  rwa [Kind.relabel_id, Valuation.value_of_concrete hk] at hlies

theorem lies_of_concrete (hs : Kind.slotsConcrete s = true) : V.Lies st s s.places := by
  induction s with
  | nil => exact rfl
  | cons k s ih =>
    rw [Kind.slotsConcrete_cons] at hs
    exact ⟨[.of k], Stack.places s, rfl, liesAt_of_concrete hs.1, ih hs.2⟩

end Placing

namespace Place

variable {st : Option Subtyping} {k l : Kind} {s t : Stack} {d : Place}

/-- **A place for two slots**, with one slot in it if they are the same. -/
structure Hosts (d : Place) (st : Option Subtyping) (k l : Kind) : Prop where
  eq_of : k = l → d = .of k
  left : ∀ V : Placing, V.LiesAt st k [d]
  right : ∀ V : Placing, V.LiesAt st l [d]

theorem Hosts.symm (h : d.Hosts st k l) : d.Hosts st l k :=
  ⟨fun hlk => hlk ▸ h.eq_of hlk.symm, h.right, h.left⟩

/-- If there is one slot in a place for two, it is a slot indeed. -/
theorem Hosts.isSlot {m : Kind} (h : d.Hosts st k l) (hk : k.concrete = true) (hd : d = .of m) :
    m.isSlot = true := by
  have htells : Valuation.ident.placing.Tells .ident :=
    ⟨fun h => Place.of_inj h, fun h => Stack.places_inj h⟩
  subst hd
  have hlies : Valuation.ident.placing.LiesAt st k (Stack.places [m]) := h.left _
  have hvalue := hlies.value_eq htells
  rw [Valuation.value_of_concrete hk] at hvalue
  rw [← List.singleton_inj.1 hvalue]
  exact Kind.isSlot_of_fitsOn (s := []) (Kind.fitsOn_of_concrete hk) (Kind.ne_stackVar_of_concrete hk)

/-- What has no parts lies in a place that has it. -/
theorem Has.liesAt (h : d.Has st k) (hk : k.concrete = true) (hne : ∀ c p i, k ≠ .effect c p i)
    (V : Placing) : V.LiesAt st k [d] := by
  cases k with
  | simple | self => exact ⟨d, rfl, h⟩
  | effect c p i => exact absurd rfl (hne c p i)
  | _ => cases hk

/-- A slot without parts and an effect that meet have a place. -/
theorem exists_hosts_effect (hk : k.concrete = true) (hne : ∀ c p i, k ≠ .effect c p i) {c p : Stack}
    {i : Bool} (hl : (Kind.effect c p i).concrete = true) (h : k.meets st (.effect c p i) = true) :
    ∃ d : Place, d.Hosts st k (.effect c p i) := by
  obtain ⟨hc, hp⟩ := Kind.concrete_effect.1 hl
  have hhas : Has ⟨(· = k), (· = i), c.places, p.places⟩ st k := by
    refine ⟨rfl, fun l hl => hl ▸ Kind.meets_self l, fun j _ => ?_⟩
    rwa [Kind.meets_effect_congr hne] at h
  exact ⟨_, fun heq => absurd heq (hne c p i), hhas.liesAt hk hne, fun V =>
    Placing.liesAt_effect_iff.2 ⟨rfl, Placing.lies_of_concrete hc, Placing.lies_of_concrete hp⟩⟩

/-- Two slots without parts that meet have a place. -/
theorem exists_hosts_pair (hk : k.concrete = true) (hl : l.concrete = true)
    (hne : ∀ c p i, k ≠ .effect c p i) (hne' : ∀ c p i, l ≠ .effect c p i)
    (h : k.meets st l = true) : ∃ d : Place, d.Hosts st k l := by
  let d : Place := ⟨fun m => m = k ∨ m = l, fun _ => False, [], []⟩
  have hkd : d.Has st k := by
    refine ⟨.inl rfl, ?_, fun _ hi => hi.elim⟩
    rintro _ (rfl | rfl)
    · exact Kind.meets_self _
    · exact h
  have hld : d.Has st l := by
    refine ⟨.inr rfl, ?_, fun _ hi => hi.elim⟩
    rintro _ (rfl | rfl)
    · exact Kind.meets_symm h
    · exact Kind.meets_self _
  refine ⟨d, ?_, hkd.liesAt hk hne, hld.liesAt hl hne'⟩
  rintro rfl
  cases k with
  | simple | self => simp [d, Place.of]
  | effect c p i => exact absurd rfl (hne c p i)
  | _ => cases hk

theorem exists_places_of (h : ∀ k ∈ s, ∀ l, l.concrete = true → k.meets st l = true →
      ∃ d : Place, d.Hosts st k l) (ht : Kind.slotsConcrete t = true)
    (hst : Kind.slotsMeet st s t = true) :
    ∃ x, (s = t → x = s.places) ∧ ∀ V : Placing, V.Lies st s x ∧ V.Lies st t x := by
  induction s generalizing t with
  | nil =>
    obtain rfl : t = [] := List.length_eq_zero_iff.1 (Kind.length_eq_of_slotsMeet hst).symm
    exact ⟨[], fun _ => rfl, fun V => ⟨rfl, rfl⟩⟩
  | cons k s ih =>
    cases t with
    | nil => cases hst
    | cons l t =>
      rw [List.forall_mem_cons] at h
      rw [Kind.slotsMeet_cons] at hst
      rw [Kind.slotsConcrete_cons] at ht
      obtain ⟨d, hd⟩ := h.1 l ht.1 hst.1
      obtain ⟨x, hx, hlies⟩ := ih h.2 ht.2 hst.2
      refine ⟨d :: x, fun heq => ?_, fun V => ⟨?_, ?_⟩⟩
      · obtain ⟨rfl, rfl⟩ := List.cons.inj heq
        rw [hd.eq_of rfl, hx rfl, Stack.places, Stack.places, List.map_cons]
      · exact ⟨[d], x, rfl, hd.left V, (hlies V).1⟩
      · exact ⟨[d], x, rfl, hd.right V, (hlies V).2⟩

/-- **Slots without variables that meet have a place.** -/
theorem exists_hosts (hk : k.concrete = true) (hl : l.concrete = true) (h : k.meets st l = true) :
    ∃ d : Place, d.Hosts st k l := by
  induction k, hk using Kind.concreteInduction generalizing l with
  | simple | self =>
    cases l with
    | effect => exact exists_hosts_effect rfl (by simp) hl h
    | _ => exact exists_hosts_pair rfl hl (by simp) (by simp) h
  | effect c p i hc hp ihc ihp =>
    cases l with
    | effect c' p' j =>
      obtain ⟨hcc, hpp⟩ := Bool.and_eq_true_iff.1 h
      obtain ⟨hc', hp'⟩ := Kind.concrete_effect.1 hl
      obtain ⟨x, hx, hxlies⟩ := exists_places_of (fun k hk _ => ihc k hk) hc' hcc
      obtain ⟨z, hz, hzlies⟩ := exists_places_of (fun k hk _ => ihp k hk) hp' hpp
      refine ⟨⟨fun _ => False, fun b => b = i ∨ b = j, x, z⟩, fun heq => ?_, fun V => ?_, fun V => ?_⟩
      · obtain ⟨rfl, rfl, rfl⟩ := Kind.effect.inj heq
        rw [of_effect, hx rfl, hz rfl]
        simp only [or_self]
      · exact Placing.liesAt_effect_iff.2 ⟨.inl rfl, (hxlies V).1, (hzlies V).1⟩
      · exact Placing.liesAt_effect_iff.2 ⟨.inr rfl, (hxlies V).2, (hzlies V).2⟩
    | simple | self =>
      have hhosts := exists_hosts_effect rfl (by simp) (Kind.concrete_effect.2 ⟨hc, hp⟩)
        (Kind.meets_symm h)
      exact hhosts.imp fun _ => Hosts.symm
    | _ => cases hl

end Place

namespace Cell

variable {st : Option Subtyping} {V : Placing} {x : List Place}

/-- A cell is a place for what is put there and what is taken. -/
noncomputable def place (c : Cell st) : Place :=
  (Place.exists_hosts c.produced_concrete c.consumed_concrete c.meet).choose

theorem hosts_place (c : Cell st) : c.place.Hosts st c.produced c.consumed :=
  (Place.exists_hosts c.produced_concrete c.consumed_concrete c.meet).choose_spec

theorem lies_map_place {F : Cell st → Kind} (h : ∀ c : Cell st, V.LiesAt st (F c) [c.place])
    (y : List (Cell st)) : V.Lies st (y.map F) (y.map place) := by
  induction y with
  | nil => exact rfl
  | cons c y ih => exact ⟨[c.place], y.map place, rfl, h c, ih⟩

/-- Cells in which the same is put and taken are the places of a stack. -/
theorem map_place {y : List (Cell st)} {s : Stack} (h : y.map produced = s)
    (h' : y.map consumed = s) : y.map place = s.places := by
  have heven : ∀ c ∈ y, c.produced = c.consumed := List.map_inj_left.1 (h.trans h'.symm)
  rw [← h, Stack.places, List.map_map]
  exact List.map_congr_left fun c hc => c.hosts_place.eq_of (heven c hc)

/-- Cells lie on proper stacks. -/
theorem properAll_append (y : List (Cell st)) (hx : Place.ProperAll x) :
    Place.ProperAll (y.map place ++ x) := by
  induction y with
  | nil => exact hx
  | cons c y ih =>
    intro s hs
    obtain ⟨k, s, rfl, hk, hs⟩ := List.map_eq_cons_iff.1 hs.symm
    exact .inl ⟨c.hosts_place.isSlot c.produced_concrete hk.symm, ih s hs.symm⟩

end Cell

namespace Effect

variable {st : Option Subtyping} {e f : Effect} {gs : List (Effect × String)} {a v : String}
  {x z : List (Cell st)}

/-- **An effect without variables spans its cells**, on any stack. -/
theorem Moves.spans (h : f.Moves st x z) {y : List Place} (hy : Place.ProperAll y) :
    (f.atop a).Spans st (x.map Cell.place ++ y) (z.map Cell.place ++ y) := by
  obtain ⟨c, p, w, rfl, rfl, hc, hp⟩ := h
  let V : Placing := ⟨fun _ => .of .absent, fun _ => w.map Cell.place ++ y⟩
  refine ⟨V, ⟨fun _ _ hk => Place.of_inj hk ▸ rfl, fun _ => Cell.properAll_append w hy⟩, ?_, ?_⟩
  · refine Placing.lies_append.2 ⟨c.map Cell.place, _, ?_, ?_, Placing.lies_singleton.2 rfl⟩
    · rw [List.map_append, List.append_assoc]
    · rw [← hc]
      exact Cell.lies_map_place (fun c => c.hosts_place.right V) c
  · refine Placing.lies_append.2 ⟨p.map Cell.place, _, ?_, ?_, Placing.lies_singleton.2 rfl⟩
    · rw [List.map_append, List.append_assoc]
    · rw [← hp]
      exact Cell.lies_map_place (fun c => c.hosts_place.left V) p

/-- **A row leads where its slots move**, on any stack. -/
theorem leads_of_moves (h : Along (Moves st) (gs.map Prod.fst) x z) {y : List Place}
    (hy : Place.ProperAll y) :
    Leads st (Layers.row gs) (x.map Cell.place ++ y) (z.map Cell.place ++ y) := by
  induction gs generalizing x with
  | nil =>
    obtain rfl : x = z := h
    exact rfl
  | cons g gs ih =>
    obtain ⟨w, hxw, hwz⟩ := h
    exact ⟨_, hxw.spans hy, ih hwz⟩

/-- **What moves as a row does follows from it.** -/
theorem followsFrom_of_moves (he : e.kind.concrete = true)
    (h : ∀ x z, e.Moves st x z → Along (Moves st) (gs.map Prod.fst) x z) :
    (e.atop v).FollowsFrom st (Layers.row gs) := by
  refine ⟨⟨fun _ => .stack, tidy_atop_of_concrete he rfl⟩, ?_⟩
  have hbottom : Stack.Proper [.stackVar v] := .inr ⟨⟨v, rfl⟩, rfl⟩
  obtain ⟨x, z, hmoves, hx, hx', hz, hz'⟩ : ∃ x z : List (Cell st), _ := exists_moves he
  have hleads := leads_of_moves (h x z hmoves) hbottom.properAll
  rw [Cell.map_place hx hx', Cell.map_place hz hz'] at hleads
  rwa [atop, Stack.places, List.map_append, Stack.places, List.map_append]

/-- An effect without variables above a stack is not changed by closing it and making it ready. -/
theorem reopens_atop (he : e.kind.concrete = true) : (e.atop v).Reopens := by
  rw [concrete_kind_iff, Kind.slotsConcrete_iff, Kind.slotsConcrete_iff] at he
  have hclose : ∀ s : Stack, (∀ k ∈ s, k.concrete = true) → ∀ drop,
      Kind.closeSlots drop (s ++ [.stackVar v]) = s ++ [.stackVar v] := by
    intro s hs drop
    rw [Kind.closeSlots_eq_map, List.map_append,
      List.map_congr_left fun k hk => Kind.closeWith_of_concrete (hs k hk), List.map_id']
    rfl
  exact ⟨List.forall_mem_cons.2 ⟨hclose _ he.1 _, List.forall_mem_singleton.2 (hclose _ he.2 _)⟩,
    isOpen_atop⟩

end Effect

namespace Session

open Effect

variable {s t : Session} {ds gs fs : List Effect}

/-- A pass over effects without variables is faithful to every row that what they are composed to moves
as, if it is not nested too deep. -/
theorem Idle.faithful_of_moves (hs : s.Idle) (hstrict : s.store.lenient = false)
    (hfs : ∀ f ∈ fs, f.kind.concrete = true) (hgs : ∀ f ∈ gs, f.kind.concrete = true)
    (hcount : fs.length < 2 ^ 64) (hcount' : gs.length < 2 ^ 64)
    (hdeep : NotTooDeep (Request.composeAll fs).run s)
    (h : ∀ e x z, overlapAll? s.store.subtyping fs = some e → e.Moves s.store.subtyping x z →
      Along (Moves s.store.subtyping) gs x z) : s.Faithful fs gs := by
  obtain ⟨r, ps, hrow, rfl, -⟩ := exists_row (s := s) hgs hcount'
  refine ⟨length_drawn_of_concrete hfs ▸ hcount,
    ((hs.ends_concrete hstrict hfs hcount).and hdeep).mono ?_ fun _ _ he => he.2⟩
  rintro e t ⟨⟨hall, v, hfound⟩, -⟩
  rw [hfound, hrow]
  refine followsFrom_of_moves (concrete_of_foldlM rfl hfs hall) fun x z he => ?_
  exact ⟨x, moves_nop_iff.2 rfl, h e x z hall he⟩

/-- **A pass over effects without variables is faithful**, whatever the order of nominal types, if it is
not nested too deep. -/
theorem Idle.faithful_concrete (hs : s.Idle) (hstrict : s.store.lenient = false)
    (hfs : ∀ f ∈ fs, f.kind.concrete = true) (hcount : fs.length < 2 ^ 64)
    (hdeep : NotTooDeep (Request.composeAll fs).run s) : s.Faithful fs fs :=
  hs.faithful_of_moves hstrict hfs hfs hcount hcount hdeep fun _ _ _ =>
    along_moves_of_overlapAll? hfs

/-- A grouping is faithful if what is found for the part has one variable, at the bottom of both stacks,
and the second pass is faithful. -/
theorem Groups.of_atop (hcount : ((Effect.nop :: gs).flatMap Effect.drawn).length ≤ 2 ^ 64)
    (h : Ends (Request.composeAll gs).run t
      (fun r u => (∃ (e : Effect) (a : String), e.kind.concrete = true ∧ t.found gs u = e.atop a) ∧
        u.Faithful (ds ++ r :: fs) (ds ++ gs ++ fs))
      fun e _ => e ≠ .constraint .tooDeep) : t.Groups ds gs fs := by
  refine ⟨hcount, h.mono ?_ fun _ _ he => he⟩
  rintro r u ⟨⟨e, a, he, hfound⟩, hfaithful⟩
  rw [hfound]
  exact ⟨⟨fun _ => .stack, tidy_atop_of_concrete he rfl⟩, reopens_atop he, hfaithful⟩

/-- **A grouping of effects without variables is faithful**, whatever the order of nominal types, if
its passes are not nested too deep. -/
theorem Idle.groups_concrete (ht : t.Idle) (hstrict : t.store.lenient = false)
    (hgs : ∀ f ∈ gs, f.Read) (hall : ∀ f ∈ ds ++ gs ++ fs, f.kind.concrete = true)
    (hcount : (ds ++ gs ++ fs).length + 1 < 2 ^ 64)
    (hdeep : NotTooDeep (do (Request.composeAll (ds ++ (← (Request.composeAll gs).run) :: fs)).run) t) :
    t.Groups ds gs fs := by
  obtain ⟨⟨hds', hgs'⟩, hfs'⟩ : ((∀ f ∈ ds, f.kind.concrete = true) ∧ ∀ f ∈ gs, f.kind.concrete = true) ∧
      ∀ f ∈ fs, f.kind.concrete = true := by
    simpa only [List.forall_mem_append] using hall
  rw [List.length_append, List.length_append] at hcount
  rw [NotTooDeep, Ends.bind_iff] at hdeep
  refine .of_atop ?_ ((Ends.self _ _).mono (fun r u hru => ?_) fun e u => hdeep.error)
  · rw [length_drawn_of_concrete hgs']
    omega
  obtain ⟨hr, v, hfound⟩ := (ht.ends_concrete hstrict hgs' (by omega)).ok hru
  have hu := (Request.ends_run_idle (q := .composeAll gs) hgs ht).ok hru
  obtain ⟨hst, hl⟩ := (ht.ends_settings gs).ok hru
  have hconcrete : r.kind.concrete = true := concrete_of_foldlM rfl hgs' hr
  have hrest : ∀ f ∈ ds ++ r :: fs, f.kind.concrete = true :=
    List.forall_mem_append.2 ⟨hds', List.forall_mem_cons.2 ⟨hconcrete, hfs'⟩⟩
  refine ⟨⟨r, v, hconcrete, hfound⟩, hu.faithful_of_moves (hl.trans hstrict) hrest hall ?_ ?_
    (hdeep.ok hru) fun e x z he hmoves => ?_⟩
  · simp only [List.length_append, List.length_cons]
    omega
  · simp only [List.length_append]
    omega
  · obtain ⟨y, hxy, w, hyw, hwz⟩ := along_append.1 (along_moves_of_overlapAll? hrest he hmoves)
    rw [← hst] at hr
    exact along_append.2 ⟨w, along_append.2 ⟨y, hxy, along_moves_of_overlapAll? hgs' hr hyw⟩, hwz⟩

end Session

end StackEffect
