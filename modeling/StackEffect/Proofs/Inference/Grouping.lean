import StackEffect.Proofs.Inference.Faithful

/-!
# Proofs/Inference/Grouping — composing a row in one pass or in several

    ( -> int) ('a -> 'a 'a) (string -> )      in one pass ( -> any), in two passes a mismatch

A pass over a whole row and passes over its parts answer the same if what they find follows from the row
(`grouping_keeps_results`): all of them find a principal effect for it, as what is found for a part
spans all places that the part leads to.  A pass that widens types finds what does not follow
(`widening_depends_on_grouping`).
-/

namespace StackEffect

open Effect

namespace Session

variable {s t : Session} {ds gs fs es es' es'' : List Effect}

/-- **A row of which a part is composed first**: what is found is principal for the whole row, and
nothing is found only if the row leads to nothing. -/
theorem Groups.ends_group (hgroup : t.Groups ds gs fs) (ht : t.Idle) (hgs : ∀ f ∈ gs, f.Read)
    (hcount : ((Effect.nop :: (ds ++ gs ++ fs)).flatMap Effect.drawn).length ≤ 2 ^ 64)
    (hes : List.Forall₂ ReadyAs ds es) (hes' : List.Forall₂ ReadyAs gs es')
    (hes'' : List.Forall₂ ReadyAs fs es'')
    (htidy : ∀ e ∈ es ++ es' ++ es'', ∃ sort, e.kind.Tidy sort) :
    Ends (do (Request.composeAll (ds ++ (← (Request.composeAll gs).run) :: fs)).run) t
      (fun r _ => ∃ e : Effect, r = e.close.generalize ∧
        e.Principal t.store.subtyping (es ++ es' ++ es''))
      fun _ _ => ∀ x z : Stack, Stack.Proper x →
        ¬Leads t.store.subtyping (es ++ es' ++ es'') x.places z.places := by
  have hrow : List.Forall₂ ReadyAs (ds ++ gs ++ fs) (es ++ es' ++ es'') :=
    List.rel_append (List.rel_append hes hes') hes''
  obtain ⟨⟨htidy₁, htidy₂⟩, htidy₃⟩ : ((∀ e ∈ es, ∃ sort, e.kind.Tidy sort) ∧
      ∀ e ∈ es', ∃ sort, e.kind.Tidy sort) ∧ ∀ e ∈ es'', ∃ sort, e.kind.Tidy sort := by
    simpa only [List.forall_mem_append] using htidy
  -- what is found for the part spans what the part does in the row
  have hpart : ∀ x z : Stack, Stack.Proper x →
      Leads t.store.subtyping (es ++ es' ++ es'') x.places z.places →
      Ends (Request.composeAll gs).run t
        (fun _ u => Leads t.store.subtyping (es ++ t.found gs u :: es'') x.places z.places)
        fun e _ => e = .constraint .tooDeep := by
    intro x z hx hxz
    obtain ⟨w, hxw, hwz⟩ := along_append.1 hxz
    obtain ⟨y, hxy, hyw⟩ := along_append.1 hxw
    exact (ht.ends_spans hgroup.count hes' htidy₂ (Leads.properAll hxy hx.properAll htidy₁) hyw).mono
      (fun _ u hfound => along_append.2 ⟨y, hxy, w, hfound, hwz⟩) fun _ _ he => he
  refine Ends.bind_iff.2 ((Ends.self _ _).mono (fun r u hru => ?_) fun e _ hfail x z hx hxz => ?_)
  · obtain ⟨rfl, -⟩ := (ht.ends_pass gs).ok hru
    obtain ⟨hfound, hreopens, hfaithful⟩ := hgroup.ends.ok hru
    have hu := (Request.ends_run_idle (q := .composeAll gs) hgs ht).ok hru
    have hst := ((ht.ends_settings gs).ok hru).1
    have hready : (t.found gs u).close.generalize.ReadyAs (t.found gs u) := by
      obtain ⟨sort, hsort⟩ := hfound
      exact hreopens.readyAs hsort
    have hes : List.Forall₂ ReadyAs _ (es ++ t.found gs u :: es'') :=
      List.rel_append hes (.cons hready hes'')
    have hall := List.forall_mem_append.2 ⟨htidy₁, List.forall_mem_cons.2 ⟨hfound, htidy₃⟩⟩
    have hspans := fun (x z : Stack) (hx : Stack.Proper x)
        (hxz : Leads t.store.subtyping (es ++ es' ++ es'') x.places z.places) =>
      hu.ends_spans hfaithful.count hes hall hx.properAll (hst ▸ (hpart x z hx hxz).ok hru)
    refine (Ends.self _ _).mono (fun r v hrv => ?_) fun e v hev x z hx hxz => ?_
    · have hwhole := hfaithful.ends.ok hrv
      refine ⟨_, ((hu.ends_pass _).ok hrv).1, ⟨hwhole.tidy, ?_⟩, ?_, fun x z hx hxz => ?_⟩
      · rw [← hst]
        exact (u.leads_row_iff hcount hrow htidy hwhole.proper.properAll).1 hwhole.leads
      · have himpure : (t.found gs u).impure = es'.any Effect.impure :=
          impure_joinAll.trans (t.exists_copies_row hgroup.count hes' htidy₂).2.1
        refine impure_joinAll.trans ((u.exists_copies_row hfaithful.count hes hall).2.1.trans ?_)
        rw [List.any_append, List.any_cons, himpure, List.any_append, List.any_append,
          Bool.or_assoc]
      · exact ((hspans x z hx hxz).ok hrv).maps
    · exact hfaithful.ends.error hev ((hspans x z hx hxz).error hev)
  · exact hgroup.ends.error hfail ((hpart x z hx hxz).error hfail)

/-- **What answers principal effects for a row answers what a faithful pass over the row does.** -/
theorem Faithful.together (hall : s.Faithful gs gs) (hs : s.Idle) (hes : List.Forall₂ ReadyAs gs es)
    (htidy : ∀ e ∈ es, ∃ sort, e.kind.Tidy sort) {m : Infer Effect}
    (hm : Ends m t (fun r _ => ∃ e : Effect, r = e.close.generalize ∧ e.Principal s.store.subtyping es)
      fun _ _ => ∀ x z : Stack, Stack.Proper x → ¬Leads s.store.subtyping es x.places z.places) :
    Together (Request.composeAll gs).run s m t fun r _ r' _ => r' = r := by
  refine Together.of_ends (hall.ends_run hs hes htidy) hm ?_ ?_ ?_
  · rintro r _ r' _ ⟨rfl, he⟩ ⟨e', rfl, he'⟩
    exact he.close_generalize_eq he'
  · rintro r _ _ _ ⟨rfl, he⟩ hno
    exact hno _ _ he.proper he.leads
  · rintro _ _ r' _ hno ⟨e', rfl, he'⟩
    exact hno _ _ he'.proper he'.leads

end Session

/-- **Widening depends on grouping.**  In one pass `int` and `string` are widened to `any` if both are
made equal to a variable.  In two passes there is no variable left when they meet. -/
theorem widening_depends_on_grouping :
    ∃ f g h : Effect, Effect.parse "( -> int)" = .ok f ∧ Effect.parse "('a -> 'a 'a)" = .ok g ∧
      Effect.parse "(string -> )" = .ok h ∧
      (∃ r t, (Request.composeAll [f, g, h]).run (Session.start none false .silent) = .ok r t ∧
        r.text = "( -> any)") ∧
      (∃ e t, (do (Request.compose (← (Request.compose f g).run) h).run)
          (Session.start none false .silent) = .error e t ∧
        e.message = "Failed to unify int with string: incompatible types") ∧
      ∃ e t, (do (Request.compose f (← (Request.compose g h).run)).run)
          (Session.start none false .silent) = .error e t ∧
        e.message = "Failed to unify int with string: incompatible types" :=
  ⟨⟨[], [.simple "int"], false⟩, ⟨[.typeVar "'a"], [.typeVar "'a", .typeVar "'a"], false⟩,
    ⟨[.simple "string"], [], false⟩, by decide +kernel, by decide +kernel, by decide +kernel,
    Ends.exists_ok (by decide +kernel), Ends.exists_error (by decide +kernel),
    Ends.exists_error (by decide +kernel)⟩

/-- **Composition does not depend on grouping** where what is found follows from the row: where each
variable stands for one place, the slots that meet in a place are related, and at both ends of the row a
place has one slot.  Three effects in one pass, the first two and then the third, and the first and then
the last two all fail, or have the same result; in sessions of one lattice, if no pass fails for its
depth, and if the effects that are found for two of the three are not changed by closing them and making
them ready again.  If the effects have no variables and sizes matter, all this is so unless a pass fails
for its depth. -/
theorem grouping_keeps_results {f g h : Effect} (hf : f.Read) (hg : g.Read) (hh : h.Read)
    {s t u : Session} (hs : s.Idle) (ht : t.Idle) (hu : u.Idle)
    (hst : t.store.subtyping = s.store.subtyping) (hsu : u.store.subtyping = s.store.subtyping)
    (hrow : (s.Faithful [f, g, h] [f, g, h] ∧ t.Groups [] [f, g] [h] ∧ u.Groups [f] [g, h] []) ∨
      ((∀ e ∈ [f, g, h], e.kind.concrete = true) ∧ (∀ v ∈ [s, t, u], v.store.lenient = false) ∧
        Session.NotTooDeep (Request.composeAll [f, g, h]).run s ∧
        Session.NotTooDeep (do (Request.compose (← (Request.compose f g).run) h).run) t ∧
        Session.NotTooDeep (do (Request.compose f (← (Request.compose g h).run)).run) u)) :
    Together (Request.composeAll [f, g, h]).run s
      (do (Request.compose (← (Request.compose f g).run) h).run) t (fun r _ r' _ => r' = r) ∧
    Together (Request.composeAll [f, g, h]).run s
      (do (Request.compose f (← (Request.compose g h).run)).run) u fun r _ r' _ => r' = r := by
  obtain ⟨hall, hleft, hright⟩ :
      s.Faithful [f, g, h] [f, g, h] ∧ t.Groups [] [f, g] [h] ∧ u.Groups [f] [g, h] [] := by
    refine hrow.elim id ?_
    rintro ⟨hconcrete, hstrict, hds, hdt, hdu⟩
    obtain ⟨hss, hts, hus⟩ : s.store.lenient = false ∧ t.store.lenient = false ∧
        u.store.lenient = false := by simpa using hstrict
    have hleft : t.Groups [] [f, g] [h] :=
      ht.groups_concrete hts (by simp [hf, hg]) hconcrete (by simp) hdt
    have hright : u.Groups [f] [g, h] [] :=
      hu.groups_concrete hus (by simp [hg, hh]) hconcrete (by simp) hdu
    exact ⟨hs.faithful_concrete hss hconcrete (by simp) hds, hleft, hright⟩
  have hread : ∀ e ∈ [f, g, h], e.Read := by simp [hf, hg, hh]
  obtain ⟨es, hes, htidy⟩ := exists_tidy_row hread
  obtain ⟨c, d, e, rfl⟩ : ∃ c d e, es = [c, d, e] := by
    obtain _ | ⟨_, _ | ⟨_, _ | ⟨_, ⟨⟩⟩⟩⟩ := hes
    exact ⟨_, _, _, rfl⟩
  obtain ⟨hfc, hgd, hhe⟩ : f.ReadyAs c ∧ g.ReadyAs d ∧ h.ReadyAs e := by simpa using hes
  have hl := @Session.Groups.ends_group t [] [f, g] [h] [] [c, d] [e] hleft ht (by simp [hf, hg])
    hall.count .nil (.cons hfc (.cons hgd .nil)) (.cons hhe .nil) htidy
  have hr := @Session.Groups.ends_group u [f] [g, h] [] [c] [d, e] [] hright hu (by simp [hg, hh])
    hall.count (.cons hfc .nil) (.cons hgd (.cons hhe .nil)) .nil htidy
  rw [hst] at hl
  rw [hsu] at hr
  exact ⟨hall.together hs hes htidy hl, hall.together hs hes htidy hr⟩

/-- **A slot is copied, and the copies are consumed as what it meets.**  One place has the slot, its
copies and what they are consumed as. -/
theorem Session.followsFrom_dup (s : Session) {st : Option Subtyping} {k l m : Kind} {a : String}
    (hk : k.concrete = true) (hl : l.concrete = true) (hm : m.concrete = true)
    (h : k.meets st l = true) {fs : List Effect}
    (hfs : fs = [⟨[], [k], false⟩, ⟨[.typeVar "'a"], [.typeVar "'a", .typeVar "'a"], false⟩,
      ⟨[l, l], [m], false⟩])
    (hcount : ((nop :: fs).flatMap drawn).length ≤ 2 ^ 64) :
    (atop ⟨[], [m], false⟩ a).FollowsFrom st (s.row fs) := by
  have hproduced : Kind.slotsConcrete [m] = true := Kind.slotsConcrete_cons.2 ⟨hm, rfl⟩
  have hconcrete : ∀ {c p : Stack}, Kind.slotsConcrete c = true → Kind.slotsConcrete p = true →
      (Kind.effect c p false).Tidy (fun _ => .slot) ∧ Effect.isOpen ⟨c, p, false⟩ = false ∧
        "'R" ∉ Effect.bases ⟨c, p, false⟩ := fun {c p} hc hp => by
    have he : (⟨c, p, false⟩ : Effect).kind.concrete = true := concrete_kind_iff.2 ⟨hc, hp⟩
    exact ⟨Kind.tidy_of_concrete he, isOpen_of_concrete he, bases_of_concrete he ▸ List.not_mem_nil⟩
  have hclosed : ∀ e ∈ fs, e.kind.Tidy (fun _ => .slot) ∧ e.isOpen = false ∧ "'R" ∉ e.bases := by
    subst hfs
    simp only [List.forall_mem_cons]
    refine ⟨hconcrete rfl ?_, by decide +kernel, hconcrete ?_ ?_,
      fun _ he => absurd he List.not_mem_nil⟩
    · exact Kind.slotsConcrete_cons.2 ⟨hk, rfl⟩
    · exact Kind.slotsConcrete_cons.2 ⟨hl, Kind.slotsConcrete_cons.2 ⟨hl, rfl⟩⟩
    · exact hproduced
  have hready : List.Forall₂ ReadyAs fs (fs.map (·.atop "'R")) :=
    List.forall₂_map_right_iff.2 (List.forall₂_same.2 fun e he =>
      readyAs_atop ⟨fun _ => .slot, (hclosed e he).1.2⟩ (hclosed e he).2.1 (hclosed e he).2.2)
  refine s.followsFrom_row hcount hready (List.forall_mem_map.2 fun e he => ?_) ⟨?_, ?_⟩
  · exact ⟨_, tidy_atop (hclosed e he).1 (hclosed e he).2.1 (hclosed e he).2.2⟩
  · exact ⟨fun _ => .stack, tidy_atop_of_concrete (concrete_kind_iff.2 ⟨rfl, hproduced⟩) rfl⟩
  · subst hfs
    obtain ⟨d, hd⟩ : ∃ d : Place, d.Hosts st k l := Place.exists_hosts hk hl h
    let rest : List Place := Stack.places [.stackVar a]
    let V : Placing := ⟨fun _ => d, fun _ => rest⟩
    have hrest : Place.ProperAll rest := Stack.Proper.properAll (.inr ⟨⟨_, rfl⟩, rfl⟩)
    have hV : V.Proper := ⟨fun _ _ => hd.isSlot hk, fun _ => hrest⟩
    have hspans : ∀ {e : Effect} {x z : List Place}, V.Lies st e.consumed x → V.Lies st e.produced z →
        (e.atop "'R").Spans st (x ++ rest) (z ++ rest) := fun hx hz =>
      ⟨V, hV, Placing.lies_append.2 ⟨_, _, rfl, hx, Placing.lies_singleton.2 rfl⟩,
        Placing.lies_append.2 ⟨_, _, rfl, hz, Placing.lies_singleton.2 rfl⟩⟩
    refine ⟨_, hspans (e := ⟨[], [k], false⟩) (x := []) (z := [d]) rfl
        (Placing.lies_singleton.2 (hd.left V)), _,
      hspans (e := ⟨[.typeVar "'a"], [.typeVar "'a", .typeVar "'a"], false⟩) (x := [d]) (z := [d, d])
        (Placing.lies_singleton.2 rfl) ⟨[d], [d], rfl, rfl, Placing.lies_singleton.2 rfl⟩, _,
      hspans (e := ⟨[l, l], [m], false⟩) (x := [d, d]) (z := Stack.places [m])
        ⟨[d], [d], rfl, hd.right V, Placing.lies_singleton.2 (hd.right V)⟩
        (Placing.lies_of_concrete hproduced), rfl⟩

/-- Where every `int` is a `number`: an `int` is used as a `number`, its copies are, and it is put into a
function. -/
theorem grouping_keeps_results_number :
    let l : Lattice := ⟨"any", [], [("int", ["number"])]⟩
    let s := Session.start (some l.subtyping) false .silent
    let f : Effect := ⟨[], [.simple "int"], false⟩
    let text : Effect := ⟨[.simple "number"], [.simple "string"], false⟩
    let test : Effect := ⟨[.simple "string"], [.simple "bool"], false⟩
    let dup : Effect := ⟨[.typeVar "'a"], [.typeVar "'a", .typeVar "'a"], false⟩
    let less : Effect := ⟨[.simple "number", .simple "number"], [.simple "bool"], false⟩
    let quote : Effect := ⟨[.typeVar "'a"], [.effect [] [.typeVar "'a"] false], false⟩
    let check : Effect := ⟨[.effect [] [.simple "int"] false], [.simple "bool"], false⟩
    (∀ e ∈ [f, text, test, dup, less, quote, check], e.Read) ∧ s.Idle ∧ s.store.lenient = false ∧
      (∀ e ∈ [f, text, test], e.kind.concrete = true) ∧
      Session.NotTooDeep (Request.composeAll [f, text, test]).run s ∧
      Session.NotTooDeep (do (Request.compose (← (Request.compose f text).run) test).run) s ∧
      Session.NotTooDeep (do (Request.compose f (← (Request.compose text test).run)).run) s ∧
      (∀ p ∈ [(dup, less), (quote, check)], s.Faithful [f, p.1, p.2] [f, p.1, p.2] ∧
        s.Groups [] [f, p.1] [p.2] ∧ s.Groups [f] [p.1, p.2] []) ∧
      ∀ p ∈ [(text, test), (dup, less), (quote, check)], ∃ r, r.text = "( -> bool)" ∧
        (∃ t, (Request.composeAll [f, p.1, p.2]).run s = .ok r t) ∧
        (∃ t, (do (Request.compose (← (Request.compose f p.1).run) p.2).run) s = .ok r t) ∧
        ∃ t, (do (Request.compose f (← (Request.compose p.1 p.2).run)).run) s = .ok r t := by
  intro l s f text test dup less quote check
  have hread : ∀ e ∈ [f, text, test, dup, less, quote, check], e.Read := by
    simp only [List.forall_mem_cons]
    exact ⟨⟨"( -> int)", by decide +kernel⟩, ⟨"(number -> string)", by decide +kernel⟩,
      ⟨"(string -> bool)", by decide +kernel⟩, ⟨"('a -> 'a 'a)", by decide +kernel⟩,
      ⟨"(number number -> bool)", by decide +kernel⟩, ⟨"('a -> ( -> 'a))", by decide +kernel⟩,
      ⟨"(( -> int) -> bool)", by decide +kernel⟩, fun _ he => absurd he List.not_mem_nil⟩
  have hidle : s.Idle := Session.idle_start .silent
  have hconcrete : ∀ e ∈ [f, text, test], e.kind.concrete = true := by decide +kernel
  have hone : Session.NotTooDeep (Request.composeAll [f, text, test]).run s := by decide +kernel
  have hleft : Session.NotTooDeep (do (Request.compose (← (Request.compose f text).run) test).run) s :=
    by decide +kernel
  have hright : Session.NotTooDeep (do (Request.compose f (← (Request.compose text test).run)).run) s :=
    by decide +kernel
  let found : Effect := atop ⟨[], [.simple "bool"], false⟩ "'R_0"
  have hfaithful : ∀ {t : Session} {fs : List Effect}, t.store.subtyping = s.store.subtyping →
      ((nop :: fs).flatMap drawn).length ≤ 2 ^ 64 →
      Ends (Request.composeAll fs).run t (fun _ u => t.found fs u = found) (fun _ _ => False) →
      t.Faithful fs [f, dup, less] := by
    intro t fs hst hcount hends
    refine ⟨hcount, hends.mono (fun _ u hu => ?_) fun _ _ => False.elim⟩
    rw [hu, hst]
    exact t.followsFrom_dup rfl rfl rfl (by decide +kernel) rfl (by decide +kernel)
  have hgroups : ∀ (ds gs fs : List Effect) (e : Effect) (a : String), ds ++ gs ++ fs = [f, dup, less] →
      e.kind.concrete = true → ((nop :: gs).flatMap drawn).length ≤ 2 ^ 64 →
      Ends (Request.composeAll gs).run s (fun r t => s.found gs t = e.atop a ∧
        ((nop :: (ds ++ r :: fs)).flatMap drawn).length ≤ 2 ^ 64 ∧
        Ends (Request.composeAll (ds ++ r :: fs)).run t
          (fun _ u => t.found (ds ++ r :: fs) u = found) fun _ _ => False)
        (fun _ _ => False) → s.Groups ds gs fs := by
    intro ds gs fs e a hrow he hcount hends
    refine .of_atop hcount
      ((hends.and (hidle.ends_settings gs)).mono ?_ fun _ _ hfalse => hfalse.1.elim)
    rintro r t ⟨⟨hfound, hcount', hends'⟩, hst, -⟩
    rw [hrow]
    exact ⟨⟨e, a, he, hfound⟩, hfaithful hst hcount' hends'⟩
  have hall : s.Faithful [f, dup, less] [f, dup, less] :=
    hfaithful rfl (by decide +kernel) (by decide +kernel)
  have hleft' : s.Groups [] [f, dup] [less] := hgroups _ _ _ ⟨[], [.simple "int", .simple "int"], false⟩
    "'R_0" rfl rfl (by decide +kernel) (by decide +kernel)
  have hright' : s.Groups [f] [dup, less] [] := hgroups _ _ _
    ⟨[.simple "number"], [.simple "bool"], false⟩ "'R_2" rfl rfl (by decide +kernel) (by decide +kernel)
  obtain ⟨hf, htext, htest, hdup, hless, hquote, hcheck⟩ : f.Read ∧ text.Read ∧ test.Read ∧
      dup.Read ∧ less.Read ∧ quote.Read ∧ check.Read := by simpa using hread
  -- the solutions for the last row are exact
  have hrow : ∀ e ∈ [f, quote, check], e.Read := by simp [hf, hquote, hcheck]
  have hexact : s.Faithful [f, quote, check] [f, quote, check] ∧ s.Groups [] [f, quote] [check] ∧
      s.Groups [f] [quote, check] [] :=
    ⟨Session.Regular.faithful (by decide +kernel) hidle hrow,
      Session.Regular.groups hidle hrow (by decide +kernel) (by decide +kernel) (by decide +kernel),
      Session.Regular.groups hidle hrow (by decide +kernel) (by decide +kernel) (by decide +kernel)⟩
  refine ⟨hread, hidle, rfl, hconcrete, hone, hleft, hright, ?_, ?_⟩
  · simp only [List.forall_mem_cons]
    exact ⟨⟨hall, hleft', hright'⟩, hexact, fun _ hp => absurd hp List.not_mem_nil⟩
  have hruns : ∀ p ∈ [(text, test), (dup, less), (quote, check)], Ends (Request.composeAll [f, p.1, p.2]).run s
      (fun r _ => r.text = "( -> bool)") fun _ _ => False := by decide +kernel
  have htogether : ∀ p ∈ [(text, test), (dup, less), (quote, check)],
      Together (Request.composeAll [f, p.1, p.2]).run s
        (do (Request.compose (← (Request.compose f p.1).run) p.2).run) s (fun r _ r' _ => r' = r) ∧
      Together (Request.composeAll [f, p.1, p.2]).run s
        (do (Request.compose f (← (Request.compose p.1 p.2).run)).run) s fun r _ r' _ => r' = r := by
    simp only [List.forall_mem_cons]
    exact ⟨grouping_keeps_results hf htext htest hidle hidle hidle rfl rfl
        (.inr ⟨hconcrete, by decide +kernel, hone, hleft, hright⟩),
      grouping_keeps_results hf hdup hless hidle hidle hidle rfl rfl (.inl ⟨hall, hleft', hright'⟩),
      grouping_keeps_results hf hquote hcheck hidle hidle hidle rfl rfl (.inl hexact),
      fun _ hp => absurd hp List.not_mem_nil⟩
  intro p hp
  obtain ⟨r, t, hrt, hr⟩ := (hruns p hp).exists_ok
  obtain ⟨htwo, htwo'⟩ := htogether p hp
  obtain ⟨_, u, hu, rfl⟩ := htwo.exists_ok hrt
  obtain ⟨_, u', hu', rfl⟩ := htwo'.exists_ok hrt
  exact ⟨_, hr, ⟨t, hrt⟩, ⟨u, hu⟩, u', hu'⟩

end StackEffect
