import StackEffect.Proofs.Inference.Canonical
import StackEffect.Proofs.Inference.Closing
import StackEffect.Proofs.Inference.Overlap
import StackEffect.Proofs.Solve.Stacked
import StackEffect.Proofs.Store.Unified

/-!
# Proofs/Inference/Concrete — passes over effects without variables

    (int -> int bool) (bool int -> int)      'R ≡ 'R₁ int,  'R₁ int bool ≡ 'R₂ int bool

The only variables of such a row are the stacks that its effects leave alone.  If the joints of the row
are settled, then the effects can be composed by the overlap rule, and the variable below all of them is
the one that closing takes away.  If the effects can be composed by the overlap rule, then there are
places for all their slots, and no joint can clash.  So a pass over the row is the overlap rule
(`concrete_composition_is_overlap`), unless it is nested too deep.
-/

namespace StackEffect

open Kind (slotsConcrete stackVar)

/-! ## Effects without variables -/

namespace Kind

variable {k : Kind} {s : Stack}

theorem isOpen_of_concrete (hs : slotsConcrete s = true) : Stack.isOpen s = false := by
  rw [← Bool.not_eq_true, Stack.isOpen_iff]
  rintro ⟨above, a, rfl⟩
  cases (slotsConcrete_append.1 hs).2

theorem closeWith_of_concrete {drop : String → Bool} (hk : k.concrete = true) :
    k.closeWith drop = k := by
  induction k, hk using concreteInduction with
  | simple | self => rfl
  | effect c p i hc hp ihc ihp =>
    have hshared : Stack.sharedBottom? c p = none := by
      refine Option.eq_none_iff_forall_ne_some.2 fun a ha => ?_
      obtain ⟨c', _, rfl, -⟩ := exists_of_sharedBottom? ha
      cases (slotsConcrete_append.1 hc).2
    rw [closeWith, closeSlots_eq_map, closeSlots_eq_map, List.map_congr_left ihc,
      List.map_congr_left ihp, List.map_id', List.map_id', hshared]
    rfl

theorem relabel_of_concrete {r : String → String} (hk : k.concrete = true) : k.relabel r = k :=
  relabel_eq_self fun _ hv => absurd (vars_of_concrete hk ▸ hv) List.not_mem_nil

end Kind

namespace Effect

variable {f : Effect} {a : String}

theorem isOpen_of_concrete (hf : f.kind.concrete = true) : f.isOpen = false := by
  rw [concrete_kind_iff] at hf
  rw [isOpen, Kind.isOpen_of_concrete hf.1, Kind.isOpen_of_concrete hf.2, Bool.or_self]

theorem bases_of_concrete (hf : f.kind.concrete = true) : f.bases = [] := by
  refine List.eq_nil_iff_forall_not_mem.2 fun n hn => ?_
  obtain ⟨v, hv, -⟩ := Kind.mem_freeVars.1 (mem_bases.1 hn)
  rw [Kind.vars_of_concrete hf] at hv
  exact List.not_mem_nil hv

theorem oneSorted_of_concrete (hf : f.kind.concrete = true) : f.OneSorted :=
  ⟨fun _ => .slot, fun _ hv => absurd (Kind.vars_of_concrete hf ▸ hv) List.not_mem_nil⟩

theorem bases_atop_of_concrete (hf : f.kind.concrete = true) : (f.atop a).bases = [a] := by
  refine List.perm_singleton.1 ?_
  have hperm : (f.atop a).bases.Perm (f.bases ++ [a]) :=
    bases_atop_perm (bases_of_concrete hf ▸ List.not_mem_nil)
  rwa [bases_of_concrete hf] at hperm

theorem tidy_atop_of_concrete {sort : String → VarSort} (hf : f.kind.concrete = true)
    (ha : sort a = .stack) : (f.atop a).kind.Tidy sort := by
  rw [concrete_kind_iff] at hf
  have hbottom : (Kind.stack [stackVar a]).Tidy sort :=
    Kind.tidy_cons_iff.2 ⟨rfl, Kind.tidy_stackVar_iff.2 ha, Kind.tidy_nil⟩
  exact Kind.tidy_effect_iff.2 ⟨Kind.tidy_append hf.1 hbottom, Kind.tidy_append hf.2 hbottom⟩

/-- **The canonical form of an effect without variables above a stack is the effect.** -/
theorem close_generalize_atop (hf : f.kind.concrete = true) : (f.atop a).close.generalize = f := by
  have hclose : f.close = f := by
    rw [close, Kind.close, Kind.closeWith_of_concrete hf]
    rfl
  obtain ⟨m, -, hm, -⟩ := Kind.exists_generalize_eq (oneSorted_of_concrete hf).choose_spec
  rw [close_atop (isOpen_of_concrete hf) (bases_of_concrete hf ▸ List.not_mem_nil), hclose]
  exact kind_injective (hm.trans (Kind.relabel_of_concrete hf))

theorem consumed_foldl_join (f : Effect) (fs : List Effect) :
    (fs.foldl join f).consumed = f.consumed := by
  induction fs generalizing f with
  | nil => rfl
  | cons g fs ih => exact ih (f.join g)

end Effect

/-- Copies of effects without variables, each above a stack, are the effects above stacks of other
names. -/
theorem Copies.exists_row {fs gs : List Effect} {names : List String} {a : String}
    (h : Copies (fs.map (·.atop a)) gs names) (hfs : ∀ f ∈ fs, f.kind.concrete = true) :
    ∃ ps : List (Effect × String), ps.map Prod.fst = fs ∧ ps.map Prod.snd = names ∧
      gs = Layers.row ps := by
  induction fs generalizing gs names with
  | nil =>
    cases h
    exact ⟨[], rfl, rfl, rfl⟩
  | cons f fs ih =>
    rw [List.forall_mem_cons] at hfs
    cases h with
    | cons m h =>
      obtain ⟨ps, rfl, rfl, rfl⟩ := ih h hfs.2
      have hf : f.relabel m = f := Effect.kind_injective (Kind.relabel_of_concrete hfs.1)
      refine ⟨(f, m a) :: ps, rfl, ?_, ?_⟩
      · rw [Effect.bases_atop_of_concrete hfs.1]
        rfl
      · rw [Effect.atop_relabel, hf]
        rfl

/-! ## Calls over such a row -/

namespace Layers

variable {u t : Store} {clash : Prop} {D : Layers u.subtyping clash} {val : String → D.Value}
  {gs : List (Effect × String)} {F : Effect} {p : Stack} {a : String} {x z : D.Value}
  {faults : List Fault}

/-- **What values say of the calls that join a row.** -/
theorem Runs.performAll (h : D.Runs val gs x z)
    (ht : Store.performAll (Effect.joints (row gs)) u.reset = (faults, t)) :
    t.Under (D.theory val u.lenient) ∧ (∀ e ∈ faults, e = .tooDeep ∨ clash ∧ ∃ m, e = .mismatch m) ∧
      (faults = [] → ∀ c ∈ Effect.joints (row gs), c.Relates t.partition.Settled) := by
  obtain ⟨hunder, hfaults, hsettled⟩ :=
    (Store.under_reset (D.theory val u.lenient)).performAll h.relates ht
  exact ⟨hunder, hfaults, fun hnil => (hsettled hnil).2⟩

/-- What a row produces in the end has the last value. -/
theorem Runs.last (h : D.Runs val gs x z) (hF : F.produced = p ++ [stackVar a])
    (hp : D.Piled p x (val a)) : ∃ q c,
      ((row gs).foldl Effect.join F).produced = q ++ [stackVar c] ∧ D.Piled q z (val c) := by
  induction gs generalizing F p a x with
  | nil =>
    obtain rfl : x = z := h
    exact ⟨p, a, hF, hp⟩
  | cons g gs ih =>
    obtain ⟨w, -, hprod, h⟩ := h
    exact ih h (F := F.join (g.1.atop g.2)) rfl hprod

end Layers

namespace Store

open Effect

variable {u t : Store} {gs : List (Effect × String)} {r : String}

/-- Where all calls succeed, the classes have stacks on variables. -/
theorem exists_stacked (hgs : ∀ g ∈ gs, g.1.kind.concrete = true) (hnodup : (gs.map Prod.snd).Nodup)
    (hstrict : u.lenient = false) (hok : performAll (joints (Layers.row gs)) u.reset = ([], t)) :
    ∃ height, t.partition.Stacked height ∧ t.partition.subtyping = u.subtyping ∧
      ∀ c ∈ joints (Layers.row gs), c.Relates t.partition.Settled := by
  obtain ⟨height, _, _, hruns⟩ := Layers.exists_runs_heights hgs hnodup
  obtain ⟨hunder, -, hsettled⟩ := hruns.performAll hok
  have hunified : t.Unified := (unified_reset u).performAll (orderly_reset u) hok
  have hpaired := hunified.paired _ hunder.good.toSound (.refl _)
  exact ⟨height, .of_heights hunder.good hstrict hpaired, hunder.good.subtyping, hsettled rfl⟩

/-- Effects that can be composed, and the values that they then have. -/
theorem exists_runs_cells {e : Effect} (hgs : ∀ g ∈ gs, g.1.kind.concrete = true)
    (hnodup : (r :: gs.map Prod.snd).Nodup)
    (h : overlapAll? u.subtyping (gs.map Prod.fst) = some e) :
    ∃ (val : String → List (Cell u.subtyping)) (z : List (Cell u.subtyping)),
      (Layers.cells u.subtyping).Runs val ((nop, r) :: gs) (val r) z ∧
      e.consumed = (val r).map Cell.produced ∧
      (val r).map Cell.produced = (val r).map Cell.consumed ∧
      e.produced = z.map Cell.produced ∧ z.map Cell.produced = z.map Cell.consumed := by
  have hfs : ∀ f ∈ gs.map Prod.fst, f.kind.concrete = true := List.forall_mem_map.2 hgs
  obtain ⟨y, z, hmoves, hy, hy', hz, hz'⟩ := exists_moves (concrete_of_foldlM rfl hfs h)
  have hpass : (Layers.cells u.subtyping).Passes (((nop, r) :: gs).map Prod.fst) y z :=
    ⟨y, y, rfl, rfl, Layers.passes_of_moves (along_moves_of_overlapAll? hfs h hmoves)⟩
  obtain ⟨val, hruns⟩ := hpass.exists_runs hnodup
  obtain ⟨_, hval, -⟩ := id hruns
  obtain rfl : y = val r := hval
  exact ⟨val, z, hruns, hy.symm, hy.trans hy'.symm, hz.symm, hz.trans hz'.symm⟩

/-- **Calls that fail are nested too deep, or the effects cannot be composed.** -/
theorem fault_of_performAll (hgs : ∀ g ∈ gs, g.1.kind.concrete = true)
    (hnodup : (r :: gs.map Prod.snd).Nodup) {fault : Fault}
    (hfault : fault ∈ (performAll (joints (Layers.row ((nop, r) :: gs))) u.reset).1) :
    fault = .tooDeep ∨
      overlapAll? u.subtyping (gs.map Prod.fst) = none ∧ ∃ m, fault = .mismatch m := by
  cases hall : overlapAll? u.subtyping (gs.map Prod.fst) with
  | none =>
    have hrow : ∀ g ∈ (nop, r) :: gs, g.1.kind.concrete = true := List.forall_mem_cons.2 ⟨rfl, hgs⟩
    obtain ⟨height, _, _, hruns⟩ := Layers.exists_runs_heights hrow hnodup
    exact ((hruns.performAll rfl).2.1 fault hfault).imp_right fun h => ⟨rfl, h.2⟩
  | some e =>
    obtain ⟨val, z, hruns, -⟩ := exists_runs_cells hgs hnodup hall
    exact ((hruns.performAll rfl).2.1 fault hfault).imp_right fun h => h.1.elim

theorem tidyOver_row (hgs : ∀ g ∈ gs, g.1.kind.concrete = true) :
    ∀ f ∈ Layers.row gs, f.kind.TidyOver (fun _ => .stack)
      ((Layers.row gs).flatMap fun f => f.kind.vars) := by
  intro f hf
  obtain ⟨g, hg, rfl⟩ := List.mem_map.1 hf
  exact ⟨tidy_atop_of_concrete (hgs g hg) rfl, fun v hv => List.mem_flatMap.2 ⟨_, hf, hv⟩⟩

/-- **Calls that all succeed compose the effects.**  They can be solved, and what the row is resolved to
is the composition above a variable. -/
theorem exists_resolved_of_performAll (hgs : ∀ g ∈ gs, g.1.kind.concrete = true)
    (hnodup : (r :: gs.map Prod.snd).Nodup) (hstrict : u.lenient = false)
    (hok : performAll (joints (Layers.row ((nop, r) :: gs))) u.reset = ([], t)) :
    ∃ e t' v, overlapAll? u.subtyping (gs.map Prod.fst) = some e ∧ solve t = .ok () t' ∧
      t'.resolveEffect (joinAll (Layers.row ((nop, r) :: gs))) = e.atop v := by
  have hrow : ∀ g ∈ (nop, r) :: gs, g.1.kind.concrete = true := List.forall_mem_cons.2 ⟨rfl, hgs⟩
  obtain ⟨height, hstacked, hst, hsettled⟩ := exists_stacked hrow hnodup hstrict hok
  -- the composition, as what the first and the last variable unroll to
  obtain ⟨e, q, w, c, d, hfold, hlast, -, hr, hc⟩ := hstacked.exists_overlaps hgs
    (F := nop.atop r) (f := nop) (p := []) (u := []) rfl rfl hsettled rfl (.same (.inl rfl))
    (.same (.inl rfl))
  rw [hst] at hfold
  -- the values that the row has, as a composition
  obtain ⟨val, z, hruns, hconsumed, hsame, hproduced, hsame'⟩ := exists_runs_cells hgs hnodup hfold
  obtain ⟨hunder, -, -⟩ := hruns.performAll hok
  obtain ⟨w, -, hnop, hruns⟩ := hruns
  obtain ⟨q', c', hlast', hq⟩ := hruns.last (F := nop.atop r) (p := []) rfl hnop
  obtain ⟨rfl, rfl⟩ := Kind.concat_stackVar_inj (hlast.symm.trans hlast')
  obtain ⟨-, -, -, t', ht', ho⟩ := outcome_of_performAll_reset (Kind.closed_tidyOver _ _)
    (fun _ hk => hk.1) (tidyOver_joints (tidyOver_row hrow)) hok
  obtain ⟨v, hv⟩ := hstacked.exists_resolveSlots ho hunder.good.toHolds hr
    (by rw [hconsumed, List.length_map])
  have hfirst : (joinAll (Layers.row ((nop, r) :: gs))).consumed = [] ++ [stackVar r] :=
    consumed_foldl_join ..
  replace hlast : (joinAll (Layers.row ((nop, r) :: gs))).produced = q ++ [stackVar c] := hlast
  have himpure : (joinAll (Layers.row ((nop, r) :: gs))).impure = e.impure := by
    rw [impure_joinAll, impure_of_foldlM hfold, Layers.row, List.any_map, List.any_map]
    rfl
  refine ⟨e, t', v, hfold, ht', ?_⟩
  rw [resolveEffect, Effect.resolve, hfirst, hv r _ [] (val r) hr rfl hsame, hlast,
    hv c _ q z hc hq hsame', himpure, ← hconsumed, ← hproduced]
  rfl

end Store

/-! ## Passes over such a row -/

namespace Session

open Effect

variable {s : Session} {fs : List Effect}

/-- One name is drawn for each effect, for the stack that it is above. -/
theorem length_drawn_of_concrete (hfs : ∀ f ∈ fs, f.kind.concrete = true) :
    ((nop :: fs).flatMap drawn).length = fs.length + 1 := by
  have hall : ∀ f ∈ nop :: fs, f.kind.concrete = true := List.forall_mem_cons.2 ⟨rfl, hfs⟩
  have hdrawn : (nop :: fs).flatMap drawn = (nop :: fs).map fun _ => Infer.restName := by
    rw [List.map_eq_flatMap]
    refine List.flatMap_congr fun f hf => ?_
    rw [drawn, bases_of_concrete (hall f hf), padding, isOpen_of_concrete (hall f hf)]
    rfl
  rw [hdrawn, List.length_map, List.length_cons]

/-- The row that a pass works on has the effects above stacks of different names. -/
theorem exists_row (hfs : ∀ f ∈ fs, f.kind.concrete = true) (hcount : fs.length < 2 ^ 64) :
    ∃ r gs, s.row fs = Layers.row ((nop, r) :: gs) ∧ gs.map Prod.fst = fs ∧
      (r :: gs.map Prod.snd).Nodup := by
  have hall : ∀ f ∈ nop :: fs, f.kind.concrete = true := List.forall_mem_cons.2 ⟨rfl, hfs⟩
  have hready : List.Forall₂ ReadyAs (nop :: fs) ((nop :: fs).map (·.atop Infer.restName)) :=
    List.forall₂_map_right_iff.2 (List.forall₂_same.2 fun f hf =>
      readyAs_atop (oneSorted_of_concrete (hall f hf)) (isOpen_of_concrete (hall f hf))
        (bases_of_concrete (hall f hf) ▸ List.not_mem_nil))
  obtain ⟨names, hcopies, hperm⟩ := Copies.readyAll hready s.begin.fresh
  have hnodup : names.Nodup :=
    hperm.nodup_iff.2 (Fresh.nodup_names (length_drawn_of_concrete hfs ▸ hcount))
  obtain ⟨ps, hps, rfl, hrow⟩ := hcopies.exists_row hall
  obtain ⟨⟨_, r⟩, gs, rfl, rfl, hgs⟩ := List.map_eq_cons_iff.1 hps
  exact ⟨r, gs, hrow, hgs, hnodup⟩

/-- **How a pass over effects without variables ends**: it answers their composition, or is nested too
deep, or they cannot be composed. -/
theorem Idle.ends_concrete (hs : s.Idle) (hstrict : s.store.lenient = false)
    (hfs : ∀ f ∈ fs, f.kind.concrete = true) (hcount : fs.length < 2 ^ 64) :
    Ends (Request.composeAll fs).run s
      (fun f t => overlapAll? s.store.subtyping fs = some f ∧ ∃ v, s.found fs t = f.atop v)
      fun e _ => e = .constraint .tooDeep ∨
        overlapAll? s.store.subtyping fs = none ∧ ∃ m, e = .constraint (.mismatch m) := by
  obtain ⟨r, gs, hrow, rfl, hnodup⟩ := exists_row (s := s) hfs hcount
  have hgs : ∀ g ∈ gs, g.1.kind.concrete = true := List.forall_mem_map.1 hfs
  refine (hs.ends_pass (gs.map Prod.fst)).mono ?_ ?_
  · rintro _ t ⟨rfl, u, u', hu, hu', hasked⟩
    rw [hrow] at hu
    obtain ⟨e, t', v, hall, ht', hfound⟩ :=
      Store.exists_resolved_of_performAll hgs hnodup hstrict hu
    obtain rfl := (EStateM.Result.ok.inj (hu'.symm.trans ht')).2
    have hconcrete : e.kind.concrete = true := concrete_of_foldlM rfl hfs hall
    rw [Store.resolveEffect, ← hasked.solution, ← hrow] at hfound
    rw [found, Store.resolveEffect, hfound, close_generalize_atop hconcrete]
    exact ⟨hall, v, rfl⟩
  · rintro _ t ⟨fault, rfl, hfault | ⟨u, u', hu, hu'⟩⟩
    · rw [hrow] at hfault
      refine (Store.fault_of_performAll hgs hnodup hfault).imp (congrArg _) (And.imp_right ?_)
      exact fun h => h.imp fun _ => congrArg _
    · rw [hrow] at hu
      obtain ⟨-, t', -, -, ht', -⟩ := Store.exists_resolved_of_performAll hgs hnodup hstrict hu
      simp [ht'] at hu'

end Session

/-- **Composing effects without variables is the overlap rule.**  Sizes matter, and nothing is nested too
deep.  Then composing effects made of nominal types and functions succeeds just if they can be composed
from the left by the overlap rule, and answers what they are composed to; and otherwise kinds do not
match. -/
theorem concrete_composition_is_overlap (s : Session) (hs : s.Idle)
    (hstrict : s.store.lenient = false) (fs : List Effect) (hcount : fs.length < 2 ^ 64)
    (hfs : ∀ f ∈ fs, f.kind.concrete = true)
    (hdeep : ∀ t, (Request.composeAll fs).run s ≠ .error (.constraint .tooDeep) t) :
    (∀ f, (∃ t, (Request.composeAll fs).run s = .ok f t) ↔
      Effect.overlapAll? s.store.subtyping fs = some f) ∧
    ((∃ m t, (Request.composeAll fs).run s = .error (.constraint (.mismatch m)) t) ↔
      Effect.overlapAll? s.store.subtyping fs = none) := by
  have hends := hs.ends_concrete hstrict hfs hcount
  cases hrun : (Request.composeAll fs).run s with
  | ok f t =>
    have hall := (hends.ok hrun).1
    refine ⟨fun g => ⟨?_, fun hg => ⟨t, ?_⟩⟩, ?_, ?_⟩
    · rintro ⟨_, ⟨⟩⟩
      exact hall
    · rw [Option.some.inj (hall.symm.trans hg)]
    · rintro ⟨_, _, ⟨⟩⟩
    · intro hnone
      cases hall.symm.trans hnone
  | error e t =>
    obtain ⟨hnone, m, rfl⟩ := (hends.error hrun).resolve_left fun he => hdeep t (he ▸ hrun)
    refine ⟨fun g => ⟨?_, fun hg => ?_⟩, fun _ => hnone, fun _ => ⟨m, t, rfl⟩⟩
    · rintro ⟨_, ⟨⟩⟩
    · cases hnone.symm.trans hg

/-- Every `int` is a `num`: `(num -> bool int)`, `( -> (int -> num))` and `(str bool num (num -> any) -> )`
compose to `(str num -> )`, and `(num -> bool int)` does not compose with `(str -> )`. -/
theorem concrete_composition_is_overlap_three :
    let l : Lattice := ⟨"any", [], [("int", ["num"])]⟩
    let s := Session.start (some l.subtyping) false .silent
    let f : Effect := ⟨[.simple "num"], [.simple "int", .simple "bool"], false⟩
    let fs : List Effect := [f, ⟨[], [.effect [.simple "int"] [.simple "num"] false], false⟩,
      ⟨[.effect [.simple "num"] [.simple "any"] false, .simple "num", .simple "bool", .simple "str"], [],
        true⟩]
    let gs : List Effect := [f, ⟨[.simple "str"], [], false⟩]
    s.Idle ∧ s.store.lenient = false ∧ (∀ g ∈ fs ++ gs, g.kind.concrete = true) ∧
      (∀ hs ∈ [fs, gs], ∀ t, (Request.composeAll hs).run s ≠ .error (.constraint .tooDeep) t) ∧
      (∃ t, (Request.composeAll fs).run s = .ok ⟨[.simple "num", .simple "str"], [], true⟩ t) ∧
      ∃ m t, (Request.composeAll gs).run s = .error (.constraint (.mismatch m)) t := by
  intro l s f fs gs
  have hidle : s.Idle := Session.idle_start .silent
  have hconcrete : ∀ g ∈ fs ++ gs, g.kind.concrete = true := by decide +kernel
  have hends : ∀ hs ∈ [fs, gs], Ends (Request.composeAll hs).run s (fun _ _ => True)
      fun e _ => e ≠ .constraint .tooDeep := by decide +kernel
  have hdeep : ∀ hs ∈ [fs, gs], ∀ t,
      (Request.composeAll hs).run s ≠ .error (.constraint .tooDeep) t :=
    fun hs hmem t ht => (hends hs hmem).error ht rfl
  have hsome : Effect.overlapAll? s.store.subtyping fs =
      some ⟨[.simple "num", .simple "str"], [], true⟩ := by decide +kernel
  have hnone : Effect.overlapAll? s.store.subtyping gs = none := by decide +kernel
  obtain ⟨hfs, hgs⟩ := List.forall_mem_append.1 hconcrete
  obtain ⟨hok, -⟩ := concrete_composition_is_overlap s hidle rfl fs (by decide) hfs
    (hdeep fs List.mem_cons_self)
  obtain ⟨-, hmismatch⟩ := concrete_composition_is_overlap s hidle rfl gs (by decide) hgs
    (hdeep gs (List.mem_cons_of_mem _ List.mem_cons_self))
  exact ⟨hidle, rfl, hconcrete, hdeep, (hok _).2 hsome, hmismatch.2 hnone⟩

end StackEffect
