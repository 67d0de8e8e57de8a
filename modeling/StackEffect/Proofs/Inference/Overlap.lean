import StackEffect.Proofs.Inference.Relation
import StackEffect.Proofs.Unify.Unroll

/-!
# Proofs/Inference/Overlap — composing effects by what overlaps

    (a -> b c) ; (c -> d)        a -> b d           c is produced and consumed
    (a -> c) ; (b c -> d)        b a -> d           b is consumed from below a

Where effects have no variables, the stacks between them overlap from the top, and what is left over of
the one or the other lies below what the composition produces or consumes (`Effect.overlap?`).

What is composed in this way has its slots where the effects of the row have theirs, one after the other
(`Effect.along_moves_of_overlapAll?`).

The stacks between the effects of a row have values, in any notion of them (`Layers.Passes`).  Heights
there always are.  If the effects can be composed, then there are also cells for all slots that are put
and taken (`Layers.passes_of_moves`); and if what the effects of a row produce and consume is settled,
then they can be composed (`Partition.Stacked.exists_overlaps`).
-/

namespace StackEffect

open Kind (slotsConcrete slotsMeet stackVar)

namespace Effect

variable {st : Option Subtyping} {e f g : Effect} {fs : List Effect}

/-! ## The rule -/

/-- **The overlap rule**: what the first effect produces and the second one consumes meets from the top,
as far as both reach.  What the second one consumes beyond that lies below what the first one consumes,
and what the first one produces beyond that lies below what the second one produces. -/
def overlap? (st : Option Subtyping) (f g : Effect) : Option Effect :=
  let m := min f.produced.length g.consumed.length
  if slotsMeet st (f.produced.take m) (g.consumed.take m) then
    some ⟨f.consumed ++ g.consumed.drop m, g.produced ++ f.produced.drop m, f.impure || g.impure⟩
  else none

/-- Composes effects from the left by the overlap rule. -/
def overlapAll? (st : Option Subtyping) (fs : List Effect) : Option Effect :=
  fs.foldlM (overlap? st) nop

/-- **The two cases of the rule**: the first effect produces at least what the second one consumes, or the
second one consumes at least what the first one produces. -/
theorem overlap?_eq_some_iff : f.overlap? st g = some e ↔
    (∃ s t, f.produced = s ++ t ∧ slotsMeet st s g.consumed = true ∧
      e = ⟨f.consumed, g.produced ++ t, f.impure || g.impure⟩) ∨
    ∃ s t, g.consumed = s ++ t ∧ slotsMeet st f.produced s = true ∧
      e = ⟨f.consumed ++ t, g.produced, f.impure || g.impure⟩ := by
  obtain ⟨c, p, i⟩ := f
  obtain ⟨d, q, j⟩ := g
  simp only [overlap?]
  constructor
  · intro h
    split at h
    · next hmeet =>
      obtain rfl := Option.some.inj h
      rcases Nat.le_total d.length p.length with hle | hle
      · rw [Nat.min_eq_right hle] at hmeet ⊢
        rw [List.take_length] at hmeet
        refine .inl ⟨_, _, (List.take_append_drop d.length p).symm, hmeet, ?_⟩
        rw [List.drop_length, List.append_nil]
      · rw [Nat.min_eq_left hle] at hmeet ⊢
        rw [List.take_length] at hmeet
        refine .inr ⟨_, _, (List.take_append_drop p.length d).symm, hmeet, ?_⟩
        rw [List.drop_length, List.append_nil]
    · cases h
  · rintro (⟨s, t, rfl, hmeet, rfl⟩ | ⟨s, t, rfl, hmeet, rfl⟩)
    · have hlen := Kind.length_eq_of_slotsMeet hmeet
      have hmin : min (s ++ t).length d.length = s.length := by
        rw [List.length_append]
        omega
      rw [hmin, List.take_left, List.drop_left, hlen, List.take_length, List.drop_length,
        if_pos hmeet, List.append_nil]
    · have hlen := Kind.length_eq_of_slotsMeet hmeet
      have hmin : min p.length (s ++ t).length = s.length := by
        rw [List.length_append]
        omega
      rw [hmin, List.take_left, List.drop_left, ← hlen, List.take_length, List.drop_length,
        if_pos hmeet, List.append_nil]

theorem impure_of_overlap? (h : f.overlap? st g = some e) : e.impure = (f.impure || g.impure) := by
  rcases overlap?_eq_some_iff.1 h with ⟨_, _, -, -, rfl⟩ | ⟨_, _, -, -, rfl⟩ <;> rfl

theorem impure_of_foldlM (h : fs.foldlM (overlap? st) f = some e) :
    e.impure = (f.impure || fs.any Effect.impure) := by
  induction fs generalizing f with
  | nil =>
    obtain rfl := Option.some.inj h
    rw [List.any_nil, Bool.or_false]
  | cons g fs ih =>
    obtain ⟨f', hf', h⟩ := Option.bind_eq_some_iff.1 h
    rw [ih h, impure_of_overlap? hf', List.any_cons, Bool.or_assoc]

/-- An effect is without variables if both its stacks are. -/
theorem concrete_kind_iff :
    f.kind.concrete = true ↔ slotsConcrete f.consumed = true ∧ slotsConcrete f.produced = true :=
  Kind.concrete_effect

theorem concrete_of_overlap? (hf : f.kind.concrete = true) (hg : g.kind.concrete = true)
    (h : f.overlap? st g = some e) : e.kind.concrete = true := by
  rw [concrete_kind_iff] at hf hg ⊢
  rcases overlap?_eq_some_iff.1 h with ⟨s, t, hp, -, rfl⟩ | ⟨s, t, hd, -, rfl⟩
  · rw [hp, Kind.slotsConcrete_append] at hf
    exact ⟨hf.1, Kind.slotsConcrete_append.2 ⟨hg.2, hf.2.2⟩⟩
  · rw [hd, Kind.slotsConcrete_append] at hg
    exact ⟨Kind.slotsConcrete_append.2 ⟨hf.1, hg.1.2⟩, hg.2⟩

/-- What is composed of effects without variables has none. -/
theorem concrete_of_foldlM (hf : f.kind.concrete = true) (hfs : ∀ g ∈ fs, g.kind.concrete = true)
    (h : fs.foldlM (overlap? st) f = some e) : e.kind.concrete = true := by
  induction fs generalizing f with
  | nil => exact Option.some.inj h ▸ hf
  | cons g fs ih =>
    rw [List.forall_mem_cons] at hfs
    obtain ⟨f', hf', h⟩ := Option.bind_eq_some_iff.1 h
    exact ih (concrete_of_overlap? hf hfs.1 hf') hfs.2 h

/-! ## Cells along a row -/

/-- **Where the slots of an effect are**: what it consumes is taken from the top of the first cells, and
what it produces is put on top of the others.  The cells below are left alone. -/
def Moves (st : Option Subtyping) (f : Effect) (x z : List (Cell st)) : Prop :=
  ∃ c p y, x = c ++ y ∧ z = p ++ y ∧ c.map Cell.consumed = f.consumed ∧
    p.map Cell.produced = f.produced

variable {x z : List (Cell st)}

theorem moves_nop_iff : nop.Moves st x z ↔ x = z := by
  simp [Moves, nop]

/-- **What is composed by the overlap rule moves as the two effects do**, one after the other. -/
theorem exists_moves_of_overlap? (hf : f.kind.concrete = true) (hg : g.kind.concrete = true)
    (h : f.overlap? st g = some e) (he : e.Moves st x z) :
    ∃ w, f.Moves st x w ∧ g.Moves st w z := by
  rw [concrete_kind_iff] at hf hg
  obtain ⟨c, p, y, rfl, rfl, hc, hp⟩ := he
  rcases overlap?_eq_some_iff.1 h with ⟨s, t, hsplit, hmeet, rfl⟩ | ⟨s, t, hsplit, hmeet, rfl⟩
  · -- the slots `t` that `f` has left stay where they are
    obtain ⟨q, t', rfl, hq, ht⟩ := List.map_eq_append_iff.1 hp
    rw [hsplit, Kind.slotsConcrete_append] at hf
    obtain ⟨m, hm, hm'⟩ := Cell.exists_cells hf.2.1 hg.1 hmeet
    refine ⟨m ++ (t' ++ y), ⟨c, m ++ t', y, rfl, ?_, hc, ?_⟩, m, q, t' ++ y, rfl, ?_, hm', hq⟩
    · rw [List.append_assoc]
    · rw [List.map_append, hm, ht, hsplit]
    · rw [List.append_assoc]
  · -- the slots `t` that `g` takes from below are there from the beginning
    obtain ⟨d, t', rfl, hd, ht⟩ := List.map_eq_append_iff.1 hc
    rw [hsplit, Kind.slotsConcrete_append] at hg
    obtain ⟨m, hm, hm'⟩ := Cell.exists_cells hf.2 hg.1.1 hmeet
    refine ⟨m ++ (t' ++ y), ⟨d, m, t' ++ y, ?_, rfl, hd, hm⟩, m ++ t', p, y, ?_, rfl, ?_, hp⟩
    · rw [List.append_assoc]
    · rw [List.append_assoc]
    · rw [List.map_append, hm', ht, hsplit]

/-- **What is composed from the left moves as the effects do**, one after the other. -/
theorem exists_moves_of_foldlM (hf : f.kind.concrete = true)
    (hfs : ∀ g ∈ fs, g.kind.concrete = true) (h : fs.foldlM (overlap? st) f = some e)
    (he : e.Moves st x z) : ∃ w, f.Moves st x w ∧ Along (Moves st) fs w z := by
  induction fs generalizing f with
  | nil => exact ⟨z, Option.some.inj h ▸ he, rfl⟩
  | cons g fs ih =>
    rw [List.forall_mem_cons] at hfs
    obtain ⟨f', hf', h⟩ := Option.bind_eq_some_iff.1 h
    obtain ⟨w, hw, hrest⟩ := ih (concrete_of_overlap? hf hfs.1 hf') hfs.2 h
    obtain ⟨y, hy, hg⟩ := exists_moves_of_overlap? hf hfs.1 hf' hw
    exact ⟨y, hy, w, hg, hrest⟩

/-- **What a row is composed to moves as the row does.** -/
theorem along_moves_of_overlapAll? (hfs : ∀ f ∈ fs, f.kind.concrete = true)
    (h : overlapAll? st fs = some e) (he : e.Moves st x z) : Along (Moves st) fs x z := by
  obtain ⟨w, hw, hrest⟩ := exists_moves_of_foldlM rfl hfs h he
  obtain rfl := moves_nop_iff.1 hw
  exact hrest

/-- Cells for the slots of an effect, in which the same is put and taken. -/
theorem exists_moves (he : e.kind.concrete = true) : ∃ x z : List (Cell st), e.Moves st x z ∧
    x.map Cell.produced = e.consumed ∧ x.map Cell.consumed = e.consumed ∧
    z.map Cell.produced = e.produced ∧ z.map Cell.consumed = e.produced := by
  obtain ⟨hc, hp⟩ := concrete_kind_iff.1 he
  obtain ⟨x, hx, hx'⟩ : ∃ x : List (Cell st), _ := Cell.exists_cells hc hc (Kind.slotsMeet_self _)
  obtain ⟨z, hz, hz'⟩ : ∃ z : List (Cell st), _ := Cell.exists_cells hp hp (Kind.slotsMeet_self _)
  exact ⟨x, z, ⟨x, z, [], (List.append_nil x).symm, (List.append_nil z).symm, hx', hz⟩, hx, hx', hz, hz'⟩

end Effect

/-! ## Values along a row -/

namespace Layers

variable {st : Option Subtyping} {clash : Prop} {D : Layers st clash} {val val' : String → D.Value}
  {f g : Effect} {fs : List Effect} {gs : List (Effect × String)} {x z : D.Value}

section

variable (D) (val)

/-- Effects lead from a value to a value: each one takes slots from a value and puts others on what is
left. -/
def Passes : List Effect → D.Value → D.Value → Prop
  | [], x, z => x = z
  | f :: fs, x, z => ∃ y w, D.Piled f.consumed x y ∧ D.Piled f.produced w y ∧ Passes fs w z

/-- The same for effects with names for what they leave alone. -/
def Runs : List (Effect × String) → D.Value → D.Value → Prop
  | [], x, z => x = z
  | g :: gs, x, z => ∃ w, D.Piled g.1.consumed x (val g.2) ∧ D.Piled g.1.produced w (val g.2) ∧
      Runs gs w z

end

theorem Runs.congr (h : D.Runs val gs x z) (hval : ∀ g ∈ gs, val' g.2 = val g.2) :
    D.Runs val' gs x z := by
  induction gs generalizing x with
  | nil => exact h
  | cons g gs ih =>
    rw [List.forall_mem_cons] at hval
    obtain ⟨w, hc, hp, h⟩ := h
    rw [← hval.1] at hc hp
    exact ⟨w, hc, hp, ih h hval.2⟩

/-- Different names can be given the values of what is left alone. -/
theorem Passes.exists_runs (h : D.Passes (gs.map Prod.fst) x z) (hnodup : (gs.map Prod.snd).Nodup) :
    ∃ val, D.Runs val gs x z := by
  induction gs generalizing x with
  | nil => exact ⟨fun _ => x, h⟩
  | cons g gs ih =>
    obtain ⟨y, w, hc, hp, h⟩ := h
    rw [List.map_cons, List.nodup_cons] at hnodup
    obtain ⟨val, hval⟩ := ih h hnodup.2
    refine ⟨Function.update val g.2 y, w, ?_, ?_, hval.congr fun g' hg' => ?_⟩
    · rwa [Function.update_self]
    · rwa [Function.update_self]
    · refine Function.update_of_ne (fun heq => hnodup.1 ?_) _ _
      exact heq ▸ List.mem_map_of_mem hg'

/-- The effects of a row, each above the stack that it leaves alone. -/
def row (gs : List (Effect × String)) : List Effect := gs.map fun g => g.1.atop g.2

/-- **What one effect of a row produces has the value that the next one consumes.** -/
theorem Runs.relates (h : D.Runs val gs x z) :
    ∀ c ∈ Effect.joints (row gs), c.Relates (D.Par val) := by
  induction gs generalizing x with
  | nil => exact fun _ hc => absurd hc List.not_mem_nil
  | cons g gs ih =>
    obtain ⟨w, -, hp, h⟩ := h
    cases gs with
    | nil => exact fun _ hc => absurd hc List.not_mem_nil
    | cons g' gs =>
      have hrest := ih h
      obtain ⟨_, hc, -⟩ := h
      exact List.forall_mem_cons.2 ⟨.inl ⟨_, _, _, _, w, rfl, rfl, hp, hc⟩, hrest⟩

/-! ### Heights -/

/-- **Heights there always are.** -/
theorem exists_passes_heights (hfs : ∀ f ∈ fs, f.kind.concrete = true) (x : ℤ) :
    ∃ z : ℤ, (heights st).Passes fs x z := by
  induction fs generalizing x with
  | nil => exact ⟨x, rfl⟩
  | cons f fs ih =>
    rw [List.forall_mem_cons, Effect.concrete_kind_iff] at hfs
    let y := x - f.consumed.length
    obtain ⟨z, hz⟩ := ih hfs.2 (y + f.produced.length)
    exact ⟨z, y, (y + f.produced.length : ℤ),
      piled_heights_iff.2 ⟨hfs.1.1, (Int.sub_add_cancel ..).symm⟩,
      piled_heights_iff.2 ⟨hfs.1.2, rfl⟩, hz⟩

theorem exists_runs_heights (hgs : ∀ g ∈ gs, g.1.kind.concrete = true)
    (hnodup : (gs.map Prod.snd).Nodup) :
    ∃ (height : String → ℤ) (x z : ℤ), (heights st).Runs height gs x z := by
  obtain ⟨z, hz⟩ := exists_passes_heights (List.forall_mem_map.2 hgs) 0
  obtain ⟨height, hruns⟩ := hz.exists_runs hnodup
  exact ⟨height, 0, z, hruns⟩

/-! ### Cells -/

/-- Cells are values: an effect that moves takes slots from them and puts others on what is left. -/
theorem passes_of_moves {x z : List (Cell st)} (h : Effect.Along (Effect.Moves st) fs x z) :
    (cells st).Passes fs x z := by
  induction fs generalizing x with
  | nil => exact h
  | cons f fs ih =>
    obtain ⟨_, ⟨c, p, y, rfl, rfl, hc, hp⟩, h⟩ := h
    refine ⟨y, p ++ y, ?_, ?_, ih h⟩
    · rw [← hc]
      exact piled_consumed c y
    · rw [← hp]
      exact piled_produced p y

end Layers

/-! ## Rows whose joints are settled -/

namespace Partition.Stacked

variable {P : Partition} {height : String → ℤ} {gs : List (Effect × String)} {F f : Effect}
  {p u : Stack} {r a b : String}

/-- **Effects whose joints are settled can be composed.**  What the composition consumes and produces is
what the variables below the first and the last effect unroll to. -/
theorem exists_overlaps (h : P.Stacked height) (hgs : ∀ g ∈ gs, g.1.kind.concrete = true)
    (hF : F.produced = p ++ [stackVar a]) (hp : slotsConcrete p = true)
    (hjoints : ∀ c ∈ Effect.joints (F :: Layers.row gs), c.Relates P.Settled)
    (hf : f.produced = p ++ u) (hr : P.Unrolls r f.consumed b) (ha : P.Unrolls a u b) :
    ∃ e q v c d, (gs.map Prod.fst).foldlM (Effect.overlap? P.subtyping) f = some e ∧
      ((Layers.row gs).foldl Effect.join F).produced = q ++ [stackVar c] ∧ e.produced = q ++ v ∧
      P.Unrolls r e.consumed d ∧ P.Unrolls c v d := by
  induction gs generalizing F f p u a b with
  | nil => exact ⟨f, p, u, a, b, rfl, hF, hf, hr, ha⟩
  | cons g gs ih =>
    rw [List.forall_mem_cons, Effect.concrete_kind_iff] at hgs
    obtain ⟨⟨hd, hq⟩, hgs⟩ := hgs
    obtain ⟨hjoint, hjoints⟩ := List.forall_mem_cons.1 hjoints
    have hsettled : P.Settled (p ++ [stackVar a]) (g.1.consumed ++ [stackVar g.2]) := hF ▸ hjoint
    have hrest : ∀ c ∈ Effect.joints (F.join (g.1.atop g.2) :: Layers.row gs),
        c.Relates P.Settled := by rwa [Effect.joints_join]
    have hstep : ∃ f' v d, f.overlap? P.subtyping g.1 = some f' ∧ f'.produced = g.1.produced ++ v ∧
        P.Unrolls r f'.consumed d ∧ P.Unrolls g.2 v d := by
      rcases h.overlap ha hp hd hsettled with ⟨s, t, hsplit, hmeet, ht⟩ | ⟨s, t, hsplit, hmeet, ht⟩
      · exact ⟨_, t, b, Effect.overlap?_eq_some_iff.2 (.inl ⟨s, t, hf.trans hsplit, hmeet, rfl⟩), rfl,
          hr, ht⟩
      · exact ⟨_, [], g.2, Effect.overlap?_eq_some_iff.2 (.inr ⟨s, t, hsplit, hf ▸ hmeet, rfl⟩),
          (List.append_nil _).symm, hr.trans ht, .same (.inl rfl)⟩
    obtain ⟨f', v, d, hf', hprod, hr', hv⟩ := hstep
    obtain ⟨e, q', v', c, d', hfold, hlast⟩ :=
      ih hgs (F := F.join (g.1.atop g.2)) rfl hq hrest hprod hr' hv
    refine ⟨e, q', v', c, d', ?_, hlast⟩
    rw [List.map_cons, List.foldlM_cons, hf']
    exact hfold

end Partition.Stacked

end StackEffect
