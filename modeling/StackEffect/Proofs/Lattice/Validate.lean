import StackEffect.Lattice.Validate
import StackEffect.Proofs.Digraph
import StackEffect.Proofs.Lattice.Search
import StackEffect.Proofs.Sequence

/-!
# Proofs/Lattice/Validate — the lattices that are valid

    a ⟶ b   in the lattice        ↔        index a ⟶ index b   in the graph that is checked

The graph has a vertex for every declared type and one for the top.  If all supertypes are declared,
the steps of the lattice are the edges of the graph, so that cycles of the one are cycles of the
other.
-/

namespace StackEffect

namespace Lattice

variable {l : Lattice} {a b : String}

/-! ## Types -/

/-- **A name is a type** if it is declared or the top type. -/
def IsType (l : Lattice) (a : String) : Prop := a ∈ Assoc.keys l.types ∨ a = l.top

instance (l : Lattice) (a : String) : Decidable (l.IsType a) := inferInstanceAs (Decidable (_ ∨ _))

theorem mem_typeNames : a ∈ l.typeNames ↔ l.IsType a := by
  unfold typeNames IsType
  dsimp only
  split
  · next htop =>
    have htop' : l.top ∈ Assoc.keys l.types := List.mem_mergeSort.1 (List.contains_iff_mem.1 htop)
    rw [List.mem_mergeSort]
    exact ⟨.inl, fun h => h.elim id fun he => he ▸ htop'⟩
  · rw [List.mem_append, List.mem_mergeSort, List.mem_singleton]

theorem isSome_finIdxOf?_iff : (l.typeNames.finIdxOf? a).isSome ↔ l.IsType a := by
  rw [List.isSome_finIdxOf?, List.contains_iff_mem, mem_typeNames]

theorem mem_keys_of_up (h : l.Up a b) : a ∈ Assoc.keys l.types := by
  obtain ⟨p, hp, -⟩ := h
  unfold supertypes Assoc.get? at hp
  cases hlookup : l.types.lookup a with
  | none =>
    rw [hlookup] at hp
    cases hp
  | some ps =>
    obtain ⟨pre, post, hsplit, -⟩ := List.lookup_eq_some_iff.1 hlookup
    exact List.mem_map.2 ⟨(a, ps), by simp [hsplit], rfl⟩

/-! ## The graph -/

variable {g : Digraph l.typeNames.length}

/-- A graph that can be made has the edges of all types. -/
theorem exists_edges_of_superGraph (hg : l.superGraph = .ok g) :
    ∃ edges, (List.finRange l.typeNames.length).mapM l.superEdges = .ok edges ∧
      g = Digraph.ofEdges _ edges.flatten := by
  unfold superGraph at hg
  cases hedges : (List.finRange l.typeNames.length).mapM l.superEdges with
  | error e =>
    rw [hedges] at hg
    cases hg
  | ok edges =>
    rw [hedges] at hg
    cases hg
    exact ⟨edges, rfl, rfl⟩

/-- **Every step is an edge.** -/
theorem mem_succ_of_up (hg : l.superGraph = .ok g) (h : l.Up a b) :
    ∃ v w, l.typeNames.finIdxOf? a = some v ∧ l.typeNames.finIdxOf? b = some w ∧ w ∈ g.succ v := by
  obtain ⟨v, hv⟩ := Option.isSome_iff_exists.1 (isSome_finIdxOf?_iff.2 (.inl (mem_keys_of_up h)))
  obtain ⟨hname, -⟩ := List.finIdxOf?_eq_some_iff.1 hv
  obtain ⟨p, hp, rfl⟩ := h
  obtain ⟨edges, hedges, rfl⟩ := exists_edges_of_superGraph hg
  obtain ⟨es, hes, hvs⟩ := exists_mem_of_mapM_eq_ok hedges (List.mem_finRange v)
  obtain ⟨e, he, hpe⟩ := exists_mem_of_mapM_eq_ok hvs (by rwa [hname])
  cases hw : l.typeIndex? p with
  | none =>
    rw [hw] at hpe
    cases hpe
  | some w =>
    rw [hw] at hpe
    cases hpe
    exact ⟨v, w, hv, hw, Digraph.mem_succ_ofEdges.2 (List.mem_flatten.2 ⟨es, hes, he⟩)⟩

/-- The name of a vertex. -/
def nameOf (l : Lattice) (v : Fin l.typeNames.length) : String := l.typeNames.get v

/-- **Every edge is a step.** -/
theorem up_of_mem_succ (hg : l.superGraph = .ok g) {v w : Fin l.typeNames.length}
    (h : w ∈ g.succ v) : l.Up (l.nameOf v) (l.nameOf w) := by
  obtain ⟨edges, hedges, rfl⟩ := exists_edges_of_superGraph hg
  obtain ⟨es, hes, hmem⟩ := List.mem_flatten.1 (Digraph.mem_succ_ofEdges.1 h)
  obtain ⟨u, -, hu⟩ := exists_of_mem_mapM_eq_ok hedges hes
  obtain ⟨p, hp, hpe⟩ := exists_of_mem_mapM_eq_ok hu hmem
  cases hw : l.typeIndex? p with
  | none =>
    rw [hw] at hpe
    cases hpe
  | some x =>
    rw [hw] at hpe
    cases hpe
    exact ⟨p, hp, (List.finIdxOf?_eq_some_iff.1 hw).1.symm⟩

/-- The graph can be made if all supertypes lead to types. -/
theorem exists_superGraph
    (h : ∀ name ∈ Assoc.keys l.types, ∀ p ∈ l.supertypes name, l.IsType (l.canonical p)) :
    ∃ g, l.superGraph = .ok g := by
  have hown : ∀ v ∈ List.finRange l.typeNames.length, ∃ own, l.superEdges v = .ok own := by
    intro v _
    refine exists_mapM_eq_ok fun p hp => ?_
    obtain ⟨w, hw⟩ := Option.isSome_iff_exists.1
      (isSome_finIdxOf?_iff.2 (h _ (mem_keys_of_up ⟨p, hp, rfl⟩) p hp))
    exact ⟨(v, w), by rw [typeIndex?, hw]⟩
  obtain ⟨edges, hedges⟩ := exists_mapM_eq_ok hown
  exact ⟨_, by rw [superGraph, hedges]; rfl⟩

/-- **Cycles of steps are cycles of the graph.** -/
theorem exists_cycle_iff (hg : l.superGraph = .ok g) :
    (∃ a, Relation.TransGen l.Up a a) ↔ ∃ c ∈ g.components, g.isCyclic c = true := by
  constructor
  · rintro ⟨a, hcycle⟩
    have hpath : ∀ {a b}, Relation.TransGen l.Up a b → ∃ v w, l.typeNames.finIdxOf? a = some v ∧
        l.typeNames.finIdxOf? b = some w ∧ Relation.TransGen (fun u w => w ∈ g.succ u) v w := by
      intro a b hab
      induction hab with
      | single hstep =>
        obtain ⟨v, w, hv, hw, hvw⟩ := mem_succ_of_up hg hstep
        exact ⟨v, w, hv, hw, .single hvw⟩
      | tail _ hstep ih =>
        obtain ⟨v, w, hv, hw, hvw⟩ := ih
        obtain ⟨w', x, hw', hx, hwx⟩ := mem_succ_of_up hg hstep
        obtain rfl := Option.some.inj (hw.symm.trans hw')
        exact ⟨v, x, hv, hx, hvw.tail hwx⟩
    obtain ⟨v, w, hv, hw, hvw⟩ := hpath hcycle
    obtain rfl := Option.some.inj (hv.symm.trans hw)
    exact Digraph.exists_isCyclic_of_cycle hvw
  · rintro ⟨c, hc, hcyclic⟩
    obtain ⟨v, hv⟩ := Digraph.exists_cycle_of_isCyclic hc hcyclic
    exact ⟨l.nameOf v, hv.lift l.nameOf fun _ _ => up_of_mem_succ hg⟩

/-! ## Validation -/

/-- **A well-declared lattice**: its top type has a name, aliases and supertypes lead to types, and
no steps lead back. -/
structure WellDeclared (l : Lattice) : Prop where
  top_ne : l.top ≠ ""
  alias_type : ∀ e ∈ l.aliases, l.IsType (l.canonical e.2)
  super_type : ∀ name ∈ Assoc.keys l.types, ∀ p ∈ l.supertypes name, l.IsType (l.canonical p)
  acyclic : ∀ a, ¬ Relation.TransGen l.Up a a

/-- What is checked, in turn. -/
theorem validate_eq_ok_iff : l.validate = .ok () ↔
    l.top ≠ "" ∧ l.aliases.find? (fun e => (l.typeIndex? e.2).isNone) = none ∧
      ∃ g, l.superGraph = .ok g ∧ g.components.find? g.isCyclic = none := by
  unfold validate
  by_cases htop : l.top = ""
  · rw [if_pos htop]
    refine ⟨fun h => ?_, fun h => absurd htop h.1⟩
    cases h
  rw [if_neg htop]
  cases l.aliases.find? fun e => (l.typeIndex? e.2).isNone with
  | some e =>
    constructor
    · intro h
      cases h
    · rintro ⟨-, hnone, -⟩
      cases hnone
  | none =>
    cases l.superGraph with
    | error e =>
      constructor
      · intro h
        cases h
      · rintro ⟨-, -, g, hg, -⟩
        cases hg
    | ok g =>
      dsimp only [bind, Except.bind]
      cases hfind : g.components.find? g.isCyclic with
      | none => exact ⟨fun _ => ⟨htop, rfl, g, rfl, hfind⟩, fun _ => rfl⟩
      | some c =>
        have hcyclic := List.find?_some hfind
        constructor
        · intro h
          cases c with
          | nil => cases hcyclic
          | cons v vs => cases h
        · rintro ⟨-, -, g', hg, hnone⟩
          cases hg
          rw [hfind] at hnone
          cases hnone

/-- **A lattice is valid if and only if it is well declared.** -/
theorem validate_iff_wellDeclared : l.validate = .ok () ↔ l.WellDeclared := by
  have hacyclic : ∀ {g}, l.superGraph = .ok g → (g.components.find? g.isCyclic = none ↔
      ∀ a, ¬ Relation.TransGen l.Up a a) := fun {g} hg => by
    rw [List.find?_eq_none, ← not_exists, exists_cycle_iff hg]
    exact ⟨fun h ⟨c, hc, hcyclic⟩ => h c hc hcyclic, fun h c hc hcyclic => h ⟨c, hc, hcyclic⟩⟩
  have halias : l.aliases.find? (fun e => (l.typeIndex? e.2).isNone) = none ↔
      ∀ e ∈ l.aliases, l.IsType (l.canonical e.2) := by
    rw [List.find?_eq_none]
    refine forall₂_congr fun e _ => ?_
    rw [Option.isNone_iff_eq_none, ← ne_eq, Option.ne_none_iff_isSome]
    exact isSome_finIdxOf?_iff
  rw [validate_eq_ok_iff, halias]
  constructor
  · rintro ⟨htop, haliases, g, hg, hfind⟩
    refine ⟨htop, haliases, fun name hname p hp => ?_, (hacyclic hg).1 hfind⟩
    obtain ⟨v, w, -, hw, -⟩ := mem_succ_of_up hg ⟨p, hp, rfl⟩
    exact isSome_finIdxOf?_iff.1 (hw ▸ rfl)
  · intro h
    obtain ⟨g, hg⟩ := exists_superGraph h.super_type
    exact ⟨h.top_ne, h.alias_type, g, hg, (hacyclic hg).2 h.acyclic⟩

/-- A lattice is valid if aliases and supertypes lead to types, and supertypes down a rank. -/
theorem validate_of_rank (rank : String → Nat)
    (h : l.top ≠ "" ∧ (∀ e ∈ l.aliases, l.IsType (l.canonical e.2)) ∧
      ∀ name ∈ Assoc.keys l.types, ∀ p ∈ l.supertypes name,
        l.IsType (l.canonical p) ∧ rank (l.canonical p) < rank name) : l.validate = .ok () := by
  obtain ⟨htop, halias, hsuper⟩ := h
  have hdown : ∀ {a b}, Relation.TransGen l.Up a b → rank b < rank a := by
    have hstep : ∀ {a b}, l.Up a b → rank b < rank a := fun {a b} hup => by
      have hkey := mem_keys_of_up hup
      obtain ⟨p, hp, rfl⟩ := hup
      exact (hsuper a hkey p hp).2
    intro a b hab
    induction hab with
    | single hup => exact hstep hup
    | tail _ hup ih => exact Nat.lt_trans (hstep hup) ih
  have hsupers := fun name hname p hp => (hsuper name hname p hp).1
  exact validate_iff_wellDeclared.2
    ⟨htop, halias, hsupers, fun a hcycle => Nat.lt_irrefl _ (hdown hcycle)⟩

end Lattice

end StackEffect
