import StackEffect.Proofs.Unify.Alongside

/-!
# Proofs/Unify/Relabel — unifying does not look at names

    s ──unify v w──▸ s'
    │ρ               │ρ
    t ──unify ρv ρw─▸ t'

Names are compared for equality and for nothing else.  Two stores that differ only by a permutation of
names still do when both take the same step, with the same names replaced in what is handed in; and
the one step fails just if the other does.
-/

namespace StackEffect

namespace Store.Relabeled

variable {ρ : Equiv.Perm String} {s t : Store}

/-! ## Single steps -/

/-- Notes may be in other words. -/
theorem note (h : s.Relabeled ρ t) (line line' : Unit → String) :
    (s.note line).Relabeled ρ (t.note line') := by
  unfold Store.note
  split <;> split <;> exact { h with }

/-- A name that is settled in a class is settled there under its new name. -/
theorem settle (h : s.Relabeled ρ t) (n : String) (id : Nat) :
    (s.settle n id).Relabeled ρ (t.settle (ρ n) id) :=
  { h with
    index := fun m => by
      rw [Store.settle, Store.settle, Store.index_insert, Store.index_insert, h.index]
      simp only [ρ.injective.eq_iff] }

theorem register (h : s.Relabeled ρ t) (n : String) (id : Nat) :
    (s.register n id).Relabeled ρ (t.register (ρ n) id) :=
  { h.settle n id with
    names := by rw [Store.register, Store.register, h.names, Array.map_push] }

/-- The class of a new name has the same number on both sides. -/
theorem registerNew (h : s.Relabeled ρ t) (n : String) :
    (s.registerNew n).Relabeled ρ (t.registerNew (ρ n)) := by
  unfold Store.registerNew
  rw [h.size_members]
  have hpush : ({ s with
      members := s.members.push #[], parents := s.parents.push s.members.size } : Store).Relabeled ρ
      { t with members := t.members.push #[], parents := t.parents.push s.members.size } :=
    { h with
      members := by rw [h.members, Array.map_push, Array.map_empty]
      parents := by rw [h.parents] }
  exact hpush.register n s.members.size

/-- A member is added under new names. -/
theorem append (h : s.Relabeled ρ t) (id : Nat) (k : Kind) :
    (s.append id k).Relabeled ρ (t.append id (k.relabel ρ)) :=
  { h with
    members := by
      rw [Store.append, Store.append, h.members]
      refine Array.ext_getElem? fun i => ?_
      simp only [Array.getElem?_modify, Array.getElem?_map, Option.map_map]
      split
      · cases s.members[i]? <;> simp
      · rfl }

theorem link (h : s.Relabeled ρ t) (id up : Nat) : (s.link id up).Relabeled ρ (t.link id up) :=
  { h with parents := by rw [Store.link, Store.link, h.parents] }

theorem takeFirst (h : s.Relabeled ρ t) (id : Nat) :
    (s.takeFirst id).Relabeled ρ (t.takeFirst id) :=
  { h with
    members := by
      rw [Store.takeFirst, Store.takeFirst, h.members]
      refine Array.ext_getElem? fun i => ?_
      simp only [Array.getElem?_modify, Array.getElem?_map, Option.map_map]
      split
      · cases s.members[i]? <;> simp
      · rfl }

/-- Each single step leaves stores that differ by names. -/
theorem change (h : s.Relabeled ρ t) {f g : Store → Store}
    (hfg : Counterpart ρ .everything f g) : (f s).Relabeled ρ (g t) := by
  cases hfg with
  | link id up => exact h.link id up
  | settle n id => exact h.settle n id
  | register _ id => exact h.register _ id
  | registerNew => exact h.registerNew _
  | append id => exact h.append id _
  | takeFirst id => exact h.takeFirst id
  | absorb _ src dst => exact (h.note _ _).link src dst

end Store.Relabeled

/-- **Two steps on the store go in step** if they answer alike on stores that differ by `ρ`, and leave
such stores. -/
abbrev InStep {α : Type} (ρ : Equiv.Perm String) (p q : Pass α) : Prop :=
  Abreast (Store.Relabeled ρ) (fun _ _ _ _ => True) p q

namespace Store

/-- Stores that differ by names can be called alongside. -/
theorem pairing_relabeled (ρ : Equiv.Perm String) :
    Pairing ρ .everything (fun _ => Relabeled ρ) fun _ _ _ _ _ => True where
  relabeled h := h
  covers {_ c _} _ := Vocabulary.everything_covers c
  change hfg h := h.change hfg
  late _ := .pure
  clash _ _ := trivial
  refuse _ := trivial
  nested hpq := hpq.nested (fun _ _ h => { h with nesting := congrArg (· + 1) h.nesting })
    (fun _ _ h => { h with nesting := congrArg (· - 1) h.nesting }) fun _ _ _ _ _ => trivial

variable {ρ : Equiv.Perm String}

/-- There is room for the same depth on both sides. -/
theorem Relabeled.room {s t : Store} (h : s.Relabeled ρ t) : t.room = s.room := by
  rw [Store.room, Store.room, h.nesting]

theorem inStep_handIn (w : Nat) : InStep ρ (handIn w) (handIn w) :=
  .alter fun _ _ hst => { hst with mass := congrArg (· + w) hst.mass }

/-- New names do not change how much a stack weighs. -/
theorem slotsWeight_map (v : Stack) :
    Kind.slotsWeight (v.map (Kind.relabel ρ)) = Kind.slotsWeight v := by
  have := Kind.weight_relabel (ρ := ρ) (k := .stack v)
  rwa [Kind.relabel_stack] at this

/-- **Unifying two stacks does not look at names.** -/
theorem inStep_unifyStacks (v w : Stack) : InStep ρ (unifyStacks v w)
    (unifyStacks (v.map (Kind.relabel ρ)) (w.map (Kind.relabel ρ))) := by
  unfold unifyStacks
  rw [slotsWeight_map, slotsWeight_map]
  refine (inStep_handIn _).seq (.of_look fun s t hst => ?_)
  rw [Site.store_eq, Site.store_eq, hst.mass, hst.room]
  exact ((pairing_relabeled ρ).calls s.mass s.room).equate v w trivial trivial

end Store

end StackEffect
