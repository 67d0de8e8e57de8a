import Mathlib.Data.Finset.Card
import StackEffect.Proofs.Unify.Unseen

/-!
# Proofs/Unify/Watched — no loop is cut short

    Watching late        a store; a loop whose turns are used up before it has ended does `late`

There are four loops: links are followed to a root, the links on the way are shortened, members of a
class are met one by one, and members of an absorbed class are taken one by one, by joins that may
change both classes.  Each may take only so many turns.  Whatever is done about a loop that has not
ended by then, operations do the same (`Store.Orderly.performOr_eq`): every loop ends by itself, and
the turns are never used up.
-/

namespace StackEffect

open Store

/-- **A store whose loops are watched.** -/
structure Watching (late : Pass Unit) where
  store : Store

namespace Watching

variable {late : Pass Unit}

instance : Site (Watching late) where
  store w := w.store
  change f w := ⟨f w.store⟩
  late w := match late w.store with
    | .ok _ s => .ok () ⟨s⟩
    | .error e s => .error e ⟨s⟩

/-- The store that is watched is the other store. -/
def Holds (w : Watching late) (s : Store) : Prop := s = w.store

end Watching

/-- A step on a store whose loops are watched. -/
abbrev Watched (late : Pass Unit) := EStateM Fault (Watching late)

/-! ## Links -/

/-- How many classes are not linked to their roots. -/
def Store.detours (s : Store) : Nat :=
  ((Finset.range s.parents.size).filter fun i => s.parent i ≠ s.root i).card

/-- A class that is linked to its root leaves one detour less. -/
theorem Store.detours_link {s : Store} {id root : Nat} (h : s.partition.Shaped)
    (hroot : s.root id = root) (hup : s.parent id ≠ root) (hid : id < s.parents.size) :
    (s.link id root).detours < s.detours := by
  have hshort : s.Shortened (s.link id root) := hroot ▸ shortened_link h hid
  have hsize : (s.link id root).parents.size = s.parents.size := Array.size_setIfInBounds
  rw [detours, detours, hsize, hshort.root]
  refine Finset.card_lt_card (Finset.ssubset_iff_of_subset ?_ |>.2 ⟨id, ?_, ?_⟩)
  · intro i hi
    rw [Finset.mem_filter, parent_link hid] at hi
    rw [Finset.mem_filter]
    refine ⟨hi.1, ?_⟩
    split at hi
    · next hii => exact absurd (hii ▸ hroot.symm) hi.2
    · exact hi.2
  · exact Finset.mem_filter.2 ⟨Finset.mem_range.2 hid, hroot.symm ▸ hup⟩
  · rw [Finset.mem_filter, parent_link hid, if_pos rfl]
    exact fun hi => hi.2 hroot.symm

namespace Watching

variable {late : Pass Unit} {s : Store} {id root turns : Nat}

/-- Links are followed to a root before the turns are used up. -/
theorem climb (h : s.parent (follow s.parents turns id) = follow s.parents turns id) :
    Alike (Site.climb turns id : Watched late Nat) ⟨s⟩ (Site.climb turns id : Pass Nat) s Holds := by
  induction turns generalizing id with
  | zero =>
    have hid : s.parent id = id := h
    refine .of_look ?_
    change Alike (if s.parent id = id then _ else _) _ (if s.parent id = id then _ else _) s _
    rw [if_pos hid, if_pos hid]
    exact .of_ok rfl rfl rfl
  | succ turns ih =>
    refine .of_look ?_
    change Alike (if s.parent id = id then _ else _) _ (if s.parent id = id then _ else _) s _
    split
    · exact .of_ok rfl rfl rfl
    · next hup =>
      have hfollow : follow s.parents (turns + 1) id = follow s.parents turns (s.parent id) :=
        if_neg hup
      exact ih (hfollow ▸ h)

/-- All links on the way are shortened before the turns are used up: there is one detour less with
each turn. -/
theorem shorten (h : s.partition.Shaped) (hroot : s.root id = root) (hturns : s.detours ≤ turns) :
    Alike (Site.shorten root turns id : Watched late Unit) ⟨s⟩ (Site.shorten root turns id : Pass Unit)
      s Holds := by
  have hlt : ∀ {s : Store} {id}, s.root id = root → s.parent id ≠ root → id < s.parents.size := by
    intro s id hroot hup
    by_contra hge
    have hge := Nat.le_of_not_lt hge
    exact hup ((parent_of_size_le hge).trans ((root_of_size_le hge).symm.trans hroot))
  induction turns generalizing s id with
  | zero =>
    have hup : s.parent id = root := by
      by_contra hup
      have hmem : id ∈ (Finset.range s.parents.size).filter fun i => s.parent i ≠ s.root i :=
        Finset.mem_filter.2 ⟨Finset.mem_range.2 (hlt hroot hup), hroot.symm ▸ hup⟩
      exact Nat.ne_of_gt (Finset.card_pos.2 ⟨id, hmem⟩) (Nat.le_zero.1 hturns)
    refine .of_look ?_
    change Alike (if s.parent id = root then _ else _) _ (if s.parent id = root then _ else _) s _
    rw [if_pos hup, if_pos hup]
    exact .of_ok rfl rfl rfl
  | succ turns ih =>
    refine .of_look ?_
    change Alike (if s.parent id = root then _ else _) _ (if s.parent id = root then _ else _) s _
    split
    · exact .of_ok rfl rfl rfl
    · next hup =>
      have hid := hlt hroot hup
      have hshort : s.Shortened (s.link id root) := hroot ▸ shortened_link h hid
      have hless := detours_link h hroot hup hid
      have hroot' : (s.link id root).root (s.parent id) = root := by
        rw [hshort.root]
        exact (Forest.root_parent h.rooted id).trans hroot
      exact ih (hshort.partition.symm ▸ h) hroot' (Nat.le_of_lt_succ (hless.trans_le hturns))

theorem find (h : s.partition.Shaped) (id : Nat) :
    Alike (Site.find id : Watched late Nat) ⟨s⟩ (Site.find id : Pass Nat) s Holds := by
  have hroot : s.parent (s.root id) = s.root id :=
    (Forest.parent_eq_iff h.rooted).2 (h.root_root id)
  have hturns : s.detours ≤ s.parents.size :=
    (Finset.card_filter_le _ _).trans (Finset.card_range _).le
  refine .of_look ((climb hroot).bind_ends (E := fun _ _ => True)
    (Site.ends_climb_iff (Q := fun r u => r = s.root id ∧ u = s).2 ⟨rfl, rfl⟩) ?_)
  rintro _ w _ rfl ⟨rfl, rfl⟩
  exact (shorten h rfl hturns).bind (fun _ w _ hw => .of_ok rfl rfl hw) fun _ _ hw => hw

theorem classOf (h : s.partition.Shaped) (name : String) :
    Alike (Site.classOf name : Watched late _) ⟨s⟩ (Site.classOf name : Pass _) s Holds := by
  have hstore : Site.store (⟨s⟩ : Watching late) = Site.store s := rfl
  refine .of_look ?_
  rw [hstore]
  cases (Site.store s).index[name]? with
  | none => exact .of_ok rfl rfl rfl
  | some id =>
    refine (find h id).bind (fun root w _ hw => ?_) fun _ _ hw => hw
    cases hw
    exact .of_ok rfl rfl rfl

/-- Watching goes unseen. -/
theorem unseen (late : Pass Unit) : Unseen (Holds : Watching late → Store → Prop) where
  akin h := h ▸ .refl _
  find h ht id := by cases h; exact find ht id
  classOf h ht name := by cases h; exact classOf ht name
  change _ h _ := by cases h; rfl

end Watching

/-! ## Operations -/

namespace Store

/-- Performs an operation; a loop whose turns are used up before it has ended does `late`. -/
def Operation.performOr (late : Pass Unit) (o : Operation) : Pass Unit := fun s =>
  forget (o.perform (⟨s⟩ : Watching late))

/-- **No loop is cut short**: nothing depends on what is done about one that is. -/
theorem Orderly.performOr_eq {s : Store} (h : s.Orderly) (late : Pass Unit) (o : Operation) :
    o.performOr late s = o.perform s :=
  ((Watching.unseen late).perform rfl h o).forget_eq

end Store

end StackEffect
