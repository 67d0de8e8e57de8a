import Mathlib.Data.List.Induction
import Mathlib.Data.List.Perm.Subperm
import StackEffect.Proofs.Inference.Closing
import StackEffect.Proofs.Kind.Address

/-!
# Proofs/Inference/PassThrough — closing takes away what effects pass through, and nothing else

    ('R ('S int -> 'S) 'a -> 'R 'a)   ──close──▸   ((int -> ) 'a -> 'a)

An effect passes through a stack variable that stands at the bottom of both its stacks and nowhere
else (`Kind.PassesThrough`).  Closing counts a name in the whole kind, but takes it away inside:
what is taken away in one place does not change what is taken away in another, and closing again
finds nothing more.
-/

namespace StackEffect

namespace Kind

/-- The stack variable that an effect has at the bottom of both its stacks. -/
def shared? : Kind → Option String
  | effect c p _ => Stack.sharedBottom? c p
  | _ => none

/-- **An effect passes through the stack variable**: the name stands at the bottom of both its
stacks, and nowhere else. -/
def PassesThrough (k : Kind) (a : String) : Prop :=
  ∃ q c p i, k.at? q = some (effect (c ++ [stackVar a]) (p ++ [stackVar a]) i) ∧
    ∀ π, k.OccursAt a π ↔ π = q ++ [(.consumed, c.length)] ∨ π = q ++ [(.produced, p.length)]

/-- The address of the bottom of a stack of an effect that loses its shared bottom. -/
def Dropped (drop : String → Bool) (k : Kind) (π : Address) : Prop :=
  ∃ q l x i a, π = q ++ [(x, i)] ∧ k.at? q = some l ∧ l.shared? = some a ∧ drop a = true ∧
    i + 1 = (l.part x).length

variable {drop : String → Bool} {k l : Kind} {a b n : String} {x : Part} {i : Nat} {π q : Address}

theorem shared?_eq_some_iff : k.shared? = some a ↔
    ∃ c p i, k = effect (c ++ [stackVar a]) (p ++ [stackVar a]) i := by
  constructor
  · intro h
    cases k with
    | effect c p i =>
      obtain ⟨c, p, rfl, rfl⟩ := exists_of_sharedBottom? h
      exact ⟨c, p, i, rfl⟩
    | _ => cases h
  · rintro ⟨c, p, i, rfl⟩
    simp [shared?, Stack.sharedBottom?, Stack.bottom?]

/-! ## Closing at an address -/

theorem part_closeWith (drop : String → Bool) (k : Kind) (x : Part) : (k.closeWith drop).part x =
    if k.shared?.any drop then ((k.part x).map (closeWith drop)).dropLast
    else (k.part x).map (closeWith drop) := by
  cases k with
  | stack s =>
    rw [closeWith, closeSlots_eq_map]
    cases x <;> rfl
  | effect c p i =>
    rw [closeWith, closeSlots_eq_map, closeSlots_eq_map, shared?]
    split <;> cases x <;> rfl
  | _ => cases x <;> rfl

/-- **One slot of a stack**: it is closed, unless it is the bottom that goes. -/
theorem getElem?_part_closeWith : ((k.closeWith drop).part x)[i]? =
    if k.shared?.any drop ∧ i + 1 = (k.part x).length then none
    else (k.part x)[i]?.map (closeWith drop) := by
  rw [part_closeWith]
  cases k.shared?.any drop with
  | false => simp
  | true =>
    simp only [true_and, if_true, List.getElem?_dropLast, List.length_map, List.getElem?_map]
    split <;> split <;> first | rfl | omega | skip
    rw [List.getElem?_eq_none (by omega)]
    rfl

/-- The shared bottom stands at the bottom of either stack. -/
theorem at?_bottom (hl : k.at? q = some l) (ha : l.shared? = some a)
    (hi : i + 1 = (l.part x).length) : k.at? (q ++ [(x, i)]) = some (stackVar a) := by
  obtain ⟨c, p, j, rfl⟩ := shared?_eq_some_iff.1 ha
  rw [at?_concat, hl]
  cases x with
  | slots => cases hi
  | _ =>
    rw [part, List.length_append] at hi
    obtain rfl := Nat.succ.inj hi
    simp [part]

theorem Dropped.exists_stackVar (h : Dropped drop k π) :
    ∃ a, drop a = true ∧ k.at? π = some (stackVar a) := by
  obtain ⟨q, l, x, i, a, rfl, hl, ha, hdrop, hi⟩ := h
  exact ⟨a, hdrop, at?_bottom hl ha hi⟩

/-- **What closing leaves at an address**: nothing if it is dropped, and what was there if not. -/
theorem at?_closeWith (drop : String → Bool) (k : Kind) (π : Address) :
    (Dropped drop k π → (k.closeWith drop).at? π = none) ∧
      (¬ Dropped drop k π → (k.closeWith drop).at? π = (k.at? π).map (closeWith drop)) := by
  induction π using List.reverseRecOn with
  | nil =>
    refine ⟨?_, fun _ => rfl⟩
    rintro ⟨q, _, _, _, _, h, _⟩
    simp at h
  | append_singleton q e ih =>
    obtain ⟨x, i⟩ := e
    rw [at?_concat, at?_concat]
    by_cases hq : Dropped drop k q
    · -- nothing stands below a stack variable
      obtain ⟨a, -, ha⟩ := hq.exists_stackVar
      rw [ih.1 hq, ha]
      exact ⟨fun _ => rfl, fun _ => rfl⟩
    · rw [ih.2 hq]
      cases hl : k.at? q with
      | none => exact ⟨fun _ => rfl, fun _ => rfl⟩
      | some l =>
        have hiff : Dropped drop k (q ++ [(x, i)]) ↔
            l.shared?.any drop = true ∧ i + 1 = (l.part x).length := by
          constructor
          · rintro ⟨q', l', x', i', a, h, hl', ha, hdrop, hi⟩
            obtain ⟨rfl, he⟩ := List.append_inj' h rfl
            cases he
            obtain rfl := Option.some.inj (hl.symm.trans hl')
            exact ⟨by rw [ha]; exact hdrop, hi⟩
          · rintro ⟨hany, hi⟩
            obtain ⟨a, ha, hdrop⟩ := (Option.any_eq_true _ _).1 hany
            exact ⟨q, l, x, i, a, rfl, hl, ha, hdrop, hi⟩
        rw [hiff]
        change (_ → ((l.closeWith drop).part x)[i]? = none) ∧
          (_ → ((l.closeWith drop).part x)[i]? = (l.part x)[i]?.map (closeWith drop))
        rw [getElem?_part_closeWith]
        exact ⟨fun h => if_pos h, fun h => if_neg h⟩

theorem head_closeWith : (k.closeWith drop).head = k.head := by
  cases k with
  | effect c p i =>
    rw [closeWith]
    split <;> rfl
  | _ => rfl

theorem varName?_closeWith : (k.closeWith drop).varName? = k.varName? := by
  rw [← varName?_head, head_closeWith, varName?_head]

/-! ## Names that occur twice -/

/-- **A name at the bottom of both stacks of an effect occurs twice if it occurs nowhere else.** -/
theorem occurrences_eq_two_iff {c p : Stack} {b : Bool}
    (h : k.at? q = some (effect (c ++ [stackVar a]) (p ++ [stackVar a]) b)) :
    k.occurrences a = 2 ↔ ∀ π, k.OccursAt a π ↔
      π = q ++ [(.consumed, c.length)] ∨ π = q ++ [(.produced, p.length)] := by
  have hbottom : ∀ x i, i + 1 = ((effect (c ++ [stackVar a]) (p ++ [stackVar a]) b).part x).length →
      q ++ [(x, i)] ∈ k.places a := fun x i hi =>
    mem_places.2 ⟨_, at?_bottom h (shared?_eq_some_iff.2 ⟨c, p, b, rfl⟩) hi, rfl⟩
  have hnodup : [q ++ [(.consumed, c.length)], q ++ [(.produced, p.length)]].Nodup := by simp
  constructor
  · intro htwo π
    have hsub : [q ++ [(.consumed, c.length)], q ++ [(.produced, p.length)]] ⊆ k.places a :=
      List.forall_mem_cons.2 ⟨hbottom .consumed _ (by simp [part]),
        List.forall_mem_singleton.2 (hbottom .produced _ (by simp [part]))⟩
    have hperm := (hnodup.subperm hsub).perm_of_length_le (by rw [length_places, htwo]; rfl)
    rw [← mem_places, ← hperm.mem_iff]
    simp
  · intro hall
    have hperm := (List.perm_ext_iff_of_nodup (nodup_places k a) hnodup).2 fun π => by
      rw [mem_places, hall π]
      simp
    rw [← length_places, hperm.length_eq]
    rfl

/-- **Closing drops what effects pass through.** -/
theorem dropped_iff : Dropped (fun n => k.occurrences n == 2) k π ↔
    ∃ a, k.PassesThrough a ∧ k.OccursAt a π := by
  constructor
  · rintro ⟨q, l, x, i, a, rfl, hl, ha, htwo, hi⟩
    have hπ : k.OccursAt a (q ++ [(x, i)]) := ⟨_, at?_bottom hl ha hi, rfl⟩
    obtain ⟨c, p, j, rfl⟩ := shared?_eq_some_iff.1 ha
    exact ⟨a, ⟨q, c, p, j, hl, (occurrences_eq_two_iff hl).1 (beq_iff_eq.1 htwo)⟩, hπ⟩
  · rintro ⟨a, ⟨q, c, p, i, hq, hall⟩, hπ⟩
    have htwo := (occurrences_eq_two_iff hq).2 hall
    have hshared : (effect (c ++ [stackVar a]) (p ++ [stackVar a]) i).shared? = some a :=
      shared?_eq_some_iff.2 ⟨c, p, i, rfl⟩
    rcases (hall π).1 hπ with rfl | rfl
    · exact ⟨q, _, .consumed, _, a, rfl, hq, hshared, beq_iff_eq.2 htwo, by simp [part]⟩
    · exact ⟨q, _, .produced, _, a, rfl, hq, hshared, beq_iff_eq.2 htwo, by simp [part]⟩

/-! ## Closing again -/

theorem bottomed_part (h : k.bottomed = true) (x : Part) : slotsBottomed (k.part x) = true := by
  cases k with
  | stack s =>
    cases x with
    | slots => exact h
    | _ => rfl
  | effect c p i =>
    obtain ⟨hc, hp⟩ := Bool.and_eq_true_iff.1 h
    cases x with
    | slots => rfl
    | consumed => exact hc
    | produced => exact hp
  | _ => cases x <;> rfl

theorem bottomed_at? (h : k.bottomed = true) (hl : k.at? π = some l) : l.bottomed = true := by
  induction π generalizing k with
  | nil => exact Option.some.inj hl ▸ h
  | cons e π ih =>
    obtain ⟨m, hm, hl⟩ := Option.bind_eq_some_iff.1 hl
    exact ih ((slotsBottomed_iff.1 (bottomed_part h e.1)).1 m (List.mem_of_getElem? hm)) hl

theorem eq_stackVar_of_closeWith (h : k.closeWith drop = stackVar a) : k = stackVar a := by
  have hhead : k.head = stackVar a := by
    rw [← head_closeWith, h]
    rfl
  cases k <;> first | exact hhead | cases hhead

theorem exists_concat_of_map_closeWith {s t : Stack}
    (h : t ++ [stackVar a] = s.map (closeWith drop)) : ∃ s', s = s' ++ [stackVar a] := by
  obtain ⟨s', m, rfl, -, hm⟩ := List.map_eq_append_iff.1 h.symm
  obtain ⟨l, rfl, hl⟩ := List.map_eq_singleton_iff.1 hm
  rw [eq_stackVar_of_closeWith hl]
  exact ⟨s', rfl⟩

/-- A bottom that the closed effect shares is not dropped: below it there was no other. -/
theorem drop_eq_false_of_shared? (h : k.bottomed = true)
    (ha : (k.closeWith drop).shared? = some a) : drop a = false := by
  obtain ⟨c, p, i, hk⟩ := shared?_eq_some_iff.1 ha
  have hpart := part_closeWith drop k
  rw [hk] at hpart
  cases hdrop : k.shared?.any drop with
  | true =>
    simp only [hdrop, if_true, ← List.map_dropLast] at hpart
    obtain ⟨c', hc'⟩ := exists_concat_of_map_closeWith (hpart .consumed)
    have habove := (slotsBottomed_iff.1 (bottomed_part h .consumed)).2 (stackVar a) (by simp [hc'])
    cases habove
  | false =>
    simp only [hdrop, Bool.false_eq_true, if_false] at hpart
    obtain ⟨c', hc'⟩ := exists_concat_of_map_closeWith (hpart .consumed)
    obtain ⟨p', hp'⟩ := exists_concat_of_map_closeWith (hpart .produced)
    have hshared : k.shared? = some a := by
      cases k with
      | effect c₀ p₀ j => exact shared?_eq_some_iff.2 ⟨c', p', j, congrArg₂ (effect · · j) hc' hp'⟩
      | _ => simp [part] at hc'
    rwa [hshared] at hdrop

/-- **A name that is not dropped occurs where it did.** -/
theorem occursAt_closeWith (hn : drop n = false) :
    (k.closeWith drop).OccursAt n π ↔ k.OccursAt n π := by
  obtain ⟨hnone, hsome⟩ := at?_closeWith drop k π
  by_cases hπ : Dropped drop k π
  · obtain ⟨a, ha, hat⟩ := hπ.exists_stackVar
    have hne : a ≠ n := ne_of_apply_ne drop (by simp [ha, hn])
    simp [OccursAt, hnone hπ, hat, varName?, hne]
  · simp [OccursAt, hsome hπ, varName?_closeWith]

theorem occurrences_closeWith (hn : drop n = false) :
    (k.closeWith drop).occurrences n = k.occurrences n := by
  rw [← length_places, ← length_places]
  refine List.Perm.length_eq ((List.perm_ext_iff_of_nodup (nodup_places _ n) (nodup_places _ n)).2
    fun π => ?_)
  rw [mem_places, mem_places, occursAt_closeWith hn]

/-- **The closed kind passes through nothing.** -/
theorem not_passesThrough_close (h : k.bottomed = true) (a : String) :
    ¬ k.close.PassesThrough a := by
  rintro ⟨q, c, p, i, hq, hall⟩
  have htwo := (occurrences_eq_two_iff hq).2 hall
  have hdropped : ¬ Dropped (fun n => k.occurrences n == 2) k q := fun hd => by
    rw [close, (at?_closeWith _ k q).1 hd] at hq
    cases hq
  rw [close, (at?_closeWith _ k q).2 hdropped] at hq
  obtain ⟨l, hl, hclose⟩ := Option.map_eq_some_iff.1 hq
  have ha := drop_eq_false_of_shared? (bottomed_at? h hl)
    (shared?_eq_some_iff.2 ⟨c, p, i, hclose⟩)
  rw [close, occurrences_closeWith ha] at htwo
  exact absurd htwo (beq_eq_false_iff_ne.1 ha)

theorem head_at?_close (h : ∀ a, k.PassesThrough a → ¬ k.OccursAt a π) :
    (k.close.at? π).map head = (k.at? π).map head := by
  have hdropped : ¬ Dropped (fun n => k.occurrences n == 2) k π := fun hd => by
    obtain ⟨a, ha, hπ⟩ := dropped_iff.1 hd
    exact h a ha hπ
  rw [close, (at?_closeWith _ k π).2 hdropped, Option.map_map]
  exact congrArg (Option.map · _) (funext fun l => head_closeWith)

theorem close_close (h : k.bottomed = true) : k.close.close = k.close :=
  eq_of_head_at? fun _ => head_at?_close fun a ha => absurd ha (not_passesThrough_close h a)

end Kind

/-- **Closing takes away exactly the stack variables that effects pass through.**  In a kind with
stack variables at the bottom of stacks only, and no name of both sorts: where a name stands that
some effect passes through, there is nothing left, and everywhere else stands what stood there.
Closing twice is closing once; closing commutes with new variables of the same sorts, different ones
for different ones; and closing an effect takes away again what is put below its two stacks. -/
theorem closing_deletes_passed_through (k : Kind) (hbottom : k.bottomed = true)
    (hsorts : k.OneSorted) :
    (∀ a, k.PassesThrough a → ∀ π, k.OccursAt a π → k.close.at? π = none) ∧
      (∀ π, (∀ a, k.PassesThrough a → ¬ k.OccursAt a π) →
        (k.close.at? π).map Kind.head = (k.at? π).map Kind.head) ∧
      k.close.close = k.close ∧
      (∀ r, k.Renaming r → (k.subst fun v => (r v).kind).OneSorted →
        (k.subst fun v => (r v).kind).close = k.close.subst fun v => (r v).kind) ∧
      ∀ f : Effect, f.kind = k → f.isOpen = false →
        ∀ a ∉ k.freeVars, (f.atop a).close = f.close := by
  refine ⟨fun a ha π hπ => ?_, fun π => Kind.head_at?_close, Kind.close_close hbottom,
    fun r hr hl => ?_, ?_⟩
  · exact (Kind.at?_closeWith _ k π).1 (Kind.dropped_iff.2 ⟨a, ha, hπ⟩)
  · obtain ⟨ρ, hρ, hrel⟩ := hr.exists_relabel hsorts hl
    have hvars := congrArg Kind.vars hrel
    rw [Kind.vars_subst_var, Kind.vars_relabel, List.map_inj_left] at hvars
    rw [hrel, Kind.close_relabel hρ]
    exact Kind.subst_congr fun v hv => by rw [hvars v (Kind.mem_vars_of_closeWith hv)]
  · rintro f rfl hopen a ha
    exact Effect.close_atop hopen fun hmem => ha (Effect.mem_bases.1 hmem)

/-- Closing `(('S int -> 'S) ('T -> 'T) ('T -> ) -> )` takes away `'S`, but not `'T`, which occurs
once more; not even if the two are exchanged, or if `'R` is put below. -/
theorem closing_deletes_passed_through_inside :
    let f : Effect := ⟨[.effect [.stackVar "'T"] [] false,
      .effect [.stackVar "'T"] [.stackVar "'T"] false,
      .effect [.simple "int", .stackVar "'S"] [.stackVar "'S"] false], [], false⟩
    let r := Var.relabel (Equiv.swap "'S" "'T")
    f.kind.bottomed = true ∧ f.kind.OneSorted ∧ f.kind.PassesThrough "'S" ∧
      f.kind.OccursAt "'S" [(.consumed, 2), (.produced, 0)] ∧
      f.kind.close.at? [(.consumed, 2), (.produced, 0)] = none ∧
      (f.kind.close.at? [(.consumed, 1), (.produced, 0)]).map Kind.head = some (.stackVar "'T") ∧
      f.kind.close.close = f.kind.close ∧
      (f.kind.subst fun v => (r v).kind).close = f.kind.close.subst (fun v => (r v).kind) ∧
      f.isOpen = false ∧ "'R" ∉ f.kind.freeVars ∧ (f.atop "'R").close = f.close := by
  intro f r
  have hbottom : f.kind.bottomed = true := by decide
  have hsorts : f.kind.OneSorted := Kind.oneSorted_of_sort (fun _ => .stack) (by decide)
  have hS : f.kind.PassesThrough "'S" := by
    have hplaces : f.kind.places "'S" =
      [[(.consumed, 2), (.consumed, 1)], [(.consumed, 2), (.produced, 0)]] := by decide
    refine ⟨[(.consumed, 2)], [.simple "int"], [], false, rfl, fun π => ?_⟩
    rw [← Kind.mem_places, hplaces]
    simp
  have hT : ∀ a, f.kind.PassesThrough a → ¬ f.kind.OccursAt a [(.consumed, 1), (.produced, 0)] := by
    rintro a ⟨q, c, p, i, hq, hall⟩ ⟨l, hl, ha⟩
    cases hl
    cases ha
    exact absurd ((Kind.occurrences_eq_two_iff hq).2 hall) (by decide)
  have hr : f.kind.Renaming r := Kind.Separates.renaming (Equiv.injective _).injOn
  have hl : (f.kind.subst fun v => (r v).kind).OneSorted :=
    Kind.oneSorted_of_sort (fun _ => .stack) (by decide +kernel)
  have hat : f.kind.OccursAt "'S" [(.consumed, 2), (.produced, 0)] := ⟨_, rfl, rfl⟩
  obtain ⟨hnone, hsame, hagain, hrename, hatop⟩ :=
    closing_deletes_passed_through f.kind hbottom hsorts
  exact ⟨hbottom, hsorts, hS, hat, hnone _ hS _ hat, hsame _ hT, hagain, hrename r hr hl, by decide,
    by decide, hatop f rfl (by decide) "'R" (by decide)⟩

end StackEffect
