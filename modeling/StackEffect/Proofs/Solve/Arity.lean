import StackEffect.Proofs.Solve.Agreement

/-!
# Proofs/Solve/Arity — sizes of what the sides of a call are resolved to

    'R = int          the class of 'R gets a slot,  int
    'R = int int      the class of 'R gets a stack, [int int]

A stack of one slot joins a class as that slot, and slots are not compared with stacks.  So a stack
variable may be made equal to stacks of two sizes (`one_variable_of_two_sizes`), even where sizes
matter.  Nothing else goes wrong: sizes agree if and only if no class mixes slots and stacks in this
way (`sizes_agree_iff_unmixed`).
-/

namespace StackEffect

/-! ## Classes that mix slots and stacks -/

/-- **A class is mixed** if one member takes up a slot and another one is a stack that is not
resolved to one slot. -/
def Partition.Mixed (P : Partition) (θ : String → Option Kind) (i : Nat) : Prop :=
  ∃ k ∈ P.members i, k.isSlot = true ∧ ∃ v, Kind.stack v ∈ P.members i ∧
    (Kind.resolveSlots θ v).length ≠ 1

namespace Outcome

variable {sort : String → VarSort} {L : Kind → Prop} {P : Partition} {θ : String → Option Kind}
  {i : Nat} {k r : Kind}

/-- What represents a class with a slot is resolved to one slot, unless the class is mixed. -/
theorem length_rep_eq_one (h : Outcome sort L P θ) (hmix : ¬ P.Mixed θ i) (hr : P.rep i = some r)
    (hk : k ∈ P.members i) (hslot : k.isSlot = true) : (r.resolve θ).asSlots.length = 1 := by
  cases r with
  | typeVar m | stackVar m => rw [h.resolve_rep hr rfl]; rfl
  | stack u =>
    by_contra hu
    exact hmix ⟨k, hk, hslot, u, h.rep_mem hr rfl, hu⟩
  | _ => rfl

/-- Lists of the same length agree if nothing else is seen of them. -/
theorem sameUpTo_of_length {bound : Nat} {x y : List Unit} (h : x.length = y.length) :
    SameUpTo (listWeight fun _ => 0) bound x y :=
  fun _ => List.ext_getElem h fun _ _ _ => rfl

theorem slotsAgree_length (P : Partition) (L : Kind → Prop) (θ : String → Option Kind) :
    SlotsAgree L P θ (fun _ => ()) fun _ => 0 :=
  fun _ _ _ _ _ _ _ _ _ _ => rfl

/-- **Members take up as many slots as their representative**, unless a class is mixed. -/
theorem membersAgree_length (h : Outcome sort L P θ) (hstrict : P.lenient = false)
    (hmix : ∀ i a, P.Names a i → sort a = .stack → ¬ P.Mixed θ i) :
    MembersAgree sort L P θ (fun _ => ()) fun _ => 0 := by
  intro bound hbelow i a hname hsort r k hr hk hne
  replace hmix := hmix i a hname hsort
  have hrank := (h.represents hr).rank_le k hk
  by_cases hslot : k.isSlot = true
  · refine sameUpTo_of_length ?_
    have hk₁ : k.asSlots = [k] := Kind.asSlots_eq_singleton (by rintro v rfl; simp at hslot)
    rw [List.length_map, h.length_rep_eq_one hmix hr hk hslot, hk₁, shown_cons hne]
    rfl
  obtain ⟨v, rfl⟩ : ∃ v, k = .stack v := by
    cases k with
    | stack v => exact ⟨v, rfl⟩
    | stackVar b => exact absurd rfl (hne b)
    | _ => exact absurd rfl hslot
  by_cases hr' : r.isSlot = true
  · refine sameUpTo_of_length ?_
    have hmem := h.rep_mem hr (by cases r <;> simp_all [Kind.rank, Kind.isSimple])
    have hv : (Kind.resolveSlots θ v).length = 1 := by
      by_contra hv
      exact hmix ⟨r, hmem, hr', v, hk, hv⟩
    rw [List.length_map, h.length_rep_eq_one hmix hr hmem hr', shown, List.length_map]
    exact hv.symm
  · obtain ⟨u, rfl⟩ : ∃ u, r = .stack u := by
      cases r with
      | stack u => exact ⟨u, rfl⟩
      | stackVar b => simp [Kind.rank] at hrank
      | _ => exact absurd rfl hr'
    exact h.sameUpTo_of_linked hstrict (slotsAgree_length P L θ) hbelow
      (h.linked i _ _ (h.rep_mem hr rfl) hk trivial)

end Outcome

/-! ## The sides of a call -/

/-- The size of a stack. -/
def Kind.size? : Kind → Option Nat
  | stack v => some v.length
  | _ => none

/-- Stacks of the same size. -/
def Kind.SameSize (k l : Kind) : Prop := k.size?.isSome = true ∧ k.size? = l.size?

instance (k l : Kind) : Decidable (k.SameSize l) := inferInstanceAs (Decidable (_ ∧ _))

theorem Kind.sameSize_stack_iff {v w : Stack} :
    (stack v).SameSize (stack w) ↔ v.length = w.length := by
  simp [SameSize, size?]

namespace Store

/-- A stack that a variable was made equal to: it is in the class of the variable, without the
stacks of one slot around it. -/
def Accepts (s : Store) (a : String) (v : Stack) : Prop := (Kind.stack v).unwrap ∈ s.membersFor a

instance (s : Store) (a : String) (v : Stack) : Decidable (s.Accepts a v) :=
  inferInstanceAs (Decidable (_ ∈ _))

/-- **The class of a variable is mixed** if one member takes up a slot and another one is a stack
that `t` does not resolve to one slot. -/
def Mixed (s t : Store) (a : String) : Prop :=
  ∃ k ∈ s.membersFor a, k.isSlot = true ∧ ∃ v, .stack v ∈ s.membersFor a ∧
    ¬ (t.resolveKind (.stack v)).SameSize (.stack [k])

variable {s t : Store} {a : String} {v : Stack}

theorem Accepts.bound (h : s.Accepts a v) : s.partition.Bound a (.stack v) :=
  .inr (mem_membersFor.1 h)

theorem Mixed.of_partition (hs : s.partition.Shaped) {i : Nat} (ha : s.partition.Names a i)
    (h : s.partition.Mixed (fun n => t.solution[n]?) i) : s.Mixed t a := by
  obtain ⟨j, hj, hji⟩ := ha
  obtain ⟨k, hk, hslot, v, hv, hlen⟩ := h
  have hmem : ∀ k ∈ s.partition.members i, k ∈ s.membersFor a := fun k hk =>
    mem_membersFor.2 ⟨j, hj, hs.members_congr hji ▸ hk⟩
  exact ⟨k, hmem k hk, hslot, v, hmem _ hv, fun hsame => hlen (Kind.sameSize_stack_iff.1 hsame)⟩

/-- **A variable with a mixed class accepts stacks of two sizes.** -/
theorem Mixed.exists_accepts {sort : String → VarSort} {L : Kind → Prop} {θ : String → Option Kind}
    (ho : Outcome sort L s.partition θ) (h : s.Mixed t a) :
    ∃ v w, (Kind.stack v).Tidy sort ∧ (Kind.stack w).Tidy sort ∧ s.Accepts a v ∧ s.Accepts a w ∧
      ¬ (t.resolveKind (.stack v)).SameSize (t.resolveKind (.stack w)) := by
  obtain ⟨k, hk, hslot, w, hw, hlen⟩ := h
  obtain ⟨i, -, hki⟩ := mem_membersFor.1 hk
  obtain ⟨j, -, hwj⟩ := mem_membersFor.1 hw
  have hvar : ∀ b, k ≠ .stackVar b := by rintro b rfl; simp at hslot
  have hfit : k.fitsOn [] = true := by cases k <;> first | rfl | simp at hslot
  have hone : (Kind.stack [k]).unwrap = k := by cases k <;> first | rfl | simp at hslot
  have hunwrap : (Kind.stack w).unwrap = .stack w :=
    Kind.unwrap_eq_self fun slot hw' => ho.unwrapped (hw' ▸ hwj)
  refine ⟨[k], w, Kind.tidy_cons_iff.2 ⟨hfit, ho.tidy (ho.member hki), Kind.tidy_nil⟩,
    ho.tidy (ho.member hwj), by rwa [Accepts, hone], by rwa [Accepts, hunwrap],
    fun hsame => hlen ?_⟩
  have hsize : t.resolveKind (.stack [k]) = .stack [t.resolveKind k] := by
    rw [resolveKind, Kind.resolve, Kind.resolveSlots_cons, Kind.spread_eq_singleton hvar]
    rfl
  rw [hsize] at hsame
  exact Kind.sameSize_stack_iff.2 (Kind.sameSize_stack_iff.1 hsame).symm

end Store

/-- **A stack variable may be of two sizes**: `'R` and `int` are accepted as equal, and so are `'R`
and `int int`, though sizes matter. -/
theorem one_variable_of_two_sizes :
    let pairs : List (Stack × Stack) := [([.stackVar "'R"], [.simple "int"]),
      ([.stackVar "'R"], [.simple "int", .simple "int"])]
    let r := Store.performAll (pairs.map fun p => .onStacks p.1 p.2) (.empty none false .silent)
    (∀ p ∈ pairs, ∀ v ∈ [p.1, p.2], (Kind.stack v).Tidy fun _ => .stack) ∧ r.1 = [] ∧ r.2.Acyclic ∧
      (∀ p ∈ pairs, r.2.Accepts "'R" p.2) ∧ ∃ t, Store.solve r.2 = .ok () t ∧
      ¬ ∀ p ∈ pairs, (t.resolveKind (.stack p.1)).SameSize (t.resolveKind (.stack p.2)) := by
  intro pairs r
  refine ⟨by decide, by decide +kernel,
    Store.acyclic_of_rank id (by decide +kernel), by decide +kernel, ?_⟩
  have hsolve : Ends Store.solve r.2 (fun _ t => ¬ ∀ p ∈ pairs,
      (t.resolveKind (.stack p.1)).SameSize (t.resolveKind (.stack p.2))) fun _ _ => False := by
    decide +kernel
  obtain ⟨_, t, ht, hsizes⟩ := hsolve.exists_ok
  exact ⟨t, ht, hsizes⟩

/-- **Sizes agree if and only if no class mixes slots and stacks.**  The calls are over tidy stacks,
sizes matter, all calls succeed, and no class leads back to itself.  Then both sides of each call
are resolved to stacks of the same size, and so are all stacks that one stack variable was made
equal to, just if no class of a stack variable has a member of one slot next to a stack that is not
resolved to one slot. -/
theorem sizes_agree_iff_unmixed (st : Option Subtyping) (logging : Logging)
    (sort : String → VarSort) (pairs : List (Stack × Stack))
    (htidy : ∀ p ∈ pairs, ∀ v ∈ [p.1, p.2], (Kind.stack v).Tidy sort) (s : Store)
    (hs : Store.performAll (pairs.map fun p => .onStacks p.1 p.2) (.empty st false logging) =
      ([], s))
    (hac : s.Acyclic) :
    ∃ t, Store.solve s = .ok () t ∧
      ((∀ p ∈ pairs, (t.resolveKind (.stack p.1)).SameSize (t.resolveKind (.stack p.2))) ∧
        (∀ a, sort a = .stack → ∀ v w, (Kind.stack v).Tidy sort → (Kind.stack w).Tidy sort →
          s.Accepts a v → s.Accepts a w →
          (t.resolveKind (.stack v)).SameSize (t.resolveKind (.stack w))) ↔
        ∀ a, sort a = .stack → ¬ s.Mixed t a) := by
  obtain ⟨-, hstrict, hsettled, t, ht, h⟩ := Store.outcome_of_performAll (Kind.closed_tidy sort)
    (fun _ hk => hk) (List.forall_mem_map.2 fun p hp => by simpa [Call.sides] using htidy p hp) hs
  have hac' := hac.partition h.sound.toShaped
  refine ⟨t, ht, fun hsizes a ha hmix => ?_, fun hmix => ?_⟩
  · obtain ⟨v, w, hv, hw, hav, haw, hne⟩ := hmix.exists_accepts h
    exact hne (hsizes.2 a ha v w hv hw hav haw)
  have hslots := Outcome.slotsAgree_length s.partition (Kind.Tidy sort) fun n => t.solution[n]?
  have hmembers := h.membersAgree_length hstrict fun i a hname ha hm =>
    hmix a ha (.of_partition h.sound.toShaped hname hm)
  have hsame : ∀ {v w : Stack}, shown (fun _ => ()) (fun n => t.solution[n]?) v =
      shown (fun _ => ()) (fun n => t.solution[n]?) w →
      (t.resolveKind (.stack v)).SameSize (t.resolveKind (.stack w)) := fun heq => by
    have hlen := congrArg List.length heq
    rw [shown, shown, List.length_map, List.length_map] at hlen
    exact Kind.sameSize_stack_iff.2 hlen
  refine ⟨fun p hp => hsame ?_, fun a ha v w hv hw hav haw => hsame ?_⟩
  · exact h.shown_eq hstrict hac' hslots hmembers (htidy p hp p.1 (by simp))
      (htidy p hp p.2 (by simp)) (hsettled _ (List.mem_map_of_mem hp))
  · have hvar := Kind.tidy_stackVar_iff.2 ha
    rw [← h.shown_eq_of_bound hstrict hac' hslots hmembers hvar hv hav.bound,
      h.shown_eq_of_bound hstrict hac' hslots hmembers hvar hw haw.bound]

/-- The stacks `'R 'a` and `'S int` are equal, and so are `'S` and `'b int`, where `'b` is an
effect. -/
theorem sizes_agree_iff_unmixed_chain :
    let pairs : List (Stack × Stack) := [
      ([.typeVar "'a", .stackVar "'R"], [.simple "int", .stackVar "'S"]),
      ([.stackVar "'S"], [.simple "int", .typeVar "'b"]),
      ([.typeVar "'b"], [.effect [.stackVar "'T"] [.typeVar "'a", .stackVar "'T"] false])]
    let sort := fun n => if n = "'a" ∨ n = "'b" then VarSort.slot else .stack
    let r := Store.performAll (pairs.map fun p => .onStacks p.1 p.2) (.empty none false .silent)
    r.1 = [] ∧ r.2.Acyclic ∧ ∃ t, Store.solve r.2 = .ok () t ∧
      ((∀ p ∈ pairs, (t.resolveKind (.stack p.1)).SameSize (t.resolveKind (.stack p.2))) ∧
        (∀ a, sort a = .stack → ∀ v w, (Kind.stack v).Tidy sort → (Kind.stack w).Tidy sort →
          r.2.Accepts a v → r.2.Accepts a w →
          (t.resolveKind (.stack v)).SameSize (t.resolveKind (.stack w))) ↔
        ∀ a, sort a = .stack → ¬ r.2.Mixed t a) := by
  intro pairs sort r
  have hnil : r.1 = [] := by decide +kernel
  have hac : r.2.Acyclic :=
    Store.acyclic_of_rank (fun id => [0, 2, 1].getD id 0) (by decide +kernel)
  exact ⟨hnil, hac, sizes_agree_iff_unmixed none .silent sort pairs (by decide) r.2
    (Prod.ext hnil rfl) hac⟩

end StackEffect
