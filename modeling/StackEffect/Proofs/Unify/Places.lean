import StackEffect.Proofs.Kind.Concrete
import StackEffect.Proofs.Solve.Resolve
import StackEffect.Proofs.Unify.Again
import StackEffect.Proofs.Unify.Valuation

/-!
# Proofs/Unify/Places — slots that meet in one place

    ( -> int) ('a -> 'a) (number -> )        one place, in which there are int and number

What one effect produces lies in the places from which the next one consumes it, and every variable
stands for one place, or for the places of a stack.  In one place there may be several slots: nominal
types of which any two are related, and effects whose stacks lie in the same places.

Kinds that have to be equal lie in the same places, and equations between them make a theory in which no
kinds clash (`Placing.theory`).  Where there is one slot in each place, the places of a kind are its
value (`Placing.LiesAt.value_eq`).
-/

namespace StackEffect

/-- What a kind meets among effects does not depend on their stacks, unless it is an effect itself. -/
theorem Kind.meets_effect_congr {st : Option Subtyping} {c p d q : Stack} {i j : Bool} {k : Kind}
    (hk : ∀ c p i, k ≠ effect c p i) :
    meets st k (effect c p i) = meets st k (effect d q j) := by
  have hne : ∀ c p i, (effect c p i == k) = false ∧ (k == effect c p i) = false := fun c p i =>
    ⟨beq_false_of_ne (hk c p i).symm, beq_false_of_ne (hk c p i)⟩
  cases k with
  | effect c p i => exact absurd rfl (hk c p i)
  | _ => cases st <;> simp [meets, Subtyping.le, Subtyping.standIn, isEffect, hne]

/-! ## Places -/

/-- **A place on a stack**, with the slots that are in it: those that have no parts, and effects, pure
or impure ones, whose stacks lie in the same places. -/
structure Place where
  kinds : Kind → Prop
  impure : Bool → Prop
  consumed : List Place
  produced : List Place

namespace Place

/-- A slot without parts is in a place, and related to all others that are there. -/
def Has (d : Place) (st : Option Subtyping) (k : Kind) : Prop :=
  d.kinds k ∧ (∀ l, d.kinds l → k.meets st l = true) ∧
    ∀ i, d.impure i → k.meets st (.effect [] [] i) = true

mutual
/-- **The place in which there is one slot.** -/
def of : Kind → Place
  | .effect c p i => ⟨fun _ => False, (· = i), ofSlots c, ofSlots p⟩
  | k => ⟨(· = k), fun _ => False, [], []⟩
/-- The same for a stack. -/
def ofSlots : List Kind → List Place
  | [] => []
  | k :: s => of k :: ofSlots s
end

end Place

/-- The places of a stack, with one slot in each of them. -/
def Stack.places (s : Stack) : List Place := s.map Place.of

namespace Place

theorem ofSlots_eq_places (s : Stack) : ofSlots s = s.places := by
  induction s with
  | nil => rfl
  | cons k s ih => rw [ofSlots, ih, Stack.places, Stack.places, List.map_cons]

theorem of_effect (c p : Stack) (i : Bool) :
    of (.effect c p i) = ⟨fun _ => False, (· = i), c.places, p.places⟩ := by
  rw [of, ofSlots_eq_places, ofSlots_eq_places]

theorem exists_effect_of_impure {k : Kind} {i : Bool} (h : (of k).impure i) :
    ∃ c p, k = .effect c p i := by
  cases k with
  | effect c p j =>
    obtain rfl : i = j := h
    exact ⟨c, p, rfl⟩
  | _ => exact h.elim

theorem places_inj_of {s t : Stack} (h : ∀ k ∈ s, ∀ l, of k = of l → k = l)
    (hst : s.places = t.places) : s = t := by
  induction s generalizing t with
  | nil => exact (List.map_eq_nil_iff.1 hst.symm).symm
  | cons k s ih =>
    cases t with
    | nil => cases hst
    | cons l t =>
      rw [List.forall_mem_cons] at h
      obtain ⟨hkl, hst⟩ := List.cons.inj hst
      rw [h.1 l hkl, ih h.2 hst]

/-- **A place with one slot in it tells the slot.** -/
theorem of_inj {k l : Kind} (h : of k = of l) : k = l := by
  induction k using Kind.slotInduction generalizing l with
  | effect c p i hc hp =>
    have hi : (of l).impure i := h ▸ (rfl : (of (.effect c p i)).impure i)
    obtain ⟨d, q, rfl⟩ := exists_effect_of_impure hi
    rw [of_effect, of_effect, mk.injEq] at h
    rw [places_inj_of (fun k hk _ => hc k hk) h.2.2.1, places_inj_of (fun k hk _ => hp k hk) h.2.2.2]
  | _ =>
    cases l with
    | effect d q j => exact ((congrFun (congrArg impure h) j).mpr rfl).elim
    | _ => exact (congrFun (congrArg kinds h) _).mp rfl

end Place

theorem Stack.places_inj {s t : Stack} (h : s.places = t.places) : s = t :=
  Place.places_inj_of (fun _ _ _ => Place.of_inj) h

/-- **A placing**: a place for every name of a slot, and places for every name of a stack. -/
structure Placing where
  slot : String → Place
  rest : String → List Place

namespace Placing

variable (V : Placing) (st : Option Subtyping)

/-- The places that a variable stands for. -/
def places : Var → List Place
  | ⟨.slot, a⟩ => [V.slot a]
  | ⟨.stack, a⟩ => V.rest a

mutual
/-- **Where a kind lies.** -/
def LiesAt : Kind → List Place → Prop
  | .typeVar a, x => x = [V.slot a]
  | .stackVar a, x => x = V.rest a
  | .stack s, x => Lies s x
  | .effect c p i, x => ∃ d, x = [d] ∧ d.impure i ∧ Lies c d.consumed ∧ Lies p d.produced
  | k, x => ∃ d, x = [d] ∧ d.Has st k
/-- **Where a stack lies.** -/
def Lies : List Kind → List Place → Prop
  | [], x => x = []
  | k :: s, x => ∃ y z, x = y ++ z ∧ LiesAt k y ∧ Lies s z
end

variable {V st} {W : Placing} {sort : String → VarSort} {k l : Kind} {s t : Stack}
  {x : List Place} {d : Place} {n a : String} {r : String → String}

theorem lies_singleton : V.Lies st [k] x ↔ V.LiesAt st k x := by
  simp [Lies]

/-- A stack lies where its parts lie. -/
theorem lies_append :
    V.Lies st (s ++ t) x ↔ ∃ y z, x = y ++ z ∧ V.Lies st s y ∧ V.Lies st t z := by
  induction s generalizing x with
  | nil => simp [Lies]
  | cons k s ih =>
    simp only [List.cons_append, Lies, ih]
    constructor
    · rintro ⟨u, _, rfl, hk, y, z, rfl, hs, ht⟩
      exact ⟨u ++ y, z, by simp, ⟨u, y, rfl, hk, hs⟩, ht⟩
    · rintro ⟨_, z, rfl, ⟨u, y, rfl, hk, hs⟩, ht⟩
      exact ⟨u, y ++ z, by simp, hk, y, z, rfl, hs, ht⟩

theorem lies_asSlots : V.Lies st k.asSlots x ↔ V.LiesAt st k x := by
  cases k with
  | stack s => exact .rfl
  | _ => exact lies_singleton

/-- A slot lies in one place. -/
theorem LiesAt.exists_eq (h : V.LiesAt st k x) (hk : k.isSlot = true) : ∃ d, x = [d] := by
  cases k with
  | typeVar a => exact ⟨_, h⟩
  | stackVar | stack => simp at hk
  | _ => exact h.imp fun _ h => h.1

theorem lies_cons_iff (hk : k.isSlot = true) :
    V.Lies st (k :: s) x ↔ ∃ d y, x = d :: y ∧ V.LiesAt st k [d] ∧ V.Lies st s y := by
  constructor
  · rintro ⟨_, y, rfl, hlies, hs⟩
    obtain ⟨d, rfl⟩ := hlies.exists_eq hk
    exact ⟨d, y, rfl, hlies, hs⟩
  · rintro ⟨d, y, rfl, hlies, hs⟩
    exact ⟨[d], y, rfl, hlies, hs⟩

/-- **An effect lies where its stacks lie.** -/
theorem liesAt_effect_iff {p : Stack} {i : Bool} : V.LiesAt st (.effect s p i) [d] ↔
    d.impure i ∧ V.Lies st s d.consumed ∧ V.Lies st p d.produced := by
  simp [LiesAt]

/-! ### Other names -/

theorem lies_map_iff {F : Kind → Kind} (h : ∀ k ∈ s, ∀ x, V.LiesAt st (F k) x ↔ W.LiesAt st k x) :
    V.Lies st (s.map F) x ↔ W.Lies st s x := by
  induction s generalizing x with
  | nil => exact .rfl
  | cons k s ih =>
    rw [List.forall_mem_cons] at h
    simp only [List.map_cons, Lies, h.1, ih h.2]

/-- **A kind under other names lies where the kind lies**, if its variables stand for the same places.
-/
theorem liesAt_relabel_iff (h : ∀ v ∈ k.vars, V.places (v.relabel r) = W.places v) :
    V.LiesAt st (k.relabel r) x ↔ W.LiesAt st k x := by
  induction k using Kind.slotInduction generalizing x with
  | typeVar | stackVar => exact Eq.congr_right (h _ List.mem_cons_self)
  | stack s ih =>
    rw [Kind.relabel_stack]
    exact lies_map_iff fun k hk _ => ih k hk fun v hv => h v (Kind.mem_slotVars.2 ⟨k, hk, hv⟩)
  | effect c p i hc hp =>
    obtain ⟨hvc, hvp⟩ := List.forall_mem_append.1 h
    have hc := fun x => lies_map_iff (x := x) fun k hk _ => hc k hk fun v hv =>
      hvc v (Kind.mem_slotVars.2 ⟨k, hk, hv⟩)
    have hp := fun x => lies_map_iff (x := x) fun k hk _ => hp k hk fun v hv =>
      hvp v (Kind.mem_slotVars.2 ⟨k, hk, hv⟩)
    rw [Kind.relabel_effect]
    simp only [LiesAt, hc, hp]
  | _ => exact .rfl

theorem lies_relabel_iff (h : ∀ v ∈ Kind.slotVars s, V.places (v.relabel r) = W.places v) :
    V.Lies st (s.map (Kind.relabel r)) x ↔ W.Lies st s x :=
  lies_map_iff fun k hk _ => liesAt_relabel_iff fun v hv => h v (Kind.mem_slotVars.2 ⟨k, hk, hv⟩)

/-! ### One slot in each place -/

variable {σ : Valuation}

/-- **A valuation gives what a placing tells**: the slots of the places in which there is one. -/
structure Tells (V : Placing) (σ : Valuation) : Prop where
  slot : ∀ {a k}, V.slot a = .of k → σ.slot a = k
  rest : ∀ {a s}, V.rest a = Stack.places s → σ.rest a = s

theorem values_eq_of (h : ∀ k ∈ s, ∀ t, V.LiesAt st k (Stack.places t) → σ.value k = t)
    (hs : V.Lies st s (Stack.places t)) : σ.values s = t := by
  induction s generalizing t with
  | nil => exact (List.map_eq_nil_iff.1 hs).symm
  | cons k s ih =>
    rw [List.forall_mem_cons] at h
    obtain ⟨y, z, heq, hk, hs⟩ := hs
    obtain ⟨u, v, rfl, rfl, rfl⟩ := List.map_eq_append_iff.1 heq
    rw [Valuation.values, h.1 u hk, ih h.2 hs]

/-- **A kind has the value that its places tell**, if there is one slot in each of them. -/
theorem LiesAt.value_eq (hσ : V.Tells σ) (h : V.LiesAt st k (Stack.places t)) : σ.value k = t := by
  have hone : ∀ {t : Stack} {d : Place}, Stack.places t = [d] → ∃ l, t = [l] ∧ d = .of l := by
    intro t d heq
    obtain ⟨l, u, rfl, hl, hu⟩ := List.map_eq_cons_iff.1 heq
    exact ⟨l, by rw [List.map_eq_nil_iff.1 hu], hl.symm⟩
  induction k using Kind.slotInduction generalizing t with
  | typeVar a =>
    obtain ⟨l, rfl, hl⟩ := hone h
    exact congrArg (fun k => [k]) (hσ.slot hl)
  | stackVar a => exact hσ.rest (Eq.symm h)
  | stack s ih => exact values_eq_of (fun k hk _ => ih k hk) h
  | effect c p i hc hp =>
    obtain ⟨d, heq, hi, hlc, hlp⟩ := h
    obtain ⟨l, rfl, rfl⟩ := hone heq
    obtain ⟨c', p', rfl⟩ := Place.exists_effect_of_impure hi
    rw [Place.of_effect] at hlc hlp
    rw [Valuation.value, values_eq_of (fun k hk _ => hc k hk) hlc,
      values_eq_of (fun k hk _ => hp k hk) hlp]
  | _ =>
    obtain ⟨d, heq, hk, -⟩ := h
    obtain ⟨l, rfl, rfl⟩ := hone heq
    cases l with
    | effect => exact hk.elim
    | _ => exact congrArg (fun k => [k]) hk

theorem Lies.values_eq (hσ : V.Tells σ) (h : V.Lies st s (Stack.places t)) : σ.values s = t :=
  LiesAt.value_eq (k := .stack s) hσ h

end Placing

/-- **The placing of a valuation**, with one slot in each place. -/
def Valuation.placing (σ : Valuation) : Placing :=
  ⟨fun a => .of (σ.slot a), fun a => Stack.places (σ.rest a)⟩

namespace Placing

variable {V : Placing} {σ : Valuation} {st : Option Subtyping} {sort : String → VarSort} {k l : Kind}
  {s t : Stack} {x : List Place} {d : Place} {n a : String}

theorem lies_placing_of (h : ∀ k ∈ s, σ.placing.LiesAt st k (Stack.places (σ.value k))) :
    σ.placing.Lies st s (Stack.places (σ.values s)) := by
  induction s with
  | nil => exact rfl
  | cons k s ih =>
    rw [List.forall_mem_cons] at h
    exact ⟨_, _, List.map_append, h.1, ih h.2⟩

/-- **A kind lies in the places of its value.** -/
theorem liesAt_placing (k : Kind) : σ.placing.LiesAt st k (Stack.places (σ.value k)) := by
  induction k using Kind.slotInduction with
  | typeVar | stackVar => exact rfl
  | stack s ih => exact lies_placing_of ih
  | effect c p i hc hp =>
    refine ⟨_, congrArg (fun d => [d]) (Place.of_effect _ _ _), rfl, ?_, ?_⟩
    · exact lies_placing_of hc
    · exact lies_placing_of hp
  | _ => exact ⟨_, rfl, rfl, fun l hl => hl ▸ Kind.meets_self _, fun _ hi => hi.elim⟩

theorem lies_placing (s : Stack) : σ.placing.Lies st s (Stack.places (σ.values s)) :=
  liesAt_placing (.stack s)

/-! ### Slots in one place -/

/-- A nominal type is compatible with the slots in its place. -/
theorem compatible_of_has (hd : d.Has st (.simple n)) (hl : V.LiesAt st l [d])
    (hslot : l.isSlot = true) : Unify.compatible st (.simple n) l = true := by
  obtain ⟨-, hkinds, heffects⟩ := hd
  have hcompatible : (Kind.simple n).meets st l = true → l.isVar = false →
      Unify.compatible st (.simple n) l = true := by
    intro hmeets hvar
    rw [Unify.compatible, Bool.or_assoc, Bool.or_eq_true]
    right
    cases l <;> simpa [Kind.meets, Kind.isEffect] using hmeets
  cases l with
  | typeVar => simp [Unify.compatible, Kind.isVar, Kind.isSimple]
  | stackVar | stack => simp at hslot
  | effect c p i =>
    refine hcompatible ?_ rfl
    rw [Kind.meets_effect_congr (d := []) (q := []) (j := i) (by simp)]
    exact heffects i (liesAt_effect_iff.1 hl).1
  | _ =>
    obtain ⟨_, heq, hl, -⟩ := hl
    obtain rfl := List.singleton_inj.1 heq
    exact hcompatible (hkinds _ hl) rfl

/-- **Slots in one place are compatible.** -/
theorem compatible_of_liesAt (hk : V.LiesAt st k [d]) (hl : V.LiesAt st l [d])
    (hks : k.isSlot = true) (hls : l.isSlot = true) : Unify.compatible st k l = true := by
  have hhas : ∀ {n}, V.LiesAt st (.simple n) [d] → d.Has st (.simple n) := by
    rintro n ⟨_, heq, h⟩
    rwa [List.singleton_inj.1 heq]
  cases k with
  | simple n => exact compatible_of_has (hhas hk) hl hls
  | _ =>
    cases l with
    | simple m =>
      rw [Unify.compatible_comm]
      exact compatible_of_has (hhas hl) hk hks
    | _ => rfl

/-! ### The theory of a placing -/

/-- A tidy kind lies where a name does. -/
def Equates (V : Placing) (st : Option Subtyping) (sort : String → VarSort) (n : String) (k : Kind) :
    Prop :=
  k.Tidy sort ∧ V.LiesAt st k (V.places ⟨sort n, n⟩)

/-- Two stacks lie in the same places. -/
def Meet (V : Placing) (st : Option Subtyping) (v w : Stack) : Prop :=
  ∃ x, V.Lies st v x ∧ V.Lies st w x

/-- Two tidy stacks lie in the same places. -/
def EquatesStacks (V : Placing) (st : Option Subtyping) (sort : String → VarSort) (v w : Stack) : Prop :=
  (Kind.stack v).Tidy sort ∧ (Kind.stack w).Tidy sort ∧ V.Meet st v w

/-- A variable lies in the places that it stands for. -/
theorem liesAt_var_iff (h : k.Tidy sort) (hn : k.varName? = some n) :
    V.LiesAt st k x ↔ x = V.places ⟨sort n, n⟩ := by
  cases k with
  | typeVar a =>
    obtain rfl : a = n := Option.some.inj hn
    rw [Kind.tidy_typeVar_iff.1 h]
    exact .rfl
  | stackVar a =>
    obtain rfl : a = n := Option.some.inj hn
    rw [Kind.tidy_stackVar_iff.1 h]
    exact .rfl
  | _ => simp [Kind.varName?] at hn

theorem equatesStacks_of_effect {c p c' p' : Stack} {i j : Bool} (hk : (Kind.effect c p i).Tidy sort)
    (hl : (Kind.effect c' p' j).Tidy sort) (h : V.LiesAt st (.effect c p i) x)
    (h' : V.LiesAt st (.effect c' p' j) x) :
    V.EquatesStacks st sort c c' ∧ V.EquatesStacks st sort p p' := by
  obtain ⟨hc, hp⟩ := Kind.tidy_effect_iff.1 hk
  obtain ⟨hc', hp'⟩ := Kind.tidy_effect_iff.1 hl
  obtain ⟨d, rfl, -, hdc, hdp⟩ := h
  obtain ⟨-, hdc', hdp'⟩ := liesAt_effect_iff.1 h'
  exact ⟨⟨hc, hc', _, hdc, hdc'⟩, hp, hp', _, hdp, hdp'⟩

/-- **Stacks in the same places ask for equations that hold**, and neither ends before the other. -/
theorem EquatesStacks.aligned (lenient : Bool) {v w : Stack} (h : V.EquatesStacks st sort v w) :
    Aligned (lenient = true ∨ False) (fun a => lenient = true ∨ V.Equates st sort a (.stack []))
      (V.Equates st sort) (SlotAsk st False (V.Equates st sort) (V.EquatesStacks st sort)) v w := by
  obtain ⟨hv, hw, x, hx, hx'⟩ := h
  refine Aligned.of_same (M := fun k d => V.LiesAt st k [d]) (L := V.Lies st) id ?_ ?_ .inr ?_
    hv hw hx hx'
  · intro k s x hfits hk hks
    exact (lies_cons_iff (Kind.isSlot_of_fitsOn hfits hk)).1 hks
  · intro a t x ha ht hax htx
    exact ⟨ht, (liesAt_var_iff ha rfl).1 (lies_singleton.1 hax) ▸ htx⟩
  · intro k s l t d hks hlt hk hl hd hd'
    obtain ⟨hfk, hkt, -⟩ := Kind.tidy_cons_iff.1 hks
    obtain ⟨hfl, hlt, -⟩ := Kind.tidy_cons_iff.1 hlt
    refine ⟨?_, ?_, ?_, .inl (compatible_of_liesAt hd hd' (Kind.isSlot_of_fitsOn hfk hk)
      (Kind.isSlot_of_fitsOn hfl hl))⟩
    · rintro a rfl
      exact ⟨hlt, (liesAt_var_iff hkt rfl).1 hd ▸ hd'⟩
    · rintro b rfl
      exact ⟨hkt, (liesAt_var_iff hlt rfl).1 hd' ▸ hd⟩
    · rintro c p i c' p' j rfl rfl
      exact equatesStacks_of_effect hkt hlt hd hd'

/-- **The theory of a placing.** -/
def theory (V : Placing) (sort : String → VarSort) (st : Option Subtyping) (lenient : Bool) :
    Theory st lenient where
  mayClash := False
  same n m := V.places ⟨sort n, n⟩ = V.places ⟨sort m, m⟩
  eqn := V.Equates st sort
  call := V.Equates st sort
  par := V.EquatesStacks st sort
  same_equiv := ⟨fun _ => rfl, Eq.symm, Eq.trans⟩
  eqn_congr h hk := ⟨hk.1, h ▸ hk.2⟩
  eqn_of_call h _ := h
  call_slot h := ⟨(Kind.tidy_cons_iff.1 h.1).2.1, lies_singleton.1 h.2⟩
  call_self h hm := ⟨h.1, (liesAt_var_iff h.1 hm).2 rfl⟩
  same_var h hm := (liesAt_var_iff h.1 hm).1 h.2
  par_effect h h' := equatesStacks_of_effect h.1 h'.1 h.2 h'.2
  par_stack h h' := ⟨h.1, h'.1, _, h.2, h'.2⟩
  par_aligned h := h.aligned lenient

end Placing

end StackEffect
