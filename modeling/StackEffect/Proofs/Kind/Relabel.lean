import Mathlib.Data.Set.Function
import Mathlib.Logic.Equiv.Defs
import StackEffect.Constraint.Representative
import StackEffect.Proofs.Kind.Renaming

/-!
# Proofs/Kind/Relabel — kinds that differ only in the names of their variables

    relabel ρ ('R 'a -> 'R)  =  (ρ'R ρ'a -> ρ'R)

A variable keeps its sort and its place.  Where different variables stay different, closing commutes
with new names (`close_relabel`), and the canonical form does not tell the names that a kind had
(`generalize_relabel`).
-/

namespace StackEffect

/-- A variable with a new name. -/
def Var.relabel (ρ : String → String) (v : Var) : Var := ⟨v.sort, ρ v.name⟩

namespace Kind

/-- **A kind with new names for its variables.** -/
def relabel (ρ : String → String) (k : Kind) : Kind := k.subst fun v => (v.relabel ρ).kind

variable {ρ τ : String → String} {k : Kind} {s c p : Stack} {n : String} {f g : Var → Kind}
  {drop drop' : String → Bool}

@[simp] theorem relabel_simple : (simple n).relabel ρ = simple n := rfl
@[simp] theorem relabel_typeVar : (typeVar n).relabel ρ = typeVar (ρ n) := rfl
@[simp] theorem relabel_stackVar : (stackVar n).relabel ρ = stackVar (ρ n) := rfl
@[simp] theorem relabel_self : self.relabel ρ = self := rfl
@[simp] theorem relabel_foreign {x y : String} : (foreign x y).relabel ρ = foreign x y := rfl
@[simp] theorem relabel_absent : absent.relabel ρ = absent := rfl

@[simp] theorem relabel_stack : (stack s).relabel ρ = stack (s.map (relabel ρ)) :=
  congrArg stack (substSlots_eq_map _ s)

@[simp] theorem relabel_effect {i : Bool} :
    (effect c p i).relabel ρ = effect (c.map (relabel ρ)) (p.map (relabel ρ)) i := by
  rw [relabel, subst, substSlots_eq_map, substSlots_eq_map]
  rfl

theorem relabel_varKind (v : Var) : v.kind.relabel ρ = (v.relabel ρ).kind := by
  rcases v with ⟨_ | _, a⟩ <;> rfl

/-- The rank of a kind among representatives does not depend on names. -/
@[simp] theorem rank_relabel : (k.relabel ρ).rank = k.rank := by cases k <;> simp [rank]

@[simp] theorem isVar_relabel : (k.relabel ρ).isVar = k.isVar := by cases k <;> simp [isVar]

@[simp] theorem isSimple_relabel : (k.relabel ρ).isSimple = k.isSimple := by
  cases k <;> simp [isSimple]

/-- A variable is called by its new name. -/
@[simp] theorem varName?_relabel : (k.relabel ρ).varName? = k.varName?.map ρ := by
  cases k <;> simp [varName?]

/-! ## Variables -/

/-- Only the variables that occur are replaced. -/
theorem subst_congr (h : ∀ v ∈ k.vars, f v = g v) : k.subst f = k.subst g := by
  have hslots : ∀ s : Stack, (∀ k ∈ s, (∀ v ∈ k.vars, f v = g v) → k.subst f = k.subst g) →
      (∀ v ∈ slotVars s, f v = g v) → substSlots f s = substSlots g s := by
    intro s ih hs
    rw [substSlots_eq_map, substSlots_eq_map]
    exact List.map_congr_left fun k hk => ih k hk fun v hv => hs v (mem_slotVars.2 ⟨k, hk, hv⟩)
  induction k using Kind.slotInduction with
  | typeVar a | stackVar a => exact h _ List.mem_cons_self
  | stack s ih => rw [subst, subst, hslots s ih h]
  | effect c p i hc hp =>
    rw [vars, List.forall_mem_append] at h
    rw [subst, subst, hslots c hc h.1, hslots p hp h.2]
  | _ => rfl

/-- Two replacements, one after the other, are one. -/
theorem subst_subst : (k.subst g).subst f = k.subst fun v => (g v).subst f := by
  induction k using Kind.slotInduction with
  | typeVar | stackVar => rfl
  | stack s ih =>
    rw [subst, subst, subst, substSlots_eq_map, substSlots_eq_map, substSlots_eq_map, List.map_map]
    exact congrArg stack (List.map_congr_left ih)
  | effect c p i hc hp =>
    rw [subst, subst, subst]
    simp only [substSlots_eq_map, List.map_map]
    rw [← List.map_congr_left hc, ← List.map_congr_left hp]
    rfl
  | _ => rfl

theorem subst_varKind (v : Var) : v.kind.subst f = f v := by
  rcases v with ⟨_ | _, a⟩ <;> rfl

/-- What is replaced after new names are given may be replaced at once. -/
theorem subst_relabel : (k.relabel ρ).subst f = k.subst fun v => f (v.relabel ρ) := by
  rw [relabel, subst_subst]
  exact congrArg k.subst (funext fun v => subst_varKind _)

/-- **Only the names that occur matter.** -/
theorem relabel_congr (h : ∀ v ∈ k.vars, ρ v.name = τ v.name) : k.relabel ρ = k.relabel τ :=
  subst_congr fun v hv => by rw [Var.relabel, Var.relabel, h v hv]

/-- New names for new names. -/
theorem relabel_relabel : (k.relabel ρ).relabel τ = k.relabel (τ ∘ ρ) := subst_relabel

/-- A kind with the names that it has is the kind. -/
theorem relabel_id : k.relabel id = k := by
  induction k using Kind.slotInduction with
  | stack s ih => rw [relabel_stack, List.map_congr_left ih, List.map_id']
  | effect c p i hc hp =>
    rw [relabel_effect, List.map_congr_left hc, List.map_congr_left hp, List.map_id', List.map_id']
  | _ => rfl

/-- The names that there are. -/
theorem relabel_refl : k.relabel (Equiv.refl String) = k := relabel_id

theorem map_relabel_refl : s.map (relabel (Equiv.refl String)) = s :=
  (List.map_congr_left fun _ _ => relabel_refl).trans s.map_id

theorem relabel_eq_self (h : ∀ v ∈ k.vars, ρ v.name = v.name) : k.relabel ρ = k :=
  (relabel_congr h).trans relabel_id

/-- Kinds are told apart by any new names that tell their names apart. -/
theorem relabel_injective (ρ : Equiv.Perm String) : Function.Injective (relabel ρ) := by
  refine Function.LeftInverse.injective (g := relabel ρ.symm) fun k => ?_
  rw [relabel_relabel, Equiv.symm_comp_self, relabel_id]

/-- Where variables take the place of variables, they do so one by one. -/
theorem vars_subst_var {r : Var → Var} : (k.subst fun v => (r v).kind).vars = k.vars.map r := by
  have hslots : ∀ s : Stack, (∀ k ∈ s, (k.subst fun v => (r v).kind).vars = k.vars.map r) →
      slotVars (s.map (subst fun v => (r v).kind)) = (slotVars s).map r := by
    intro s hs
    induction s with
    | nil => rfl
    | cons k s ih =>
      rw [List.forall_mem_cons] at hs
      rw [List.map_cons, slotVars, slotVars, ih hs.2, hs.1, List.map_append]
  induction k using Kind.slotInduction with
  | typeVar a | stackVar a => exact vars_varKind _
  | stack s ih => rw [subst, substSlots_eq_map, vars, vars, hslots s ih]
  | effect c p i hc hp =>
    rw [subst, substSlots_eq_map, substSlots_eq_map, vars, vars, hslots c hc, hslots p hp,
      List.map_append]
  | _ => rfl

/-- The variables are given new names one by one. -/
theorem vars_relabel : (k.relabel ρ).vars = k.vars.map (Var.relabel ρ) := vars_subst_var

/-- New names do not change where stack variables are. -/
theorem wellFormed_relabel : (k.relabel ρ).wellFormed = k.wellFormed := by
  have hslots : ∀ s : Stack, (∀ k ∈ s, (k.relabel ρ).wellFormed = k.wellFormed) →
      slotsWellFormed (s.map (relabel ρ)) = slotsWellFormed s := by
    intro s hs
    induction s with
    | nil => rfl
    | cons k s ih =>
      rw [List.forall_mem_cons] at hs
      have hfits : fitsOn (k.relabel ρ) (s.map (relabel ρ)) = fitsOn k s := by
        cases k <;> simp [fitsOn]
      rw [List.map_cons, slotsWellFormed, slotsWellFormed, hfits, hs.1, ih hs.2]
  induction k using Kind.slotInduction with
  | stack s ih => rw [relabel_stack, wellFormed, wellFormed, hslots s ih]
  | effect c p i hc hp => rw [relabel_effect, wellFormed, wellFormed, hslots c hc, hslots p hp]
  | _ => rfl

/-- The variables that are stored are given new names one by one. -/
theorem storedVars_relabel : (k.relabel ρ).storedVars = k.storedVars.map (Var.relabel ρ) := by
  have hslots : ∀ s : Stack,
      (∀ k ∈ s, (k.relabel ρ).storedVars = k.storedVars.map (Var.relabel ρ)) →
      storedSlotVars (s.map (relabel ρ)) = (storedSlotVars s).map (Var.relabel ρ) := by
    intro s hs
    induction s with
    | nil => rfl
    | cons k s ih =>
      rw [List.forall_mem_cons] at hs
      rw [List.map_cons, storedSlotVars, storedSlotVars, ih hs.2, hs.1, List.map_append]
  induction k using Kind.slotInduction with
  | stack s ih => rw [relabel_stack, storedVars, storedVars, hslots s ih]
  | effect c p i hc hp =>
    rw [relabel_effect, storedVars, storedVars, hslots c hc, hslots p hp, List.map_append]
  | _ => rfl

/-- New names do not change how much a kind weighs. -/
theorem weight_relabel : (k.relabel ρ).weight = k.weight := by
  have hslots : ∀ s : Stack, (∀ k ∈ s, (k.relabel ρ).weight = k.weight) →
      slotsWeight (s.map (relabel ρ)) = slotsWeight s := by
    intro s hs
    induction s with
    | nil => rfl
    | cons k s ih =>
      rw [List.forall_mem_cons] at hs
      rw [List.map_cons, slotsWeight, slotsWeight, ih hs.2, hs.1]
  induction k using Kind.slotInduction with
  | stack s ih => rw [relabel_stack, weight, weight, hslots s ih]
  | effect c p i hc hp => rw [relabel_effect, weight, weight, hslots c hc, hslots p hp]
  | _ => rfl

/-! ## Closing -/

/-- The free variables are the names that occur. -/
theorem mem_freeVars : n ∈ k.freeVars ↔ ∃ v ∈ k.vars, v.name = n := by
  rw [freeVars, List.mem_eraseDups, List.mem_map]

/-- **Different variables of a kind keep different names.** -/
def Separates (ρ : String → String) (k : Kind) : Prop := Set.InjOn ρ {n | n ∈ k.freeVars}

theorem Separates.eq_iff (h : Separates ρ k) {v : Var} (hv : v ∈ k.vars)
    (hn : n ∈ k.freeVars) : ρ v.name = ρ n ↔ v.name = n :=
  ⟨fun e => h (mem_freeVars.2 ⟨v, hv, rfl⟩) hn e, fun e => e ▸ rfl⟩

/-- **Stacks have the same variable at the bottom under new names** if their names are told apart.
-/
theorem sharedBottom?_map (h : ∀ a b, stackVar a ∈ c → stackVar b ∈ p → ρ a = ρ b → a = b) :
    Stack.sharedBottom? (c.map (relabel ρ)) (p.map (relabel ρ)) =
      (Stack.sharedBottom? c p).map ρ := by
  unfold Stack.sharedBottom? Stack.bottom?
  rw [List.getLast?_map, List.getLast?_map]
  cases hc : c.getLast? with
  | none => rfl
  | some k =>
    cases hp : p.getLast? with
    | none => cases k <;> rfl
    | some l =>
      have hk := List.mem_of_getLast? hc
      have hl := List.mem_of_getLast? hp
      cases k <;> cases l <;> try rfl
      next a b =>
        by_cases hab : a = b
        · simp [hab]
        · have hρ : ρ a ≠ ρ b := fun e => hab (h a b hk hl e)
          simp [hab, hρ]

/-- Closing only takes variables away. -/
theorem mem_vars_of_closeWith {v : Var} (h : v ∈ (k.closeWith drop).vars) : v ∈ k.vars := by
  have hslots : ∀ s t : Stack, (∀ k ∈ s, v ∈ (k.closeWith drop).vars → v ∈ k.vars) →
      (∀ k ∈ t, k ∈ closeSlots drop s) → v ∈ slotVars t → v ∈ slotVars s := by
    intro s t ih ht hv
    obtain ⟨l, hl, hv⟩ := mem_slotVars.1 hv
    have hmem := ht l hl
    rw [closeSlots_eq_map] at hmem
    obtain ⟨k, hk, rfl⟩ := List.mem_map.1 hmem
    exact mem_slotVars.2 ⟨k, hk, ih k hk hv⟩
  induction k using Kind.slotInduction with
  | stack s ih => exact hslots s _ ih (fun _ hk => hk) h
  | effect c p i hc hp =>
    rw [closeWith] at h
    split at h
    · exact List.mem_append.2 ((List.mem_append.1 h).imp
        (hslots c _ hc fun _ hk => List.dropLast_subset _ hk)
        (hslots p _ hp fun _ hk => List.dropLast_subset _ hk))
    · exact List.mem_append.2 ((List.mem_append.1 h).imp (hslots c _ hc fun _ hk => hk)
        (hslots p _ hp fun _ hk => hk))
  | _ => exact h

/-- Closing commutes with new names, if what is dropped is told by both names. -/
theorem closeWith_relabel {names : Set String} (hρ : Set.InjOn ρ names)
    (hdrop : ∀ n ∈ names, drop' (ρ n) = drop n) (h : ∀ v ∈ k.vars, v.name ∈ names) :
    (k.relabel ρ).closeWith drop' = (k.closeWith drop).relabel ρ := by
  have hslots : ∀ s : Stack, (∀ v ∈ slotVars s, v.name ∈ names) →
      (∀ k ∈ s, (∀ v ∈ k.vars, v.name ∈ names) →
        (k.relabel ρ).closeWith drop' = (k.closeWith drop).relabel ρ) →
      closeSlots drop' (s.map (relabel ρ)) = (closeSlots drop s).map (relabel ρ) := by
    intro s hs ih
    rw [closeSlots_eq_map, closeSlots_eq_map, List.map_map, List.map_map]
    exact List.map_congr_left fun k hk => ih k hk fun v hv => hs v (mem_slotVars.2 ⟨k, hk, hv⟩)
  induction k using Kind.slotInduction with
  | stack s ih => rw [relabel_stack, closeWith, closeWith, relabel_stack, hslots s h ih]
  | effect c p i hc hp =>
    rw [vars, List.forall_mem_append] at h
    have hbottom : ∀ {s : Stack} {a}, (∀ v ∈ slotVars s, v.name ∈ names) → stackVar a ∈ s →
        a ∈ names := fun hs ha => hs ⟨.stack, _⟩ (mem_slotVars.2 ⟨_, ha, List.mem_cons_self⟩)
    have hshared : (Stack.sharedBottom? (c.map (relabel ρ)) (p.map (relabel ρ))).any drop' =
        (Stack.sharedBottom? c p).any drop := by
      rw [sharedBottom?_map fun a b ha hb => hρ (hbottom h.1 ha) (hbottom h.2 hb)]
      cases hs : Stack.sharedBottom? c p with
      | none => rfl
      | some a =>
        have ha : stackVar a ∈ c := by
          unfold Stack.sharedBottom? Stack.bottom? at hs
          split at hs
          · next x y hx _ =>
            split at hs
            · exact Option.some.inj hs ▸ List.mem_of_getLast? hx
            · simp at hs
          · simp at hs
        exact hdrop a (hbottom h.1 ha)
    rw [relabel_effect, closeWith, closeWith, hslots c h.1 hc, hslots p h.2 hp, hshared]
    split <;> simp [List.map_dropLast]
  | _ => rfl

/-- Closing asks for the names that occur only. -/
theorem closeWith_congr (h : ∀ v ∈ k.vars, drop' v.name = drop v.name) :
    k.closeWith drop' = k.closeWith drop := by
  have hclose : (k.relabel id).closeWith drop' = (k.closeWith drop).relabel id :=
    closeWith_relabel (Set.injOn_id {n | drop' n = drop n}) (fun _ hn => hn) h
  rwa [relabel_id, relabel_id] at hclose

/-- A name occurs as often as before under its new name. -/
theorem occurrences_relabel (h : Separates ρ k) (hn : n ∈ k.freeVars) :
    (k.relabel ρ).occurrences (ρ n) = k.occurrences n := by
  rw [occurrences, occurrences, vars_relabel, List.countP_map]
  refine List.countP_congr fun v hv => ?_
  simp only [Function.comp, Var.relabel, beq_iff_eq]
  exact h.eq_iff hv hn

/-- **Closing commutes with new names.** -/
theorem close_relabel (h : Separates ρ k) : (k.relabel ρ).close = k.close.relabel ρ :=
  closeWith_relabel h (fun _ hn => by rw [occurrences_relabel h hn])
    fun v hv => mem_freeVars.2 ⟨v, hv, rfl⟩

/-- Names that are told apart in a kind are told apart in the closed kind. -/
theorem Separates.close (h : Separates ρ k) : Separates ρ k.close := by
  refine h.mono fun n hn => ?_
  obtain ⟨v, hv, rfl⟩ := mem_freeVars.1 hn
  exact mem_freeVars.2 ⟨v, mem_vars_of_closeWith hv, rfl⟩

/-! ## Sorts -/

/-- **No name is used in both sorts.** -/
def OneSorted (k : Kind) : Prop := ∀ v ∈ k.vars, ∀ w ∈ k.vars, v.name = w.name → v.sort = w.sort

/-- **New variables for the variables of a kind**, of the same sort and different ones for different
ones. -/
structure Renaming (r : Var → Var) (k : Kind) : Prop where
  sort : ∀ v ∈ k.vars, (r v).sort = v.sort
  injOn : Set.InjOn r {v | v ∈ k.vars}

/-- New names that tell the names of a kind apart give it new variables. -/
theorem Separates.renaming (h : Separates ρ k) : Renaming (Var.relabel ρ) k where
  sort _ _ := rfl
  injOn v hv w hw hvw := by
    obtain ⟨hs, hn⟩ := Var.mk.inj hvw
    have hname := h (mem_freeVars.2 ⟨v, hv, rfl⟩) (mem_freeVars.2 ⟨w, hw, rfl⟩) hn
    rcases v with ⟨s, n⟩
    rcases w with ⟨s', n'⟩
    simp_all

/-- The sort of a name: that of a stack if it stands for a stack somewhere. -/
def sortIn (k : Kind) (n : String) : VarSort := if k.stackNames.contains n then .stack else .slot

/-- A variable has the sort of its name. -/
theorem OneSorted.sortIn_eq (hk : k.OneSorted) {v : Var} (hv : v ∈ k.vars) :
    k.sortIn v.name = v.sort := by
  rw [sortIn]
  split
  · next hs =>
    rw [List.contains_iff_mem, stackNames, List.mem_map] at hs
    obtain ⟨w, hw, hwv⟩ := hs
    rw [List.mem_filter, beq_iff_eq] at hw
    rw [← hw.2, hk w hw.1 v hv hwv]
  · next hs =>
    rw [List.contains_iff_mem, stackNames, List.mem_map] at hs
    rcases hv' : v with ⟨_ | _, n⟩
    · rfl
    · exact absurd ⟨v, List.mem_filter.2 ⟨hv, by rw [hv']; rfl⟩, rfl⟩ hs

/-- A kind uses every name in one sort if names have sorts that its variables keep to. -/
theorem oneSorted_of_sort (sort : String → VarSort) (h : ∀ v ∈ k.vars, sort v.name = v.sort) :
    k.OneSorted := fun v hv w hw hvw => by rw [← h v hv, ← h w hw, hvw]

/-- **Kinds that use every name in one sort differ by new variables as they differ by new names.** -/
theorem Renaming.exists_relabel {r : Var → Var} (hr : Renaming r k) (hk : k.OneSorted)
    (hl : (k.subst fun v => (r v).kind).OneSorted) :
    ∃ ρ, Separates ρ k ∧ (k.subst fun v => (r v).kind) = k.relabel ρ := by
  have hself : ∀ v ∈ k.vars, (⟨k.sortIn v.name, v.name⟩ : Var) = v := fun v hv => by
    rw [hk.sortIn_eq hv]
  have hmem : ∀ v ∈ k.vars, r v ∈ (k.subst fun v => (r v).kind).vars := fun v hv => by
    rw [vars_subst_var]
    exact List.mem_map_of_mem hv
  refine ⟨fun a => (r ⟨k.sortIn a, a⟩).name, fun a ha b hb hab => ?_, subst_congr fun v hv => ?_⟩
  · obtain ⟨v, hv, rfl⟩ := mem_freeVars.1 ha
    obtain ⟨w, hw, rfl⟩ := mem_freeVars.1 hb
    simp only [hself v hv, hself w hw] at hab
    have hs : (r v).sort = (r w).sort := hl _ (hmem v hv) _ (hmem w hw) hab
    have hvw : r v = r w := by
      calc r v = ⟨(r v).sort, (r v).name⟩ := rfl
        _ = r w := by rw [hs, hab]
    rw [hr.injOn hv hw hvw]
  · rw [Var.relabel, hself v hv, ← hr.sort v hv]

/-! ## Canonical forms -/

theorem nodup_eraseDups {α : Type} [BEq α] [LawfulBEq α] (l : List α) : l.eraseDups.Nodup := by
  induction hl : l.length using Nat.strongRecOn generalizing l with
  | ind m ih =>
    cases l with
    | nil => exact List.nodup_nil
    | cons a l =>
      rw [List.eraseDups_cons, List.nodup_cons, List.mem_eraseDups, List.mem_filter]
      refine ⟨by simp, ih _ ?_ _ rfl⟩
      rw [← hl]
      exact Nat.lt_succ_of_le (List.length_filter_le _ _)

theorem eraseDups_of_nodup {α : Type} [BEq α] [LawfulBEq α] {l : List α} (h : l.Nodup) :
    l.eraseDups = l := by
  induction l with
  | nil => rfl
  | cons a l ih =>
    obtain ⟨ha, hl⟩ := List.nodup_cons.1 h
    have hfilter : l.filter (fun b => !b == a) = l := List.filter_eq_self.2 fun b hb => by
      simpa using ne_of_mem_of_not_mem hb ha
    rw [List.eraseDups_cons, hfilter, ih hl]

/-- **Taking away what is there twice commutes with a map** that tells apart what is there. -/
theorem eraseDups_map {α β : Type} [BEq α] [LawfulBEq α] [BEq β] [LawfulBEq β] {f : α → β}
    {l : List α} (h : Set.InjOn f {a | a ∈ l}) : (l.map f).eraseDups = l.eraseDups.map f := by
  induction hl : l.length using Nat.strongRecOn generalizing l with
  | ind m ih =>
    cases l with
    | nil => rfl
    | cons a l =>
      have hsub : ∀ n ∈ l, n ∈ a :: l := fun n => List.mem_cons_of_mem a
      have hfilter : (l.map f).filter (fun b => !b == f a) = (l.filter fun b => !b == a).map f := by
        rw [List.filter_map]
        refine congrArg _ (List.filter_congr fun b hb => ?_)
        rw [Function.comp, Bool.eq_iff_iff, Bool.not_eq_true', Bool.not_eq_true',
          beq_eq_false_iff_ne, beq_eq_false_iff_ne]
        exact not_congr ⟨h (hsub b hb) List.mem_cons_self, fun e => e ▸ rfl⟩
      rw [List.map_cons, List.eraseDups_cons, List.eraseDups_cons, hfilter, List.map_cons]
      refine congrArg _ (ih _ ?_ (h.mono fun n hn => hsub n (List.mem_filter.1 hn).1) rfl)
      rw [← hl]
      exact Nat.lt_succ_of_le (List.length_filter_le _ _)

/-- The free variables are given new names one by one, in the order that they are in. -/
theorem freeVars_relabel (h : Separates ρ k) : (k.relabel ρ).freeVars = k.freeVars.map ρ := by
  have hinj : Set.InjOn ρ {n | n ∈ k.vars.map Var.name} :=
    h.mono fun n hn => List.mem_eraseDups.2 hn
  rw [freeVars, vars_relabel, List.map_map, freeVars, ← eraseDups_map hinj, List.map_map]
  rfl

theorem contains_stackNames_relabel (h : Separates ρ k) (hn : n ∈ k.freeVars) :
    (k.relabel ρ).stackNames.contains (ρ n) = k.stackNames.contains n := by
  rw [Bool.eq_iff_iff, List.contains_iff_mem, List.contains_iff_mem]
  simp only [stackNames, vars_relabel, List.mem_map, List.mem_filter]
  constructor
  · rintro ⟨_, ⟨⟨v, hv, rfl⟩, hs⟩, he⟩
    exact ⟨v, ⟨hv, hs⟩, (h.eq_iff hv hn).1 he⟩
  · rintro ⟨v, ⟨hv, hs⟩, rfl⟩
    exact ⟨v.relabel ρ, ⟨⟨v, hv, rfl⟩, hs⟩, rfl⟩

/-- **A name has the same canonical variable under its new name.** -/
theorem lookup_canonicalVars_map {isStack isStack' : String → Bool} {names : List String}
    {i j : Nat} (h : Set.InjOn ρ {n | n ∈ names}) (hs : ∀ n ∈ names, isStack' (ρ n) = isStack n)
    (hn : n ∈ names) : ∃ w, (canonicalVars isStack names i j).lookup n = some w ∧
      (canonicalVars isStack' (names.map ρ) i j).lookup (ρ n) = some w := by
  induction names generalizing i j with
  | nil => exact absurd hn List.not_mem_nil
  | cons m names ih =>
    rw [List.forall_mem_cons] at hs
    rw [List.map_cons, canonicalVars, canonicalVars, hs.1]
    by_cases hnm : n = m
    · subst hnm
      split <;> exact ⟨_, List.lookup_cons_self, List.lookup_cons_self⟩
    · have hne : (n == m) = false := beq_eq_false_iff_ne.2 hnm
      have hne' : (ρ n == ρ m) = false :=
        beq_eq_false_iff_ne.2 fun e => hnm (h hn List.mem_cons_self e)
      have hrest := fun {i j} => ih (i := i) (j := j) (h.mono fun _ => List.mem_cons_of_mem m) hs.2
        ((List.mem_cons.1 hn).resolve_left hnm)
      split <;> simpa only [List.lookup_cons, hne, hne'] using hrest

/-- **The canonical form does not depend on the names of variables.** -/
theorem generalize_relabel (h : Separates ρ k) : (k.relabel ρ).generalize = k.generalize := by
  rw [generalize, subst_relabel, generalize]
  refine subst_congr fun v hv => ?_
  have hn : v.name ∈ k.freeVars := mem_freeVars.2 ⟨v, hv, rfl⟩
  obtain ⟨w, hw, hw'⟩ := lookup_canonicalVars_map (i := 0) (j := 0) h
    (fun n hn => contains_stackNames_relabel h hn) hn
  rw [canonicalTable, canonicalTable, freeVars_relabel h, Var.relabel, hw, hw']
  rfl

end Kind

/-! ## Effects -/

/-- An effect with new names for its variables. -/
def Effect.relabel (ρ : String → String) (f : Effect) : Effect :=
  f.subst fun v => (v.relabel ρ).kind

namespace Effect

variable {ρ : String → String} {f : Effect}

@[simp] theorem kind_relabel : (f.relabel ρ).kind = f.kind.relabel ρ := rfl

/-- New names are given in what is consumed and in what is produced. -/
theorem relabel_eq : f.relabel ρ =
    ⟨f.consumed.map (Kind.relabel ρ), f.produced.map (Kind.relabel ρ), f.impure⟩ := by
  rw [relabel, subst, Kind.substSlots_eq_map, Kind.substSlots_eq_map]
  rfl

/-- An effect is told by its kind. -/
theorem kind_injective : Function.Injective Effect.kind := fun f g h => by
  obtain ⟨hc, hp, hi⟩ := Kind.effect.inj h
  cases f
  cases g
  simp_all

/-- **The closed canonical form of an effect does not depend on the names of its variables.** -/
theorem close_generalize_relabel (h : Kind.Separates ρ f.kind) :
    (f.relabel ρ).close.generalize = f.close.generalize := by
  apply kind_injective
  rw [kind_generalize, kind_close, kind_relabel, Kind.close_relabel h,
    Kind.generalize_relabel h.close, kind_generalize, kind_close]

end Effect

end StackEffect
