import StackEffect.Proofs.Kind.Relabel
import StackEffect.Proofs.Unify.Ground
import StackEffect.Proofs.Unify.Tidy

/-!
# Proofs/Unify/Valuation — effects as relations between stacks

    Maps f x y        under some valuation f consumes x and produces y

The values of variables may have variables themselves.  An effect relates what it consumes to what it
produces, under one valuation and the other.  It relates its own stacks, so that effects which relate
the same stacks are instances of each other; and then they are the same but for names
(`Effect.exists_relabel_of_maps`).
-/

namespace StackEffect

/-- **A proper stack**: slots, and perhaps a stack variable at the bottom. -/
def Stack.Proper : Stack → Prop
  | [] => True
  | k :: s => k.isSlot = true ∧ Proper s ∨ (∃ a, k = .stackVar a) ∧ s = []

/-- Well-formed stacks are proper. -/
theorem Stack.proper_of_wellFormed {s : Stack} (h : Kind.slotsWellFormed s = true) : Proper s := by
  induction s with
  | nil => trivial
  | cons k s ih =>
    rw [Kind.slotsWellFormed, Bool.and_eq_true, Bool.and_eq_true] at h
    obtain ⟨⟨hfits, -⟩, hs⟩ := h
    by_cases hk : ∃ a, k = .stackVar a
    · obtain ⟨a, rfl⟩ := hk
      exact .inr ⟨⟨a, rfl⟩, Kind.eq_nil_of_fitsOn hfits⟩
    · exact .inl ⟨Kind.isSlot_of_fitsOn hfits fun a ha => hk ⟨a, ha⟩, ih hs⟩

theorem Kind.Tidy.of_mem {sort : String → VarSort} {k : Kind} {s : Stack} (h : (stack s).Tidy sort)
    (hk : k ∈ s) : k.Tidy sort ∧ ∀ t, k ≠ stack t := by
  induction s with
  | nil => exact absurd hk List.not_mem_nil
  | cons l s ih =>
    obtain ⟨hfits, hl, hs⟩ := tidy_cons_iff.1 h
    rcases List.mem_cons.1 hk with rfl | hk
    · exact ⟨hl, ne_stack_of_fitsOn hfits⟩
    · exact ih hs hk

namespace Valuation

variable {σ τ : Valuation} {sort : String → VarSort} {k : Kind} {s t : Stack} {r : String → String}

/-- **A valuation of slots by slots and of stacks by stacks.** -/
structure Proper (σ : Valuation) : Prop where
  slot : ∀ n, (σ.slot n).isSlot = true
  rest : ∀ n, Stack.Proper (σ.rest n)

/-- A slot amounts to one slot. -/
theorem exists_value_slot (hσ : σ.Proper) (hk : k.isSlot = true) :
    ∃ x, σ.value k = [x] ∧ x.isSlot = true := by
  cases k with
  | typeVar a => exact ⟨_, rfl, hσ.slot a⟩
  | stack | stackVar => simp at hk
  | _ => exact ⟨_, rfl, rfl⟩

/-- **The value of a proper stack is proper.** -/
theorem proper_values (hσ : σ.Proper) (hs : Stack.Proper s) : Stack.Proper (σ.values s) := by
  induction s with
  | nil => trivial
  | cons k s ih =>
    rcases hs with ⟨hk, hs⟩ | ⟨⟨a, rfl⟩, rfl⟩
    · obtain ⟨x, hx, hslot⟩ := exists_value_slot hσ hk
      rw [values, hx]
      exact .inl ⟨hslot, ih hs⟩
    · rw [values, values, List.append_nil]
      exact hσ.rest a

/-! ## Variables as values -/

/-- The valuation under which every variable stands for itself. -/
def ident : Valuation where
  slot := .typeVar
  rest a := [.stackVar a]

theorem proper_ident : ident.Proper := ⟨fun _ => rfl, fun a => .inr ⟨⟨a, rfl⟩, rfl⟩⟩

theorem values_eq_map_of (h : ∀ k ∈ s, k.Tidy sort → (∀ t, k ≠ .stack t) →
    σ.value k = [k.relabel r]) (hs : (Kind.stack s).Tidy sort) :
    σ.values s = s.map (Kind.relabel r) := by
  induction s with
  | nil => rfl
  | cons k s ih =>
    rw [List.forall_mem_cons] at h
    obtain ⟨hfits, hk, hs⟩ := Kind.tidy_cons_iff.1 hs
    rw [values, h.1 hk (Kind.ne_stack_of_fitsOn hfits), ih h.2 hs]
    rfl

/-- **A valuation of variables by variables gives them new names.** -/
theorem value_eq_relabel (h : ∀ v ∈ k.vars, σ.value v.kind = [(v.relabel r).kind])
    (hk : k.Tidy sort) (hstack : ∀ s, k ≠ .stack s) : σ.value k = [k.relabel r] := by
  induction k using Kind.slotInduction with
  | typeVar a | stackVar a => exact h _ List.mem_cons_self
  | stack s => exact absurd rfl (hstack s)
  | effect c p i hc hp =>
    rw [Kind.vars, List.forall_mem_append] at h
    obtain ⟨htc, htp⟩ := Kind.tidy_effect_iff.1 hk
    rw [value, values_eq_map_of (fun k hk => hc k hk fun v hv => h.1 v (Kind.mem_slotVars.2 ⟨k, hk, hv⟩))
      htc, values_eq_map_of (fun k hk => hp k hk fun v hv => h.2 v (Kind.mem_slotVars.2 ⟨k, hk, hv⟩))
      htp, Kind.relabel_effect]
  | _ => rfl

theorem values_eq_map (h : ∀ v ∈ Kind.slotVars s, σ.value v.kind = [(v.relabel r).kind])
    (hs : (Kind.stack s).Tidy sort) : σ.values s = s.map (Kind.relabel r) :=
  values_eq_map_of (fun _ hk => value_eq_relabel fun v hv =>
    h v (Kind.mem_slotVars.2 ⟨_, hk, hv⟩)) hs

/-- A stack is its own value if variables stand for themselves. -/
theorem values_ident (hs : (Kind.stack s).Tidy sort) : ident.values s = s := by
  rw [values_eq_map (r := id) (fun v _ => ?_) hs, List.map_congr_left fun k _ => Kind.relabel_id,
    List.map_id']
  rcases v with ⟨_ | _, a⟩ <;> rfl

/-! ## Values under other names -/

theorem values_map_relabel_of (h : ∀ k ∈ s, τ.value (k.relabel r) = σ.value k) :
    τ.values (s.map (Kind.relabel r)) = σ.values s := by
  induction s with
  | nil => rfl
  | cons k s ih =>
    rw [List.forall_mem_cons] at h
    rw [List.map_cons, values, h.1, ih h.2, values]

/-- **A kind under other names has the value of the kind** if its variables do. -/
theorem value_relabel_of (h : ∀ v ∈ k.vars, τ.value (v.relabel r).kind = σ.value v.kind) :
    τ.value (k.relabel r) = σ.value k := by
  induction k using Kind.slotInduction with
  | typeVar a | stackVar a => exact h _ List.mem_cons_self
  | stack s ih =>
    rw [Kind.relabel_stack]
    exact values_map_relabel_of fun k hk => ih k hk fun v hv => h v (Kind.mem_slotVars.2 ⟨k, hk, hv⟩)
  | effect c p i hc hp =>
    obtain ⟨hvc, hvp⟩ := List.forall_mem_append.1 h
    rw [Kind.relabel_effect, value, value,
      values_map_relabel_of fun k hk => hc k hk fun v hv => hvc v (Kind.mem_slotVars.2 ⟨k, hk, hv⟩),
      values_map_relabel_of fun k hk => hp k hk fun v hv => hvp v (Kind.mem_slotVars.2 ⟨k, hk, hv⟩)]
  | _ => rfl

/-! ## One valuation after another -/

/-- The value that `τ` gives to what `σ` gives. -/
def after (τ σ : Valuation) : Valuation where
  slot a := (τ.value (σ.slot a)).headD .absent
  rest a := τ.values (σ.rest a)

theorem values_after_of (h : ∀ k ∈ s, τ.values (σ.value k) = (τ.after σ).value k) :
    τ.values (σ.values s) = (τ.after σ).values s := by
  induction s with
  | nil => rfl
  | cons k s ih =>
    rw [List.forall_mem_cons] at h
    rw [values, values_append, h.1, ih h.2, values]

theorem value_after (hσ : σ.Proper) (hτ : τ.Proper) (k : Kind) :
    τ.values (σ.value k) = (τ.after σ).value k := by
  induction k using Kind.slotInduction with
  | typeVar a =>
    obtain ⟨x, hx, -⟩ := exists_value_slot hτ (hσ.slot a)
    rw [value, values, values, List.append_nil, value, hx]
    change [x] = [(τ.value (σ.slot a)).headD .absent]
    rw [hx]
    rfl
  | stackVar a => rfl
  | stack s ih => exact values_after_of ih
  | effect c p i hc hp =>
    rw [value, values, values, value, value, values_after_of hc, values_after_of hp,
      List.append_nil]
  | _ => rfl

/-- **Values of values are values** under the composed valuation. -/
theorem values_after (hσ : σ.Proper) (hτ : τ.Proper) (s : Stack) :
    τ.values (σ.values s) = (τ.after σ).values s :=
  values_after_of fun k _ => value_after hσ hτ k

/-- **Only values that keep the variables keep a stack.** -/
theorem value_eq_self_of_values (h : σ.values s = s) (hs : (Kind.stack s).Tidy sort) :
    ∀ k ∈ s, σ.value k = [k] := by
  induction s with
  | nil => simp
  | cons k s ih =>
    obtain ⟨hfits, hk, hrest⟩ := Kind.tidy_cons_iff.1 hs
    by_cases hvar : ∃ a, k = .stackVar a
    · obtain ⟨a, rfl⟩ := hvar
      obtain rfl := Kind.eq_nil_of_fitsOn hfits
      rw [values, values, List.append_nil] at h
      exact List.forall_mem_singleton.2 h
    · obtain ⟨x, hx, hcons⟩ := values_cons (σ := σ) hfits fun a ha => hvar ⟨a, ha⟩
      obtain ⟨rfl, heq⟩ := List.cons.inj (hcons.symm.trans h)
      exact List.forall_mem_cons.2 ⟨hx, ih heq hrest⟩

theorem value_var_eq_self_of (hs : (Kind.stack s).Tidy sort) (h : σ.values s = s)
    (ih : ∀ k ∈ s, σ.value k = [k] → k.Tidy sort → (∀ t, k ≠ .stack t) →
      ∀ v ∈ k.vars, σ.value v.kind = [v.kind]) :
    ∀ v ∈ Kind.slotVars s, σ.value v.kind = [v.kind] := by
  intro v hv
  obtain ⟨k, hk, hvk⟩ := Kind.mem_slotVars.1 hv
  obtain ⟨htidy, hstack⟩ := hs.of_mem hk
  exact ih k hk (value_eq_self_of_values h hs k hk) htidy hstack v hvk

/-- Where a kind is its own value, its variables stand for themselves. -/
theorem value_var_eq_self (h : σ.value k = [k]) (hk : k.Tidy sort) (hstack : ∀ s, k ≠ .stack s) :
    ∀ v ∈ k.vars, σ.value v.kind = [v.kind] := by
  induction k using Kind.slotInduction with
  | typeVar a | stackVar a => exact List.forall_mem_singleton.2 h
  | stack s => exact absurd rfl (hstack s)
  | effect c p i hc hp =>
    obtain ⟨htc, htp⟩ := Kind.tidy_effect_iff.1 hk
    obtain ⟨hvc, hvp, -⟩ := Kind.effect.inj (List.singleton_inj.1 h)
    exact List.forall_mem_append.2
      ⟨value_var_eq_self_of htc hvc hc, value_var_eq_self_of htp hvp hp⟩
  | _ => simp [Kind.vars]

theorem value_var_eq_self_of_values (h : σ.values s = s) (hs : (Kind.stack s).Tidy sort) :
    ∀ v ∈ Kind.slotVars s, σ.value v.kind = [v.kind] :=
  value_var_eq_self_of hs h fun _ _ => value_var_eq_self

/-- A variable whose value has the variable as its value is given a new name. -/
theorem exists_relabel_var (hσ : σ.Proper) (hτ : τ.Proper) {v : Var}
    (h : τ.values (σ.value v.kind) = [v.kind]) : ∃ n, σ.value v.kind = [(Var.mk v.sort n).kind] := by
  rcases v with ⟨_ | _, a⟩
  · -- a slot that is no variable has no variable as its value
    have hvalue : τ.value (σ.slot a) = [.typeVar a] := by simpa [value, values, Var.kind] using h
    have hslot := hσ.slot a
    cases hk : σ.slot a with
    | typeVar n => exact ⟨n, congrArg (fun k => [k]) hk⟩
    | stackVar | stack => simp [hk] at hslot
    | _ => simp [hk, value] at hvalue
  · have hvalue : τ.values (σ.rest a) = [.stackVar a] := h
    have hrest := hσ.rest a
    cases hk : σ.rest a with
    | nil => simp [hk, values] at hvalue
    | cons k s =>
      rw [hk] at hvalue hrest
      rcases hrest with ⟨hslot, -⟩ | ⟨⟨n, rfl⟩, rfl⟩
      · obtain ⟨x, hx, hxs⟩ := exists_value_slot hτ hslot
        rw [values, hx] at hvalue
        obtain ⟨rfl, -⟩ := List.cons.inj hvalue
        simp at hxs
      · exact ⟨n, hk⟩

end Valuation

/-! ## Effects as relations -/

namespace Effect

variable {f g : Effect} {sort : String → VarSort} {x y : Stack}

/-- **The stacks that an effect relates**: what it consumes to what it produces, under one valuation
and the other. -/
def Maps (f : Effect) (x y : Stack) : Prop :=
  ∃ σ : Valuation, σ.Proper ∧ σ.values f.consumed = x ∧ σ.values f.produced = y

/-- An effect relates its own stacks. -/
theorem maps_self (hf : f.kind.Tidy sort) : f.Maps f.consumed f.produced := by
  obtain ⟨hc, hp⟩ := Kind.tidy_effect_iff.1 hf
  exact ⟨.ident, Valuation.proper_ident, Valuation.values_ident hc, Valuation.values_ident hp⟩

/-- **Effects that relate each other's stacks are the same but for names.** -/
theorem exists_relabel_of_maps (hf : f.kind.Tidy sort) {sort' : String → VarSort}
    (hg : g.kind.Tidy sort') (hfg : f.Maps g.consumed g.produced)
    (hgf : g.Maps f.consumed f.produced) (himpure : g.impure = f.impure) :
    ∃ r, Kind.Separates r f.kind ∧ g = f.relabel r := by
  obtain ⟨σ, hσ, hσc, hσp⟩ := hfg
  obtain ⟨τ, hτ, hτc, hτp⟩ := hgf
  obtain ⟨hfc, hfp⟩ := Kind.tidy_effect_iff.1 hf
  -- the one valuation after the other keeps the variables
  rw [← hσc, Valuation.values_after hσ hτ] at hτc
  rw [← hσp, Valuation.values_after hσ hτ] at hτp
  have hself : ∀ v ∈ f.kind.vars, τ.values (σ.value v.kind) = [v.kind] := fun v hv => by
    rw [Valuation.value_after hσ hτ]
    exact List.forall_mem_append.2 ⟨Valuation.value_var_eq_self_of_values hτc hfc,
      Valuation.value_var_eq_self_of_values hτp hfp⟩ v hv
  have hname : ∀ a, (∃ v ∈ f.kind.vars, v.name = a) →
      ∃ n, σ.value (Var.mk (sort a) a).kind = [(Var.mk (sort a) n).kind] := by
    rintro _ ⟨v, hv, rfl⟩
    rw [hf.2 v hv]
    exact Valuation.exists_relabel_var hσ hτ (hself v hv)
  choose! r hr using hname
  have hrelabel : ∀ v ∈ f.kind.vars, σ.value v.kind = [(v.relabel r).kind] := fun v hv => by
    have := hr v.name ⟨v, hv, rfl⟩
    rwa [hf.2 v hv] at this
  have heq : g = f.relabel r := by
    obtain ⟨hvc, hvp⟩ := List.forall_mem_append.1 hrelabel
    rw [relabel_eq, ← Valuation.values_eq_map hvc hfc, ← Valuation.values_eq_map hvp hfp, hσc, hσp,
      ← himpure]
  refine ⟨r, fun a ha b hb hab => ?_, heq⟩
  obtain ⟨v, hv, rfl⟩ := Kind.mem_freeVars.1 ha
  obtain ⟨w, hw, rfl⟩ := Kind.mem_freeVars.1 hb
  have hsort : ∀ v ∈ f.kind.vars, sort' (r v.name) = v.sort := fun v hv => by
    refine hg.2 (v.relabel r) ?_
    rw [heq, kind_relabel, Kind.vars_relabel]
    exact List.mem_map_of_mem hv
  have hvw : v.relabel r = w.relabel r := by
    rw [Var.relabel, Var.relabel, hab, ← hsort v hv, ← hsort w hw, hab]
  have hkind : v.kind = w.kind := by
    rw [← List.singleton_inj, ← hself v hv, ← hself w hw, hrelabel v hv, hrelabel w hw, hvw]
  have hvars : v.kind.vars = w.kind.vars := congrArg Kind.vars hkind
  rw [Kind.vars_varKind, Kind.vars_varKind, List.singleton_inj] at hvars
  rw [hvars]

end Effect

end StackEffect
