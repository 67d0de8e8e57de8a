import StackEffect.Kind.Canonical
import StackEffect.Proofs.Kind.Shape

/-!
# Proofs/Kind/Renaming — new names for variables, and closed effects

    k  ⟶  subst f k          variables become variables of the same sort
    k  ⟶  closeWith drop k    effects lose the stack variable that they pass through

Both keep the shape of a kind (`Reshaped`): it is made of parts of the same description, bottomed if
it was before, and flat just if it was before.
-/

namespace StackEffect.Kind

variable {p : Kind → Bool} {f : Var → Kind} {g : Kind → Kind} {drop : String → Bool} {k l : Kind}
  {s c d : Stack} {i : Bool}

/-- **`l` has the shape of `k`**, and its parts satisfy `p`. -/
structure Reshaped (p : Kind → Bool) (k l : Kind) : Prop where
  all : l.all p = true
  bottomed : k.bottomed = true → l.bottomed = true
  flat : l.flat = k.flat
  isStack : l.isStack = k.isStack
  isStackVar : l.isStackVar = k.isStackVar

/-- What is reshaped twice is reshaped. -/
theorem Reshaped.trans {m : Kind} (h : Reshaped p k l) (h' : Reshaped p l m) : Reshaped p k m where
  all := h'.all
  bottomed hk := h'.bottomed (h.bottomed hk)
  flat := h'.flat.trans h.flat
  isStack := h'.isStack.trans h.isStack
  isStackVar := h'.isStackVar.trans h.isStackVar

theorem slotsAll_map (h : ∀ k ∈ s, Reshaped p k (g k)) : slotsAll p (s.map g) = true :=
  slotsAll_iff.2 (List.forall_mem_map.2 fun k hk => (h k hk).all)

/-- Reshaping slots leaves stack variables at the bottom. -/
theorem slotsBottomed_map (h : ∀ k ∈ s, Reshaped p k (g k)) (hs : slotsBottomed s = true) :
    slotsBottomed (s.map g) = true := by
  rw [slotsBottomed_iff] at hs ⊢
  rw [← List.map_dropLast, List.forall_mem_map, List.forall_mem_map]
  refine ⟨fun k hk => (h k hk).bottomed (hs.1 k hk), fun k hk => ?_⟩
  rw [(h k (List.dropLast_subset s hk)).isStackVar, hs.2 k hk]

/-- Reshaping slots puts no stacks among them. -/
theorem slotsFlat_map (h : ∀ k ∈ s, Reshaped p k (g k)) : slotsFlat (s.map g) = slotsFlat s := by
  rw [Bool.eq_iff_iff, slotsFlat_iff, slotsFlat_iff, List.forall_mem_map]
  refine forall₂_congr fun k hk => ?_
  rw [(h k hk).isStack, (h k hk).flat]

/-- A function is reshaped if its slots are. -/
theorem reshaped_effect (hc : ∀ k ∈ c, Reshaped p k (g k)) (hd : ∀ k ∈ d, Reshaped p k (g k)) :
    Reshaped p (effect c d i) (effect (c.map g) (d.map g) i) where
  all := Bool.and_eq_true_iff.2 ⟨slotsAll_map hc, slotsAll_map hd⟩
  bottomed h := Bool.and_eq_true_iff.2 ((Bool.and_eq_true_iff.1 h).imp (slotsBottomed_map hc)
    (slotsBottomed_map hd))
  flat := by rw [flat, flat, slotsFlat_map hc, slotsFlat_map hd]
  isStack := rfl
  isStackVar := rfl

/-- A stack is reshaped if its slots are. -/
theorem reshaped_stack (h : ∀ k ∈ s, Reshaped p k (g k)) :
    Reshaped p (stack s) (stack (s.map g)) where
  all := slotsAll_map h
  bottomed := slotsBottomed_map h
  flat := slotsFlat_map h
  isStack := rfl
  isStackVar := rfl

/-! ## Renaming -/

/-- **A renaming of the variables that satisfy `p`**: they become variables of the same sort that
satisfy it too. -/
def Renames (p : Kind → Bool) (f : Var → Kind) : Prop :=
  ∀ v : Var, p v.kind = true → ∃ w : Var, f v = w.kind ∧ w.sort = v.sort ∧ p w.kind = true

/-- A variable is reshaped by renaming it. -/
theorem Renames.reshaped_var (hf : Renames p f) {v : Var} (hv : p v.kind = true) :
    Reshaped p v.kind (f v) := by
  obtain ⟨w, hw, hs, hp⟩ := hf v hv
  rw [hw]
  obtain ⟨sort, a⟩ := v
  obtain ⟨_, b⟩ := w
  cases hs
  cases sort <;> exact ⟨hp, fun _ => rfl, rfl, rfl, rfl⟩

/-- **A renamed kind has the shape of the kind.** -/
theorem Renames.reshaped (hf : Renames p f) (h : k.all p = true) : Reshaped p k (k.subst f) := by
  induction k using Kind.slotInduction with
  | typeVar a => exact hf.reshaped_var (v := ⟨.slot, a⟩) h
  | stackVar a => exact hf.reshaped_var (v := ⟨.stack, a⟩) h
  | stack s ih =>
    rw [subst, substSlots_eq_map]
    exact reshaped_stack fun k hk => ih k hk (slotsAll_iff.1 h k hk)
  | effect c d i hc hd =>
    obtain ⟨h₁, h₂⟩ := Bool.and_eq_true_iff.1 h
    rw [subst, substSlots_eq_map, substSlots_eq_map]
    exact reshaped_effect (fun k hk => hc k hk (slotsAll_iff.1 h₁ k hk))
      fun k hk => hd k hk (slotsAll_iff.1 h₂ k hk)
  | _ => exact ⟨h, id, rfl, rfl, rfl⟩

/-! ## Closing -/

/-- The slots of a stack are closed one by one. -/
theorem closeSlots_eq_map (s : Stack) : closeSlots drop s = s.map (closeWith drop) := by
  induction s with
  | nil => rfl
  | cons k s ih => rw [closeSlots, ih, List.map_cons]

/-- Without the stack variable at its bottom a stack keeps its shape. -/
theorem slotsFlat_dropLast {a : String} (h : s.getLast? = some (stackVar a)) :
    slotsFlat s.dropLast = slotsFlat s := by
  obtain ⟨above, rfl⟩ := List.getLast?_eq_some_iff.1 h
  rw [List.dropLast_concat, Bool.eq_iff_iff, slotsFlat_iff, slotsFlat_iff]
  simp [or_imp, forall_and, isStack, flat]

theorem slotsBottomed_dropLast (h : slotsBottomed s = true) : slotsBottomed s.dropLast = true := by
  rw [slotsBottomed_iff] at h ⊢
  exact ⟨fun k hk => h.1 k (List.dropLast_subset s hk),
    fun k hk => h.2 k (List.dropLast_subset _ hk)⟩

/-- What is reshaped stays so if the variables at the bottom are taken away. -/
theorem Reshaped.dropLast {c' d' : Stack} {a b : String}
    (h : Reshaped p k (effect c' d' i)) (hc : c'.getLast? = some (stackVar a))
    (hd : d'.getLast? = some (stackVar b)) :
    Reshaped p k (effect c'.dropLast d'.dropLast i) where
  all := by
    have hall := h.all
    rw [Kind.all, Bool.and_eq_true, slotsAll_iff, slotsAll_iff] at hall ⊢
    exact ⟨fun l hl => hall.1 l (List.dropLast_subset _ hl),
      fun l hl => hall.2 l (List.dropLast_subset _ hl)⟩
  bottomed hk := by
    have hb := h.bottomed hk
    rw [Kind.bottomed, Bool.and_eq_true] at hb ⊢
    exact hb.imp slotsBottomed_dropLast slotsBottomed_dropLast
  flat := by
    rw [← h.flat, Kind.flat, Kind.flat, slotsFlat_dropLast hc, slotsFlat_dropLast hd]
  isStack := h.isStack
  isStackVar := h.isStackVar

/-- **A kind whose effects are closed has the shape of the kind.** -/
theorem reshaped_closeWith (h : k.all p = true) : Reshaped p k (k.closeWith drop) := by
  induction k using Kind.slotInduction with
  | stack s ih =>
    rw [closeWith, closeSlots_eq_map]
    exact reshaped_stack fun k hk => ih k hk (slotsAll_iff.1 h k hk)
  | effect c d i hc hd =>
    obtain ⟨h₁, h₂⟩ := Bool.and_eq_true_iff.1 h
    have heff : Reshaped p (effect c d i)
        (effect (c.map (closeWith drop)) (d.map (closeWith drop)) i) :=
      reshaped_effect (fun k hk => hc k hk (slotsAll_iff.1 h₁ k hk))
        fun k hk => hd k hk (slotsAll_iff.1 h₂ k hk)
    rw [closeWith, closeSlots_eq_map, closeSlots_eq_map]
    split
    · next hdrop =>
      -- both stacks end in the stack variable that is dropped
      obtain ⟨a, ha, -⟩ := (Option.any_eq_true _ _).1 hdrop
      unfold Stack.sharedBottom? Stack.bottom? at ha
      split at ha
      · next x y hx hy =>
        exact heff.dropLast (a := x) (b := y) (by rw [List.getLast?_map, hx]; rfl)
          (by rw [List.getLast?_map, hy]; rfl)
      · simp at ha
    · exact heff
  | _ => exact ⟨h, id, rfl, rfl, rfl⟩

end StackEffect.Kind

namespace StackEffect

theorem Effect.kind_close (f : Effect) : f.close.kind = f.kind.close := by
  obtain ⟨c, p, h⟩ : ∃ c p, f.kind.close = .effect c p f.impure := by
    rw [Effect.kind, Kind.close, Kind.closeWith]
    split <;> exact ⟨_, _, rfl⟩
  rw [Effect.close, h]
  rfl

end StackEffect
