/-!
# Proofs/Sequence — a list of computations

    xs.mapM f = .ok ys        f answers on every entry of xs, and ys are its answers in order

Computations that may fail, made one after another: they all answer if each of them does, and then
the answers are theirs.
-/

namespace StackEffect

variable {α β ε : Type} {f : α → Except ε β} {xs : List α} {ys : List β}

/-- What a sequence of steps answers, each step answers. -/
theorem map_of_mapM_eq_ok (h : xs.mapM f = .ok ys) : xs.map f = ys.map .ok := by
  induction xs generalizing ys with
  | nil =>
    cases h
    rfl
  | cons x xs ih =>
    rw [List.mapM_cons] at h
    cases hx : f x with
    | error e =>
      rw [hx] at h
      cases h
    | ok y =>
      rw [hx] at h
      cases hxs : xs.mapM f with
      | error e =>
        rw [hxs] at h
        cases h
      | ok zs =>
        rw [hxs] at h
        cases h
        rw [List.map_cons, List.map_cons, hx, ih hxs]

theorem exists_mapM_eq_ok (h : ∀ x ∈ xs, ∃ y, f x = .ok y) : ∃ ys, xs.mapM f = .ok ys := by
  induction xs with
  | nil => exact ⟨[], rfl⟩
  | cons x xs ih =>
    rw [List.forall_mem_cons] at h
    obtain ⟨y, hy⟩ := h.1
    obtain ⟨ys, hys⟩ := ih h.2
    exact ⟨y :: ys, by rw [List.mapM_cons, hy, hys]; rfl⟩

/-- Where computations succeed, each of them has its answer among the answers. -/
theorem exists_mem_of_mapM_eq_ok (h : xs.mapM f = .ok ys) {x : α} (hx : x ∈ xs) :
    ∃ y ∈ ys, f x = .ok y := by
  have hmem : f x ∈ ys.map .ok := map_of_mapM_eq_ok h ▸ List.mem_map_of_mem hx
  obtain ⟨y, hy, he⟩ := List.mem_map.1 hmem
  exact ⟨y, hy, he.symm⟩

/-- Every answer is that of one of the computations. -/
theorem exists_of_mem_mapM_eq_ok (h : xs.mapM f = .ok ys) {y : β} (hy : y ∈ ys) :
    ∃ x ∈ xs, f x = .ok y := by
  have hmem : .ok y ∈ xs.map f := map_of_mapM_eq_ok h ▸ List.mem_map_of_mem hy
  exact List.mem_map.1 hmem

end StackEffect
