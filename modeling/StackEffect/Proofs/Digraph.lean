import Mathlib.Data.Fintype.Card
import Mathlib.Data.List.FinRange
import Mathlib.Logic.Relation
import StackEffect.Digraph

/-!
# Proofs/Digraph — components come after all that can be reached from them

    components g             the classes of vertices that lead to each other
    dependencyOrder g        every vertex once; a successor comes first, unless it leads back

The search keeps an invariant (`Search.Inv`) about what is emitted and what waits on the stack.  A
visit leaves the marks there were as they are (`Search.Grows`).  What it leaves on the stack leads
back to what lay there before, and has no successor that was not met; so a vertex that leads no
further back closes a component, and all vertices of it lead to each other.  Paths from a component
only lead to components emitted before, so no others do (`components_partition_by_reachability`).
-/

namespace StackEffect

namespace Digraph

variable {n : Nat} {g : Digraph n}

/-! ## Edges -/

theorem mem_succ_addEdge {u v w x : Fin n} :
    x ∈ (g.addEdge v w).succ u ↔ x ∈ g.succ u ∨ u = v ∧ x = w := by
  unfold addEdge
  split
  · next h =>
    have hw : w ∈ g.succ v := by simpa [hasEdge] using h
    refine ⟨.inl, fun h => h.elim id ?_⟩
    rintro ⟨rfl, rfl⟩
    exact hw
  · by_cases hu : u = v
    · subst hu
      simp [succ]
    · simp [succ, hu, Fin.val_ne_of_ne (Ne.symm hu)]

theorem mem_succ_foldl_addEdge {edges : List (Fin n × Fin n)} {u x : Fin n} :
    x ∈ (edges.foldl (fun g e => g.addEdge e.1 e.2) g).succ u ↔
      x ∈ g.succ u ∨ (u, x) ∈ edges := by
  induction edges generalizing g with
  | nil => simp
  | cons e edges ih =>
    rw [List.foldl_cons, ih, mem_succ_addEdge, List.mem_cons, Prod.ext_iff, or_assoc]

/-- **The graph of a list of edges has these edges.** -/
theorem mem_succ_ofEdges {edges : List (Fin n × Fin n)} {u x : Fin n} :
    x ∈ (ofEdges n edges).succ u ↔ (u, x) ∈ edges := by
  rw [ofEdges, mem_succ_foldl_addEdge]
  simp [empty, succ]

/-! ## Paths -/

/-- A path leads from one vertex to another. -/
def Reach (g : Digraph n) : Fin n → Fin n → Prop := Relation.ReflTransGen fun u v => v ∈ g.succ u

/-- **Successors come first, unless they lead back.** -/
def Ordered (g : Digraph n) (order : List (Fin n)) : Prop :=
  ∀ pre u post, order = pre ++ u :: post → ∀ v ∈ g.succ u, v ∈ pre ∨ g.Reach v u

/-- Vertices that lead to each other may follow on all that they lead to. -/
theorem Ordered.append {order comp : List (Fin n)} (h : g.Ordered order)
    (hsucc : ∀ u ∈ comp, ∀ v ∈ g.succ u, v ∈ order ∨ v ∈ comp)
    (hconn : ∀ u ∈ comp, ∀ v ∈ comp, g.Reach u v) : g.Ordered (order ++ comp) := by
  intro pre u post he v hv
  rcases List.append_eq_append_iff.1 he with ⟨pre', rfl, hcomp⟩ | ⟨rest, rfl, hrest⟩
  · have hu : u ∈ comp := by simp [hcomp]
    rcases hsucc u hu v hv with hv | hv
    · exact .inl (List.mem_append_left _ hv)
    · exact .inr (hconn v hv u hu)
  · cases rest with
    | nil =>
      have hu : u ∈ comp := by
        rw [List.nil_append] at hrest
        simp [← hrest]
      rcases hsucc u hu v hv with hv | hv
      · exact .inl (by simpa using hv)
      · exact .inr (hconn v hv u hu)
    | cons u' rest =>
      obtain ⟨rfl, rfl⟩ := List.cons.inj hrest
      exact h pre u rest rfl v hv

namespace Search

/-- The vertices in the order in which they were emitted. -/
def emitted (s : Search n) : List (Fin n) := s.found.reverse.flatten

/-- **The invariant of the search.** -/
structure Inv (g : Digraph n) (s : Search n) : Prop where
  stack_nodup : s.stack.Nodup
  mem_stack : ∀ {w}, w ∈ s.stack ↔ ∃ i, s.mark w = .waiting i
  lt_count : ∀ {w i}, s.mark w = .waiting i → i < s.count
  mem_emitted : ∀ {w}, w ∈ s.emitted ↔ s.mark w = .done
  emitted_nodup : s.emitted.Nodup
  ordered : g.Ordered s.emitted
  connected : ∀ c ∈ s.found, ∀ u ∈ c, ∀ w ∈ c, g.Reach u w
  closed : ∀ c before, c :: before <:+ s.found → ∀ u ∈ c, ∀ w ∈ g.succ u, w ∈ before.flatten ∨ w ∈ c

/-- **What a visit may do**: vertices that were met keep their marks and their places. -/
structure Grows (s t : Search n) : Prop where
  stack : s.stack <:+ t.stack
  marks : ∀ {w}, s.mark w ≠ .fresh → t.mark w = s.mark w
  count_le : s.count ≤ t.count
  number : ∀ {w i}, s.mark w = .fresh → t.mark w = .waiting i → s.count ≤ i
  emitted : s.emitted <+: t.emitted

variable {s t u : Search n} {v w : Fin n}

namespace Grows

theorem refl (s : Search n) : s.Grows s where
  stack := List.suffix_rfl
  marks _ := rfl
  count_le := Nat.le_refl _
  number hf hw := by simp [hf] at hw
  emitted := List.prefix_rfl

theorem ne_fresh (h : s.Grows t) (hw : s.mark w ≠ .fresh) : t.mark w ≠ .fresh := by
  rwa [h.marks hw]

theorem trans (h : s.Grows t) (h' : t.Grows u) : s.Grows u where
  stack := h.stack.trans h'.stack
  marks hw := (h'.marks (h.ne_fresh hw)).trans (h.marks hw)
  count_le := Nat.le_trans h.count_le h'.count_le
  number {w i} hf hw := by
    by_cases ht : t.mark w = .fresh
    · exact Nat.le_trans h.count_le (h'.number ht hw)
    · exact h.number hf ((h'.marks ht).symm.trans hw)
  emitted := h.emitted.trans h'.emitted

end Grows

/-- The number of vertices not met yet. -/
def freshCount (s : Search n) : Nat := (Finset.univ.filter fun w : Fin n => s.mark w = .fresh).card

theorem Grows.freshCount_le (h : s.Grows t) : t.freshCount ≤ s.freshCount := by
  refine Finset.card_le_card fun w hw => ?_
  simp only [Finset.mem_filter, Finset.mem_univ, true_and] at hw ⊢
  by_contra hs
  exact h.ne_fresh hs hw

/-! ## Meeting a vertex -/

theorem mark_setMark (s : Search n) (v w : Fin n) (m : Mark) :
    (s.setMark v m).mark w = if w = v then m else s.mark w := by
  by_cases h : w = v
  · subst h
    simp [mark, setMark]
  · rw [if_neg h]
    simp [mark, setMark, Fin.val_ne_of_ne (Ne.symm h)]

theorem mark_meet (s : Search n) (v w : Fin n) :
    (s.meet v).mark w = if w = v then .waiting s.count else s.mark w :=
  mark_setMark s v w _

theorem Inv.not_mem_stack (h : s.Inv g) (hv : s.mark v = .fresh) : v ∉ s.stack := by
  intro hm
  obtain ⟨i, hi⟩ := h.mem_stack.1 hm
  simp [hv] at hi

theorem Inv.meet (h : s.Inv g) (hv : s.mark v = .fresh) : (s.meet v).Inv g where
  stack_nodup := List.nodup_cons.2 ⟨h.not_mem_stack hv, h.stack_nodup⟩
  mem_stack {w} := by
    rw [mark_meet]
    change w ∈ v :: s.stack ↔ _
    by_cases hw : w = v
    · simp [hw]
    · rw [if_neg hw, ← h.mem_stack, List.mem_cons, or_iff_right hw]
  lt_count {w i} hi := by
    rw [mark_meet] at hi
    change i < s.count + 1
    split at hi
    · cases hi
      exact Nat.lt_succ_self _
    · exact Nat.lt_succ_of_lt (h.lt_count hi)
  mem_emitted {w} := by
    rw [mark_meet]
    change w ∈ s.emitted ↔ _
    split
    · next hw => simp [h.mem_emitted, hw, hv]
    · exact h.mem_emitted
  emitted_nodup := h.emitted_nodup
  ordered := h.ordered
  connected := h.connected
  closed := h.closed

theorem grows_meet (hv : s.mark v = .fresh) : s.Grows (s.meet v) where
  stack := List.suffix_cons v s.stack
  marks {w} hw := by
    rw [mark_meet, if_neg]
    rintro rfl
    exact hw hv
  count_le := Nat.le_succ _
  number {w i} hf hw := by
    rw [mark_meet] at hw
    split at hw
    · cases hw
      exact Nat.le_refl _
    · simp [hf] at hw
  emitted := List.prefix_rfl

theorem freshCount_meet_lt (hv : s.mark v = .fresh) : (s.meet v).freshCount < s.freshCount := by
  refine Finset.card_lt_card (Finset.ssubset_iff_subset_ne.2 ⟨fun w hw => ?_, fun heq => ?_⟩)
  · simp only [Finset.mem_filter, Finset.mem_univ, true_and] at hw ⊢
    by_contra hs
    exact (grows_meet hv).ne_fresh hs hw
  · have hmem : v ∈ Finset.univ.filter fun w : Fin n => s.mark w = .fresh := by simp [hv]
    rw [← heq] at hmem
    simp [mark_meet] at hmem

/-! ## Emitting a component -/

theorem mark_foldl_done (comp : List (Fin n)) (s : Search n) (w : Fin n) :
    (comp.foldl (fun s x => s.setMark x .done) s).mark w =
      if w ∈ comp then .done else s.mark w := by
  induction comp generalizing s with
  | nil => simp
  | cons x comp ih =>
    rw [List.foldl_cons, ih, mark_setMark]
    by_cases hw : w ∈ comp
    · simp [hw]
    · by_cases hx : w = x <;> simp [hw, hx]

variable {seg rest : List (Fin n)}

/-- What lies above a vertex on the stack makes its component. -/
theorem emit_eq (hs : s.stack = seg ++ v :: rest) (hv : v ∉ seg) : s.emit v =
    { s with
      marks := ((seg ++ [v]).foldl (fun s w => s.setMark w .done) s).marks
      stack := rest
      found := (seg ++ [v]) :: s.found } := by
  have hseg : ∀ w ∈ seg, (w != v) = true := by
    intro w hw
    rw [bne_iff_ne]
    rintro rfl
    exact hv hw
  have htake : s.stack.takeWhile (· != v) = seg := by
    rw [hs, List.takeWhile_append_of_pos hseg]
    simp
  have hdrop : s.stack.dropWhile (· != v) = v :: rest := by
    rw [hs, List.dropWhile_append_of_pos hseg]
    simp
  rw [emit, htake, hdrop]
  rfl

theorem mark_emit (hs : s.stack = seg ++ v :: rest) (hv : v ∉ seg) (w : Fin n) :
    (s.emit v).mark w = if w ∈ seg ++ [v] then .done else s.mark w := by
  rw [emit_eq hs hv]
  exact mark_foldl_done _ _ w

theorem emitted_emit (hs : s.stack = seg ++ v :: rest) (hv : v ∉ seg) :
    (s.emit v).emitted = s.emitted ++ (seg ++ [v]) := by
  rw [emit_eq hs hv]
  simp [emitted]

/-- **A component may be emitted** when its vertices lead to each other, and to nothing else that
was not emitted. -/
theorem Inv.emit (h : s.Inv g) (hs : s.stack = seg ++ v :: rest)
    (hsucc : ∀ u ∈ seg ++ [v], ∀ w ∈ g.succ u, w ∈ s.emitted ∨ w ∈ seg ++ [v])
    (hconn : ∀ u ∈ seg ++ [v], ∀ w ∈ seg ++ [v], g.Reach u w) : (s.emit v).Inv g := by
  have hstack : s.stack = (seg ++ [v]) ++ rest := by simp [hs]
  obtain ⟨hcomp, hrest, hdisj⟩ := List.nodup_append.1 (hstack ▸ h.stack_nodup)
  have hv : v ∉ seg := fun hm => (List.nodup_append.1 hcomp).2.2 v hm v List.mem_cons_self rfl
  have hmem : ∀ w ∈ seg ++ [v], ∃ i, s.mark w = .waiting i := fun w hw =>
    h.mem_stack.1 (hstack ▸ List.mem_append_left _ hw)
  refine ⟨?_, ?_, ?_, ?_, ?_, ?_, ?_, ?_⟩
  · rw [emit_eq hs hv]
    exact hrest
  · intro w
    rw [mark_emit hs hv]
    have : w ∈ (s.emit v).stack ↔ w ∈ rest := by rw [emit_eq hs hv]
    rw [this]
    split
    · next hw => simpa using fun hr => hdisj w hw w hr rfl
    · next hw => rw [← h.mem_stack, hstack, List.mem_append, or_iff_right hw]
  · intro w i hi
    rw [mark_emit hs hv] at hi
    have : (s.emit v).count = s.count := by rw [emit_eq hs hv]
    rw [this]
    split at hi
    · simp at hi
    · exact h.lt_count hi
  · intro w
    rw [mark_emit hs hv, emitted_emit hs hv, List.mem_append, h.mem_emitted]
    split <;> simp_all
  · rw [emitted_emit hs hv]
    refine List.nodup_append.2 ⟨h.emitted_nodup, hcomp, fun a ha b hb hab => ?_⟩
    subst hab
    obtain ⟨i, hi⟩ := hmem a hb
    simp [h.mem_emitted.1 ha] at hi
  · rw [emitted_emit hs hv]
    exact h.ordered.append hsucc hconn
  · rw [emit_eq hs hv]
    exact List.forall_mem_cons.2 ⟨hconn, h.connected⟩
  · intro c before hc
    rw [emit_eq hs hv] at hc
    rcases List.suffix_cons_iff.1 hc with he | hc
    · obtain ⟨rfl, rfl⟩ := List.cons.inj he
      simpa [emitted] using hsucc
    · exact h.closed c before hc

/-! ## Visiting a vertex -/

/-- **What a visit of `v` ensures.**  What it meets comes from `v`; what it leaves on the stack leads
back to what lay there, and has been followed; its answer is a number that `v` leads back to, or that
of `v`. -/
structure Visited (g : Digraph n) (v : Fin n) (s : Search n) (low : Nat) (t : Search n) : Prop where
  inv : t.Inv g
  grows : s.Grows t
  met : t.mark v ≠ .fresh
  reach : ∀ {x}, s.mark x = .fresh → t.mark x ≠ .fresh → g.Reach v x
  back : ∀ x ∈ t.stack, ∃ y ∈ s.stack, g.Reach x y
  followed : ∀ x ∈ t.stack, x ∉ s.stack → ∀ z ∈ g.succ x,
    t.mark z ≠ .fresh ∧ ∀ j, t.mark z = .waiting j → low ≤ j
  low_le : low ≤ s.count
  low : low = s.count ∨ ∃ y ∈ s.stack, s.mark y = .waiting low ∧ g.Reach v y

/-- What holds while the edges from `v` are followed, after `v` was met in `s`. -/
structure Following (g : Digraph n) (v : Fin n) (s : Search n) (low : Nat) (t : Search n) :
    Prop where
  inv : t.Inv g
  grows : (s.meet v).Grows t
  reach : ∀ {x}, s.mark x = .fresh → t.mark x ≠ .fresh → g.Reach v x
  back : ∀ x ∈ t.stack, g.Reach x v
  followed : ∀ x ∈ t.stack, x ≠ v → x ∉ s.stack → ∀ z ∈ g.succ x,
    t.mark z ≠ .fresh ∧ ∀ j, t.mark z = .waiting j → low ≤ j
  low_le : low ≤ s.count
  low : low = s.count ∨ ∃ y ∈ s.stack, s.mark y = .waiting low ∧ g.Reach v y

/-- A number below that of `v` is that of a vertex that waited before. -/
theorem Following.old {low i : Nat} (h : Following g v s low t) (hs : s.Inv g)
    (hw : t.mark w = .waiting i) (hi : i < s.count) : w ∈ s.stack ∧ s.mark w = .waiting i := by
  have hm : (s.meet v).mark w = .waiting i := by
    by_cases hf : (s.meet v).mark w = .fresh
    · have : s.count + 1 ≤ i := h.grows.number hf hw
      omega
    · rw [← h.grows.marks hf, hw]
  rw [mark_meet] at hm
  split at hm
  · cases hm
    omega
  · exact ⟨hs.mem_stack.2 ⟨i, hm⟩, hm⟩

/-- Lowering the answer to a number that was reached. -/
theorem Following.lower {low i : Nat} (h : Following g v s low t) (hs : s.Inv g)
    (hi : s.count ≤ i ∨ ∃ w, t.mark w = .waiting i ∧ g.Reach v w) :
    Following g v s (min low i) t := by
  refine { h with followed := ?_, low_le := ?_, low := ?_ }
  · intro x hx hxv hxs z hz
    obtain ⟨hf, hj⟩ := h.followed x hx hxv hxs z hz
    exact ⟨hf, fun j hzj => Nat.le_trans (Nat.min_le_left _ _) (hj j hzj)⟩
  · exact Nat.le_trans (Nat.min_le_left _ _) h.low_le
  · have hle := h.low_le
    by_cases hlt : i < low
    · rw [Nat.min_eq_right (Nat.le_of_lt hlt)]
      rcases hi with hi | ⟨w, hw, hr⟩
      · omega
      · obtain ⟨hws, hsw⟩ := h.old hs hw (by omega)
        exact .inr ⟨w, hws, hsw, hr⟩
    · rw [Nat.min_eq_left (by omega)]
      exact h.low

/-- A visit to a successor of `v`. -/
theorem Following.visited {low l : Nat} (h : Following g v s low t) (hu : Visited g w t l u)
    (hw : w ∈ g.succ v) (hl : low ≤ l) : Following g v s low u where
  inv := hu.inv
  grows := h.grows.trans hu.grows
  back x hx := by
    obtain ⟨y, hy, hxy⟩ := hu.back x hx
    exact hxy.trans (h.back y hy)
  reach {x} hs hu' := by
    by_cases ht : t.mark x = .fresh
    · exact .head hw (hu.reach ht hu')
    · exact h.reach hs ht
  followed x hx hxv hxs z hz := by
    by_cases hxt : x ∈ t.stack
    · obtain ⟨hf, hj⟩ := h.followed x hxt hxv hxs z hz
      exact ⟨hu.grows.ne_fresh hf, fun j hzj => hj j ((hu.grows.marks hf).symm.trans hzj)⟩
    · obtain ⟨hf, hj⟩ := hu.followed x hx hxt z hz
      exact ⟨hf, fun j hzj => Nat.le_trans hl (hj j hzj)⟩
  low_le := h.low_le
  low := h.low

theorem following_meet (hs : s.Inv g) (hv : s.mark v = .fresh)
    (hback : ∀ x ∈ s.stack, g.Reach x v) :
    Following g v s s.count (s.meet v) where
  inv := hs.meet hv
  grows := .refl _
  back x hx := by
    rcases List.mem_cons.1 hx with rfl | hx
    · exact .refl
    · exact hback x hx
  reach {x} hs ht := by
    rw [mark_meet] at ht
    split at ht
    · next hx => exact hx ▸ .refl
    · exact absurd hs ht
  followed x hx hxv hxs := by
    rcases List.mem_cons.1 hx with rfl | hx
    · exact absurd rfl hxv
    · exact absurd hx hxs
  low_le := Nat.le_refl _
  low := .inl rfl

/-- What a visit has to ensure, for the search that uses it. -/
def Visits (g : Digraph n) (depth : Nat) (visit : Fin n → Search n → Nat × Search n) : Prop :=
  ∀ {w s}, s.Inv g → s.mark w = .fresh → (∀ x ∈ s.stack, g.Reach x w) → s.freshCount ≤ depth →
    Visited g w s (visit w s).1 (visit w s).2

/-- What following the edges from `v` to `ws` ensures. -/
structure Followed (g : Digraph n) (v : Fin n) (s : Search n) (ws : List (Fin n)) (low : Nat)
    (t : Search n) (r : Nat × Search n) : Prop where
  following : Following g v s r.1 r.2
  low_le : r.1 ≤ low
  grows : t.Grows r.2
  met : ∀ w ∈ ws, r.2.mark w ≠ .fresh ∧ ∀ j, r.2.mark w = .waiting j → r.1 ≤ j

/-- One edge more, to a vertex that has been met when the others are followed. -/
theorem Followed.cons {low low' : Nat} {ws : List (Fin n)} {r : Nat × Search n}
    (h : Followed g v s ws low' u r) (hle : low' ≤ low) (hgrow : t.Grows u)
    (hf : u.mark w ≠ .fresh) (hj : ∀ j, u.mark w = .waiting j → low' ≤ j) :
    Followed g v s (w :: ws) low t r where
  following := h.following
  low_le := Nat.le_trans h.low_le hle
  grows := hgrow.trans h.grows
  met := List.forall_mem_cons.2 ⟨⟨h.grows.ne_fresh hf, fun j hwj =>
    Nat.le_trans h.low_le (hj j ((h.grows.marks hf).symm.trans hwj))⟩, h.met⟩

/-- **Following an edge to a vertex not met before.** -/
theorem Following.fresh {depth low : Nat} {visit : Fin n → Search n → Nat × Search n}
    (hvisit : Visits g depth visit) (hs : s.Inv g) (hd : (s.meet v).freshCount ≤ depth)
    (h : Following g v s low t) (hw : w ∈ g.succ v) (hf : t.mark w = .fresh) :
    Visited g w t (visit w t).1 (visit w t).2 ∧
      Following g v s (min low (visit w t).1) (visit w t).2 := by
  have hu := hvisit h.inv hf (fun x hx => (h.back x hx).tail hw)
    (Nat.le_trans h.grows.freshCount_le hd)
  have hnum : s.count ≤ (visit w t).1 ∨ ∃ y, t.mark y = .waiting (visit w t).1 ∧ g.Reach v y := by
    rcases hu.low with he | ⟨y, -, hy, hr⟩
    · have : s.count + 1 ≤ t.count := h.grows.count_le
      omega
    · exact .inr ⟨y, hy, .head hw hr⟩
  exact ⟨hu, (h.lower hs hnum).visited hu hw (Nat.min_le_right _ _)⟩

theorem Following.follow {depth low : Nat} {visit : Fin n → Search n → Nat × Search n}
    (hvisit : Visits g depth visit) (hs : s.Inv g) (hd : (s.meet v).freshCount ≤ depth)
    {ws : List (Fin n)} (hws : ∀ w ∈ ws, w ∈ g.succ v) (h : Following g v s low t) :
    Followed g v s ws low t (Digraph.follow visit ws low t) := by
  induction ws generalizing low t with
  | nil => exact ⟨h, Nat.le_refl _, .refl t, by simp⟩
  | cons w ws ih =>
    rw [List.forall_mem_cons] at hws
    rw [Digraph.follow]
    split
    · next hw =>
      have hw' : t.mark w = .fresh := hw
      obtain ⟨hu, hF⟩ := h.fresh hvisit hs hd hws.1 hw'
      refine (ih hws.2 hF).cons (Nat.min_le_left _ _) hu.grows hu.met fun j hj => ?_
      exact Nat.le_trans (Nat.min_le_right _ _) (Nat.le_trans hu.low_le (hu.grows.number hw' hj))
    · next i hw =>
      have hw' : t.mark w = .waiting i := hw
      have hF := h.lower hs (.inr ⟨w, hw', .single hws.1⟩)
      refine (ih hws.2 hF).cons (Nat.min_le_left _ _) (.refl t) (by simp [hw']) fun j hj => ?_
      obtain rfl : i = j := by simpa [hw'] using hj
      exact Nat.min_le_right _ _
    · next hw =>
      have hw' : t.mark w = .done := hw
      exact (ih hws.2 h).cons (Nat.le_refl _) (.refl t) (by simp [hw']) (by simp [hw'])

/-- **A vertex that leads no further back closes its component.** -/
theorem Following.emit (h : Following g v s s.count t) (hs : s.Inv g) (hv : s.mark v = .fresh)
    (hmet : ∀ z ∈ g.succ v, t.mark z ≠ .fresh ∧ ∀ j, t.mark z = .waiting j → s.count ≤ j) :
    Visited g v s s.count (t.emit v) := by
  obtain ⟨seg, hseg⟩ := h.grows.stack
  have hstack : t.stack = seg ++ v :: s.stack := hseg.symm
  have hnodup := h.inv.stack_nodup
  rw [hstack, List.nodup_append] at hnodup
  obtain ⟨-, -, hdisj⟩ := hnodup
  have hvseg : v ∉ seg := fun hm => hdisj v hm v List.mem_cons_self rfl
  have hcomp : ∀ x ∈ seg ++ [v], x ∈ t.stack ∧ x ∉ s.stack := by
    intro x hx
    rcases List.mem_append.1 hx with hx | hx
    · exact ⟨hstack ▸ List.mem_append_left _ hx,
        fun hxs => hdisj x hx x (List.mem_cons_of_mem _ hxs) rfl⟩
    · rw [List.mem_singleton.1 hx]
      exact ⟨by simp [hstack], hs.not_mem_stack hv⟩
  have hfollowed : ∀ x ∈ seg ++ [v], ∀ z ∈ g.succ x,
      t.mark z ≠ .fresh ∧ ∀ j, t.mark z = .waiting j → s.count ≤ j := by
    intro x hx
    by_cases hxv : x = v
    · exact hxv ▸ hmet
    · exact h.followed x (hcomp x hx).1 hxv (hcomp x hx).2
  have hst := (grows_meet hv).trans h.grows
  have hreach : ∀ x ∈ seg ++ [v], g.Reach v x := by
    intro x hx
    obtain ⟨i, hi⟩ := h.inv.mem_stack.1 (hcomp x hx).1
    refine h.reach ?_ (by simp [hi])
    by_contra hs'
    exact (hcomp x hx).2 (hs.mem_stack.2 ⟨i, (hst.marks hs').symm.trans hi⟩)
  -- marks of vertices that were met before are not those of the component
  have hgrows : s.Grows (t.emit v) := by
    refine ⟨?_, fun {w} hw => ?_, ?_, fun {w i} hf hw => ?_, ?_⟩
    · rw [emit_eq hstack hvseg]
    · rw [mark_emit hstack hvseg, if_neg, hst.marks hw]
      intro hwc
      obtain ⟨i, hi⟩ := h.inv.mem_stack.1 (hcomp w hwc).1
      exact (hcomp w hwc).2 (hs.mem_stack.2 ⟨i, (hst.marks hw).symm.trans hi⟩)
    · rw [emit_eq hstack hvseg]
      exact hst.count_le
    · rw [mark_emit hstack hvseg] at hw
      split at hw
      · simp at hw
      · exact hst.number hf hw
    · rw [emitted_emit hstack hvseg]
      exact hst.emitted.trans (List.prefix_append _ _)
  have hrest : (t.emit v).stack = s.stack := by rw [emit_eq hstack hvseg]
  refine ⟨h.inv.emit hstack ?_ ?_, hgrows, ?_, ?_, ?_, ?_, Nat.le_refl _, .inl rfl⟩
  · intro x hx z hz
    obtain ⟨hf, hj⟩ := hfollowed x hx z hz
    cases hz' : t.mark z with
    | fresh => exact absurd hz' hf
    | done => exact .inl (h.inv.mem_emitted.2 hz')
    | waiting j =>
      right
      have hzt : z ∈ (seg ++ [v]) ++ s.stack := by
        rw [List.append_assoc, List.singleton_append, ← hstack]
        exact h.inv.mem_stack.2 ⟨j, hz'⟩
      refine (List.mem_append.1 hzt).resolve_right fun hzs => ?_
      -- a vertex that waited before has a lower number
      obtain ⟨i, hi⟩ := hs.mem_stack.1 hzs
      have hzi : t.mark z = .waiting i := by
        rw [hst.marks (by simp [hi]), hi]
      have hij : i = j := by simpa [hz'] using hzi.symm
      have := hs.lt_count hi
      have := hj j hz'
      omega
  · intro x hx y hy
    exact (h.back x (hcomp x hx).1).trans (hreach y hy)
  · rw [mark_emit hstack hvseg, if_pos (by simp)]
    simp
  · intro x hs' ht'
    rw [mark_emit hstack hvseg] at ht'
    split at ht'
    · next hx => exact hreach x hx
    · exact h.reach hs' ht'
  · rw [hrest]
    exact fun x hx => ⟨x, hx, .refl⟩
  · rw [hrest]
    exact fun x hx hxs => absurd hx hxs

theorem Following.visited_of_ne {low : Nat} (h : Following g v s low t) (hv : s.mark v = .fresh)
    (hlow : low ≠ s.count)
    (hmet : ∀ z ∈ g.succ v, t.mark z ≠ .fresh ∧ ∀ j, t.mark z = .waiting j → low ≤ j) :
    Visited g v s low t where
  inv := h.inv
  grows := (grows_meet hv).trans h.grows
  met := h.grows.ne_fresh (by simp [mark_meet])
  back x hx := by
    obtain ⟨y, hy, -, hvy⟩ := h.low.resolve_left hlow
    exact ⟨y, hy, (h.back x hx).trans hvy⟩
  reach := h.reach
  followed x hx hxs := by
    by_cases hxv : x = v
    · exact hxv ▸ hmet
    · exact h.followed x hx hxv hxs
  low_le := h.low_le
  low := h.low

end Search

open Search

/-- **A visit ensures what the search relies on**, if there are no more vertices to meet than levels
left. -/
theorem visits_visit (g : Digraph n) (depth : Nat) : Visits g depth (g.visit depth) := by
  induction depth with
  | zero =>
    intro w s hs hw _ hd
    have hmem : w ∈ Finset.univ.filter fun x : Fin n => s.mark x = .fresh := by simp [hw]
    exact absurd (Finset.card_pos.2 ⟨w, hmem⟩) (by simpa [freshCount] using hd)
  | succ depth ih =>
    intro v s hs hv hback hd
    have hd' : (s.meet v).freshCount ≤ depth := by
      have := freshCount_meet_lt hv
      omega
    have hF := (following_meet hs hv hback).follow ih hs hd' fun w hw => hw
    rw [visit]
    generalize follow (g.visit depth) (g.succ v) s.count (s.meet v) = r at hF
    obtain ⟨low, t⟩ := r
    dsimp only
    split
    · next hlow =>
      subst hlow
      exact hF.following.emit hs hv hF.met
    · next hlow => exact hF.following.visited_of_ne hv hlow hF.met

/-! ## The whole search -/

/-- Every visit from an empty stack ends with an empty stack. -/
theorem Search.Visited.stack_eq_nil {v : Fin n} {s t : Search n} {low : Nat}
    (h : Visited g v s low t) (hs : s.stack = []) : t.stack = [] := by
  refine List.eq_nil_iff_forall_not_mem.2 fun x hx => ?_
  obtain ⟨y, hy, -⟩ := h.back x hx
  simp [hs] at hy

theorem inv_start (g : Digraph n) : (Search.start n).Inv g where
  stack_nodup := List.nodup_nil
  mem_stack := by simp [start, mark]
  lt_count := by simp [start, mark]
  mem_emitted := by simp [start, mark, emitted]
  emitted_nodup := by simp [start, emitted]
  ordered pre u post h := by simp [start, emitted] at h
  connected := by simp [start]
  closed c before h := by simp [start] at h

theorem inv_searchAll (vs : List (Fin n)) {s : Search n} (hs : s.Inv g) (hstack : s.stack = []) :
    let t := vs.foldl (fun s v => if s.mark v = .fresh then (g.visit n v s).2 else s) s
    t.Inv g ∧ t.stack = [] ∧ s.Grows t ∧ ∀ v ∈ vs, t.mark v ≠ .fresh := by
  induction vs generalizing s with
  | nil => exact ⟨hs, hstack, .refl s, by simp⟩
  | cons v vs ih =>
    rw [List.foldl_cons]
    split
    · next hv =>
      have hvis := visits_visit g n hs hv (by simp [hstack]) (by
        simpa [freshCount] using
          Finset.card_filter_le Finset.univ fun w : Fin n => s.mark w = .fresh)
      obtain ⟨h₁, h₂, h₃, h₄⟩ := ih hvis.inv (hvis.stack_eq_nil hstack)
      exact ⟨h₁, h₂, hvis.grows.trans h₃, List.forall_mem_cons.2 ⟨h₃.ne_fresh hvis.met, h₄⟩⟩
    · next hv =>
      obtain ⟨h₁, h₂, h₃, h₄⟩ := ih hs hstack
      exact ⟨h₁, h₂, h₃, List.forall_mem_cons.2 ⟨h₃.ne_fresh hv, h₄⟩⟩

/-- **Every vertex comes once, after its successors, but for those that lead back to it.** -/
theorem dependencyOrder_spec (g : Digraph n) :
    g.dependencyOrder.Nodup ∧ (∀ v, v ∈ g.dependencyOrder) ∧ g.Ordered g.dependencyOrder := by
  obtain ⟨hinv, hstack, -, hmet⟩ := inv_searchAll (List.finRange n) (inv_start g) rfl
  refine ⟨hinv.emitted_nodup, fun v => hinv.mem_emitted.2 ?_, hinv.ordered⟩
  generalize (List.finRange n).foldl _ _ = t at *
  cases hv : t.mark v with
  | fresh => exact absurd hv (hmet v (List.mem_finRange v))
  | done => rfl
  | waiting i => simpa [hstack] using hinv.mem_stack.2 ⟨i, hv⟩

/-- **The vertices of a component lead to each other.** -/
theorem reach_of_mem_component {c : List (Fin n)} (hc : c ∈ g.components) {u v : Fin n} (hu : u ∈ c)
    (hv : v ∈ c) : g.Reach u v := by
  obtain ⟨hinv, -⟩ := inv_searchAll (List.finRange n) (inv_start g) rfl
  exact hinv.connected c (List.mem_reverse.1 hc) u hu v hv

/-- **A component comes after the successors of its vertices**, but for those that are in it. -/
theorem mem_flatten_or_mem_of_succ {pre post : List (List (Fin n))} {c : List (Fin n)}
    (hc : g.components = pre ++ c :: post) {u v : Fin n} (hu : u ∈ c) (hv : v ∈ g.succ u) :
    v ∈ pre.flatten ∨ v ∈ c := by
  obtain ⟨hinv, -⟩ := inv_searchAll (List.finRange n) (inv_start g) rfl
  have hfound := congrArg List.reverse hc
  rw [components, List.reverse_reverse, List.reverse_append, List.reverse_cons, List.append_assoc,
    List.singleton_append] at hfound
  have h := hinv.closed c pre.reverse ⟨post.reverse, hfound.symm⟩ u hu v hv
  simpa using h

/-- **A component comes after the successors of its vertices** that do not lead back. -/
theorem mem_components_before {pre post : List (List (Fin n))} {c : List (Fin n)}
    (hc : g.components = pre ++ c :: post) {u v : Fin n} (hu : u ∈ c) (hv : v ∈ g.succ u)
    (hback : ¬ g.Reach v u) : v ∈ pre.flatten :=
  (mem_flatten_or_mem_of_succ hc hu hv).resolve_right fun hvc =>
    hback (reach_of_mem_component (hc ▸ List.mem_append_right _ List.mem_cons_self) hvc hu)

/-! ## Components and paths -/

/-- **Paths lead to components emitted before**, or stay in the component. -/
theorem mem_flatten_or_mem_of_reach {pre post : List (List (Fin n))} {c : List (Fin n)}
    (hc : g.components = pre ++ c :: post) {u v : Fin n} (hu : u ∈ c) (h : g.Reach u v) :
    v ∈ pre.flatten ∨ v ∈ c := by
  induction h with
  | refl => exact .inr hu
  | tail _ hv ih =>
    rcases ih with hw | hw
    · obtain ⟨d, hd, hwd⟩ := List.mem_flatten.1 hw
      obtain ⟨pre₁, pre₂, rfl⟩ := List.append_of_mem hd
      rw [List.append_assoc, List.cons_append] at hc
      rw [List.flatten_append, List.flatten_cons, List.mem_append, List.mem_append]
      exact .inl ((mem_flatten_or_mem_of_succ hc hwd hv).imp_right .inl)
    · exact mem_flatten_or_mem_of_succ hc hw hv

/-- A vertex of one component is in none that was emitted before. -/
theorem not_mem_flatten_of_mem {pre post : List (List (Fin n))} {c : List (Fin n)}
    (hc : g.components = pre ++ c :: post) {v : Fin n} (hv : v ∈ c) : v ∉ pre.flatten := by
  have hnodup := (dependencyOrder_spec g).1
  rw [dependencyOrder, hc, List.flatten_append, List.flatten_cons] at hnodup
  exact fun hp => (List.nodup_append.1 hnodup).2.2 v hp v (List.mem_append_left _ hv) rfl

/-- **What leads to a component and back is in it.** -/
theorem mem_component_of_reach {c : List (Fin n)} (hc : c ∈ g.components) {u v : Fin n} (hu : u ∈ c)
    (huv : g.Reach u v) (hvu : g.Reach v u) : v ∈ c := by
  obtain ⟨pre, post, hsplit⟩ := List.append_of_mem hc
  refine (mem_flatten_or_mem_of_reach hsplit hu huv).resolve_left fun hv => ?_
  -- otherwise the way back would end before the component, too
  obtain ⟨d, hd, hvd⟩ := List.mem_flatten.1 hv
  obtain ⟨pre₁, pre₂, rfl⟩ := List.append_of_mem hd
  refine not_mem_flatten_of_mem hsplit hu ?_
  rw [List.append_assoc, List.cons_append] at hsplit
  rw [List.flatten_append, List.flatten_cons, List.mem_append, List.mem_append]
  exact (mem_flatten_or_mem_of_reach hsplit hvd hvu).imp_right .inl

/-- Every vertex is in a component. -/
theorem exists_component (g : Digraph n) (v : Fin n) : ∃ c ∈ g.components, v ∈ c :=
  List.mem_flatten.1 ((dependencyOrder_spec g).2.1 v)

/-- **Two vertices share a component if each leads to the other**, and only then. -/
theorem exists_component_iff {u v : Fin n} :
    (∃ c ∈ g.components, u ∈ c ∧ v ∈ c) ↔ g.Reach u v ∧ g.Reach v u := by
  constructor
  · rintro ⟨c, hc, hu, hv⟩
    exact ⟨reach_of_mem_component hc hu hv, reach_of_mem_component hc hv hu⟩
  · rintro ⟨huv, hvu⟩
    obtain ⟨c, hc, hu⟩ := exists_component g u
    exact ⟨c, hc, hu, mem_component_of_reach hc hu huv hvu⟩

/-- **An edge between components leads to one emitted before.** -/
theorem component_lt_of_succ {i j : Nat} {c d : List (Fin n)} (hi : g.components[i]? = some c)
    (hj : g.components[j]? = some d) {u v : Fin n} (hu : u ∈ c) (hv : v ∈ d) (hne : i ≠ j)
    (huv : v ∈ g.succ u) : j < i := by
  refine Nat.lt_of_le_of_ne (Nat.le_of_not_lt fun hij => ?_) hne.symm
  obtain ⟨hjl, rfl⟩ := List.getElem?_eq_some_iff.1 hj
  have hsplit : g.components = g.components.take j ++ g.components[j] :: g.components.drop (j + 1) := by
    rw [← List.drop_eq_getElem_cons hjl, List.take_append_drop]
  -- the component of `u` would be emitted before that of `v`, and `v` before it or in it
  have hc : c ∈ g.components.take j := by
    obtain ⟨hil, rfl⟩ := List.getElem?_eq_some_iff.1 hi
    exact List.mem_take_iff_getElem.2 ⟨i, by omega, rfl⟩
  obtain ⟨pre, mid, hpre⟩ := List.append_of_mem hc
  have hbefore := hsplit
  rw [hpre, List.append_assoc, List.cons_append] at hbefore
  refine not_mem_flatten_of_mem hsplit hv ?_
  rw [hpre, List.flatten_append, List.flatten_cons, List.mem_append, List.mem_append]
  exact (mem_flatten_or_mem_of_succ hbefore hu huv).imp_right .inl

/-! ## Cycles -/

/-- **A component is cyclic if a cycle passes through it**, and only then. -/
theorem isCyclic_iff {c : List (Fin n)} (hc : c ∈ g.components) :
    g.isCyclic c = true ↔ ∃ v ∈ c, Relation.TransGen (fun u w => w ∈ g.succ u) v v := by
  rcases c with - | ⟨v, - | ⟨w, c⟩⟩
  · simp [isCyclic]
  · rw [isCyclic, hasEdge, List.contains_iff_mem]
    simp only [List.mem_singleton, exists_eq_left]
    refine ⟨fun h => .single h, fun h => ?_⟩
    -- the first vertex that the cycle leads to is in the component
    obtain ⟨w, hw, hwv⟩ := Relation.TransGen.head'_iff.1 h
    obtain rfl := List.mem_singleton.1 (mem_component_of_reach hc List.mem_cons_self (.single hw) hwv)
    exact hw
  · refine iff_of_true rfl ⟨v, List.mem_cons_self, ?_⟩
    have hnodup : (v :: w :: c).Nodup :=
      (List.nodup_flatten.1 (dependencyOrder_spec g).1).1 _ hc
    have hne : w ≠ v := fun he => (List.nodup_cons.1 hnodup).1 (he ▸ List.mem_cons_self)
    have hvw : g.Reach v w := reach_of_mem_component hc List.mem_cons_self (by simp)
    have hwv : g.Reach w v := reach_of_mem_component hc (by simp) List.mem_cons_self
    exact ((Relation.reflTransGen_iff_eq_or_transGen.1 hvw).resolve_left hne).trans_left hwv

/-- **A cycle passes through a cyclic component.** -/
theorem exists_cycle_of_isCyclic {c : List (Fin n)} (hc : c ∈ g.components)
    (h : g.isCyclic c = true) : ∃ v, Relation.TransGen (fun u w => w ∈ g.succ u) v v :=
  ((isCyclic_iff hc).1 h).imp fun _ hv => hv.2

/-- **Where there is a cycle, there is a cyclic component.** -/
theorem exists_isCyclic_of_cycle {v : Fin n} (h : Relation.TransGen (fun u w => w ∈ g.succ u) v v) :
    ∃ c ∈ g.components, g.isCyclic c = true := by
  obtain ⟨c, hc, hv⟩ := exists_component g v
  exact ⟨c, hc, (isCyclic_iff hc).2 ⟨v, hv, h⟩⟩

/-! ## The order of the vertices -/

/-- A successor that does not lead back stands before its vertex. -/
theorem idxOf_lt_of_succ {u v : Fin n} (huv : v ∈ g.succ u) (hback : ¬ g.Reach v u) :
    g.dependencyOrder.idxOf v < g.dependencyOrder.idxOf u := by
  obtain ⟨c, hc, hu⟩ := exists_component g u
  obtain ⟨pre, post, hsplit⟩ := List.append_of_mem hc
  have hv : v ∈ pre.flatten := mem_components_before hsplit hu huv hback
  have hu' : u ∉ pre.flatten := not_mem_flatten_of_mem hsplit hu
  rw [dependencyOrder, hsplit, List.flatten_append, List.idxOf_append_of_mem hv,
    List.idxOf_append_of_notMem hu']
  exact Nat.lt_add_right _ (List.idxOf_lt_length_of_mem hv)

theorem dependencyOrder_perm (g : Digraph n) : g.dependencyOrder.Perm (List.finRange n) := by
  obtain ⟨hnodup, hmem, -⟩ := dependencyOrder_spec g
  refine (List.perm_ext_iff_of_nodup hnodup (List.nodup_finRange n)).2 fun v => ?_
  simp [hmem v]

/-- **Components partition the vertices by reachability, in dependency order.**  Whatever edges a
graph is built of, every vertex is in one component and once; two share a component if and only if
each can be reached from the other; and an edge between components leads to one emitted before.  So
the components one after another list the vertices once, a successor before its vertex unless it leads
back to it; and a component is cyclic if and only if a cycle passes through one of its vertices. -/
theorem components_partition_by_reachability (n : Nat) (edges : List (Fin n × Fin n)) :
    (∀ v, (ofEdges n edges).components.flatten.count v = 1) ∧
      (∀ u v, (∃ c ∈ (ofEdges n edges).components, u ∈ c ∧ v ∈ c) ↔
        Relation.ReflTransGen (fun a b => (a, b) ∈ edges) u v ∧
          Relation.ReflTransGen (fun a b => (a, b) ∈ edges) v u) ∧
      (∀ u v (i j : Nat) c d, (u, v) ∈ edges → (ofEdges n edges).components[i]? = some c →
        (ofEdges n edges).components[j]? = some d → u ∈ c → v ∈ d → i ≠ j → j < i) ∧
      (ofEdges n edges).dependencyOrder.Perm (List.finRange n) ∧
      (∀ u v, (u, v) ∈ edges → ¬ Relation.ReflTransGen (fun a b => (a, b) ∈ edges) v u →
        (ofEdges n edges).dependencyOrder.idxOf v < (ofEdges n edges).dependencyOrder.idxOf u) ∧
      ∀ c ∈ (ofEdges n edges).components, (ofEdges n edges).isCyclic c = true ↔
        ∃ v ∈ c, Relation.TransGen (fun a b => (a, b) ∈ edges) v v := by
  have hedge : (fun a b => (a, b) ∈ edges) = fun a b => b ∈ (ofEdges n edges).succ a := by
    funext a b
    exact propext mem_succ_ofEdges.symm
  obtain ⟨hnodup, hmem, -⟩ := dependencyOrder_spec (ofEdges n edges)
  rw [hedge]
  refine ⟨fun v => List.count_eq_one_of_mem hnodup (hmem v), fun u v => exists_component_iff,
    fun u v i j c d huv hi hj hu hv hne =>
      component_lt_of_succ hi hj hu hv hne (mem_succ_ofEdges.2 huv),
    dependencyOrder_perm _, fun u v huv => idxOf_lt_of_succ (mem_succ_ofEdges.2 huv),
    fun c => isCyclic_iff⟩

/-- Two vertices that lead to each other, one above them and one with an edge to itself. -/
example : (ofEdges 4 [(0, 1), (1, 2), (2, 1), (3, 3)]).components = [[2, 1], [0], [3]] := by
  decide +kernel

end Digraph

end StackEffect
