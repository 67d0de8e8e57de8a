import StackEffect.Proofs.Digraph

/-!
# Proofs/Digraph/Twin — what two graphs share of their orders

    dependencyOrder g  =  u  a  b  w  c        g and g' agree about a, b, c,
    dependencyOrder g' =  a  w  u  b  c        and no way leads from u or w to them

Two searches meet the vertices that they agree about in the same order, and see the same ones wait;
what else they meet in between is emitted before they come back (`Search.Visited.quiet`).  Numbers
differ, as the others are numbered too, but they compare alike (`Search.Twin`).
-/

namespace StackEffect

namespace Digraph

variable {n : Nat} {g g' : Digraph n} {N : Fin n → Bool} {v w : Fin n}

/-- No way leads from the other vertices to those in `N`. -/
def Shuts (g : Digraph n) (N : Fin n → Bool) : Prop :=
  ∀ v, N v = false → ∀ w ∈ g.succ v, N w = false

theorem Shuts.reach (h : g.Shuts N) (hvw : g.Reach v w) (hv : N v = false) : N w = false := by
  induction hvw with
  | refl => exact hv
  | tail _ hw ih => exact h _ ih _ hw

namespace Search

variable {s s' t t' u : Search n} {low low' i i' : Nat}

/-! ## Vertices that do not matter -/

/-- **Nothing changes for the vertices in `N`.** -/
structure Quiet (N : Fin n → Bool) (s t : Search n) : Prop where
  stack : t.stack = s.stack
  mark : ∀ {x}, N x = true → t.mark x = s.mark x
  emitted : t.emitted.filter N = s.emitted.filter N

theorem Quiet.refl (N : Fin n → Bool) (s : Search n) : Quiet N s s := ⟨rfl, fun _ => rfl, rfl⟩

/-- **A visit of another vertex** changes nothing for those in `N`, and does not lead back. -/
theorem Visited.quiet (h : Visited g w s low t) (hs : s.Inv g) (hN : g.Shuts N) (hw : N w = false)
    (hin : ∀ x ∈ s.stack, N x = true) : Quiet N s t ∧ low = s.count := by
  have hnew : ∀ {x}, s.mark x = .fresh → t.mark x ≠ .fresh → N x = false := fun hx hx' =>
    hN.reach (h.reach hx hx') hw
  have hout : ∀ {x y}, N x = false → y ∈ s.stack → ¬ g.Reach x y := fun hx hy hxy => by
    have := hN.reach hxy hx
    rw [hin _ hy] at this
    exact absurd this (by decide)
  refine ⟨⟨?_, fun {x} hx => ?_, ?_⟩, ?_⟩
  · obtain ⟨seg, hseg⟩ := h.grows.stack
    have hnil : seg = [] := by
      refine List.eq_nil_iff_forall_not_mem.2 fun x hx => ?_
      have hxt : x ∈ t.stack := hseg ▸ List.mem_append_left _ hx
      have hxs : x ∉ s.stack := fun hxs =>
        (List.nodup_append.1 (hseg ▸ h.inv.stack_nodup)).2.2 x hx x hxs rfl
      obtain ⟨i, hi⟩ := h.inv.mem_stack.1 hxt
      have hf : s.mark x = .fresh := by
        by_contra hf
        exact hxs (hs.mem_stack.2 ⟨i, (h.grows.marks hf).symm.trans hi⟩)
      obtain ⟨y, hy, hxy⟩ := h.back x hxt
      exact hout (hnew hf (by simp [hi])) hy hxy
    rw [← hseg, hnil, List.nil_append]
  · by_cases hf : s.mark x = .fresh
    · by_contra hne
      have := hnew hf fun ht => hne (ht.trans hf.symm)
      simp [hx] at this
    · exact h.grows.marks hf
  · obtain ⟨ext, hext⟩ := h.grows.emitted
    have hnil : ext.filter N = [] := by
      refine List.filter_eq_nil_iff.2 fun x hx => ?_
      have hdone := h.inv.mem_emitted.1 (hext ▸ List.mem_append_right _ hx)
      have hf : s.mark x = .fresh := by
        by_contra hf
        have hxs := hs.mem_emitted.2 ((h.grows.marks hf).symm.trans hdone)
        exact (List.nodup_append.1 (hext ▸ h.inv.emitted_nodup)).2.2 x hxs x hx rfl
      simp [hnew hf (by simp [hdone])]
    rw [← hext, List.filter_append, hnil, List.append_nil]
  · exact h.low.resolve_right fun ⟨y, hy, _, hr⟩ => hout hw hy hr

/-! ## Searches side by side -/

/-- **Two searches that agree about the vertices in `N`**: the same ones wait, in the same order, and
the same ones have been emitted. -/
structure Twin (N : Fin n → Bool) (s s' : Search n) : Prop where
  stack : s'.stack = s.stack
  within : ∀ x ∈ s.stack, N x = true
  fresh : ∀ {x}, N x = true → (s'.mark x = .fresh ↔ s.mark x = .fresh)
  lt_iff : ∀ {x y i j i' j'}, N x = true → N y = true → s.mark x = .waiting i →
    s.mark y = .waiting j → s'.mark x = .waiting i' → s'.mark y = .waiting j' → (i' < j' ↔ i < j)
  emitted : s'.emitted.filter N = s.emitted.filter N

/-- Two numbers that two searches gave to one vertex, which waits. -/
def Numbered (N : Fin n → Bool) (s s' : Search n) (i i' : Nat) : Prop :=
  ∃ y, N y = true ∧ s.mark y = .waiting i ∧ s'.mark y = .waiting i'

theorem Twin.quiet (h : Twin N s s') (ht : Quiet N s t) (ht' : Quiet N s' t') : Twin N t t' where
  stack := by rw [ht'.stack, ht.stack, h.stack]
  within := by rw [ht.stack]; exact h.within
  fresh hx := by rw [ht.mark hx, ht'.mark hx, h.fresh hx]
  lt_iff hx hy := by
    rw [ht.mark hx, ht.mark hy, ht'.mark hx, ht'.mark hy]
    exact h.lt_iff hx hy
  emitted := by rw [ht.emitted, ht'.emitted, h.emitted]

theorem Numbered.quiet (h : Numbered N s s' i i') (ht : Quiet N s t) (ht' : Quiet N s' t') :
    Numbered N t t' i i' :=
  h.imp fun y hy => by rwa [ht.mark hy.1, ht'.mark hy.1]

theorem Numbered.grows (h : Numbered N s s' i i') (ht : s.Grows t) (ht' : s'.Grows t') :
    Numbered N t t' i i' :=
  h.imp fun y hy => by
    rwa [ht.marks (by simp [hy.2.1]), ht'.marks (by simp [hy.2.2])]

theorem Twin.lower (h : Twin N s s') (hl : Numbered N s s' low low') (hi : Numbered N s s' i i') :
    Numbered N s s' (min low i) (min low' i') := by
  obtain ⟨x, hx, hxl, hxl'⟩ := hl
  obtain ⟨y, hy, hyi, hyi'⟩ := hi
  have hlt := h.lt_iff hy hx hyi hxl hyi' hxl'
  by_cases hil : i < low
  · have := hlt.2 hil
    rw [Nat.min_eq_right (Nat.le_of_lt hil), Nat.min_eq_right (Nat.le_of_lt this)]
    exact ⟨y, hy, hyi, hyi'⟩
  · have := mt hlt.1 hil
    rw [Nat.min_eq_left (Nat.le_of_not_lt hil), Nat.min_eq_left (Nat.le_of_not_lt this)]
    exact ⟨x, hx, hxl, hxl'⟩

theorem Twin.waiting (h : Twin N s s') (hs : s.Inv g) (hs' : s'.Inv g') (hw : s.mark w = .waiting i) :
    ∃ i', s'.mark w = .waiting i' :=
  hs'.mem_stack.1 (h.stack ▸ hs.mem_stack.2 ⟨i, hw⟩)

theorem Twin.done (h : Twin N s s') (hs : s.Inv g) (hs' : s'.Inv g') (hN : N w = true)
    (hw : s.mark w = .done) : s'.mark w = .done := by
  cases hw' : s'.mark w with
  | fresh => simp [(h.fresh hN).1 hw'] at hw
  | done => rfl
  | waiting i =>
    obtain ⟨j, hj⟩ := hs.mem_stack.1 (h.stack ▸ hs'.mem_stack.2 ⟨i, hw'⟩)
    simp [hw] at hj

theorem Twin.meet (h : Twin N s s') (hs : s.Inv g) (hs' : s'.Inv g') (hv : N v = true) :
    Twin N (s.meet v) (s'.meet v) where
  stack := congrArg (v :: ·) h.stack
  within := List.forall_mem_cons.2 ⟨hv, h.within⟩
  fresh {x} hx := by
    rw [mark_meet, mark_meet]
    split
    · simp
    · exact h.fresh hx
  lt_iff {x y i j i' j'} hx hy hi hj hi' hj' := by
    rw [mark_meet] at hi hj hi' hj'
    -- a vertex that waits already has a lower number
    by_cases hxv : x = v <;> by_cases hyv : y = v <;> simp only [hxv, hyv, if_true, if_false] at *
    · cases hi; cases hj; cases hi'; cases hj'; simp
    · cases hi; cases hi'
      have := hs.lt_count hj
      have := hs'.lt_count hj'
      omega
    · cases hj; cases hj'
      exact iff_of_true (hs'.lt_count hi') (hs.lt_count hi)
    · exact h.lt_iff hx hy hi hj hi' hj'
  emitted := h.emitted

theorem Twin.emit {seg rest : List (Fin n)} (h : Twin N s s') (hs : s.stack = seg ++ v :: rest)
    (hv : v ∉ seg) : Twin N (s.emit v) (s'.emit v) := by
  have hs' : s'.stack = seg ++ v :: rest := h.stack.trans hs
  have hold : ∀ {u : Search n} {x i}, u.stack = seg ++ v :: rest → (u.emit v).mark x = .waiting i →
      u.mark x = .waiting i := by
    intro u x i hu hx
    rw [mark_emit hu hv] at hx
    split at hx
    · simp at hx
    · exact hx
  refine ⟨?_, ?_, fun {x} hx => ?_, ?_, ?_⟩
  · rw [emit_eq hs hv, emit_eq hs' hv]
  · rw [emit_eq hs hv]
    exact fun x hx => h.within x (by simp [hs, show x ∈ rest from hx])
  · rw [mark_emit hs hv, mark_emit hs' hv]
    split
    · simp
    · exact h.fresh hx
  · exact fun hx hy hi hj hi' hj' =>
      h.lt_iff hx hy (hold hs hi) (hold hs hj) (hold hs' hi') (hold hs' hj')
  · simp only [emitted_emit hs hv, emitted_emit hs' hv, List.filter_append, h.emitted]

/-! ## Following edges side by side -/

/-- An edge to a vertex that does not matter. -/
theorem Following.quiet {depth : Nat} (h : Following g v s low t) (hs : s.Inv g)
    (hd : (s.meet v).freshCount ≤ depth) (hN : g.Shuts N) (hin : ∀ x ∈ t.stack, N x = true)
    (hw : w ∈ g.succ v) (hwN : N w = false) (ws : List (Fin n)) :
    ∃ u, Quiet N t u ∧ Following g v s low u ∧
      Digraph.follow (g.visit depth) (w :: ws) low t = Digraph.follow (g.visit depth) ws low u := by
  rw [Digraph.follow]
  split
  · next hf =>
    obtain ⟨hu, hF⟩ := h.fresh (visits_visit g depth) hs hd hw hf
    obtain ⟨hq, hlow⟩ := hu.quiet h.inv hN hwN hin
    have hmin : min low (g.visit depth w t).1 = low := by
      have : s.count + 1 ≤ t.count := h.grows.count_le
      have := h.low_le
      omega
    rw [hmin] at hF
    refine ⟨_, hq, hF, ?_⟩
    change Digraph.follow _ ws (min low (g.visit depth w t).1) _ = _
    rw [hmin]
  · next i hi =>
    have := hin w (h.inv.mem_stack.2 ⟨i, hi⟩)
    simp [hwN] at this
  · exact ⟨t, .refl N t, h, rfl⟩

/-- What two visits answer: the numbers of the vertices visited, or the numbers of one that
waited. -/
structure Answers (N : Fin n → Bool) (s s' : Search n) (r r' : Nat × Search n) : Prop where
  twin : Twin N r.2 r'.2
  low : r.1 = s.count ∧ r'.1 = s'.count ∨ Numbered N s s' r.1 r'.1

/-- What a visit can be sure of. -/
structure Ready (g : Digraph n) (depth : Nat) (v : Fin n) (s : Search n) : Prop where
  inv : s.Inv g
  fresh : s.mark v = .fresh
  back : ∀ x ∈ s.stack, g.Reach x v
  bound : s.freshCount ≤ depth

theorem Following.ready {depth : Nat} (h : Following g v s low t)
    (hd : (s.meet v).freshCount ≤ depth) (hw : w ∈ g.succ v) (hf : t.mark w = .fresh) :
    Ready g depth w t :=
  ⟨h.inv, hf, fun x hx => (h.back x hx).tail hw, Nat.le_trans h.grows.freshCount_le hd⟩

/-- What two visits do side by side, for the searches that use them. -/
def TwinVisits (g g' : Digraph n) (N : Fin n → Bool) (depth : Nat) : Prop :=
  ∀ {v s s'}, N v = true → Twin N s s' → Ready g depth v s → Ready g' depth v s' →
    Answers N s s' (g.visit depth v s) (g'.visit depth v s')

/-- **Following the same edges side by side.** -/
theorem Twin.follow {depth : Nat} (hvisit : TwinVisits g g' N depth) (hN : g.Shuts N)
    (hN' : g'.Shuts N) (hs : s.Inv g) (hs' : s'.Inv g') (hd : (s.meet v).freshCount ≤ depth)
    (hd' : (s'.meet v).freshCount ≤ depth) {ws : List (Fin n)} (hws : ∀ w ∈ ws, w ∈ g.succ v)
    (hws' : ∀ w ∈ ws, w ∈ g'.succ v) (h : Following g v s low t) (h' : Following g' v s' low' t')
    (ht : Twin N t t') (hlow : Numbered N t t' low low') :
    let r := Digraph.follow (g.visit depth) ws low t
    let r' := Digraph.follow (g'.visit depth) ws low' t'
    Twin N r.2 r'.2 ∧ Numbered N r.2 r'.2 r.1 r'.1 := by
  induction ws generalizing low low' t t' with
  | nil => exact ⟨ht, hlow⟩
  | cons w ws ih =>
    rw [List.forall_mem_cons] at hws hws'
    cases hw : N w with
    | false =>
      obtain ⟨u, hu, hF, he⟩ := h.quiet hs hd hN ht.within hws.1 hw ws
      obtain ⟨u', hu', hF', he'⟩ := h'.quiet hs' hd' hN' (ht.stack ▸ ht.within) hws'.1 hw ws
      rw [he, he']
      exact ih hws.2 hws'.2 hF hF' (ht.quiet hu hu') (hlow.quiet hu hu')
    | true =>
      cases hm : t.mark w with
      | fresh =>
        have hm' := (ht.fresh hw).2 hm
        obtain ⟨hu, hF⟩ := h.fresh (visits_visit g depth) hs hd hws.1 hm
        obtain ⟨hu', hF'⟩ := h'.fresh (visits_visit g' depth) hs' hd' hws'.1 hm'
        obtain ⟨htwin, hl⟩ := hvisit hw ht (h.ready hd hws.1 hm) (h'.ready hd' hws'.1 hm')
        have hmin : Numbered N t t' (min low (g.visit depth w t).1)
            (min low' (g'.visit depth w t').1) := by
          rcases hl with ⟨hl, hl'⟩ | hl
          · obtain ⟨y, -, hy, hy'⟩ := id hlow
            have hlt := h.inv.lt_count hy
            have hlt' := h'.inv.lt_count hy'
            rwa [hl, hl', Nat.min_eq_left (Nat.le_of_lt hlt), Nat.min_eq_left (Nat.le_of_lt hlt')]
          · exact ht.lower hlow hl
        simp only [Digraph.follow, hm, hm']
        exact ih hws.2 hws'.2 hF hF' htwin (hmin.grows hu.grows hu'.grows)
      | waiting i =>
        obtain ⟨i', hm'⟩ := ht.waiting h.inv h'.inv hm
        simp only [Digraph.follow, hm, hm']
        exact ih hws.2 hws'.2 (h.lower hs (.inr ⟨w, hm, .single hws.1⟩))
          (h'.lower hs' (.inr ⟨w, hm', .single hws'.1⟩)) ht (ht.lower hlow ⟨w, hw, hm, hm'⟩)
      | done =>
        simp only [Digraph.follow, hm, ht.done h.inv h'.inv hw hm]
        exact ih hws.2 hws'.2 h h' ht hlow

end Search

open Search

/-- **Two visits side by side**: they agree about what is emitted, and whether the vertex leads back. -/
theorem twinVisits (hN : g.Shuts N) (hN' : g'.Shuts N)
    (hsucc : ∀ v, N v = true → g'.succ v = g.succ v) (depth : Nat) : TwinVisits g g' N depth := by
  induction depth with
  | zero =>
    intro v s s' hv ht h
    have hmem : v ∈ Finset.univ.filter fun x : Fin n => s.mark x = .fresh := by simp [h.fresh]
    exact absurd (Finset.card_pos.2 ⟨v, hmem⟩) (by simpa [freshCount] using h.bound)
  | succ depth ih =>
    intro v s s' hv ht h h'
    have hd : (s.meet v).freshCount ≤ depth := by
      have := freshCount_meet_lt h.fresh
      have := h.bound
      omega
    have hd' : (s'.meet v).freshCount ≤ depth := by
      have := freshCount_meet_lt h'.fresh
      have := h'.bound
      omega
    have hF := following_meet h.inv h.fresh h.back
    have hF' := following_meet h'.inv h'.fresh h'.back
    have hnum : Numbered N (s.meet v) (s'.meet v) s.count s'.count :=
      ⟨v, hv, by simp [mark_meet], by simp [mark_meet]⟩
    have hfol := Twin.follow ih hN hN' h.inv h'.inv hd hd' (fun w (hw : w ∈ g.succ v) => hw)
      (fun w hw => hsucc v hv ▸ hw) hF hF' (ht.meet h.inv h'.inv hv) hnum
    have hR := hF.follow (visits_visit g depth) h.inv hd fun w hw => hw
    have hR' := hF'.follow (visits_visit g' depth) h'.inv hd' fun w hw => hw
    rw [visit, visit]
    rw [hsucc v hv] at hR' ⊢
    generalize follow (g.visit depth) (g.succ v) s.count (s.meet v) = r at *
    generalize follow (g'.visit depth) (g.succ v) s'.count (s'.meet v) = r' at *
    obtain ⟨low, t⟩ := r
    obtain ⟨low', t'⟩ := r'
    obtain ⟨htt, hlow⟩ := hfol
    have hle := hR.following.low_le
    have hle' := hR'.following.low_le
    have hlt : low' < s'.count ↔ low < s.count := by
      obtain ⟨y, hy, hyl, hyl'⟩ := id hlow
      obtain ⟨x, hx, hxs, hxs'⟩ := hnum.grows hR.grows hR'.grows
      exact htt.lt_iff hy hx hyl hxs hyl' hxs'
    dsimp only at hle hle' ⊢
    by_cases hl : low = s.count
    · have hl' : low' = s'.count := by omega
      obtain ⟨seg, hseg⟩ := hR.following.grows.stack
      have hv : v ∉ seg := fun hm => (List.nodup_append.1
        (hseg ▸ hR.following.inv.stack_nodup)).2.2 v hm v List.mem_cons_self rfl
      rw [if_pos hl, if_pos hl']
      exact ⟨htt.emit hseg.symm hv, .inl ⟨hl, hl'⟩⟩
    · have hl' : low' ≠ s'.count := by omega
      rw [if_neg hl, if_neg hl']
      obtain ⟨y, hy, hyl, hyl'⟩ := hlow
      exact ⟨htt, .inr ⟨y, hy, (hR.following.old h.inv hyl (by omega)).2,
        (hR'.following.old h'.inv hyl' (by omega)).2⟩⟩

/-! ## The whole search -/

/-- The search goes on at a vertex, unless it has been met. -/
def searchAt (g : Digraph n) (s : Search n) (v : Fin n) : Search n :=
  if s.mark v = .fresh then (g.visit n v s).2 else s

theorem ready_of_stack_eq_nil {s : Search n} (hs : s.Inv g) (hstack : s.stack = [])
    (hv : s.mark v = .fresh) : Ready g n v s where
  inv := hs
  fresh := hv
  back := by simp [hstack]
  bound := by
    simpa [freshCount] using Finset.card_filter_le Finset.univ fun w : Fin n => s.mark w = .fresh

theorem searchAt_spec {s : Search n} (hs : s.Inv g) (hstack : s.stack = []) :
    (g.searchAt s v).Inv g ∧ (g.searchAt s v).stack = [] ∧
      (g.Shuts N → N v = false → Quiet N s (g.searchAt s v)) := by
  unfold searchAt
  split
  · next hv =>
    have hr := ready_of_stack_eq_nil hs hstack hv
    have hvis := visits_visit g n hs hv hr.back hr.bound
    exact ⟨hvis.inv, hvis.stack_eq_nil hstack, fun hN hvN =>
      (hvis.quiet hs hN hvN (by simp [hstack])).1⟩
  · exact ⟨hs, hstack, fun _ _ => .refl N s⟩

theorem twin_searchAll (hN : g.Shuts N) (hN' : g'.Shuts N)
    (hsucc : ∀ v, N v = true → g'.succ v = g.succ v) (vs : List (Fin n)) {s s' : Search n}
    (hs : s.Inv g) (hs' : s'.Inv g') (hstack : s.stack = []) (ht : Twin N s s') :
    Twin N (vs.foldl g.searchAt s) (vs.foldl g'.searchAt s') := by
  induction vs generalizing s s' with
  | nil => exact ht
  | cons v vs ih =>
    have hstack' : s'.stack = [] := ht.stack.trans hstack
    obtain ⟨h₁, h₂, h₃⟩ := searchAt_spec (N := N) (v := v) hs hstack
    obtain ⟨h₁', -, h₃'⟩ := searchAt_spec (N := N) (v := v) hs' hstack'
    refine ih h₁ h₁' h₂ ?_
    cases hv : N v with
    | false => exact ht.quiet (h₃ hN hv) (h₃' hN' hv)
    | true =>
      unfold searchAt
      by_cases hf : s.mark v = .fresh
      · have hf' := (ht.fresh hv).2 hf
        rw [if_pos hf, if_pos hf']
        exact (twinVisits hN hN' hsucc n hv ht (ready_of_stack_eq_nil hs hstack hf)
          (ready_of_stack_eq_nil hs' hstack' hf')).twin
      · rw [if_neg hf, if_neg (mt (ht.fresh hv).1 hf)]
        exact ht

/-- **Graphs that agree about some vertices order them alike**, if no way leads from the others to
them. -/
theorem filter_dependencyOrder (hN : g.Shuts N) (hN' : g'.Shuts N)
    (hsucc : ∀ v, N v = true → g'.succ v = g.succ v) :
    g'.dependencyOrder.filter N = g.dependencyOrder.filter N :=
  (twin_searchAll hN hN' hsucc (List.finRange n) (inv_start g) (inv_start g') rfl
    ⟨rfl, by simp [start], fun _ => Iff.rfl, by simp [start, mark], rfl⟩).emitted

/-- The same for graphs whose numbers of vertices are equal, but not by definition. -/
theorem filter_dependencyOrder_val {m : Nat} {g : Digraph n} {g' : Digraph m} {N : Nat → Bool}
    (hnm : n = m) (hN : g.Shuts fun v => N v) (hN' : g'.Shuts fun v => N v)
    (hsucc : ∀ (v : Fin n) (w : Fin m), v.val = w.val → N v = true →
      (g'.succ w).map Fin.val = (g.succ v).map Fin.val) :
    (g'.dependencyOrder.map Fin.val).filter N = (g.dependencyOrder.map Fin.val).filter N := by
  subst hnm
  rw [List.filter_map, List.filter_map]
  refine congrArg _ (filter_dependencyOrder hN hN' fun v hv => ?_)
  exact List.map_injective_iff.2 Fin.val_injective (hsucc v v rfl hv)

/-! ## Edges in the order they are added -/

/-- Adds to a list what it does not have. -/
def addOnce {α : Type} [DecidableEq α] (l : List α) (x : α) : List α :=
  if x ∈ l then l else l ++ [x]

theorem map_foldl_addOnce {α β : Type} [DecidableEq α] [DecidableEq β] {f : α → β}
    (hf : Function.Injective f) (xs l : List α) :
    (xs.foldl addOnce l).map f = (xs.map f).foldl addOnce (l.map f) := by
  induction xs generalizing l with
  | nil => rfl
  | cons x xs ih =>
    have hadd : (addOnce l x).map f = addOnce (l.map f) (f x) := by
      unfold addOnce
      simp only [List.mem_map_of_injective hf]
      split <;> simp
    rw [List.foldl_cons, ih, hadd, List.map_cons, List.foldl_cons]

theorem succ_addEdge (g : Digraph n) (u v w : Fin n) :
    (g.addEdge v w).succ u = if v = u then addOnce (g.succ u) w else g.succ u := by
  by_cases hu : v = u
  · subst hu
    rw [if_pos rfl]
    unfold addEdge addOnce hasEdge
    simp only [List.contains_iff_mem]
    split
    · rfl
    · simp [succ]
  · rw [if_neg hu]
    unfold addEdge
    split
    · rfl
    · simp [succ, Fin.val_ne_of_ne hu]

/-- **The successors of a vertex** are told by the edges that leave it, in the order they were
added. -/
theorem succ_ofEdges (edges : List (Fin n × Fin n)) (u : Fin n) :
    (ofEdges n edges).succ u = ((edges.filter (·.1 = u)).map Prod.snd).foldl addOnce [] := by
  suffices hfold : ∀ g : Digraph n, (edges.foldl (fun g e => g.addEdge e.1 e.2) g).succ u =
      ((edges.filter (·.1 = u)).map Prod.snd).foldl addOnce (g.succ u) by
    rw [ofEdges, hfold]
    simp [empty, succ]
  induction edges with
  | nil => exact fun _ => rfl
  | cons e edges ih =>
    intro g
    rw [List.foldl_cons, ih, succ_addEdge]
    by_cases he : e.1 = u <;> simp [he]

end Digraph

end StackEffect
