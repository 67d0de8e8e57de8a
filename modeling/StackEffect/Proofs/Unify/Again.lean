import StackEffect.Proofs.Kind.Shape
import StackEffect.Proofs.Unify.Contract

/-!
# Proofs/Unify/Again — unifying again changes nothing

    n bound to k        constrain n k     finds k in the class of n
    k in the class      join i k          finds k there
    v, w settled        unifyStacks v w   asks for nothing that is not there

A call that asks for what a store knows leaves nothing but shortcuts.  It may be nested too deep, but
it does not clash (`Unify.Idle`).
-/

namespace StackEffect

/-! ## Who faces whom does not matter -/

/-- It does not matter which of two kinds comes first. -/
theorem Unify.compatible_comm (st : Option Subtyping) (k l : Kind) :
    compatible st k l = compatible st l k := by
  rw [compatible, compatible, Bool.or_comm (k.isSimple && _), Bool.or_right_comm]

/-- **Stacks that are aligned are aligned the other way round.** -/
theorem Aligned.symm {size : Prop} {empty : String → Prop} {eqn : String → Kind → Prop}
    {slot slot' : Kind → Kind → Prop} {v w : Stack} (h : Aligned size empty eqn slot v w)
    (hslot : ∀ k ∈ v, ∀ l, slot k l → slot' l k) : Aligned size empty eqn slot' w v := by
  fun_induction Aligned size empty eqn slot v w with
  | case4 k r l r' h₁ h₂ h₃ ih =>
    rw [Aligned.eq_4 _ _ _ _ _ _ _ _ (fun b a hl hk => h₁ a b hk hl) h₃ h₂]
    exact ⟨hslot k List.mem_cons_self l h.1, ih h.2 fun k hk => hslot k (List.mem_cons_of_mem _ hk)⟩
  | case8 r r' h₁ h₂ h₃ h₄ h₅ h₆ h₇ =>
    rw [Aligned.eq_8 _ _ _ _ _ _ (fun b _ a _ hw hv => h₁ a _ b _ hv hw)
      (fun b _ k _ hw hv => h₃ k _ b _ hv hw) (fun l _ a _ hw hv => h₂ a _ l _ hv hw)
      (fun l _ k _ hw hv => h₄ k _ l _ hv hw) (fun hw hv => h₅ hv hw)
      (fun b hw hv => h₇ b hv hw) fun a hw hv => h₆ a hv hw]
    exact h
  | _ => simp_all [Aligned]

namespace Partition

variable {P : Partition}

theorem SettledSlot.symm (k : Kind) : ∀ l, P.SettledSlot k l → P.SettledSlot l k := by
  induction k using Kind.slotInduction with
  | effect c p i hc hp =>
    intro l h
    rw [settledSlot_iff] at h ⊢
    refine ⟨h.2.1, h.1, ?_, Unify.compatible_comm _ _ _ ▸ h.2.2.2⟩
    rintro d q j _ _ _ hl ⟨⟩
    obtain ⟨h₁, h₂⟩ := h.2.2.1 c p i d q j rfl hl
    rw [settled_iff] at h₁ h₂
    exact ⟨(settled_iff ..).2 (h₁.symm hc), (settled_iff ..).2 (h₂.symm hp)⟩
  | _ =>
    intro l h
    rw [settledSlot_iff] at h ⊢
    exact ⟨h.2.1, h.1, fun _ _ _ _ _ _ _ hk => by simp at hk,
      Unify.compatible_comm _ _ _ ▸ h.2.2.2⟩

/-- What is settled between two stacks is settled the other way round. -/
theorem Settled.symm {v w : Stack} (h : P.Settled v w) : P.Settled w v := by
  rw [settled_iff] at h ⊢
  exact h.symm fun k _ => SettledSlot.symm k

theorem Agree.symm {k l : Kind} (h : P.Agree k l) : P.Agree l k := by
  unfold Agree at h
  split at h
  · exact ⟨h.1.symm, h.2.symm⟩
  · exact Settled.symm h
  · exact h.elim

/-! ## What faces itself is settled -/

/-- A stack is settled with itself if its slots are. -/
theorem settled_self_of {s : Stack} (h : ∀ k ∈ s, k.bottomed = true → P.SettledSlot k k)
    (hs : Kind.slotsBottomed s = true) : P.Settled s s := by
  induction s with
  | nil => trivial
  | cons k s ih =>
    rw [List.forall_mem_cons] at h
    simp only [Kind.slotsBottomed, Bool.and_eq_true] at hs
    obtain ⟨⟨hbottom, hk⟩, hs⟩ := hs
    by_cases hvar : ∃ a, k = .stackVar a
    · obtain ⟨a, rfl⟩ := hvar
      obtain rfl : s = [] := by simpa [Kind.isStackVar] using hbottom
      exact ⟨.inl rfl, .inl rfl⟩
    · rw [not_exists] at hvar
      rw [Settled.eq_4 _ _ _ _ _ (fun a _ ha => (hvar a ha).elim) hvar hvar]
      exact ⟨h.1 hk, ih h.2 hs⟩

/-- A slot faces itself, if stack variables are at the bottom of stacks only. -/
theorem settledSlot_self {k : Kind} (hk : k.bottomed = true) : P.SettledSlot k k := by
  have hbound : ∀ (k : Kind) a, k = .typeVar a → P.Bound a k := by
    rintro _ a rfl
    exact .inl rfl
  induction k using Kind.slotInduction with
  | effect c p i hc hp =>
    simp only [Kind.bottomed, Bool.and_eq_true] at hk
    exact ⟨settled_self_of hc hk.1, settled_self_of hp hk.2⟩
  | _ =>
    rw [settledSlot_iff]
    exact ⟨hbound _, hbound _, fun _ _ _ _ _ _ hk => by simp at hk,
      .inl (by simp [Unify.compatible, Subtyping.le_refl])⟩

/-- **A kind agrees with itself**, if stack variables are only at the bottom of its stacks. -/
theorem agree_self {k : Kind} (h : k.Alike k) (hk : k.bottomed = true) : P.Agree k k := by
  cases k with
  | effect c p i => exact settledSlot_self hk
  | stack s => exact settled_self_of (fun k _ => settledSlot_self) hk
  | _ => exact h.elim

end Partition

/-! ## Calls that change nothing -/

namespace Unify

variable {s : Store} {name : String} {k l : Kind} {id src dst width room : Nat}

/-- **A step that leaves nothing but shortcuts**, unless it is nested too deep. -/
def Idle (p : Pass Unit) (s : Store) : Prop :=
  Ends p s (fun _ t => s.Shortened t) fun e _ => e = .tooDeep

namespace Idle

variable {p q : Pass Unit}

theorem refuse : Idle Unify.refuse s := rfl

theorem pure : Idle (Pure.pure ()) s := .refl s

/-- A step that is taken after shortcuts were left. -/
theorem after {t : Store} (ht : s.Shortened t) (h : Idle p t) :
    Ends p t (fun _ u => s.Shortened u) fun e _ => e = .tooDeep :=
  Ends.mono h (fun _ _ hu => ht.trans hu) fun _ _ he => he

/-- Two steps of which none does anything do nothing. -/
theorem seq (hp : Idle p s) (hq : ∀ t : Store, t.partition = s.partition → Idle q t) :
    Idle (p >>= fun _ => q) s :=
  Ends.bind hp fun _ t ht => after ht (hq t ht.partition)

theorem of_look {f : Store → Pass Unit} (h : Idle (f s) s) : Idle (Site.look >>= f) s :=
  Ends.bind_iff.2 h

theorem nested (h : ∀ s', s'.partition = s.partition → Idle p s') : Idle (Unify.nested p) s :=
  ends_nested_iff.2 (Ends.mono (h s.deeper rfl) (fun _ _ ht => ht.shallower) fun _ _ he => he)

end Idle

/-- **A kind that is a member already is not added again.** -/
theorem idle_join (hs : s.partition.Shaped) (h : k ∈ s.partition.members id) :
    Idle (join width room id k) s := by
  cases room with
  | zero => exact .refuse
  | succ room =>
    rw [join_succ]
    refine .nested fun s' hs' => .of_holds (hs' ▸ hs) fun b t hb ht => ?_
    rw [if_pos (hb.2 (ht.partition.trans hs' ▸ h))]
    exact ht

/-- A variable that is a member has its class in place. -/
theorem idle_bringClass (hs : s.partition.Sound) (h : k ∈ s.partition.members id) :
    Idle (bringClass (join width room) false id k) s := by
  unfold bringClass
  split
  · exact .pure
  next m hm =>
  refine .of_classOf hs.toShaped fun t ht => ?_
  rw [← ht.partition] at hs h
  obtain ⟨j, hj, hji⟩ := hs.member_var h hm
  rw [hj]
  exact Idle.after ht (ends_merge_self hs.toShaped hji)

/-- **A variable that is bound already** is not bound again. -/
theorem idle_constrain (hs : s.partition.Sound) (h : s.partition.Bound name k) :
    Idle (constrain width room name k) s := by
  induction room generalizing s k with
  | zero => exact .refuse
  | succ room ih =>
    by_cases hself : k.varName? = some name
    · rw [constrain_self hself]
      exact .nested fun _ _ => .pure
    by_cases hslot : ∃ slot, k = .stack [slot]
    · obtain ⟨slot, rfl⟩ := hslot
      rw [constrain_slot]
      exact .nested fun s' hs' => ih (hs' ▸ hs) (hs' ▸ h)
    rw [not_exists] at hslot
    rw [constrain_succ hself hslot]
    refine .nested fun s' hs' => ?_
    rw [← hs'] at hs h
    rw [Partition.Bound, Kind.unwrap_eq_self hslot] at h
    obtain ⟨i, hi, hk⟩ := h.resolve_left hself
    have hfor : Ends (classFor name) s' (fun id t => id = i ∧ s'.Shortened t)
        fun e _ => e = .tooDeep := by
      refine .of_classOf hs.toShaped fun t ht => ?_
      rw [ht.partition, hi]
      exact ⟨rfl, ht⟩
    refine hfor.bind ?_
    rintro _ t ⟨rfl, ht⟩
    rw [← ht.partition] at hs hk
    exact Idle.after ht ((idle_bringClass hs hk).seq fun u hu => idle_join (hu ▸ hs.toShaped) (hu ▸ hk))

section

variable {P : Partition} {constrain' : String → Kind → Pass Unit}
  {equate : Stack → Stack → Pass Unit}
  (hc : ∀ (s : Store) n k, s.partition = P → P.Bound n k → Idle (constrain' n k) s)
  (he : ∀ (s : Store) v w, s.partition = P → P.Settled v w → Idle (equate v w) s)

include he in
/-- Unifying functions whose stacks are settled does nothing. -/
theorem idle_unifyEffects (hs : s.partition = P)
    (h : ∀ c p i d q j, k = .effect c p i → l = .effect d q j → P.Settled c d ∧ P.Settled p q) :
    Idle (unifyEffects equate k l) s := by
  fun_cases unifyEffects equate k l with
  | case1 c p i d q j =>
    obtain ⟨hcd, hpq⟩ := h _ _ _ _ _ _ rfl rfl
    exact (he s c d hs hcd).seq fun t ht => he t p q (ht.trans hs) hpq
  | case2 => exact .pure

include hc in
/-- Binding a variable that is bound does nothing. -/
theorem idle_bindSlot (hs : s.partition = P) (h : ∀ a, k = .typeVar a → P.Bound a l) :
    Idle (bindSlot constrain' k l) s := by
  cases k with
  | typeVar a => exact hc s a l hs (h a rfl)
  | _ => exact .pure

include hc in
theorem idle_empty (hs : s.partition = P) {a : String}
    (h : P.lenient = true ∨ P.Bound a (.stack [])) :
    Idle (do unless (← Site.look).lenient do constrain' a (.stack [])) s := by
  refine .of_look ?_
  split
  · exact .pure
  · next hl => exact hc s a _ hs (h.resolve_left (hs ▸ hl))

include hc he in
/-- **Walking down settled stacks** asks for nothing that is not there. -/
theorem idle_walk (hs : s.partition = P) {v₀ w₀ v w : Stack} (h : P.Settled v w) :
    Idle (walk constrain' (unifyEffects equate) v₀ w₀ v w) s := by
  rw [Partition.settled_iff] at h
  fun_induction Aligned generalizing s with
  | case1 a r b r' => exact (hc s a _ hs h.1).seq fun t ht => hc t b _ (ht.trans hs) h.2
  | case2 a _ l r' hl =>
    rw [walk.eq_2 _ _ _ _ _ _ _ _ hl]
    exact hc s a _ hs h
  | case3 k r b _ hk =>
    rw [walk.eq_3 _ _ _ _ _ _ _ _ hk]
    exact hc s b _ hs h
  | case4 k r l r' _ hk hl ih =>
    rw [Partition.settledSlot_iff] at h
    obtain ⟨⟨hkv, hlv, hkl, hcomp⟩, hr⟩ := h
    rw [walk_cons hk hl]
    refine (idle_bindSlot hc hs hkv).seq fun s₁ hs₁ => ?_
    refine (idle_bindSlot hc (hs₁.trans hs) hlv).seq fun s₂ hs₂ => ?_
    refine (idle_unifyEffects he (hs₂.trans (hs₁.trans hs)) hkl).seq fun s₃ hs₃ => .of_look ?_
    have hs' : s₃.partition = P := hs₃.trans (hs₂.trans (hs₁.trans hs))
    have hcomp' : compatible s₃.subtyping k l = true := by
      rw [show s₃.subtyping = P.subtyping from congrArg Partition.subtyping hs']
      exact hcomp.resolve_right id
    rw [if_pos hcomp']
    exact ih hs' hr
  | case5 => exact .pure
  | case6 a => exact idle_empty hc hs h
  | case7 a => exact idle_empty hc hs h
  | case8 r r' h₁ h₂ h₃ h₄ h₅ h₆ h₇ =>
    rw [walk.eq_8 _ _ _ _ _ _ h₁ h₂ h₃ h₄ h₅ h₆ h₇]
    refine .of_look ?_
    split
    · exact .pure
    · next hl => exact absurd ((congrArg Partition.lenient hs).trans h) hl

end

/-- **Stacks that are settled** are not unified again. -/
theorem idle_unifyStacks (hs : s.partition.Sound) {v w : Stack} (h : s.partition.Settled v w) :
    Idle (unifyStacks width room v w) s := by
  induction room generalizing s v w with
  | zero => exact .refuse
  | succ room ih =>
    refine .nested fun s' hs' => ?_
    exact idle_walk (fun t n k ht hb => idle_constrain (ht ▸ hs) (ht ▸ hb))
      (fun t v w ht hset => ih (ht ▸ hs) (ht ▸ hset)) hs' h

end Unify

end StackEffect
