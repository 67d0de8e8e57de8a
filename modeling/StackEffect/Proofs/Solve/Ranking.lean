import StackEffect.Proofs.Solve.Representative

/-!
# Proofs/Solve/Ranking — which of its members a class is reduced to

    effects            the last one of those that consume most
    self               itself
    stacks             the last one of the longest
    nominal types      what the nominal types are reduced to without the others
    variables          the least name, if possible of a variable of one slot

Members are reduced from left to right, two at a time.  The first line of the list that some member
belongs to decides for all of them (`Store.Stands`): a member that joins either ranks lower and
changes nothing, or ranks higher and takes over, or meets one of its own rank.
-/

namespace StackEffect

namespace Kind

/-- The number of slots that an effect consumes. -/
def consumption? : Kind → Option Nat
  | effect c _ _ => some c.length
  | _ => none

/-- The number of slots of a stack. -/
def height? : Kind → Option Nat
  | stack s => some s.length
  | _ => none

/-- **The last one of the greatest**: nothing before it is greater, and what is behind it is less,
of all that is measured. -/
def LastGreatest (measure : Kind → Option Nat) (ks : List Kind) (k : Kind) : Prop :=
  ∃ n before behind, ks = before ++ k :: behind ∧ measure k = some n ∧
    (∀ l ∈ before, ∀ m ∈ measure l, m ≤ n) ∧ ∀ l ∈ behind, ∀ m ∈ measure l, m < n

variable {measure : Kind → Option Nat} {ks : List Kind} {k l : Kind} {n : Nat}

namespace LastGreatest

theorem isSome (h : LastGreatest measure ks k) : (measure k).isSome = true := by
  obtain ⟨n, _, _, _, hn, _⟩ := h
  rw [hn]
  rfl

theorem mem (h : LastGreatest measure ks k) : k ∈ ks := by
  obtain ⟨_, before, behind, rfl, _⟩ := h
  exact List.mem_append_right _ List.mem_cons_self

theorem le (h : LastGreatest measure ks k) (hn : measure k = some n) :
    ∀ l ∈ ks, ∀ m ∈ measure l, m ≤ n := by
  obtain ⟨n', before, behind, rfl, hn', hbefore, hbehind⟩ := h
  obtain rfl := Option.some.inj (hn'.symm.trans hn)
  rw [List.forall_mem_append, List.forall_mem_cons]
  refine ⟨hbefore, fun m hm => ?_, fun l hl m hm => Nat.le_of_lt (hbehind l hl m hm)⟩
  exact Nat.le_of_eq (Option.some.inj (hm.symm.trans hn))

/-- What joins and is less changes nothing. -/
theorem keep (h : LastGreatest measure ks k) (hl : ∀ n ∈ measure k, ∀ m ∈ measure l, m < n) :
    LastGreatest measure (ks ++ [l]) k := by
  obtain ⟨n, before, behind, rfl, hn, hbefore, hbehind⟩ := h
  refine ⟨n, before, behind ++ [l], by simp, hn, hbefore, ?_⟩
  exact List.forall_mem_append.2 ⟨hbehind, List.forall_mem_singleton.2 (hl n hn)⟩

/-- What joins and is not less takes over. -/
theorem change (hl : measure l = some n) (h : ∀ k ∈ ks, ∀ m ∈ measure k, m ≤ n) :
    LastGreatest measure (ks ++ [l]) l :=
  ⟨n, ks, [], rfl, hl, h, by simp⟩

/-- Of two the greater one is left, and of two alike the later one. -/
theorem concat {m : Nat} (h : LastGreatest measure ks k) (hk : measure k = some m)
    (hl : measure l = some n) : LastGreatest measure (ks ++ [l]) (if n < m then k else l) := by
  split
  · next hlt =>
    refine h.keep ?_
    rw [hk, hl]
    rintro _ ⟨⟩ _ ⟨⟩
    exact hlt
  · next hle =>
    exact change hl fun k' hk' m' hm' => Nat.le_trans (h.le hk k' hk' m' hm') (Nat.le_of_not_lt hle)

end LastGreatest

/-! ## Ranks -/

theorem rank_lt_six_iff : k.rank < 6 ↔ k.effect? = none := by cases k <;> simp [rank, effect?]

theorem rank_lt_five_iff : k.rank < 5 ↔ k.isEffect = false := by cases k <;> simp [rank, isEffect]

theorem rank_lt_four_iff : k.rank < 4 ↔ k.isComposite = false := by
  cases k <;> simp [rank, isComposite]

theorem rank_lt_three_iff (h : k.isOrdinary = true) : k.rank < 3 ↔ k.isVar = true := by
  cases k <;> simp [rank, isVar, isOrdinary] at h ⊢

theorem rank_lt_two_iff (h : k.isOrdinary = true) : k.rank < 2 ↔ ∃ a, k = stackVar a := by
  cases k <;> simp [rank, isOrdinary] at h ⊢

theorem rank_pos (h : k.isOrdinary = true) : 0 < k.rank := by
  cases k <;> simp [rank, isOrdinary] at h ⊢

theorem consumption?_eq_none (h : k.rank < 6) : k.consumption? = none := by
  cases k <;> simp [rank, consumption?] at h ⊢

theorem height?_eq_none (h : k.rank < 4) : k.height? = none := by
  cases k <;> simp [rank, height?] at h ⊢

theorem isSimple_eq_false (h : k.rank < 3) : k.isSimple = false := by
  cases k <;> simp [rank, isSimple] at h ⊢

theorem rank_of_consumption? (h : k.consumption?.isSome = true) : k.rank = 6 := by
  cases k <;> simp [consumption?, rank] at h ⊢

theorem rank_of_height? (h : k.height?.isSome = true) : k.rank = 4 := by
  cases k <;> simp [height?, rank] at h ⊢

end Kind

namespace Store

open Kind

/-- **What stands for a list of members**, which are reduced from left to right from the store `s`
on, down to the store `t`. -/
inductive Stands (s : Store) (ks : List Kind) : Kind → Store → Prop
  | effect {k : Kind} {t : Store} (last : LastGreatest consumption? ks k) : Stands s ks k t
  | self {t : Store} (others : ∀ l ∈ ks, l.effect? = none) (mem : .self ∈ ks) : Stands s ks .self t
  | stack {k : Kind} {t : Store} (others : ∀ l ∈ ks, l.isEffect = false)
      (last : LastGreatest height? ks k) : Stands s ks k t
  | simple {a : String} {t : Store} (others : ∀ l ∈ ks, l.isComposite = false)
      (mem : ∃ b, .simple b ∈ ks)
      (alone : (ks.filter Kind.isSimple).foldlM representative .absent s = .ok (.simple a) t) :
      Stands s ks (.simple a) t
  | typeVar {a : String} (others : ∀ l ∈ ks, l.isVar = true) (mem : .typeVar a ∈ ks)
      (least : ∀ b, .typeVar b ∈ ks → a ≤ b) : Stands s ks (.typeVar a) s
  | stackVar {a : String} (others : ∀ l ∈ ks, ∃ b, l = .stackVar b) (mem : .stackVar a ∈ ks)
      (least : ∀ b, .stackVar b ∈ ks → a ≤ b) : Stands s ks (.stackVar a) s

variable {s t : Store} {ks ls : List Kind} {k l : Kind}

/-! ## Members of different ranks -/

theorem representative_of_lt (h : l.rank < k.rank) : (representative k l : Pass Kind) = pure k := by
  unfold representative
  exact if_pos h

theorem representative_of_gt (h : k.rank < l.rank) : (representative k l : Pass Kind) = pure l := by
  unfold representative
  rw [if_neg (Nat.lt_asymm h), if_pos h]

theorem forall_mem_concat {p : Kind → Prop} (hks : ∀ m ∈ ks, p m) (hl : p l) :
    ∀ m ∈ ks ++ [l], p m :=
  List.forall_mem_append.2 ⟨hks, List.forall_mem_singleton.2 hl⟩

/-- A member that ranks higher than all others stands for them. -/
theorem stands_of_rank_lt (hks : ∀ m ∈ ks, m.isOrdinary = true) (hl : l.isOrdinary = true)
    (hlt : ∀ m ∈ ks, m.rank < l.rank) (ht : l.rank ≤ 3 → t = s) : Stands s (ks ++ [l]) l t := by
  have hlast : l ∈ ks ++ [l] := List.mem_append_right _ List.mem_cons_self
  cases l with
  | effect c p i =>
    refine .effect (.change rfl fun m hm n hn => ?_)
    rw [consumption?_eq_none (hlt m hm)] at hn
    cases hn
  | self =>
    refine .self (forall_mem_concat (fun m hm => ?_) rfl) hlast
    exact rank_lt_six_iff.1 (Nat.lt_succ_of_lt (hlt m hm))
  | stack u =>
    refine .stack (forall_mem_concat (fun m hm => ?_) rfl) (.change rfl fun m hm n hn => ?_)
    · exact rank_lt_five_iff.1 (Nat.lt_succ_of_lt (hlt m hm))
    · rw [height?_eq_none (hlt m hm)] at hn
      cases hn
  | simple a =>
    obtain rfl := ht (Nat.le_refl 3)
    refine .simple (forall_mem_concat (fun m hm => ?_) rfl) ⟨a, hlast⟩ ?_
    · exact rank_lt_four_iff.1 (Nat.lt_succ_of_lt (hlt m hm))
    · have hnil : ks.filter Kind.isSimple = [] := List.filter_eq_nil_iff.2 fun m hm =>
        Bool.eq_false_iff.1 (isSimple_eq_false (hlt m hm))
      rw [List.filter_append, hnil]
      rfl
  | typeVar a =>
    obtain rfl := ht (Nat.le_succ 2)
    refine .typeVar (forall_mem_concat (fun m hm => ?_) rfl) hlast fun b hb => ?_
    · exact (rank_lt_three_iff (hks m hm)).1 (Nat.lt_succ_of_lt (hlt m hm))
    · rcases List.mem_append.1 hb with hb | hb
      · exact absurd (hlt _ hb) (Nat.lt_irrefl _)
      · obtain rfl := typeVar.inj (List.mem_singleton.1 hb)
        exact String.le_refl b
  | stackVar a =>
    obtain rfl := ht (by simp [rank])
    refine .stackVar (forall_mem_concat (fun m hm => ?_) ⟨a, rfl⟩) hlast fun b hb => ?_
    · exact (rank_lt_two_iff (hks m hm)).1 (Nat.lt_succ_of_lt (hlt m hm))
    · rcases List.mem_append.1 hb with hb | hb
      · exact absurd (hlt _ hb) (Nat.lt_irrefl _)
      · obtain rfl := stackVar.inj (List.mem_singleton.1 hb)
        exact String.le_refl b
  | foreign | absent => cases hl

namespace Stands

/-- No member ranks higher than what stands for all. -/
theorem rank_le (h : Stands s ks k t) (hks : ∀ m ∈ ks, m.isOrdinary = true) :
    ∀ m ∈ ks, m.rank ≤ k.rank := by
  intro m hm
  cases h with
  | effect last =>
    rw [rank_of_consumption? last.isSome]
    cases m <;> simp [rank]
  | self others => exact Nat.le_of_lt_succ (rank_lt_six_iff.2 (others m hm))
  | stack others last =>
    rw [rank_of_height? last.isSome]
    exact Nat.le_of_lt_succ (rank_lt_five_iff.2 (others m hm))
  | simple others => exact Nat.le_of_lt_succ (rank_lt_four_iff.2 (others m hm))
  | typeVar others => exact Nat.le_of_lt_succ ((rank_lt_three_iff (hks m hm)).2 (others m hm))
  | stackVar others => exact Nat.le_of_lt_succ ((rank_lt_two_iff (hks m hm)).2 (others m hm))

/-- Nothing is written to the log as long as there are only variables. -/
theorem eq_of_rank_lt (h : Stands s ks k t) (hk : k.rank < 3) : t = s := by
  cases h with
  | effect last => simp [rank_of_consumption? last.isSome] at hk
  | stack _ last => simp [rank_of_height? last.isSome] at hk
  | self | simple => simp [rank] at hk
  | typeVar | stackVar => rfl

theorem ne_absent (h : Stands s ks k t) : k ≠ .absent := by
  rintro rfl
  cases h with
  | effect last | stack _ last => cases last.isSome

/-- A member that ranks lower changes nothing. -/
theorem keep (h : Stands s ks k t) (hl : l.isOrdinary = true) (hlt : l.rank < k.rank) :
    Stands s (ks ++ [l]) k t := by
  cases h with
  | effect last =>
    rw [rank_of_consumption? last.isSome] at hlt
    refine .effect (last.keep fun _ _ m hm => ?_)
    rw [consumption?_eq_none hlt] at hm
    cases hm
  | self others mem =>
    exact .self (forall_mem_concat others (rank_lt_six_iff.1 (Nat.lt_succ_of_lt hlt)))
      (List.mem_append_left _ mem)
  | stack others last =>
    rw [rank_of_height? last.isSome] at hlt
    refine .stack (forall_mem_concat others (rank_lt_five_iff.1 (Nat.lt_succ_of_lt hlt)))
      (last.keep fun _ _ m hm => ?_)
    rw [height?_eq_none hlt] at hm
    cases hm
  | simple others mem alone =>
    refine .simple (forall_mem_concat others (rank_lt_four_iff.1 (Nat.lt_succ_of_lt hlt)))
      (mem.imp fun _ => List.mem_append_left _) ?_
    have hnil : [l].filter Kind.isSimple = [] := by simp [isSimple_eq_false hlt]
    rwa [List.filter_append, hnil, List.append_nil]
  | typeVar others mem least =>
    have hvar := (rank_lt_three_iff hl).1 (Nat.lt_succ_of_lt hlt)
    refine .typeVar (forall_mem_concat others hvar) (List.mem_append_left _ mem) fun b hb => ?_
    obtain ⟨c, rfl⟩ := (rank_lt_two_iff hl).1 hlt
    exact least b (by simpa using hb)
  | stackVar => exact absurd (rank_pos hl) (Nat.not_lt.2 (Nat.le_of_lt_succ hlt))

/-! ## Members of one rank -/

/-- The least of some names and of one more. -/
theorem least_concat {var : String → Kind} (hinj : Function.Injective var) {a : String}
    (mem : var a ∈ ks) (least : ∀ c, var c ∈ ks → a ≤ c) (b : String) :
    ∃ r, (if a ≤ b then var a else var b) = var r ∧ var r ∈ ks ++ [var b] ∧
      ∀ c, var c ∈ ks ++ [var b] → r ≤ c := by
  have hleast : ∀ r, r ≤ a → r ≤ b → ∀ c, var c ∈ ks ++ [var b] → r ≤ c := by
    intro r ha hb c hc
    rcases List.mem_append.1 hc with hc | hc
    · exact String.le_trans ha (least c hc)
    · rwa [hinj (List.mem_singleton.1 hc)]
  split
  · next hab => exact ⟨a, rfl, List.mem_append_left _ mem, hleast a (String.le_refl a) hab⟩
  · next hab =>
    exact ⟨b, rfl, List.mem_append_right _ List.mem_cons_self,
      hleast b ((String.le_total a b).resolve_left hab) (String.le_refl b)⟩

/-- A member of the same rank takes over, or gives way, or makes both give way to the top type. -/
theorem meet (h : Stands s ks k t) (hl : l.isOrdinary = true) (heq : k.rank = l.rank) :
    Ends (representative k l) t (Stands s (ks ++ [l])) fun _ _ => False := by
  cases h with
  | effect last =>
    have hsome := last.isSome
    cases k <;> simp [consumption?] at hsome
    cases l <;> simp only [rank, Nat.reduceEqDiff] at heq
    exact Stands.effect (last.concat rfl rfl)
  | self others mem =>
    cases l <;> simp only [rank, Nat.reduceEqDiff] at heq
    exact Stands.self (forall_mem_concat others rfl) (List.mem_append_left _ mem)
  | stack others last =>
    have hsome := last.isSome
    cases k <;> simp [height?] at hsome
    cases l <;> simp only [rank, Nat.reduceEqDiff] at heq
    exact Stands.stack (forall_mem_concat others rfl) (last.concat rfl rfl)
  | simple others mem alone =>
    cases l <;> simp only [rank, Nat.reduceEqDiff] at heq
    next a b =>
      refine ((ends_lowerType a b).and (.self _ t)).mono ?_ fun _ _ hf => hf.1
      rintro _ u ⟨⟨-, rfl⟩, hu⟩
      refine .simple (forall_mem_concat others rfl) (mem.imp fun _ => List.mem_append_left _) ?_
      rw [List.filter_append, List.foldlM_append, Ends.bind_eq_ok_iff]
      exact ⟨_, t, alone, Ends.bind_eq_ok_iff.2 ⟨_, u, hu, rfl⟩⟩
    · cases hl
  | typeVar others mem least =>
    cases l <;> simp only [rank, Nat.reduceEqDiff] at heq
    next a b =>
    obtain ⟨r, hr, hmem, hleast⟩ := least_concat (fun _ _ => typeVar.inj) mem least b
    change Stands s _ (if a ≤ b then _ else _) s
    rw [hr]
    exact .typeVar (forall_mem_concat others rfl) hmem hleast
  | stackVar others mem least =>
    cases l <;> simp only [rank, Nat.reduceEqDiff] at heq
    next a b =>
    obtain ⟨r, hr, hmem, hleast⟩ := least_concat (fun _ _ => stackVar.inj) mem least b
    change Stands s _ (if a ≤ b then _ else _) s
    rw [hr]
    exact .stackVar (forall_mem_concat others ⟨b, rfl⟩) hmem hleast

/-! ## Reducing a list -/

/-- **One member more.** -/
theorem step (h : Stands s ks k t) (hks : ∀ m ∈ ks, m.isOrdinary = true)
    (hl : l.isOrdinary = true) :
    Ends (representative k l) t (Stands s (ks ++ [l])) fun _ _ => False := by
  rcases Nat.lt_trichotomy l.rank k.rank with hlt | heq | hgt
  · rw [representative_of_lt hlt]
    exact h.keep hl hlt
  · exact h.meet hl heq.symm
  · rw [representative_of_gt hgt]
    exact stands_of_rank_lt hks hl (fun m hm => Nat.lt_of_le_of_lt (h.rank_le hks m hm) hgt)
      fun hle => h.eq_of_rank_lt (Nat.lt_of_lt_of_le hgt hle)

/-- **All other members.** -/
theorem steps (h : Stands s ks k t) (hks : ∀ m ∈ ks, m.isOrdinary = true)
    (hls : ∀ m ∈ ls, m.isOrdinary = true) :
    Ends (ls.foldlM representative k) t (Stands s (ks ++ ls)) fun _ _ => False := by
  induction ls generalizing ks k t with
  | nil => rwa [List.append_nil]
  | cons l ls ih =>
    rw [List.forall_mem_cons] at hls
    rw [List.foldlM_cons]
    refine (h.step hks hls.1).bind fun k' t' h' => ?_
    have hrest := ih h' (forall_mem_concat hks hls.1) hls.2
    rwa [List.append_assoc] at hrest

end Stands

/-- **Reducing ordinary members succeeds.** -/
theorem ends_reduce (s : Store) (hne : ks ≠ []) (hks : ∀ m ∈ ks, m.isOrdinary = true) :
    Ends (ks.foldlM representative .absent) s (Stands s ks) fun _ _ => False := by
  obtain ⟨m, ms, rfl⟩ := List.exists_cons_of_ne_nil hne
  rw [List.forall_mem_cons] at hks
  have hpick : (representative .absent m : Pass Kind) = pure m :=
    representative_of_gt (k := .absent) (rank_pos hks.1)
  rw [List.foldlM_cons, hpick]
  have hnil : ∀ {p : Kind → Prop}, ∀ k ∈ ([] : List Kind), p k := by simp
  have hfirst : Stands s [m] m s := stands_of_rank_lt hnil hks.1 hnil fun _ => rfl
  exact hfirst.steps (by simpa using hks.1) hks.2

/-- For variables stands the one with the least name, if possible of one slot. -/
theorem Stands.of_vars (h : Stands s ks k t) (hvars : ∀ m ∈ ks, m.isVar = true) : t = s ∧
    ((∃ a, k = .typeVar a ∧ .typeVar a ∈ ks ∧ ∀ b, .typeVar b ∈ ks → a ≤ b) ∨
      ∃ a, k = .stackVar a ∧ .stackVar a ∈ ks ∧ (∀ b, .stackVar b ∈ ks → a ≤ b) ∧
        ∀ b, .typeVar b ∉ ks) := by
  cases h with
  | effect last =>
    have hsome := last.isSome
    cases k <;> simp [consumption?] at hsome
    cases hvars _ last.mem
  | self _ mem => cases hvars _ mem
  | stack _ last =>
    have hsome := last.isSome
    cases k <;> simp [height?] at hsome
    cases hvars _ last.mem
  | simple _ mem => cases hvars _ mem.choose_spec
  | typeVar _ mem least => exact ⟨rfl, .inl ⟨_, rfl, mem, least⟩⟩
  | stackVar others mem least =>
    refine ⟨rfl, .inr ⟨_, rfl, mem, least, fun b hb => ?_⟩⟩
    obtain ⟨c, hc⟩ := others _ hb
    cases hc

/-- What stands for variables is told by which of them there are. -/
theorem Stands.eq_of_vars (h : Stands s ks k t) (hvars : ∀ m ∈ ks, m.isVar = true) {k' : Kind}
    {t' : Store} (h' : Stands s ls k' t') (hperm : ls.Perm ks) : k' = k ∧ t' = s := by
  obtain ⟨-, hk⟩ := h.of_vars hvars
  obtain ⟨ht', hk'⟩ := h'.of_vars fun m hm => hvars m (hperm.mem_iff.1 hm)
  refine ⟨?_, ht'⟩
  rcases hk with ⟨a, rfl, mem, least⟩ | ⟨a, rfl, mem, least, hnone⟩ <;>
    rcases hk' with ⟨b, rfl, mem', least'⟩ | ⟨b, rfl, mem', least', hnone'⟩
  · exact congrArg _ (String.le_antisymm (least' _ (hperm.mem_iff.2 mem))
      (least _ (hperm.mem_iff.1 mem')))
  · exact absurd (hperm.mem_iff.2 mem) (hnone' a)
  · exact absurd (hperm.mem_iff.1 mem') (hnone b)
  · exact congrArg _ (String.le_antisymm (least' _ (hperm.mem_iff.2 mem))
      (least _ (hperm.mem_iff.1 mem')))

/-- What the members of a class are reduced to represents it. -/
theorem ends_represent_members {id : Nat} (hid : (s.kept id).toList = ks) (hne : ks ≠ [])
    (hk : k ≠ .absent) (hpick : ks.foldlM (Kind.pick s.subtyping) .absent = some k) :
    Ends (represent id) s (fun r _ => r = some k) fun _ _ => False := by
  obtain ⟨m, ms, rfl⟩ := List.exists_cons_of_ne_nil hne
  refine Ends.bind_iff.2 (Site.ends_look_iff.2 ?_)
  dsimp only
  rw [hid]
  refine Ends.bind_iff.2 (Site.ends_alter_iff.2 ?_)
  have hst {line : Unit → String} : (s.note line).subtyping = s.subtyping :=
    congrArg Partition.subtyping (partition_note s line)
  refine Ends.bind_iff.2 ((ends_foldlM_representative _ _).mono ?_ ?_) <;> rw [hst, hpick]
  · rintro _ t ⟨-, ⟨⟩⟩
    rw [if_neg hk]
    exact rfl
  · rintro _ t ⟨-, ⟨⟩⟩

/-- **Which of its members a class is reduced to.**  Reducing members of ordinary kinds from left to
right succeeds.  An effect stands for them if there is one, the last of those that consume most; or
else the function being defined; or else a stack, the last of the longest; or else what the nominal
types alone are reduced to; or else the variable with the least name, a variable of one slot if
there is one, in whichever order the variables are listed.  And this is what represents a class with
these members. -/
theorem members_reduce_by_rank (s : Store) (ks : List Kind) (hne : ks ≠ [])
    (hks : ∀ k ∈ ks, k.isOrdinary = true) :
    ∃ k t, ks.foldlM representative .absent s = .ok k t ∧ Stands s ks k t ∧
      ((∀ l ∈ ks, l.isVar = true) →
        ∀ ls : List Kind, ls.Perm ks → ls.foldlM representative .absent s = .ok k s) ∧
      ∀ id, (s.kept id).toList = ks → ∃ u, represent id s = .ok (some k) u := by
  obtain ⟨k, t, hk, hstands⟩ := (ends_reduce s hne hks).exists_ok
  refine ⟨k, t, hk, hstands, fun hvars ls hperm => ?_, fun id hid => ?_⟩
  · obtain ⟨k', t', hk', hstands'⟩ := (ends_reduce s (fun hnil => hne (hnil ▸ hperm).symm.eq_nil)
      fun l hl => hks l (hperm.mem_iff.1 hl)).exists_ok
    obtain ⟨rfl, rfl⟩ := hstands.eq_of_vars hvars hstands' hperm
    exact hk'
  · obtain ⟨_, u, hu, rfl⟩ := (ends_represent_members hid hne hstands.ne_absent
      ((ends_foldlM_representative _ .absent).ok hk).2).exists_ok
    exact ⟨u, hu⟩

/-- Of two effects that consume one slot the later one stands for the class, whatever comes between
and behind; and of variables `'b`, though there is `'A`. -/
theorem members_reduce_by_rank_to_later_effect :
    let ks : List Kind := [.typeVar "'a", .effect [.simple "int"] [] false, .self,
      .stack [.simple "int", .simple "int"], .effect [.typeVar "'a"] [] true, .simple "int",
      .effect [] [.simple "int", .simple "int"] false]
    let s : Store := { empty none false .silent with members := #[ks.toArray], parents := #[0] }
    let vs : List Kind := [.typeVar "'c", .stackVar "'A", .typeVar "'b"]
    (∃ t u, ks.foldlM representative .absent s = .ok (.effect [.typeVar "'a"] [] true) t ∧
      Stands s ks (.effect [.typeVar "'a"] [] true) t ∧
      represent 0 s = .ok (some (.effect [.typeVar "'a"] [] true)) u) ∧
      ∀ ws : List Kind, ws.Perm vs →
        ws.foldlM representative .absent s = .ok (.typeVar "'b") s := by
  intro ks s vs
  obtain ⟨k, t, hk, hstands, -, hclass⟩ := members_reduce_by_rank s ks (by decide) (by decide)
  obtain ⟨l, u, hl, -, hperm, -⟩ := members_reduce_by_rank s vs (by decide) (by decide)
  have hmixed : Ends (ks.foldlM representative .absent) s
      (fun k _ => k = .effect [.typeVar "'a"] [] true) fun _ _ => False := by decide +kernel
  have hvars : Ends (vs.foldlM representative .absent) s
      (fun l _ => l = .typeVar "'b") fun _ _ => False := by decide +kernel
  obtain rfl := hmixed.ok hk
  obtain rfl := hvars.ok hl
  obtain ⟨v, hv⟩ := hclass 0 rfl
  exact ⟨⟨t, v, hk, hstands, hv⟩, hperm (by decide)⟩

end Store

end StackEffect
