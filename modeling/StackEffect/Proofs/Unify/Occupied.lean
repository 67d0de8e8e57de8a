import StackEffect.Proofs.Unify.Vocabulary

/-!
# Proofs/Unify/Occupied — no name is left without a member

    constrain n k        n is registered, and its class is empty, until k or the class of k has joined

A name is registered before its class has a member, and the call that registers it may fail.  But
the first member to join an empty class meets nobody there, and cannot clash; so only a call that is
nested too deep can leave an empty class behind.
-/

namespace StackEffect

namespace Partition

/-- Every name has a class with members. -/
def Occupied (P : Partition) : Prop := ∀ n i, P.index n = some i → P.members i ≠ []

/-- Every name has a class with members, unless it is the class of `d`. -/
def OccupiedBut (P : Partition) (d : Nat) : Prop :=
  ∀ n i, P.index n = some i → P.root i = P.root d ∨ P.members i ≠ []

variable {P Q : Partition} {d : Nat}

theorem OccupiedBut.occupied (h : P.OccupiedBut d) (hP : P.Shaped) (hd : P.members d ≠ []) :
    P.Occupied := fun n i hi => (h n i hi).elim (fun e => hP.members_congr e ▸ hd) id

theorem Occupied.members_ne_nil (h : P.Occupied) (hP : P.Shaped) {n : String} {i : Nat}
    (hn : P.Names n i) : P.members i ≠ [] := by
  obtain ⟨j, hj, hji⟩ := hn
  exact hP.members_congr hji ▸ h n j hj

theorem Occupied.append (h : P.Occupied) (id : Nat) (k : Kind) : (P.append id k).Occupied := by
  intro n i hi
  obtain ⟨l, hl⟩ := List.exists_mem_of_ne_nil _ (h n i hi)
  exact List.ne_nil_of_mem (mem_append_iff.2 (.inl hl))

theorem Occupied.register (h : P.Occupied) (hP : P.Shaped) {id : Nat} (hid : P.members id ≠ [])
    (name : String) : (P.register name id).Occupied := by
  intro n i hi
  rcases index_of_register hi with ⟨-, rfl⟩ | hi
  · exact hP.members_root id ▸ hid
  · exact h n i hi

/-- The name of a class that is absorbed belongs to the class that absorbs it. -/
theorem index_absorb_cases {src dst i : Nat} {n : String}
    (hi : (P.absorb src dst).index n = some i) :
    i = dst ∨ i ≠ src ∧ P.index n = some i := by
  obtain ⟨j, hj, rfl⟩ := Option.map_eq_some_iff.1 hi
  split
  · exact .inl rfl
  · next hne => exact .inr ⟨hne, hj⟩

theorem Occupied.absorb (h : P.Occupied) {dst : Nat} (hd : P.members dst ≠ []) (src : Nat) :
    (P.absorb src dst).Occupied := by
  intro n i hi
  rw [members_absorb]
  split
  · exact hd
  · rcases index_absorb_cases hi with rfl | ⟨-, hi⟩
    · exact hd
    · exact h n i hi

/-- A class that absorbs another shares its lack of members with it. -/
theorem OccupiedBut.absorb (h : P.OccupiedBut d) {src dst : Nat} (hdst : P.root dst = dst)
    (hd : P.root d = dst) : (P.absorb src dst).OccupiedBut dst := by
  intro n i hi
  rw [root_absorb_dst hdst]
  rcases index_absorb_cases hi with rfl | ⟨-, hi⟩
  · exact .inl (root_absorb_dst hdst)
  by_cases hsrc : P.root i = src
  · exact .inl (root_absorb_src hsrc)
  · rw [members_absorb, if_neg hsrc]
    refine (h n i hi).imp_left fun hr => ?_
    rw [root_absorb, if_neg hsrc, hr, hd]

end Partition

open StackEffect.Partition

variable {st : Option Subtyping} {lenient : Bool} {T : Theory st lenient}

/-- A step leaves no name without a member that the names before it have not. -/
theorem Theory.Step.occupied {P Q : Partition} (hstep : T.Step P Q)
    (h : ∀ n i, P.index n = some i → ∀ j, Q.index n = some j → Q.members j ≠ []) : Q.Occupied := by
  intro n i hi
  rcases hstep.called n (hi ▸ rfl) with hn | ⟨j, k, hj, hk, -⟩
  · obtain ⟨j, hj⟩ := Option.isSome_iff_exists.1 hn
    exact h n j hj i hi
  · obtain rfl : j = i := Option.some.inj (hj.symm.trans hi)
    exact List.ne_nil_of_mem hk

/-- A step may give members to the class that had none. -/
theorem Partition.OccupiedBut.step {P Q : Partition} {d : Nat} (h : P.OccupiedBut d)
    (hstep : T.Step P Q) (hQ : Q.Shaped) (hd : Q.members d ≠ []) : Q.Occupied := by
  refine hstep.occupied fun n i hi j hj => ?_
  obtain ⟨j', hj', hroot, hsub⟩ := hstep.grows.index hi
  obtain rfl : j' = j := Option.some.inj (hj'.symm.trans hj)
  rcases h n i hi with hr | hne
  · exact hQ.members_congr (hroot.trans (hstep.grows.root hr)) ▸ hd
  · obtain ⟨k, hk⟩ := List.exists_mem_of_ne_nil _ hne
    exact List.ne_nil_of_mem (hsub hk)

namespace Unify

variable {s : Store} {name : String} {k : Kind} {id src dst width room : Nat}

/-- **A call that leaves no name without a member**, unless it is nested too deep. -/
def Occupies (p : Pass Unit) (s : Store) : Prop :=
  Ends p s (fun _ t => t.partition.Occupied) fun e t => e = .tooDeep ∨ t.partition.Occupied

/-- There is nobody to meet in an empty class. -/
theorem ends_meetAll_empty {equate : Stack → Stack → Pass Unit} (hP : s.partition.Shaped)
    (hid : s.partition.members id = []) :
    Ends (meetAll equate width id k) s (fun _ t => t.partition = s.partition) fun _ _ => False := by
  have hsweep : ∀ meet, Ends (sweep id meet width 0) s (fun _ t => t.partition = s.partition)
      fun _ _ => False := by
    intro meet
    cases width with
    | zero | succ =>
      refine .of_memberAt? hP fun t ht => ?_
      rw [ht.partition, hid]
      exact ht.partition
  cases k with
  | effect | stack => exact hsweep _
  | _ => exact rfl

/-- **The first member of a class** joins it without a clash. -/
theorem ends_join_first (hP : s.partition.Shaped) (hlt : id < s.partition.size)
    (hid : s.partition.members id = [])
    (hname : ∀ n i, k.varName? = some n → s.partition.index n = some i →
      s.partition.root i = s.partition.root id) :
    Ends (join width room id k) s (fun _ _ => True) fun e _ => e = .tooDeep := by
  cases room with
  | zero => exact rfl
  | succ room =>
    rw [join_succ, ends_nested_iff]
    have hno : ∀ {t : Store} {b : Bool}, t.partition = s.partition →
        (b = true ↔ k ∈ t.partition.members id) → ¬ b = true := by
      intro t b ht hb hb'
      rw [ht, hid] at hb
      exact List.not_mem_nil (hb.1 hb')
    refine .of_holds (s := s.deeper) hP fun b t hb ht => ?_
    have ht' : t.partition = s.partition := ht.partition
    rw [if_neg (hno ht' hb), Ends.bind_iff]
    refine (ends_meetAll_empty (ht' ▸ hP) (ht' ▸ hid)).mono ?_ fun _ _ he => he.elim
    intro _ t₁ ht₁
    replace ht₁ := ht₁.trans ht'
    refine .of_find (ht₁ ▸ hP) fun u hu => .of_holds (hu.partition.trans ht₁ ▸ hP) fun b v hb hv => ?_
    have hv' : v.partition = s.partition := hv.partition.trans (hu.partition.trans ht₁)
    rw [← hv'] at hP hlt hid hname
    rw [show u.root id = v.root id from congrFun hv.root.symm id] at hb ⊢
    have hroot : v.root (v.root id) = v.root id := hP.root_root id
    have hempty : v.partition.members (v.root id) = [] := (hP.members_root id).trans hid
    rw [if_neg fun hb' => List.not_mem_nil (hempty ▸ hb.1 hb'), Ends.bind_iff, Site.ends_alter_iff]
    have hpart := Store.partition_append (k := k) hroot (hP.root_lt hlt)
    unfold bringClass
    split
    · trivial
    next name hk =>
    have hshaped : (v.append (v.root id) k).partition.Shaped :=
      hpart ▸ hP.append (hP.root_lt hlt) (hempty ▸ List.not_mem_nil)
    refine .of_classOf hshaped fun w hw => ?_
    split
    · next other hother =>
      have hw' := hw.partition.trans hpart
      refine (ends_merge_self (hw'.symm ▸ hpart ▸ hshaped) ?_).mono (fun _ _ _ => trivial)
        fun _ _ he => he
      rw [hw'] at hother
      have hwr : w.root = v.root := congrArg Partition.root hw'
      rw [hwr, hroot]
      exact hname name other hk hother
    · exact trivial

section

variable {join' : Nat → Kind → Pass Unit} (hj : Joins T join')
  (ho : ∀ {s : Store} {id k}, T.Good s.partition → T.Admits s.partition id k →
    s.partition.Occupied → Occupies (join' id k) s)

include hj ho

theorem occupies_drain {ks : List Kind} (h : Draining T s.partition src dst ks)
    (hs : s.partition.Occupied) : Occupies (drain src (join' dst) ks.length) s := by
  induction ks generalizing s with
  | nil => exact h.ends_nil hs
  | cons k ks ih =>
    obtain ⟨hks, hk⟩ := h.takeFirst
    have hs' : (s.takeFirst src).partition.Occupied := by
      rw [h.partition_takeFirst]
      exact hs
    refine h.ends_cons (((hj hks.good hk).and (ho hks.good hk hs')).mono ?_ fun _ _ he => he.2)
    rintro _ t ⟨⟨ht, hst, -⟩, hocc⟩
    exact ih (hks.step ht hst) hocc

/-- Merging classes with members. -/
theorem occupies_merge (h : Merging T s.partition src dst) (hs : s.partition.Occupied) :
    Occupies (merge join' src dst) s := by
  refine ends_merge h (fun t ht _ => ht.partition ▸ hs) fun t line ht hne hdrain => ?_
  refine occupies_drain hj ho hdrain ?_
  rw [h.partition_link ht.partition hne]
  obtain ⟨n, m, -, hm, -⟩ := h.share
  exact hs.absorb ((h.members_root dst).symm ▸ hs.members_ne_nil h.toShaped hm) _

/-- **The first member of a class that is drained** joins an empty class without a clash. -/
theorem occupies_drain_first
    (hfirst : ∀ {s : Store} {id k}, s.partition.Shaped → id < s.partition.size →
      s.partition.members id = [] →
      (∀ n i, k.varName? = some n → s.partition.index n = some i →
        s.partition.root i = s.partition.root id) →
      Ends (join' id k) s (fun _ _ => True) fun e _ => e = .tooDeep)
    {ks : List Kind} (h : Draining T s.partition src dst ks) (hks : ks ≠ [])
    (hs : s.partition.OccupiedBut dst) (hdst : s.partition.members dst = [])
    (hvar : ∀ k ∈ ks, ∀ n, k.varName? = some n → s.partition.Names n dst) :
    Occupies (drain src (join' dst) ks.length) s := by
  obtain ⟨k, ks, rfl⟩ := List.exists_cons_of_ne_nil hks
  obtain ⟨hdrain, hk⟩ := h.takeFirst
  have hpart := h.partition_takeFirst
  refine h.ends_cons ?_
  generalize s.takeFirst src = t at hdrain hk hpart ⊢
  have hbut : t.partition.OccupiedBut dst := hpart ▸ hs
  refine ((hj hdrain.good hk).and (hfirst hdrain.good.toShaped (hk.lt hdrain.good.toShaped)
    (hpart ▸ hdst) ?_)).mono ?_ fun _ _ he => .inl he.2
  · intro n i hn hi
    obtain ⟨j, hj', hji⟩ := hvar k List.mem_cons_self n hn
    rw [hpart] at hi ⊢
    obtain rfl : j = i := Option.some.inj (hj'.symm.trans hi)
    exact hji
  · rintro _ u ⟨⟨hu, hstep, hmem⟩, -⟩
    exact occupies_drain hj ho (hdrain.step hu hstep)
      (hbut.step hstep hu.toShaped (List.ne_nil_of_mem hmem))

/-- An empty class absorbs another one. -/
theorem occupies_merge_first
    (hfirst : ∀ {s : Store} {id k}, s.partition.Shaped → id < s.partition.size →
      s.partition.members id = [] →
      (∀ n i, k.varName? = some n → s.partition.index n = some i →
        s.partition.root i = s.partition.root id) →
      Ends (join' id k) s (fun _ _ => True) fun e _ => e = .tooDeep)
    (h : Merging T s.partition src dst) (hs : s.partition.OccupiedBut dst)
    (hsrc : s.partition.members src ≠ []) (hdst : s.partition.members dst = []) :
    Occupies (merge join' src dst) s := by
  have hsrc' : s.partition.root (s.root src) = s.root src := h.root_root src
  have hdst' : s.partition.root (s.root dst) = s.root dst := h.root_root dst
  refine ends_merge h (fun t ht e => ?_) fun t line ht hne hdrain => ?_
  · exact absurd (h.members_congr e ▸ hdst) hsrc
  have hpart := h.partition_link ht.partition hne line
  refine occupies_drain_first hj ho hfirst hdrain ?_ ?_ ?_ ?_
  · exact fun e => hsrc ((h.members_root src).symm.trans e)
  · rw [hpart]
    exact hs.absorb hdst' rfl
  · rw [hpart, Partition.members_absorb, ite_self]
    exact (h.members_root dst).trans hdst
  · intro k hk n hn
    rw [hpart]
    have hnames : s.partition.Names n (s.root src) := by
      rcases h.var hk hn with hn | ⟨hn, -⟩
      · exact hn
      · exact hn.congr hsrc'.symm
    exact (Partition.names_absorb hsrc' hdst' hnames).congr
      ((Partition.root_absorb_src hsrc').trans (Partition.root_absorb_dst hdst').symm)

theorem occupies_bringClass (h : Pending T s.partition id k) (hs : s.partition.Occupied) :
    Occupies (bringClass join' true id k) s := by
  unfold bringClass
  split
  · exact hs
  next name hname =>
  refine .of_classOf h.toShaped fun t ht => ?_
  rw [← ht.partition] at h hs
  split
  · next other hother => exact occupies_merge hj ho (h.merging hname hother) hs
  · rw [if_pos rfl]
    refine Site.ends_alter_iff.2 ?_
    rw [Store.partition_register]
    exact hs.register h.toShaped (List.ne_nil_of_mem h.mem) name

end

section

variable {equate : Stack → Stack → Pass Unit} (he : Equates T equate)
  (ho : ∀ {s : Store} {v w}, T.Good s.partition → T.par v w → s.partition.Occupied →
    Occupies (equate v w) s)

include he ho

theorem occupies_unifyEffects {l : Kind} (hg : T.Good s.partition) (hs : s.partition.Occupied)
    (h : ∀ c p i d q j, k = .effect c p i → l = .effect d q j → T.par c d ∧ T.par p q) :
    Occupies (unifyEffects equate k l) s := by
  fun_cases unifyEffects equate k l with
  | case1 c p i d q j =>
    obtain ⟨hcd, hpq⟩ := h _ _ _ _ _ _ rfl rfl
    refine Ends.bind_iff.2 (((he hg hcd).and (ho hg hcd hs)).mono ?_ fun _ _ he => he.2)
    exact fun _ t ht => ho ht.1.1 hpq ht.2
  | case2 => exact hs

theorem occupies_meet {m : Kind} (hg : T.Good s.partition) (hk : T.Admits s.partition id k)
    (hm : m ∈ s.partition.members id) (hs : s.partition.Occupied) :
    Occupies (meet equate k m) s := by
  obtain ⟨n, hn, hnk⟩ := hk
  have hnm := hg.member hn hm
  by_cases halike : k.Alike m
  · cases k <;> cases m <;> try exact halike.elim
    case stack.stack v w => exact ho hg (T.par_stack hnk hnm) hs
    case effect.effect c p i d q j =>
      refine occupies_unifyEffects (k := .effect c p i) (l := .effect d q j) he ho hg hs ?_
      rintro _ _ _ _ _ _ ⟨⟩ ⟨⟩
      exact T.par_effect hnk hnm
  · rw [meet_of_not_alike halike]
    exact hs

theorem occupies_meetAll (hg : T.Good s.partition) (hk : T.Admits s.partition id k)
    (hs : s.partition.Occupied) : Occupies (meetAll equate width id k) s := by
  have hsweep : ∀ n i, Occupies (sweep id (meet equate k) n i) s := by
    intro n
    induction n generalizing s with
    | zero =>
      refine fun i => .of_memberAt? hg.toShaped fun t ht => ?_
      rw [← ht.partition] at hs
      split <;> exact hs
    | succ n ih =>
      refine fun i => .of_memberAt? hg.toShaped fun t ht => ?_
      rw [← ht.partition] at hg hk hs
      split
      · exact hs
      · next m hm =>
        have hm' := List.mem_of_getElem? hm
        refine Ends.bind_iff.2 (((runs_meet_any he hg hk hm').and
          (occupies_meet he ho hg hk hm' hs)).mono ?_ fun _ _ he => he.2)
        exact fun _ t ht => ih ht.1.1 (hk.mono ht.1.2.1.grows) ht.2 (i + 1)
  cases k with
  | effect | stack => exact hsweep width 0
  | _ => exact hs

end

theorem Occupies.nested {p : Pass Unit}
    (h : ∀ s', s'.partition = s.partition → Occupies p s') : Occupies (nested p) s :=
  ends_nested_iff.2 (h s.deeper rfl)

/-- What `constrain`, `join` and `unifyStacks` leave occupied when so many levels are left. -/
structure KeepsOccupied (T : Theory st lenient) (width room : Nat) : Prop where
  constrain : ∀ {s n k}, T.Good s.partition → T.call n k → s.partition.Occupied →
    Occupies (constrain width room n k) s
  join : ∀ {s id k}, T.Good s.partition → T.Admits s.partition id k → s.partition.Occupied →
    Occupies (join width room id k) s
  equate : ∀ {s v w}, T.Good s.partition → T.par v w → s.partition.Occupied →
    Occupies (unifyStacks width room v w) s

section

variable (h : KeepsOccupied T width room) (hc : Contract T width room)
  (hw : ∀ P, P.Shaped → T.Holds P → ∀ i, (P.members i).length ≤ width)

include h hc hw

theorem KeepsOccupied.join_succ (hg : T.Good s.partition) (hk : T.Admits s.partition id k)
    (hs : s.partition.Occupied) : Occupies (Unify.join width (room + 1) id k) s := by
  rw [Unify.join_succ]
  refine .nested fun s' hs' => .of_holds (hs' ▸ hg.toShaped) fun b s₁ _ hs₁ => ?_
  rw [← hs', ← hs₁.partition] at hg hk hs
  split
  · exact hs
  have hw' : ∀ P, T.Good P → (P.members id).length ≤ width := fun P hP =>
    hw P hP.toShaped hP.toHolds id
  refine Ends.bind_iff.2 (((runs_meetAll hc.equates hg hk hw').and
    (occupies_meetAll hc.equates h.equate hg hk hs)).mono ?_ fun _ _ he => he.2)
  rintro _ t ⟨⟨ht, hst, -⟩, hocc⟩
  refine .of_find ht.toShaped fun u hu => .of_holds (hu.partition ▸ ht.toShaped) fun b v hb hv => ?_
  rw [← hu.partition, ← hv.partition] at ht hst hocc
  rw [show u.root id = v.root id from congrFun hv.root.symm id] at hb ⊢
  split
  · exact hocc
  next hb' =>
  have hroot : v.root (v.root id) = v.root id := ht.root_root id
  have hkv := (hk.mono hst.grows).congr hroot.symm
  refine Ends.bind_iff.2 (Site.ends_alter_iff.2 (occupies_bringClass hc.joins h.join ?_ ?_)) <;>
    rw [partition_append ht hkv hroot]
  · exact .of_append ht hkv fun hmem => hb' (hb.2 hmem)
  · exact hocc.append _ k

end

/-- After a name was given a class, the names that were there have members, and all other names belong
to that class. -/
theorem ends_classFor_occupied (hg : T.Good s.partition) (hs : s.partition.Occupied)
    {E : Fault → Store → Prop} : Ends (classFor name) s
      (fun id t => T.Good t.partition ∧ t.partition.Names name id ∧ t.partition.OccupiedBut id ∧
        ∀ n i, n ≠ name → t.partition.index n = some i → t.partition.members i ≠ []) E := by
  refine (ends_classFor hg).mono ?_ fun _ _ he => he
  rintro id t ⟨ht, hgrow, hn, hmem, -, hnames⟩
  have hold : ∀ n i, n ≠ name → t.partition.index n = some i → t.partition.members i ≠ [] := by
    intro n i hne hi
    obtain ⟨j, hj⟩ := Option.isSome_iff_exists.1 ((hnames n (hi ▸ rfl)).resolve_left hne)
    obtain ⟨j', hj', -, hsub⟩ := hgrow.index hj
    obtain rfl : j' = i := Option.some.inj (hj'.symm.trans hi)
    obtain ⟨l, hl⟩ := List.exists_mem_of_ne_nil _ (hs n j hj)
    exact List.ne_nil_of_mem (hsub hl)
  refine ⟨ht, hn, fun n i hi => ?_, hold⟩
  by_cases hne : n = name
  · obtain ⟨j, hj, hji⟩ := hn
    obtain rfl : j = i := Option.some.inj (hj.symm.trans (hne ▸ hi))
    exact .inl hji
  · exact .inr (hold n i hne hi)

section

variable (h : KeepsOccupied T width room) (hc : Contract T width room)

include h hc

/-- **An empty class gets a member**: `k`, or the first one of the class of `k`. -/
theorem KeepsOccupied.bring_first (hg : T.Good s.partition) (hn : s.partition.Names name id)
    (hk : T.eqn name k) (hself : k.varName? ≠ some name) (hbut : s.partition.OccupiedBut id)
    (hold : ∀ n i, n ≠ name → s.partition.index n = some i → s.partition.members i ≠ [])
    (hid : s.partition.members id = []) :
    Occupies (do bringClass (Unify.join width room) false id k; Unify.join width room id k) s := by
  have hjoin : ∀ t : Store, t.partition = s.partition →
      (∀ n i, k.varName? = some n → s.partition.index n = some i → False) →
      Occupies (Unify.join width room id k) t := by
    intro t ht hnew
    rw [← ht] at hg hn hbut hid hnew
    refine ((hc.joins hg ⟨name, hn, hk⟩).and (ends_join_first hg.toShaped
      (hg.toShaped.lt_of_names hn) hid fun n i hkn hi => (hnew n i hkn hi).elim)).mono ?_
      fun _ _ he => .inl he.2
    rintro _ u ⟨⟨hu, hstep, hku⟩, -⟩
    exact hbut.step hstep hu.toShaped (List.ne_nil_of_mem hku)
  unfold bringClass
  cases hname : k.varName? with
  | none => exact hjoin s rfl fun n i hkn => by simp [hname] at hkn
  | some m =>
    dsimp only
    rw [bind_assoc]
    refine .of_classOf hg.toShaped fun t ht => ?_
    cases ho : t.partition.index m with
    | none =>
      rw [ht.partition] at ho
      refine hjoin t ht.partition fun n i hkn hi => ?_
      cases hname.symm.trans hkn
      cases ho.symm.trans hi
    | some other =>
      rw [← ht.partition] at hg hn hbut hid hold
      have hm := merging_of_index hg hn hk hname ho
      have hsrc := hold m other (fun e => hself (e ▸ hname)) ho
      refine Ends.bind_iff.2 (((runs_merge hc.joins hm).and
        (occupies_merge_first hc.joins h.join ends_join_first hm hbut hsrc hid)).mono ?_
        fun _ _ he => he.2)
      rintro _ u ⟨⟨hu, hstep, -⟩, hocc⟩
      exact h.join hu ⟨name, hstep.grows.names hn, hk⟩ hocc

theorem KeepsOccupied.bring (hg : T.Good s.partition) (hn : s.partition.Names name id)
    (hk : T.eqn name k) (hs : s.partition.Occupied) :
    Occupies (bringClass (Unify.join width room) false id k) s := by
  unfold bringClass
  split
  · exact hs
  next m hm =>
  refine .of_classOf hg.toShaped fun t ht => ?_
  rw [← ht.partition] at hg hn hs
  split
  · next other ho =>
    exact occupies_merge hc.joins h.join (merging_of_index hg hn hk hm ho) hs
  · exact hs

theorem KeepsOccupied.constrain_succ (hg : T.Good s.partition) (hk : T.call name k)
    (hs : s.partition.Occupied) : Occupies (Unify.constrain width (room + 1) name k) s := by
  by_cases hself : k.varName? = some name
  · rw [constrain_self hself]
    refine .nested fun s' hs' => ?_
    rw [← hs'] at hs
    exact hs
  by_cases hslot : ∃ slot, k = .stack [slot]
  · obtain ⟨slot, rfl⟩ := hslot
    rw [constrain_slot]
    exact .nested fun s' hs' => h.constrain (hs' ▸ hg) (T.call_slot hk) (hs' ▸ hs)
  rw [not_exists] at hslot
  have heqn := T.eqn_of_call hk hslot
  rw [Unify.constrain_succ hself hslot]
  refine .nested fun s' hs' => ?_
  rw [← hs'] at hg hs
  refine (ends_classFor_occupied hg hs).bind fun id t ⟨ht, hn, hbut, hold⟩ => ?_
  by_cases hid : t.partition.members id = []
  · exact h.bring_first hc ht hn heqn hself hbut hold hid
  have hocc := hbut.occupied ht.toShaped hid
  refine Ends.bind_iff.2 (((runs_bringClass hc.joins ht hn heqn).and
    (h.bring hc ht hn heqn hocc)).mono ?_ fun _ _ he => he.2)
  rintro _ u ⟨⟨hu, hstep, -⟩, hocc⟩
  exact h.join hu ⟨name, hstep.grows.names hn, heqn⟩ hocc

end

theorem KeepsOccupied.equate_succ {L : Kind → Prop} {hL : Kind.Closed L}
    (h : KeepsOccupied (.within L hL : Theory st lenient) width room)
    (hc : Contract (.within L hL : Theory st lenient) width room)
    (hg : (Theory.within L hL : Theory st lenient).Good s.partition) {v w : Stack}
    (hv : L (.stack v)) (hw : L (.stack w)) (hs : s.partition.Occupied) :
    Occupies (unifyStacks width (room + 1) v w) s := by
  refine .nested fun s' hs' => ?_
  rw [← hs'] at hg hs
  refine Ends.mono (ends_walk (V := .within hL)
    (I := fun s => (Theory.within L hL : Theory st lenient).Good s.partition ∧ s.partition.Occupied)
    (E := fun e t => e = .tooDeep ∨ t.partition.Occupied) (fun _ _ hs => .inr hs.2)
    (fun n k _ hk t ht => ?_) (fun v w hv hw t ht => ?_) hv hw ⟨hg, hs⟩)
    (fun _ _ ht => ht.2) fun _ _ he => he
  · exact ((hc.constrains ht.1 hk).and (h.constrain ht.1 hk ht.2)).mono
      (fun _ _ hu => ⟨hu.1.1, hu.2⟩) fun _ _ hu => hu.2
  · exact ((hc.equates ht.1 ⟨hv, hw⟩).and (h.equate ht.1 ⟨hv, hw⟩ ht.2)).mono
      (fun _ _ hu => ⟨hu.1.1, hu.2⟩) fun _ _ hu => hu.2

/-- **Only a call that is nested too deep leaves a name without a member.** -/
theorem keepsOccupied {L : Kind → Prop} {hL : Kind.Closed L}
    (hw : ∀ P, P.Shaped → (Theory.within L hL : Theory st lenient).Holds P →
      ∀ i, (P.members i).length ≤ width) (room : Nat) :
    KeepsOccupied (.within L hL : Theory st lenient) width room := by
  have hc := contract fun P hP => hw P hP.toShaped hP.toHolds
  induction room with
  | zero => exact ⟨fun _ _ _ => .inl rfl, fun _ _ _ => .inl rfl, fun _ _ _ => .inl rfl⟩
  | succ room ih =>
    exact ⟨ih.constrain_succ (hc room), ih.join_succ (hc room) hw, fun hg hvw hs =>
      ih.equate_succ (hc room) hg hvw.1 hvw.2 hs⟩

end Unify

end StackEffect
