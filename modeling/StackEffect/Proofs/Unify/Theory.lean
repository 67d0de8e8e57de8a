import StackEffect.Proofs.Unify.Settled

/-!
# Proofs/Unify/Theory — what constraints are about

A theory says what a name may be constrained to equal (`call`), what may become a member of its
class (`eqn`), which names may share a class (`same`), and which stacks may be unified (`par`).  Its
laws say that everything that unifying brings about is allowed again.  Values under a substitution
make a theory, and so do the parts of the kinds that were handed in, and the kinds of a certain
shape; two theories make a third (`Theory.and`).

    T.Holds P        what P has recorded is what T allows
    T.Step P Q       P grows into Q, and what T says of P still holds
-/

namespace StackEffect

/-- **A theory of equations** between names and kinds, closed under what unifying asks for when
nominal types are ordered by `st`, and sizes do not matter if `lenient`. -/
structure Theory (st : Option Subtyping) (lenient : Bool) where
  /-- Whether two kinds that are unified may turn out to differ. -/
  mayClash : Prop
  /-- Names that may share a class. -/
  same : String → String → Prop
  /-- What may be a member of the class of a name. -/
  eqn : String → Kind → Prop
  /-- What a name may be constrained to equal. -/
  call : String → Kind → Prop
  /-- Which stacks may be unified. -/
  par : Stack → Stack → Prop
  same_equiv : Equivalence same
  eqn_congr : ∀ {n m k}, same n m → eqn n k → eqn m k
  eqn_of_call : ∀ {n k}, call n k → (∀ slot, k ≠ .stack [slot]) → eqn n k
  call_slot : ∀ {n k}, call n (.stack [k]) → call n k
  call_self : ∀ {n k m}, eqn n k → k.varName? = some m → call m k
  same_var : ∀ {n k m}, eqn n k → k.varName? = some m → same n m
  par_effect : ∀ {n c p i d q j}, eqn n (.effect c p i) → eqn n (.effect d q j) → par c d ∧ par p q
  par_stack : ∀ {n s t}, eqn n (.stack s) → eqn n (.stack t) → par s t
  par_aligned : ∀ {s t}, par s t → Aligned (lenient = true ∨ mayClash)
    (fun a => lenient = true ∨ call a (.stack [])) call (SlotAsk st mayClash call par) s t

namespace Theory

variable {st : Option Subtyping} {lenient : Bool}

/-- The faults that a theory does not exclude. -/
def Fails (T : Theory st lenient) (e : Fault) : Prop :=
  e = .tooDeep ∨ T.mayClash ∧ ∃ m, e = .mismatch m

/-- **Two theories at once.** -/
def and (T U : Theory st lenient) : Theory st lenient where
  mayClash := T.mayClash ∧ U.mayClash
  same n m := T.same n m ∧ U.same n m
  eqn n k := T.eqn n k ∧ U.eqn n k
  call n k := T.call n k ∧ U.call n k
  par s t := T.par s t ∧ U.par s t
  same_equiv := ⟨fun n => ⟨T.same_equiv.refl n, U.same_equiv.refl n⟩,
    fun h => ⟨T.same_equiv.symm h.1, U.same_equiv.symm h.2⟩,
    fun h h' => ⟨T.same_equiv.trans h.1 h'.1, U.same_equiv.trans h.2 h'.2⟩⟩
  eqn_congr h := And.imp (T.eqn_congr h.1) (U.eqn_congr h.2)
  eqn_of_call h hs := ⟨T.eqn_of_call h.1 hs, U.eqn_of_call h.2 hs⟩
  call_slot := And.imp T.call_slot U.call_slot
  call_self h hm := ⟨T.call_self h.1 hm, U.call_self h.2 hm⟩
  same_var h hm := ⟨T.same_var h.1 hm, U.same_var h.2 hm⟩
  par_effect h h' :=
    have h₁ := T.par_effect h.1 h'.1
    have h₂ := U.par_effect h.2 h'.2
    ⟨⟨h₁.1, h₂.1⟩, ⟨h₁.2, h₂.2⟩⟩
  par_stack h h' := ⟨T.par_stack h.1 h'.1, U.par_stack h.2 h'.2⟩
  par_aligned h := by
    refine ((T.par_aligned h.1).and (U.par_aligned h.2)).imp or_and_left.2 (fun a => or_and_left.2)
      (fun _ _ => id) fun k _ l hs => ?_
    obtain ⟨⟨hk, hl, he, hc⟩, ⟨hk', hl', he', hc'⟩⟩ := hs
    refine ⟨fun a ha => ⟨hk a ha, hk' a ha⟩, fun b hb => ⟨hl b hb, hl' b hb⟩, ?_,
      or_and_left.2 ⟨hc, hc'⟩⟩
    intro c p i d q j hkc hld
    have h₁ := he c p i d q j hkc hld
    have h₂ := he' c p i d q j hkc hld
    exact ⟨⟨h₁.1, h₂.1⟩, ⟨h₁.2, h₂.2⟩⟩

/-- **A partition has recorded what a theory allows**, of each name and each member of a class, and
of any two names. -/
structure Holds (T : Theory st lenient) (P : Partition) : Prop where
  subtyping : P.subtyping = st
  lenient : P.lenient = lenient
  member : ∀ {n i k}, P.Names n i → k ∈ P.members i → T.eqn n k
  names : ∀ {n m i}, P.Names n i → P.Names m i → T.same n m

/-- The partitions that a theory is about. -/
structure Good (T : Theory st lenient) (P : Partition) : Prop extends P.Sound, T.Holds P

/-- `k` may join the class of `i`: a name of the class may equal it. -/
def Admits (T : Theory st lenient) (P : Partition) (i : Nat) (k : Kind) : Prop :=
  ∃ n, P.Names n i ∧ T.eqn n k

/-- **What a successful step does**: the partition grows, the classes that it absorbs are drained,
every new name has a member in its class that it was constrained to equal, and members stay linked.
-/
structure Step (T : Theory st lenient) (P Q : Partition) : Prop where
  grows : P.Grows Q
  drains : P.Drains Q
  called : ∀ n, (Q.index n).isSome →
    (P.index n).isSome ∨ ∃ i k, Q.index n = some i ∧ k ∈ Q.members i ∧ T.call n k
  linked : ∀ R, R.Shaped → Q.Grows R → P.LinkedIn R → Q.LinkedIn R

variable {T : Theory st lenient} {P Q R : Partition} {i src dst : Nat} {k : Kind}
  {n m name : String}

theorem Step.refl (T : Theory st lenient) (P : Partition) : T.Step P P :=
  ⟨.refl P, .of_eq rfl rfl, fun _ hn => .inl hn, fun _ _ _ hl => hl⟩

theorem Step.trans (h : T.Step P Q) (h' : T.Step Q R) : T.Step P R where
  grows := h.grows.trans h'.grows
  drains := h.drains.trans h'.drains
  called n hn := by
    rcases h'.called n hn with hq | hr
    · refine (h.called n hq).imp id fun ⟨i, k, hi, hk, hc⟩ => ?_
      obtain ⟨j, hj, -, hmem⟩ := h'.grows.index hi
      exact ⟨j, k, hj, hmem hk, hc⟩
    · exact .inr hr
  linked S hS hg hl := h'.linked S hS hg (h.linked S hS (h'.grows.trans hg) hl)

theorem good_and_iff {U : Theory st lenient} : (T.and U).Good P ↔ T.Good P ∧ U.Good P :=
  ⟨fun h => ⟨{ h with
      member := fun hn hk => (h.member hn hk).1
      names := fun hn hm => (h.names hn hm).1 }, { h with
      member := fun hn hk => (h.member hn hk).2
      names := fun hn hm => (h.names hn hm).2 }⟩,
    fun h => { h.1 with
      member := fun hn hk => ⟨h.1.member hn hk, h.2.member hn hk⟩
      names := fun hn hm => ⟨h.1.names hn hm, h.2.names hn hm⟩ }⟩

theorem Step.left {U : Theory st lenient} (h : (T.and U).Step P Q) : T.Step P Q where
  grows := h.grows
  drains := h.drains
  called n hn := (h.called n hn).imp_right fun ⟨i, k, hi, hk, hc⟩ => ⟨i, k, hi, hk, hc.1⟩
  linked := h.linked

theorem Fails.left {U : Theory st lenient} {e : Fault} (h : (T.and U).Fails e) : T.Fails e :=
  h.imp_right fun h => ⟨h.1.1, h.2⟩

theorem Admits.mono (h : P.Grows Q) (ha : T.Admits P i k) : T.Admits Q i k :=
  ha.imp fun _ hn => ⟨h.names hn.1, hn.2⟩

theorem Admits.congr {j : Nat} (ha : T.Admits P i k) (hij : P.root i = P.root j) : T.Admits P j k :=
  ha.imp fun _ hn => ⟨hn.1.congr hij, hn.2⟩

/-- **What may join a class may equal every name of it.** -/
theorem Admits.eqn (hP : T.Holds P) (ha : T.Admits P i k) (hn : P.Names n i) : T.eqn n k := by
  obtain ⟨m, hm, hk⟩ := ha
  exact T.eqn_congr (hP.names hm hn) hk

theorem Admits.lt (hP : P.Shaped) (ha : T.Admits P i k) : i < P.size :=
  hP.lt_of_names ha.choose_spec.1

theorem Admits.of_mem (hP : T.Good P) (hk : k ∈ P.members i) : T.Admits P i k := by
  have hi : i < P.size := by
    by_contra hi
    simp [hP.members_of_ge (Nat.le_of_not_lt hi)] at hk
  obtain ⟨n, hn⟩ := hP.exists_names hi
  exact ⟨n, hn, hP.member hn hk⟩

/-! ## Single steps keep what a theory says -/

/-- A class of its own has no member to equal. -/
theorem Good.registerNew (h : T.Good P) (hn : P.index name = none) :
    T.Good (P.registerNew name) := by
  have hold : ∀ {m i}, (P.registerNew name).Names m i → P.Names m i ∨ m = name ∧ i = P.size := by
    rintro m i ⟨j, hj, hji⟩
    rcases Partition.index_of_register hj with ⟨rfl, rfl⟩ | hj
    · exact .inr ⟨rfl, h.root_eq_of_ge (Nat.le_refl _) (hji.symm.trans (h.root_root _))⟩
    · exact .inl ⟨j, hj, hji⟩
  have hnew : ∀ {m}, ¬ P.Names m P.size := fun hm => Nat.lt_irrefl _ (h.lt_of_names hm)
  refine { h.toSound.registerNew hn with
    subtyping := h.subtyping
    lenient := h.lenient
    member := fun {m i k} hm hk => ?_
    names := fun {m m' i} hm hm' => ?_ }
  · change k ∈ P.members i at hk
    rcases hold hm with hm | ⟨-, rfl⟩
    · exact h.member hm hk
    · simp [h.members_of_ge (Nat.le_refl _)] at hk
  · rcases hold hm with hP | ⟨rfl, hi⟩ <;> rcases hold hm' with hP' | ⟨rfl, hi'⟩
    · exact h.names hP hP'
    · exact absurd (hi' ▸ hP) hnew
    · exact absurd (hi ▸ hP') hnew
    · exact T.same_equiv.refl _

/-- What an absorbed class has kept does not matter. -/
theorem Good.keeping {id : Nat} (h : T.Good P) (hid : P.root id ≠ id) (ks : List Kind) :
    T.Good (P.keeping id ks) :=
  { h.toSound.keeping hid ks with
    subtyping := h.subtyping
    lenient := h.lenient
    member := h.member
    names := h.names }

/-- A member that the names of its class may equal. -/
theorem Holds.append (h : T.Holds P) {id : Nat} (ha : T.Admits P id k) :
    T.Holds (P.append id k) where
  subtyping := h.subtyping
  lenient := h.lenient
  member {n i l} hn hl := by
    rcases Partition.mem_append_iff.1 hl with hl | ⟨hi, rfl⟩
    · exact h.member hn hl
    · exact ha.eqn h (Partition.Names.congr hn hi)
  names := h.names

/-- A name that is a member of its class. -/
theorem Holds.register (h : T.Holds P) (hP : P.Shaped) {id : Nat} (ha : T.Admits P id k)
    (hv : k.varName? = some name) : T.Holds (P.register name id) := by
  obtain ⟨n₀, hn₀, hk⟩ := ha
  have hold : ∀ {m i}, (P.register name id).Names m i →
      P.Names m i ∨ P.root id = P.root i ∧ T.same n₀ m := by
    rintro m i ⟨j, hj, hji⟩
    rcases Partition.index_of_register hj with ⟨rfl, rfl⟩ | hj
    · exact .inr ⟨(hP.root_root id).symm.trans hji, T.same_var hk hv⟩
    · exact .inl ⟨j, hj, hji⟩
  refine ⟨h.subtyping, h.lenient, fun {m i l} hm hl => ?_, fun {m m' i} hm hm' => ?_⟩
  · rcases hold hm with hm | ⟨hi, hs⟩
    · exact h.member hm hl
    · exact T.eqn_congr hs (h.member (hn₀.congr hi) hl)
  · rcases hold hm with hm | ⟨hi, hs⟩ <;> rcases hold hm' with hm' | ⟨hi', hs'⟩
    · exact h.names hm hm'
    · exact T.same_equiv.trans (h.names hm (hn₀.congr hi')) hs'
    · exact T.same_equiv.trans (T.same_equiv.symm hs) (h.names (hn₀.congr hi) hm')
    · exact T.same_equiv.trans (T.same_equiv.symm hs) hs'

/-- **Two classes whose names may share a class make one.** -/
theorem Holds.absorb (h : T.Holds P) (hP : P.Shaped) (hs : P.root src = src) (hd : P.root dst = dst)
    (hns : P.Names n src) (hnd : P.Names m dst) (he : T.same n m) :
    T.Holds (P.absorb src dst) := by
  have hsame : ∀ {a b i j}, P.Names a i → P.Names b j →
      (P.absorb src dst).root i = (P.absorb src dst).root j → T.same a b := by
    intro a b i j ha hb hij
    rw [Partition.root_absorb, Partition.root_absorb] at hij
    by_cases hi : P.root i = src <;> by_cases hj : P.root j = src
    · exact h.names ha (hb.congr (hj.trans hi.symm))
    · rw [if_pos hi, if_neg hj] at hij
      have hb' := hb.congr (hij.symm.trans hd.symm)
      exact T.same_equiv.trans (h.names ha (hns.congr (hs.trans hi.symm)))
        (T.same_equiv.trans he (h.names hnd hb'))
    · rw [if_neg hi, if_pos hj] at hij
      have ha' := ha.congr (hij.trans hd.symm)
      exact T.same_equiv.trans (h.names ha' hnd)
        (T.same_equiv.trans (T.same_equiv.symm he) (h.names hns (hb.congr (hj.trans hs.symm))))
    · rw [if_neg hi, if_neg hj] at hij
      exact h.names ha (hb.congr hij.symm)
  refine ⟨h.subtyping, h.lenient, ?_, ?_⟩
  · intro a i l ha hl
    obtain ⟨j, hj, hji⟩ := Partition.exists_of_names_absorb hs hd ha
    obtain ⟨i', hi', hl'⟩ : ∃ i', (P.absorb src dst).root i' = (P.absorb src dst).root i ∧
        l ∈ P.members i' := by
      rcases Partition.mem_of_mem_absorb hl with hl | ⟨hi, hl⟩
      · exact ⟨i, rfl, hl⟩
      · exact ⟨dst, (Partition.root_absorb_dst hd).trans (Partition.root_absorb_src hi).symm, hl⟩
    obtain ⟨b, hb⟩ := hP.exists_names (i := i') <| by
      by_contra hlt
      simp [hP.members_of_ge (Nat.le_of_not_lt hlt)] at hl'
    exact T.eqn_congr (hsame hb hj (hi'.trans hji.symm)) (h.member hb hl')
  · intro a b i ha hb
    obtain ⟨j, hj, hji⟩ := Partition.exists_of_names_absorb hs hd ha
    obtain ⟨j', hj', hji'⟩ := Partition.exists_of_names_absorb hs hd hb
    exact hsame hj hj' (hji.trans hji'.symm)

/-- A variable may be a member of the one class and be registered with the other: it belongs to the
class that both make. -/
theorem Good.absorb (hP : P.Shaped) (hT : T.Holds P) (hs : P.root src = src) (hd : P.root dst = dst)
    (hne : src ≠ dst) (hns : P.Names n src) (hnd : P.Names m dst) (he : T.same n m)
    (hvar : ∀ {i k a}, k ∈ P.members i → k.varName? = some a →
      P.Names a i ∨ P.Names a src ∧ P.root i = dst) : T.Good (P.absorb src dst) := by
  have hsd : (P.absorb src dst).root src = dst := Partition.root_absorb_src hs
  refine { hP.absorb hd (hP.lt_of_names hnd) hs (hP.lt_of_names hns) hne,
    hT.absorb hP hs hd hns hnd he with member_var := fun {i k a} hk hv => ?_ }
  rcases Partition.mem_of_mem_absorb hk with hk | ⟨hi, hk⟩
  · rcases hvar hk hv with ha | ⟨ha, hi⟩
    · exact Partition.names_absorb hs hd ha
    · exact (Partition.names_absorb hs hd ha).congr (hsd.trans (Partition.root_absorb_dst hi).symm)
  · have hi' : dst = (P.absorb src dst).root i := (Partition.root_absorb_src hi).symm
    rcases hvar hk hv with ha | ⟨ha, -⟩
    · exact (Partition.names_absorb hs hd ha).congr ((Partition.root_absorb_dst hd).trans hi')
    · exact (Partition.names_absorb hs hd ha).congr (hsd.trans hi')

/-! ## Single steps keep members linked -/

/-- A member that agrees with one member of its sort is linked to all of them. -/
theorem Step.append {id : Nat} (hk : (∀ m ∈ P.members id, ¬ k.Alike m) ∨
    ∃ m ∈ P.members id, k.Alike m ∧ P.Agree k m) (hP : P.Shaped) : T.Step P (P.append id k) where
  grows := .append P id k
  drains := .append hP id k
  called _ hn := .inl hn
  linked R _ hg hl := by
    have hgrow := (Partition.Grows.append P id k).trans hg
    -- what `k` is alike to is linked to it through the member that it agrees with
    have hnew : ∀ {i l}, P.root i = P.root id → l ∈ P.members i → k.Alike l → R.Linked i k l := by
      intro i l hi hl' ha
      rw [hP.members_congr hi] at hl'
      rcases hk with hk | ⟨m, hm, ham, hagree⟩
      · exact absurd ha (hk l hl')
      · rw [← hP.members_congr hi] at hl' hm
        have hkR : k ∈ R.members i := hg.members (Partition.mem_append_iff.2 (.inr ⟨hi, rfl⟩))
        exact .trans _ _ _ (.rel _ _ ⟨hkR, hgrow.members hm, hagree.mono hgrow⟩)
          (hl i m l hm hl' (ham.symm.trans ha))
    intro i a b ha hb hab
    rcases Partition.mem_append_iff.1 ha with hPa | ⟨hi, rfl⟩ <;>
      rcases Partition.mem_append_iff.1 hb with hPb | ⟨hi', rfl⟩
    · exact hl i a b hPa hPb hab
    · exact (hnew hi' hPa hab.symm).symm
    · exact hnew hi hPb hab
    · exact .refl _

/-- A new name for a class, of which it is a member. -/
theorem Step.register (hP : P.Shaped) {id : Nat} (hn : P.index name = none) (hk : k ∈ P.members id)
    (hc : T.call name k) : T.Step P (P.register name id) where
  grows := .register hn id
  drains := .of_eq rfl rfl
  called m hm := by
    obtain ⟨j, hj⟩ := Option.isSome_iff_exists.1 hm
    rcases Partition.index_of_register hj with ⟨rfl, rfl⟩ | hm
    · exact .inr ⟨_, k, hj, (hP.members_root id).symm ▸ hk, hc⟩
    · exact .inl (hm ▸ rfl)
  linked _ _ _ hl := hl

/-- What an absorbed class has kept does not matter to a step. -/
theorem Step.keeping {id : Nat} (h : T.Step P Q) (hid : P.root id ≠ id) (ks : List Kind) :
    T.Step (P.keeping id ks) (Q.keeping id ks) where
  grows := { h.grows with }
  drains := h.drains.keeping hid ks
  called := h.called
  linked R hR hg := h.linked R hR { hg with }

/-- **Absorbing a class is a step** once all its members have been taken, and have joined. -/
theorem Step.of_absorb (h : T.Step ((P.absorb src dst).keeping src []) Q) (hP : P.Shaped)
    (hQ : Q.Shaped) (hs : P.root src = src) (hd : P.root dst = dst) (hne : src ≠ dst)
    (hm : ∀ k ∈ P.members src, k ∈ Q.members dst) : T.Step P Q where
  grows := .of_absorb hd { h.grows with } hQ hm hP hs
  drains := .of_absorb hs hd hne h.drains
  called n hn := (h.called n hn).imp_left fun h => by rwa [← Option.isSome_map]
  linked R hR hg hl := by
    refine h.linked R hR hg fun i a b ha hb hab => ?_
    change _ ∈ (P.absorb src dst).members i at ha hb
    rw [Partition.members_absorb] at ha hb
    split at ha
    · next hi =>
      rw [if_pos hi] at hb
      refine (hl dst a b ha hb hab).congr hR ((h.grows.trans hg).root ?_)
      exact (Partition.root_absorb_dst hd).trans (Partition.root_absorb_src hi).symm
    · next hi =>
      rw [if_neg hi] at hb
      exact hl i a b ha hb hab

end Theory

end StackEffect
