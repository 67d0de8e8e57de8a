import StackEffect.Proofs.Store.Lookup
import StackEffect.Proofs.Unify.Theory

/-!
# Proofs/Unify/Contract — what unifying does, and what it leaves behind

    constrain n k       afterwards n is bound to k
    join i k            afterwards k is a member of the class of i
    unifyStacks v w     afterwards v and w are settled

`contract` proves the three together, for every theory that allows the call: a call that succeeds is
a `Theory.Step`, and one that fails leaves a partition that the theory is about, with a fault that
the theory does not exclude.  The induction is on the levels of nesting that are left.  The width
has to exceed the number of members that a class may get; otherwise a member might not be met.
-/

namespace StackEffect

variable {st : Option Subtyping} {lenient : Bool} {T : Theory st lenient}

namespace Theory

variable {α β : Type} {s : Store} {P Q R : Partition}

/-- **How a step runs under a theory.** -/
def Runs (T : Theory st lenient) (p : Pass α) (s : Store) (post : α → Partition → Prop) : Prop :=
  Ends p s
    (fun a t => T.Good t.partition ∧ T.Step s.partition t.partition ∧ post a t.partition)
    (fun e t => T.Good t.partition ∧ s.mass ≤ t.mass ∧ T.Fails e)

namespace Runs

variable {p : Pass α} {post post' : α → Partition → Prop}

/-- Doing nothing keeps to a theory. -/
theorem pure {a : α} (h : T.Good s.partition) (hp : post a s.partition) :
    T.Runs (Pure.pure a) s post := ⟨h, .refl T _, hp⟩

/-- What comes out may be weakened. -/
theorem mono (h : T.Runs p s post)
    (hp : ∀ a Q, T.Good Q → T.Step s.partition Q → post a Q → post' a Q) : T.Runs p s post' :=
  Ends.mono h (fun a _ ht => ⟨ht.1, ht.2.1, hp a _ ht.1 ht.2.1 ht.2.2⟩) fun _ _ he => he

/-- **One step after another.** -/
theorem bind {f : α → Pass β} {post' : β → Partition → Prop} (h : T.Runs p s post)
    (hf : ∀ a t, T.Good t.partition → T.Step s.partition t.partition → post a t.partition →
      T.Runs (f a) t post') : T.Runs (p >>= f) s post' :=
  Ends.bind h fun a t ht => Ends.mono (hf a t ht.1 ht.2.1 ht.2.2)
    (fun _ _ hu => ⟨hu.1, ht.2.1.trans hu.2.1, hu.2.2⟩)
    fun _ _ he => ⟨he.1, Nat.le_trans ht.2.1.grows.mass_le he.2.1, he.2.2⟩

theorem of_look {f : Store → Pass α} (h : T.Runs (f s) s post) : T.Runs (Site.look >>= f) s post :=
  Ends.bind_iff.2 h

/-- **Looking something up leaves the partition as it is.** -/
theorem of_shortened {t : Store} (ht : t.partition = s.partition) (h : T.Runs p t post) :
    Ends p t (fun a u => T.Good u.partition ∧ T.Step s.partition u.partition ∧ post a u.partition)
      (fun e u => T.Good u.partition ∧ s.mass ≤ u.mass ∧ T.Fails e) := by
  unfold Runs at h
  rwa [ht, show t.mass = s.mass from congrArg Partition.mass ht] at h

/-- Looking for a root keeps to it, and what comes after may be seen from where links are shortened.
-/
theorem of_find (hs : s.partition.Shaped) {id : Nat} {f : Nat → Pass α}
    (h : ∀ t : Store, t.partition = s.partition → T.Runs (f (t.root id)) t post) :
    T.Runs (Site.find id >>= f) s post :=
  Ends.of_find hs fun t ht => of_shortened ht.partition (h t ht.partition)

theorem of_classOf (hs : s.partition.Shaped) {name : String} {f : Option Nat → Pass α}
    (h : ∀ t : Store, t.partition = s.partition → T.Runs (f (t.partition.index name)) t post) :
    T.Runs (Site.classOf name >>= f) s post :=
  Ends.of_classOf hs fun t ht => of_shortened ht.partition (h t ht.partition)

theorem of_holds (hs : s.partition.Shaped) {id : Nat} {k : Kind} {f : Bool → Pass α}
    (h : ∀ (b : Bool) (t : Store), (b = true ↔ k ∈ t.partition.members id) →
      t.partition = s.partition → T.Runs (f b) t post) : T.Runs (Site.holds id k >>= f) s post :=
  Ends.of_holds hs fun b t hb ht => of_shortened ht.partition (h b t hb ht.partition)

theorem of_memberAt? (hs : s.partition.Shaped) {id i : Nat} {f : Option Kind → Pass α}
    (h : ∀ t : Store, t.partition = s.partition → T.Runs (f (t.partition.members id)[i]?) t post) :
    T.Runs (Site.memberAt? id i >>= f) s post :=
  Ends.of_memberAt? hs fun t ht => of_shortened ht.partition (h t ht.partition)

/-- The level of nesting is not part of the partition. -/
theorem nested (h : ∀ s', s'.partition = s.partition → T.Runs p s' post) :
    T.Runs (Unify.nested p) s post :=
  Unify.ends_nested_iff.2 (h s.deeper rfl)

/-- A pass may be refused for its depth. -/
theorem refuse (h : T.Good s.partition) : T.Runs (Unify.refuse : Pass α) s post :=
  ⟨h, Nat.le_refl _, .inl rfl⟩

/-- A pass may fail for a clash if the theory allows for clashes. -/
theorem clash {k l : Kind} {reason : String} (h : T.Good s.partition) (hc : T.mayClash) :
    T.Runs (Unify.clash k l reason : Pass α) s post :=
  ⟨h, Nat.le_refl _, .inr ⟨hc, _, rfl⟩⟩

end Runs

end Theory

namespace Unify

variable {s : Store} {name : String} {k l : Kind} {id src dst width room : Nat}
  {equate : Stack → Stack → Pass Unit} {constrain' : String → Kind → Pass Unit}

/-! ## The steps, taken apart -/

/-- Kinds that are not alike do not meet. -/
theorem meet_of_not_alike {σ : Type} {equate : Stack → Stack → EStateM Fault σ Unit}
    (h : ¬ k.Alike l) : meet equate k l = pure () := by
  cases k <;> cases l <;> first | rfl | exact (h trivial).elim

section Site

variable {σ : Type} [Site σ]

/-- Two slots are bound to each other and unified before the slots below them. -/
theorem walk_cons {constrain : String → Kind → EStateM Fault σ Unit}
    {effects : Kind → Kind → EStateM Fault σ Unit} {v w r r' : Stack}
    (hk : ∀ a, k = .stackVar a → False) (hl : ∀ b, l = .stackVar b → False) :
    walk constrain effects v w (k :: r) (l :: r') = (do
      bindSlot constrain k l
      bindSlot constrain l k
      effects k l
      if compatible (← Site.look).subtyping k l then walk constrain effects v w r r'
      else clash k l Mismatch.incompatible) := by
  cases k <;> cases l <;> first | rfl | exact (hk _ rfl).elim | exact (hl _ rfl).elim

/-- A stack of one slot stands for the slot. -/
theorem constrain_slot : (constrain width (room + 1) name (.stack [k]) : EStateM Fault σ Unit) =
    nested (constrain width room name k) := rfl

theorem constrain_self (h : k.varName? = some name) :
    (constrain width (room + 1) name k : EStateM Fault σ Unit) = nested (pure ()) := by
  cases k <;> simp_all [constrain, Kind.varName?]

theorem constrain_succ (h : k.varName? ≠ some name) (hs : ∀ slot, k ≠ .stack [slot]) :
    (constrain width (room + 1) name k : EStateM Fault σ Unit) = nested (do
      let id ← classFor name
      bringClass (join width room) false id k
      join width room id k) := by
  rw [constrain.eq_def]
  dsimp only
  rw [if_neg h]
  split
  · exact absurd rfl (hs _)
  · rfl

/-- **What joining a class does.** -/
theorem join_succ : (join width (room + 1) id k : EStateM Fault σ Unit) = nested (do
    if ← Site.holds id k then pure ()
    else
      meetAll (unifyStacks width room) width id k
      let id ← Site.find id
      if ← Site.holds id k then pure ()
      else
        Site.alter (·.append id k)
        bringClass (join width room) true id k) := rfl

end Site

/-! ## Walking down two stacks -/

/-- What constraining a variable has to do, for the steps that use it. -/
def Constrains (T : Theory st lenient) (f : String → Kind → Pass Unit) : Prop :=
  ∀ {s : Store} {n k}, T.Good s.partition → T.call n k → T.Runs (f n k) s fun _ Q => Q.Bound n k

/-- What unifying two stacks has to do, for the steps that use it. -/
def Equates (T : Theory st lenient) (f : Stack → Stack → Pass Unit) : Prop :=
  ∀ {s : Store} {v w}, T.Good s.partition → T.par v w → T.Runs (f v w) s fun _ Q => Q.Settled v w

/-- **Binding a slot** that the theory calls for. -/
theorem runs_bindSlot (hc : Constrains T constrain') (hg : T.Good s.partition)
    (h : ∀ a, k = .typeVar a → T.call a l) :
    T.Runs (bindSlot constrain' k l) s fun _ Q => ∀ a, k = .typeVar a → Q.Bound a l := by
  cases k with
  | typeVar a => exact (hc hg (h a rfl)).mono fun _ _ _ _ hb => by rintro _ ⟨⟩; exact hb
  | _ => exact .pure hg fun _ ha => by simp at ha

/-- Unifying functions whose stacks are parallel. -/
theorem runs_unifyEffects (he : Equates T equate) (hg : T.Good s.partition)
    (h : ∀ c p i d q j, k = .effect c p i → l = .effect d q j → T.par c d ∧ T.par p q) :
    T.Runs (unifyEffects equate k l) s fun _ Q =>
      ∀ c p i d q j, k = .effect c p i → l = .effect d q j → Q.Settled c d ∧ Q.Settled p q := by
  fun_cases unifyEffects equate k l with
  | case1 c p i d q j =>
    obtain ⟨hcd, hpq⟩ := h _ _ _ _ _ _ rfl rfl
    refine (he hg hcd).bind fun _ t ht hst hs => (he ht hpq).mono fun _ Q _ hQ hs' => ?_
    rintro _ _ _ _ _ _ ⟨⟩ ⟨⟩
    exact ⟨hs.mono hQ.grows, hs'⟩
  | case2 _ _ h' => exact .pure hg fun c p i d q j hk hl => (h' c p i d q j hk hl).elim

/-- A stack variable that faces nothing is empty. -/
theorem runs_empty (hc : Constrains T constrain') (hg : T.Good s.partition) {a : String}
    (h : lenient = true ∨ T.call a (.stack [])) :
    T.Runs (do unless (← Site.look).lenient do constrain' a (.stack [])) s fun _ Q =>
      Q.lenient = true ∨ Q.Bound a (.stack []) := by
  have hl : s.lenient = lenient := hg.lenient
  refine .of_look ?_
  split
  · exact .pure hg (.inl ‹_›)
  · next hs => exact (hc hg (h.resolve_left (hl ▸ hs))).mono fun _ _ _ _ hb => .inr hb

/-- **Walking along two stacks settles them**, if they are aligned in the theory. -/
theorem runs_walk (hc : Constrains T constrain') (he : Equates T equate) (hg : T.Good s.partition)
    {v w r r' : Stack} (h : Aligned (lenient = true ∨ T.mayClash)
      (fun a => lenient = true ∨ T.call a (.stack [])) T.call
      (SlotAsk st T.mayClash T.call T.par) r r') :
    T.Runs (walk constrain' (unifyEffects equate) v w r r') s fun _ Q => Q.Settled r r' := by
  fun_induction Aligned generalizing s with
  | case1 a r b r' =>
    refine (hc hg h.1).bind fun _ t ht _ hb => (hc ht h.2).mono fun _ Q _ hQ hb' => ?_
    exact ⟨hQ.grows.bound hb, hb'⟩
  | case2 a _ l r' hl =>
    rw [walk.eq_2 _ _ _ _ _ _ _ _ hl]
    exact (hc hg h).mono fun _ Q _ _ hb => (Partition.Settled.eq_2 Q a _ l r' hl).mpr hb
  | case3 k r b _ hk =>
    rw [walk.eq_3 _ _ _ _ _ _ _ _ hk]
    exact (hc hg h).mono fun _ Q _ _ hb => (Partition.Settled.eq_3 Q k r b _ hk).mpr hb
  | case4 k r l r' hkl hk hl ih =>
    obtain ⟨⟨hkv, hlv, hkl', hcomp⟩, hr⟩ := h
    rw [walk_cons hk hl]
    refine (runs_bindSlot hc hg hkv).bind fun _ s₁ hg₁ hs₁ hb₁ => ?_
    refine (runs_bindSlot hc hg₁ hlv).bind fun _ s₂ hg₂ hs₂ hb₂ => ?_
    refine (runs_unifyEffects he hg₂ hkl').bind fun _ s₃ hg₃ hs₃ hb₃ => ?_
    have hst : s₃.subtyping = st := hg₃.subtyping
    refine .of_look ?_
    split
    · next hcl =>
      refine (ih hg₃ hr).mono fun _ Q _ hQ hset => ?_
      have hgrow := hs₃.grows.trans hQ.grows
      rw [Partition.Settled.eq_4 _ _ _ _ _ hkl hk hl, Partition.settledSlot_iff]
      refine ⟨⟨fun a ha => (hs₂.grows.trans hgrow).bound (hb₁ a ha),
        fun b hb => hgrow.bound (hb₂ b hb), fun c p i d q j hc hd => ?_, .inl ?_⟩, hset⟩
      · obtain ⟨h₁, h₂⟩ := hb₃ c p i d q j hc hd
        exact ⟨h₁.mono hQ.grows, h₂.mono hQ.grows⟩
      · rw [hQ.grows.subtyping]
        exact hcl
    · next hcl => exact .clash hg₃ (hcomp.resolve_left (hst ▸ hcl))
  | case5 => exact .pure hg trivial
  | case6 a => exact runs_empty hc hg h
  | case7 a => exact runs_empty hc hg h
  | case8 r r' h₁ h₂ h₃ h₄ h₅ h₆ h₇ =>
    rw [walk.eq_8 _ _ _ _ _ _ h₁ h₂ h₃ h₄ h₅ h₆ h₇]
    have hl : s.lenient = lenient := hg.lenient
    refine .of_look ?_
    split
    · next hs => exact .pure hg ((Partition.Settled.eq_8 _ _ _ h₁ h₂ h₃ h₄ h₅ h₆ h₇).mpr hs)
    · next hs => exact .clash hg (h.resolve_left (hl ▸ hs))

/-! ## Meeting the members of a class -/

theorem runs_meet (he : Equates T equate) (hg : T.Good s.partition)
    (hk : T.Admits s.partition id k) (hl : l ∈ s.partition.members id) (h : k.Alike l) :
    T.Runs (meet equate k l) s fun _ Q => Q.Agree k l := by
  obtain ⟨n, hn, hnk⟩ := hk
  have hnl := hg.member hn hl
  cases k <;> cases l <;> try exact h.elim
  case stack.stack v w => exact he hg (T.par_stack hnk hnl)
  case effect.effect c p i d q j =>
    refine (runs_unifyEffects (k := .effect c p i) (l := .effect d q j) he hg ?_).mono
      fun _ Q _ _ hs => hs c p i d q j rfl rfl
    rintro _ _ _ _ _ _ ⟨⟩ ⟨⟩
    exact T.par_effect hnk hnl

theorem runs_meet_any (he : Equates T equate) (hg : T.Good s.partition)
    (hk : T.Admits s.partition id k) (hl : l ∈ s.partition.members id) :
    T.Runs (meet equate k l) s fun _ Q => k.Alike l → Q.Agree k l := by
  by_cases h : k.Alike l
  · exact (runs_meet he hg hk hl h).mono fun _ _ _ _ ha _ => ha
  · rw [meet_of_not_alike h]
    exact .pure hg fun h' => (h h').elim

/-- **A sweep changes nothing if it meets no member that is alike**, and otherwise it ends with one
that agrees. -/
def Met (P Q : Partition) (id : Nat) (k : Kind) (L : List Kind) : Prop :=
  (Q = P ∧ ∀ m ∈ L, ¬ k.Alike m) ∨ ∃ m ∈ Q.members id, k.Alike m ∧ Q.Agree k m

/-- **A sweep lets a kind meet the members of a class**, one after the other. -/
theorem runs_sweep (he : Equates T equate) (hg : T.Good s.partition)
    (hk : T.Admits s.partition id k) {n i : Nat}
    (hw : ∀ P, T.Good P → (P.members id).length ≤ n + i) :
    T.Runs (sweep id (meet equate k) n i) s fun _ Q =>
      Met s.partition Q id k ((s.partition.members id).drop i) := by
  induction n generalizing s i with
  | zero =>
    refine .of_memberAt? hg.toShaped fun t ht => ?_
    rw [← ht] at hg ⊢
    have hnone : (t.partition.members id)[i]? = none :=
      List.getElem?_eq_none_iff.2 (by have := hw _ hg; omega)
    rw [hnone]
    refine .pure hg (.inl ⟨rfl, fun m hm => ?_⟩)
    rw [List.drop_eq_nil_of_le (List.getElem?_eq_none_iff.1 hnone)] at hm
    exact absurd hm List.not_mem_nil
  | succ n ih =>
    refine .of_memberAt? hg.toShaped fun t ht => ?_
    rw [← ht] at hg hk ⊢
    split
    · next hnone =>
      refine .pure hg (.inl ⟨rfl, fun m hm => ?_⟩)
      rw [List.drop_eq_nil_of_le (List.getElem?_eq_none_iff.1 hnone)] at hm
      exact absurd hm List.not_mem_nil
    · next m hm =>
      obtain ⟨hi, rfl⟩ := List.getElem?_eq_some_iff.1 hm
      have hmem := List.getElem_mem hi
      have hw' : ∀ P, T.Good P → (P.members id).length ≤ n + (i + 1) := fun P hP => by
        have := hw P hP
        omega
      by_cases halike : k.Alike (t.partition.members id)[i]
      · refine (runs_meet he hg hk hmem halike).bind fun _ u hu hst ha => ?_
        refine (ih hu (hk.mono hst.grows) hw').mono fun _ Q _ hQ _ => ?_
        exact .inr ⟨_, (hst.grows.trans hQ.grows).members hmem, halike, ha.mono hQ.grows⟩
      · rw [meet_of_not_alike halike, pure_bind]
        refine (ih hg hk hw').mono fun _ Q _ _ hmet => hmet.imp_left fun h => ⟨h.1, ?_⟩
        rw [List.drop_eq_getElem_cons hi]
        exact List.forall_mem_cons.2 ⟨halike, h.2⟩

theorem runs_meetAll (he : Equates T equate) (hg : T.Good s.partition)
    (hk : T.Admits s.partition id k) (hw : ∀ P, T.Good P → (P.members id).length ≤ width) :
    T.Runs (meetAll equate width id k) s fun _ Q =>
      Met s.partition Q id k (s.partition.members id) := by
  cases k with
  | effect | stack => exact runs_sweep he hg hk hw
  | _ => exact .pure hg (.inl ⟨rfl, fun _ _ ha => ha⟩)

/-! ## Joining and merging classes -/

/-- What joining a class has to do, for the steps that use it. -/
def Joins (T : Theory st lenient) (f : Nat → Kind → Pass Unit) : Prop :=
  ∀ {s : Store} {id k}, T.Good s.partition → T.Admits s.partition id k →
    T.Runs (f id k) s fun _ Q => k ∈ Q.members id

/-- **A class is being drained**: `src` was absorbed and has kept `ks`, which may join `dst`. -/
structure Draining (T : Theory st lenient) (P : Partition) (src dst : Nat) (ks : List Kind) :
    Prop where
  good : T.Good P
  absorbed : P.root src ≠ src
  lt : src < P.size
  own_eq : P.own src = ks
  admits : ∀ k ∈ ks, T.Admits P dst k

theorem Draining.partition_takeFirst {ks : List Kind}
    (h : Draining T s.partition src dst (k :: ks)) :
    (s.takeFirst src).partition = s.partition.keeping src ks := by
  rw [Store.partition_takeFirst h.lt fun i hi => h.absorbed (hi ▸ h.good.root_root i), h.own_eq,
    List.tail_cons]

/-- The next member is taken, and may join. -/
theorem Draining.takeFirst {ks : List Kind} (h : Draining T s.partition src dst (k :: ks)) :
    Draining T (s.takeFirst src).partition src dst ks ∧
      T.Admits (s.takeFirst src).partition dst k := by
  rw [h.partition_takeFirst]
  have hadmits := List.forall_mem_cons.1 h.admits
  exact ⟨⟨h.good.keeping h.absorbed ks, h.absorbed, h.lt, Partition.own_keeping, hadmits.2⟩,
    hadmits.1⟩

/-- Draining goes on after a step of the theory. -/
theorem Draining.step {P Q : Partition} {ks : List Kind} (h : Draining T P src dst ks)
    (hQ : T.Good Q) (hstep : T.Step P Q) : Draining T Q src dst ks where
  good := hQ
  absorbed := hstep.drains.absorbed h.absorbed
  lt := Nat.lt_of_lt_of_le h.lt hstep.grows.size_le
  own_eq := (hstep.drains.kept h.absorbed).trans h.own_eq
  admits k hk := (h.admits k hk).mono hstep.grows

theorem Draining.first {ks : List Kind} (h : Draining T s.partition src dst ks) :
    (s.kept src)[0]? = ks.head? := by
  rw [← h.own_eq, List.head?_eq_getElem?]
  exact Array.getElem?_toList.symm

section

variable {join' : Kind → Pass Unit} {ks : List Kind} {Q : Unit → Store → Prop}
  {E : Fault → Store → Prop}

theorem Draining.ends_nil (h : Draining T s.partition src dst []) (hQ : Q () s) :
    Ends (drain src join' 0) s Q E := by
  refine Ends.bind_iff.2 (Site.ends_look_iff.2 ?_)
  rw [h.first]
  exact hQ

/-- Draining hands on the first member, and then the others. -/
theorem Draining.ends_cons (h : Draining T s.partition src dst (k :: ks))
    (hk : Ends (join' k) (s.takeFirst src) (fun _ t => Ends (drain src join' ks.length) t Q E) E) :
    Ends (drain src join' (ks.length + 1)) s Q E := by
  refine Ends.bind_iff.2 (Site.ends_look_iff.2 ?_)
  rw [h.first]
  exact Ends.bind_iff.2 (Site.ends_alter_iff.2 (Ends.bind_iff.2 hk))

end

/-- **Draining an absorbed class**: its members are taken one by one, and join the class of `dst`.  A
failure leaves the members that were not taken. -/
theorem ends_drain {join' : Kind → Pass Unit}
    (hj : ∀ {s : Store} {k}, T.Good s.partition → T.Admits s.partition dst k →
      T.Runs (join' k) s fun _ Q => k ∈ Q.members dst) {ks : List Kind}
    (h : Draining T s.partition src dst ks) :
    Ends (drain src join' ks.length) s
      (fun _ t => T.Good t.partition ∧ T.Step (s.partition.keeping src []) t.partition ∧
        ∀ k ∈ ks, k ∈ t.partition.members dst)
      (fun e t => T.Good t.partition ∧ s.mass ≤ t.mass ∧ T.Fails e) := by
  induction ks generalizing s with
  | nil =>
    have hnil := s.partition.keeping_own src
    rw [h.own_eq] at hnil
    exact h.ends_nil ⟨h.good, hnil.symm ▸ .refl T _, fun _ h => absurd h List.not_mem_nil⟩
  | cons k ks ih =>
    have hpart := h.partition_takeFirst
    obtain ⟨hks, hk⟩ := h.takeFirst
    refine h.ends_cons (Ends.mono (hj hks.good hk) ?_ fun _ _ he => he)
    rintro _ t ⟨ht, hst, hkt⟩
    refine Ends.mono (ih (hks.step ht hst)) ?_ fun _ _ he =>
      ⟨he.1, Nat.le_trans hst.grows.mass_le he.2.1, he.2.2⟩
    rintro _ u ⟨hu, hsu, hmem⟩
    have hstep := (hpart ▸ hst).keeping h.absorbed []
    rw [Partition.keeping_keeping] at hstep
    exact ⟨hu, hstep.trans hsu, List.forall_mem_cons.2 ⟨hsu.grows.members hkt, hmem⟩⟩

/-- **Two classes are to be merged**, whose names may share a class.  A variable may be a member of
the one class and be registered with the other. -/
structure Merging (T : Theory st lenient) (P : Partition) (src dst : Nat) : Prop
    extends P.Shaped, T.Holds P where
  var : ∀ {i k n}, k ∈ P.members i → k.varName? = some n →
    P.Names n i ∨ P.Names n src ∧ P.root i = P.root dst
  share : ∃ n m, P.Names n src ∧ P.Names m dst ∧ T.same n m

theorem Merging.good {P : Partition} (h : Merging T P src dst) (heq : P.root src = P.root dst) :
    T.Good P :=
  { h.toShaped, h.toHolds with
    member_var := fun hk hv => (h.var hk hv).elim id fun ⟨hn, hi⟩ => hn.congr (heq.trans hi.symm) }

theorem Merging.partition_absorb (h : Merging T s.partition src dst)
    (hne : s.root src ≠ s.root dst) (line : Unit → String) :
    ((s.note line).link (s.root src) (s.root dst)).partition =
      s.partition.absorb (s.root src) (s.root dst) := by
  obtain ⟨n, m, hn, hm, -⟩ := h.share
  have hsize := congrArg Partition.size (Store.partition_note s line).symm
  rw [← Store.partition_note s line]
  refine Store.partition_absorb ((Store.partition_note s line).symm ▸ h.toShaped)
    (lt_of_lt_of_eq (h.root_lt (h.lt_of_names hn)) hsize) ?_ ?_
    (lt_of_lt_of_eq (h.root_lt (h.lt_of_names hm)) hsize) hne
  · rw [Store.root_note]
    exact h.root_root src
  · rw [Store.root_note]
    exact h.root_root dst

/-- **The one class absorbs the other**, which is drained from then on. -/
theorem Merging.absorb {P : Partition} (h : Merging T P src dst)
    (hne : P.root src ≠ P.root dst) :
    Draining T (P.absorb (P.root src) (P.root dst)) (P.root src) (P.root dst)
      (P.members (P.root src)) := by
  obtain ⟨n, m, hn, hm, hsame⟩ := h.share
  have hs := h.root_root src
  have hd := h.root_root dst
  have hn' : P.Names n (P.root src) := hn.congr hs.symm
  have hm' : P.Names m (P.root dst) := hm.congr hd.symm
  refine ⟨.absorb h.toShaped h.toHolds hs hd hne hn' hm' hsame fun hk hv =>
    (h.var hk hv).imp_right fun hv' => ⟨hv'.1.congr hs.symm, hv'.2⟩, ?_, h.lt_of_names hn',
    h.own_root hs, fun k hk => ⟨n, ?_, h.member hn' hk⟩⟩
  · rw [Partition.root_absorb_src hs]
    exact Ne.symm hne
  · exact (Partition.names_absorb hs hd hn').congr
      ((Partition.root_absorb_src hs).trans (Partition.root_absorb_dst hd).symm)

theorem Merging.size_kept (h : Merging T s.partition src dst) :
    (s.kept (s.root src)).size = (s.partition.members (s.root src)).length := by
  have hown : s.partition.own (s.root src) = _ := h.own_root (h.root_root src)
  exact Array.length_toList.symm.trans (congrArg List.length hown)

theorem Merging.partition_link (h : Merging T s.partition src dst) {t : Store}
    (ht : t.partition = s.partition) (hne : s.root src ≠ s.root dst) (line : Unit → String) :
    ((t.note line).link (s.root src) (s.root dst)).partition =
      s.partition.absorb (s.root src) (s.root dst) := by
  have hroot : s.root = t.root := congrArg Partition.root ht.symm
  rw [← ht] at h ⊢
  rw [hroot] at hne ⊢
  exact h.partition_absorb hne line

/-- A class is merged with itself. -/
theorem ends_merge_self {join' : Nat → Kind → Pass Unit} (hs : s.partition.Shaped)
    (h : s.root src = s.root dst) {E : Fault → Store → Prop} :
    Ends (merge join' src dst) s (fun _ t => s.Shortened t) E := by
  refine .of_find hs fun t ht => .of_find (ht.partition.symm ▸ hs) fun u hu => ?_
  rw [hu.root, ht.root, if_pos h]
  exact ht.trans hu

/-- **Two classes are merged** unless they are one.  The one that is absorbed is drained. -/
theorem ends_merge {join' : Nat → Kind → Pass Unit} (h : Merging T s.partition src dst)
    {Q : Unit → Store → Prop} {E : Fault → Store → Prop}
    (hself : ∀ t : Store, s.Shortened t → s.root src = s.root dst → Q () t)
    (hdrain : ∀ (t : Store) (line : Unit → String), s.Shortened t →
      s.root src ≠ s.root dst →
      Draining T ((t.note line).link (s.root src) (s.root dst)).partition (s.root src) (s.root dst)
        (s.partition.members (s.root src)) →
      Ends (drain (s.root src) (join' (s.root dst)) (s.partition.members (s.root src)).length)
        ((t.note line).link (s.root src) (s.root dst)) Q E) :
    Ends (merge join' src dst) s Q E := by
  refine .of_find h.toShaped fun t ht => .of_find (ht.partition ▸ h.toShaped) fun u hu => ?_
  have hshort := ht.trans hu
  rw [hu.root, ht.root]
  split
  · next heq => exact hself u hshort heq
  · next hne =>
    refine Ends.bind_iff.2 (Site.ends_look_iff.2 (Ends.bind_iff.2 (Site.ends_look_iff.2 ?_)))
    refine Ends.bind_iff.2 (Site.ends_alter_iff.2 ?_)
    rw [hu.kept, ht.kept, h.size_kept]
    exact hdrain u _ hshort hne ((h.partition_link hshort.partition hne _).symm ▸ h.absorb hne)

/-- **Merging two classes** that the theory holds to be the same. -/
theorem runs_merge {join' : Nat → Kind → Pass Unit} (hj : Joins T join')
    (h : Merging T s.partition src dst) : T.Runs (merge join' src dst) s fun _ _ => True := by
  refine ends_merge h (fun t ht heq => ?_) fun t line ht hne hdrain => ?_
  · rw [ht.partition]
    exact ⟨h.good heq, .refl T _, trivial⟩
  have hpart := h.partition_link ht.partition hne line
  have hmass := (congrArg Partition.mass hpart).ge
  refine Ends.mono (ends_drain hj hdrain) ?_ fun _ _ he =>
    ⟨he.1, Nat.le_trans hmass he.2.1, he.2.2⟩
  rintro _ u ⟨hu, hstep, hmem⟩
  exact ⟨hu, .of_absorb (hpart ▸ hstep) h.toShaped hu.toShaped (h.root_root src) (h.root_root dst)
    hne hmem, trivial⟩

/-- **A new member of a class**, whose name, if it is a variable, may belong to another class or to
none. -/
structure Pending (T : Theory st lenient) (P : Partition) (id : Nat) (k : Kind) : Prop
    extends P.Shaped, T.Holds P where
  mem : k ∈ P.members id
  admits : T.Admits P id k
  var : ∀ {i l n}, l ∈ P.members i → l.varName? = some n →
    P.Names n i ∨ l = k ∧ P.root i = P.root id

/-- A kind that is added is pending until its names belong to the class. -/
theorem Pending.of_append {P : Partition} (h : T.Good P) (hk : T.Admits P id k)
    (hkn : k ∉ P.members id) : Pending T (P.append id k) id k :=
  { h.toShaped.append (hk.lt h.toShaped) hkn, h.toHolds.append hk with
    mem := Partition.mem_append_iff.2 (.inr ⟨rfl, rfl⟩)
    admits := hk.mono (.append P id k)
    var := fun hl hv => by
      rcases Partition.mem_append_iff.1 hl with hl | ⟨hi, rfl⟩
      · exact .inl (h.member_var hl hv)
      · exact .inr ⟨rfl, hi⟩ }

theorem partition_append (hg : T.Good s.partition) (hk : T.Admits s.partition id k)
    (hid : s.root id = id) : (s.append id k).partition = s.partition.append id k :=
  Store.partition_append hid (hk.lt hg.toShaped)

/-- A kind without a name is not pending. -/
theorem Pending.good {P : Partition} (h : Pending T P id k) (hk : k.varName? = none) : T.Good P :=
  { h.toShaped, h.toHolds with
    member_var := fun hl hv => (h.var hl hv).resolve_right fun ⟨hlk, _⟩ => by
      rw [hlk, hk] at hv
      cases hv }

/-- The names that are not yet where they belong are the name of the new member. -/
theorem Pending.misplaced {P : Partition} (h : Pending T P id k) (hk : k.varName? = some name)
    {i : Nat} {l : Kind} {n : String} (hl : l ∈ P.members i) (hv : l.varName? = some n) :
    P.Names n i ∨ n = name ∧ P.root i = P.root id := by
  refine (h.var hl hv).imp_right fun ⟨hlk, hi⟩ => ⟨?_, hi⟩
  rw [hlk, hk] at hv
  exact (Option.some.inj hv).symm

theorem Pending.merging {P : Partition} (h : Pending T P id k) (hk : k.varName? = some name)
    {j : Nat} (hj : P.index name = some j) : Merging T P j id := by
  obtain ⟨m, hm, hmk⟩ := h.admits
  have hname : P.Names name j := Partition.names_of_index hj
  refine { h.toShaped, h.toHolds with
    var := fun hl hv => (h.misplaced hk hl hv).imp_right fun ⟨hn, hi⟩ => ⟨hn ▸ hname, hi⟩
    share := ⟨name, m, hname, hm, T.same_equiv.symm (T.same_var hmk hk)⟩ }

theorem Pending.register {P : Partition} (h : Pending T P id k) (hk : k.varName? = some name)
    (hnew : P.index name = none) : T.Good (P.register name id) := by
  obtain ⟨m, hm, hmk⟩ := h.admits
  exact { h.toShaped.register hnew (h.lt_of_names hm),
    h.toHolds.register h.toShaped ⟨m, hm, hmk⟩ hk with
    member_var := fun {i l n} hl hv => by
      rcases h.misplaced hk hl hv with hn | ⟨rfl, hi⟩
      · exact Partition.names_register hnew hn
      · exact h.names_register_self.congr hi.symm }

/-- A new member is a name of its class once it has brought its own class along. -/
theorem runs_bringClass_member {join' : Nat → Kind → Pass Unit} (hj : Joins T join')
    (h : Pending T s.partition id k) : T.Runs (bringClass join' true id k) s fun _ _ => True := by
  unfold bringClass
  split
  · next hnone => exact .pure (h.good hnone) trivial
  next name hname =>
  refine .of_classOf h.toShaped fun t ht => ?_
  rw [← ht] at h
  split
  · next other hother => exact runs_merge hj (h.merging hname hother)
  · next hnew =>
    obtain ⟨n, -, hn⟩ := h.admits
    rw [if_pos rfl]
    refine Site.ends_alter_iff.2 ⟨?_, ?_, trivial⟩ <;> rw [Store.partition_register]
    · exact h.register hname hnew
    · exact .register h.toShaped hnew h.mem (T.call_self hn hname)

/-- **Joining a class**, if what it calls keeps to the theory. -/
theorem runs_join_succ (he : Equates T (unifyStacks width room)) (hj : Joins T (join width room))
    (hw : ∀ P, T.Good P → ∀ i, (P.members i).length ≤ width) :
    Joins T (join width (room + 1)) := by
  intro s id k hg hk
  rw [join_succ]
  refine .nested fun s' hs' => .of_holds (hs' ▸ hg.toShaped) fun b s₁ hb hs₁ => ?_
  rw [← hs', ← hs₁] at hg hk
  split
  · next hb' => exact .pure hg (hb.1 hb')
  refine (runs_meetAll he hg hk fun P hP => hw P hP id).bind fun _ t ht hst hmet => ?_
  refine .of_find ht.toShaped fun u hu => ?_
  rw [← hu] at ht hst hmet
  have hroot : u.partition.root (u.root id) = u.partition.root id := ht.root_root id
  have hku := (hk.mono hst.grows).congr hroot.symm
  rw [Met, ← ht.members_congr hroot] at hmet
  refine .mono ?_ fun _ Q hQ hstep (hmem : k ∈ Q.members (u.root id)) =>
    hQ.members_congr (hstep.grows.root hroot) ▸ hmem
  refine .of_holds ht.toShaped fun b v hb hv => ?_
  rw [← hv] at ht hku hmet hroot
  rw [show u.root id = v.root id from congrFun (congrArg Partition.root hv.symm) id] at *
  split
  · next hb' => exact .pure ht (hb.1 hb')
  next hb' =>
  have hpart := partition_append ht hku hroot
  have hpending : Pending T (v.append (v.root id) k).partition (v.root id) k :=
    hpart ▸ .of_append ht hku fun h => hb' (hb.2 h)
  have hstep : T.Step v.partition (v.partition.append (v.root id) k) := by
    refine .append ?_ ht.toShaped
    rcases hmet with ⟨heq, hno⟩ | hyes
    · refine .inl fun m hm => hno m ?_
      rwa [ht.members_congr hroot, heq] at hm
    · exact .inr hyes
  refine Ends.bind_iff.2 (Site.ends_alter_iff.2 ?_)
  refine Ends.mono (runs_bringClass_member hj hpending) ?_ fun _ _ he => he
  rintro _ u ⟨hu, hsu, -⟩
  exact ⟨hu, hstep.trans (hpart ▸ hsu), hsu.grows.members hpending.mem⟩

/-! ## Constraining a variable -/

/-- The class of a name: the name may be new, and nothing else is. -/
theorem ends_classFor (hg : T.Good s.partition) {E : Fault → Store → Prop} : Ends (classFor name) s
    (fun id t => T.Good t.partition ∧ s.partition.Grows t.partition ∧ t.partition.Names name id ∧
      t.partition.members = s.partition.members ∧ s.partition.Drains t.partition ∧
      ∀ n, (t.partition.index n).isSome → n = name ∨ (s.partition.index n).isSome) E := by
  refine (Site.ends_classOf hg.toShaped name).bind ?_
  rintro _ t ⟨rfl, ht, -⟩
  rw [← ht.partition] at hg ⊢
  rw [← ht.classOf?]
  split
  · next id hid =>
    exact ⟨hg, .refl _, Partition.names_of_index hid, rfl, .of_eq rfl rfl, fun _ hn => .inr hn⟩
  · next hnew =>
    simp only [Ends.bind_iff, Site.ends_look_iff, Site.ends_alter_iff, Ends.pure_iff]
    rw [Store.partition_registerNew hg.toShaped]
    refine ⟨hg.registerNew hnew, .registerNew hnew, hg.toShaped.names_register_self, rfl,
      .of_eq rfl rfl, ?_⟩
    intro n hn
    obtain ⟨j, hj⟩ := Option.isSome_iff_exists.1 hn
    rcases Partition.index_of_register hj with ⟨rfl, -⟩ | hP
    · exact .inl rfl
    · exact .inr (hP ▸ rfl)

/-- The class of a variable that may equal a name is merged with the class of the name. -/
theorem merging_of_index (hg : T.Good s.partition) (hn : s.partition.Names name id)
    (hk : T.eqn name k) {m : String} (hm : k.varName? = some m) {other : Nat}
    (ho : s.partition.index m = some other) : Merging T s.partition other id :=
  { hg with
    var := fun hl hv => .inl (hg.member_var hl hv)
    share := ⟨m, name, Partition.names_of_index ho, hn, T.same_equiv.symm (T.same_var hk hm)⟩ }

theorem runs_bringClass {join' : Nat → Kind → Pass Unit} (hj : Joins T join')
    (hg : T.Good s.partition) (hn : s.partition.Names name id) (hk : T.eqn name k) :
    T.Runs (bringClass join' false id k) s fun _ _ => True := by
  unfold bringClass
  split
  · exact .pure hg trivial
  next m hm =>
  refine .of_classOf hg.toShaped fun t ht => ?_
  rw [← ht] at hg hn
  split
  · next other ho => exact runs_merge hj (merging_of_index hg hn hk hm ho)
  · exact .pure hg trivial

/-- A kind joins a class.  A variable brings its class along first. -/
theorem runs_bring_join {join' : Nat → Kind → Pass Unit} (hj : Joins T join')
    (hg : T.Good s.partition) (hn : s.partition.Names name id) (hk : T.eqn name k) :
    T.Runs (do bringClass join' false id k; join' id k) s fun _ Q => k ∈ Q.members id :=
  (runs_bringClass hj hg hn hk).bind fun _ _ ht hst _ => hj ht ⟨name, hst.grows.names hn, hk⟩

/-- **Constraining a name**, if what it calls keeps to the theory. -/
theorem runs_constrain_succ (hc : Constrains T (constrain width room))
    (hj : Joins T (join width room)) : Constrains T (constrain width (room + 1)) := by
  intro s name k hg hk
  by_cases hself : k.varName? = some name
  · rw [constrain_self hself]
    refine .nested fun s' hs' => .pure (hs' ▸ hg) (.inl ?_)
    rwa [Kind.unwrap_eq_self (by rintro slot rfl; simp [Kind.varName?] at hself)]
  by_cases hslot : ∃ slot, k = .stack [slot]
  · obtain ⟨slot, rfl⟩ := hslot
    rw [constrain_slot]
    exact .nested fun s' hs' => hc (hs' ▸ hg) (T.call_slot hk)
  rw [not_exists] at hslot
  rw [constrain_succ hself hslot]
  refine .nested fun s' hs' => ?_
  rw [← hs'] at hg
  refine (ends_classFor hg).bind fun id t ⟨ht, hgrow, hn, hmem, hdrains, hnames⟩ => ?_
  refine Ends.mono (runs_bring_join hj ht hn (T.eqn_of_call hk hslot)) ?_
    fun _ _ he => ⟨he.1, Nat.le_trans hgrow.mass_le he.2.1, he.2.2⟩
  rintro _ u ⟨hu, hstep, hku⟩
  obtain ⟨j, hj', hji⟩ := hstep.grows.names hn
  have hkj : k ∈ u.partition.members j := (hu.members_congr hji).symm ▸ hku
  refine ⟨hu, ⟨hgrow.trans hstep.grows, hdrains.trans hstep.drains, fun n hn' => ?_,
    fun R hR hg' hl => ?_⟩, .inr ⟨j, hj', ?_⟩⟩
  · rcases hstep.called n hn' with hnt | hnew
    · rcases hnames n hnt with rfl | hns
      · exact .inr ⟨j, k, hj', hkj, hk⟩
      · exact .inl hns
    · exact .inr hnew
  · refine hstep.linked R hR hg' fun i a b ha hb => hl i a b ?_ ?_
    · exact hmem ▸ ha
    · exact hmem ▸ hb
  · rwa [Kind.unwrap_eq_self hslot]

/-! ## The contract -/

/-- What `constrain`, `join` and `unifyStacks` do when so many levels are left. -/
structure Contract (T : Theory st lenient) (width room : Nat) : Prop where
  constrains : Constrains T (constrain width room)
  joins : Joins T (join width room)
  equates : Equates T (unifyStacks width room)

/-- **Unifying keeps to its contract** at every level, if no class has more members than the width.
-/
theorem contract (hw : ∀ P, T.Good P → ∀ i, (P.members i).length ≤ width) (room : Nat) :
    Contract T width room := by
  induction room with
  | zero => exact ⟨fun hg _ => .refuse hg, fun hg _ => .refuse hg, fun hg _ => .refuse hg⟩
  | succ room ih =>
    refine ⟨runs_constrain_succ ih.constrains ih.joins, runs_join_succ ih.equates ih.joins hw, ?_⟩
    intro s v w hg hvw
    exact .nested fun s' hs' =>
      runs_walk ih.constrains ih.equates (hs' ▸ hg) (T.par_aligned hvw)

end Unify

end StackEffect
