import StackEffect.Proofs.Unify.Region
import StackEffect.Proofs.Unify.Vocabulary

/-!
# Proofs/Unify/Paired — members that have all met

    sweep 0, 1, 2, …        k meets the members of a class by their position
    append                  k joins the class

A sweep goes by positions, and what a meeting brings about may merge the class with another, whose
members then stand at positions that the sweep has passed.  That takes a class that leads to itself:
a meeting reaches no further than what the two members mention.  So `k` meets every member of the
class that it joins, unless the class is recursive, and members agree in pairs (`keepsCalm`).
-/

namespace StackEffect

open StackEffect.Partition

/-- The kinds of a closed set that mention no other names. -/
def Vocabulary.mentioning {L : Kind → Prop} (hL : Kind.Closed L) (A : String → Prop) :
    Vocabulary where
  name := A
  kind k := L k ∧ ∀ v ∈ k.vars, A v.name
  closed :=
    have hA := Kind.closed_vars fun v => A v.name
    ⟨.imp hL.slot hA.slot, .imp hL.rest hA.rest, .imp hL.consumed hA.consumed,
      .imp hL.produced hA.produced⟩
  var {k n} hk hn := by
    obtain ⟨v, rfl, rfl⟩ := Kind.eq_varKind_of_varName? hn
    refine hk.2 v ?_
    rw [Kind.vars_varKind]
    exact List.mem_cons_self

variable {st : Option Subtyping} {lenient : Bool} {T : Theory st lenient}

namespace Unify

variable {s : Store} {name m : String} {k l : Kind} {id src dst width room : Nat}
  {A B : String → Prop}

/-- **A step that starts from the names of `A`**, if it succeeds. -/
def Calm (A : String → Prop) (p : Pass Unit) (s : Store) : Prop :=
  Ends p s (fun _ t => Calms A s.partition t.partition) fun _ _ => True

namespace Calm

variable {p q : Pass Unit}

theorem pure : Calm A (Pure.pure ()) s := Calms.refl A s.partition

/-- A step that is taken after shortcuts were left. -/
theorem after {t : Store} (ht : t.partition = s.partition) (h : Calm A p t) :
    Ends p t (fun _ u => Calms A s.partition u.partition) fun _ _ => True := ht ▸ h

theorem of_classOf (hs : s.partition.Shaped) {f : Option Nat → Pass Unit}
    (h : ∀ t : Store, t.partition = s.partition → Calm A (f (t.partition.index name)) t) :
    Calm A (Site.classOf name >>= f) s :=
  Ends.of_classOf hs fun t ht => after ht.partition (h t ht.partition)

theorem of_holds (hs : s.partition.Shaped) {f : Bool → Pass Unit}
    (h : ∀ (b : Bool) (t : Store), t.partition = s.partition → Calm A (f b) t) :
    Calm A (Site.holds id k >>= f) s :=
  Ends.of_holds hs fun b t _ ht => after ht.partition (h b t ht.partition)

/-- What is calm but for some names is calm but for more. -/
theorem mono (h : Calm A p s) (hAB : ∀ n, A n → B n) : Calm B p s :=
  Ends.mono h (fun _ _ ht => ht.mono hAB) fun _ _ he => he

/-- Nothing is less calm for being nested. -/
theorem nested (h : ∀ s', s'.partition = s.partition → Calm A p s') : Calm A (Unify.nested p) s :=
  ends_nested_iff.2 (h s.deeper rfl)

/-- **One step after another**, of which the first is known to run. -/
theorem bind {post : Unit → Partition → Prop} (hp : T.Runs p s post) (h : Calm A p s)
    (hq : ∀ t, T.Good t.partition → T.Step s.partition t.partition → post () t.partition →
      T.Runs q t fun _ _ => True)
    (hq' : ∀ t, T.Good t.partition → T.Step s.partition t.partition → post () t.partition →
      Calm A q t) : Calm A (p >>= fun _ => q) s := by
  refine Ends.bind_iff.2 ((hp.and h).mono ?_ fun _ _ _ => trivial)
  rintro _ t ⟨⟨ht, hst, hpost⟩, hcalm⟩
  refine ((hq t ht hst hpost).and (hq' t ht hst hpost)).mono ?_ fun _ _ _ => trivial
  rintro _ u ⟨⟨-, hu, -⟩, hcalm'⟩
  exact hcalm.trans hcalm' hu.grows

end Calm

/-! ## Joining and merging classes -/

section

variable {join' : Nat → Kind → Pass Unit} (hj : Joins T join')
  (hc : ∀ {s : Store} {id k m}, T.Good s.partition → T.Admits s.partition id k →
    s.partition.Names m id → Calm (· = m) (join' id k) s)

include hj hc

/-- **Draining a class is calm** but for the name of the class that is filled. -/
theorem calm_drain {ks : List Kind} (h : Draining T s.partition src dst ks)
    (hm : s.partition.Names m dst) : Calm (· = m) (drain src (join' dst) ks.length) s := by
  induction ks generalizing s with
  | nil => exact h.ends_nil (.refl _ _)
  | cons k ks ih =>
    obtain ⟨hks, hk⟩ := h.takeFirst
    have hpart := h.partition_takeFirst
    refine h.ends_cons ?_
    generalize s.takeFirst src = t at hks hk hpart ⊢
    have hmt : t.partition.Names m dst := hpart ▸ hm
    have htake : Calms (· = m) s.partition t.partition := by
      rw [hpart]
      exact .of_members_eq id rfl
    refine ((hj hks.good hk).and (hc hks.good hk hmt)).mono ?_ fun _ _ _ => trivial
    rintro _ u ⟨⟨hu, hstep, -⟩, hcalm⟩
    have hdrain := hks.step hu hstep
    refine ((ends_drain hj hdrain).and (ih hdrain (hstep.grows.names hmt))).mono ?_
      fun _ _ _ => trivial
    rintro _ w ⟨⟨-, hw, -⟩, hrest⟩
    exact (htake.trans hcalm hstep.grows).trans hrest { hw.grows with }

/-- So is merging. -/
theorem calm_merge (h : Merging T s.partition src dst) (hm : s.partition.Names m dst) :
    Calm (· = m) (merge join' src dst) s := by
  refine ends_merge h (fun t ht _ => ?_) fun t line ht hne hdrain => ?_
  · rw [ht.partition]
    exact .refl _ _
  have hdst : s.partition.root (s.root dst) = s.root dst := h.root_root dst
  have hm' : s.partition.Names m (s.root dst) := hm.congr hdst.symm
  have hpart := h.partition_link ht.partition hne line
  have habsorb : Calms (· = m) s.partition ((t.note line).link (s.root src) (s.root dst)).partition :=
    hpart ▸ .absorb (h.root_root src) hdst hm'
  refine ((ends_drain hj hdrain).and (calm_drain hj hc hdrain (habsorb.names hm'))).mono ?_
    fun _ _ _ => trivial
  rintro _ u ⟨⟨-, hu, -⟩, hcalm⟩
  exact habsorb.trans hcalm { hu.grows with }

/-- A new member brings its class along, or is registered. -/
theorem calm_bringClass_member (h : Pending T s.partition id k) (hm : s.partition.Names m id) :
    Calm (· = m) (bringClass join' true id k) s := by
  unfold bringClass
  split
  · exact .pure
  next name hname =>
  refine .of_classOf h.toShaped fun t ht => ?_
  rw [← ht] at h hm
  split
  · next other hother => exact calm_merge hj hc (h.merging hname hother) hm
  · next hnone =>
    refine Site.ends_alter_iff.2 ?_
    rw [Store.partition_register]
    exact .register hnone _

/-- A variable brings its class along. -/
theorem calm_bringClass (hg : T.Good s.partition) (hn : s.partition.Names name id)
    (hk : T.eqn name k) : Calm (· = name) (bringClass join' false id k) s := by
  unfold bringClass
  split
  · exact .pure
  next m hm =>
  refine .of_classOf hg.toShaped fun t ht => ?_
  rw [← ht] at hg hn
  split
  · next other ho => exact calm_merge hj hc (merging_of_index hg hn hk hm ho) hn
  · exact .pure

theorem calm_bring_join (hg : T.Good s.partition) (hn : s.partition.Names name id)
    (hk : T.eqn name k) : Calm (· = name) (do bringClass join' false id k; join' id k) s := by
  refine .bind (runs_bringClass hj hg hn hk) (calm_bringClass hj hc hg hn hk) (fun t ht hst _ => ?_)
    fun t ht hst _ => ?_
  · exact (hj ht ⟨name, hst.grows.names hn, hk⟩).mono fun _ _ _ _ _ => trivial
  · exact hc ht ⟨name, hst.grows.names hn, hk⟩ (hst.grows.names hn)

end

/-! ## Meeting the members of a class -/

section

variable {equate : Stack → Stack → Pass Unit} (he : Equates T equate)
  (hc : ∀ {s : Store} {v w}, T.Good s.partition → T.par v w →
    Calm (Kind.Mentioned [.stack v, .stack w]) (equate v w) s)

include he hc

/-- Unifying functions is calm but for the names in them. -/
theorem calm_unifyEffects (hg : T.Good s.partition)
    (h : ∀ c p i d q j, k = .effect c p i → l = .effect d q j → T.par c d ∧ T.par p q) :
    Calm (Kind.Mentioned [k, l]) (unifyEffects equate k l) s := by
  fun_cases unifyEffects equate k l with
  | case1 c p i d q j =>
    obtain ⟨hcd, hpq⟩ := h _ _ _ _ _ _ rfl rfl
    refine .bind (he hg hcd) ((hc hg hcd).mono fun n hn => ?_) (fun t ht _ _ => ?_) fun t ht _ _ => ?_
    · exact hn.of_parts (List.subset_append_left _ _) (List.subset_append_left _ _)
    · exact (he ht hpq).mono fun _ _ _ _ _ => trivial
    · exact (hc ht hpq).mono fun n hn =>
        hn.of_parts (List.subset_append_right _ _) (List.subset_append_right _ _)
  | case2 => exact .pure

theorem calm_meet (hg : T.Good s.partition) (hk : T.Admits s.partition id k)
    (hl : l ∈ s.partition.members id) :
    Calm (fun n => k.Alike l ∧ Kind.Mentioned [k, l] n) (meet equate k l) s := by
  obtain ⟨n, hn, hnk⟩ := hk
  have hnl := hg.member hn hl
  by_cases halike : k.Alike l
  · refine Calm.mono (A := Kind.Mentioned [k, l]) ?_ fun n hn => ⟨halike, hn⟩
    cases k <;> cases l <;> try exact halike.elim
    case stack.stack v w => exact hc hg (T.par_stack hnk hnl)
    case effect.effect c p i d q j =>
      refine calm_unifyEffects (k := .effect c p i) (l := .effect d q j) he hc hg ?_
      rintro _ _ _ _ _ _ ⟨⟩ ⟨⟩
      exact T.par_effect hnk hnl
  · rw [meet_of_not_alike halike]
    exact .pure

/-- **A sweep has met all members of `L`**, and the class is as it was, if `k` joins the class in the
end and the class is not recursive then. -/
def Swept (P Q : Partition) (id : Nat) (k : Kind) (L : List Kind) : Prop :=
  ∀ R : Partition, R.Sound → Q.Grows R → ¬ R.Recursive id → k ∈ R.members id →
    Q.members id = P.members id ∧ ∀ l ∈ L, k.Alike l → R.Agree k l

omit he hc in
theorem swept_nil (P : Partition) : Swept P P id k [] :=
  fun _ _ _ _ _ => ⟨rfl, fun _ hl => absurd hl List.not_mem_nil⟩

/-- **A sweep is calm** but for the class that is swept and the names of the kind. -/
theorem calm_sweep (hg : T.Good s.partition) (hk : T.Admits s.partition id k)
    (hm : s.partition.Names m id) {n i : Nat} (hw : ∀ P, T.Good P → (P.members id).length ≤ n + i) :
    Ends (sweep id (meet equate k) n i) s (fun _ t =>
      Calms (fun a => a = m ∨ Kind.Mentioned [k] a) s.partition t.partition ∧
        Swept s.partition t.partition id k ((s.partition.members id).drop i)) fun _ _ => True := by
  induction n generalizing s i with
  | zero =>
    have hlen : (s.partition.members id).length ≤ i := by
      have := hw _ hg
      omega
    refine .of_memberAt? hg.toShaped fun t ht => ?_
    rw [ht.partition, List.getElem?_eq_none_iff.2 hlen, List.drop_eq_nil_of_le hlen]
    refine Ends.pure_iff.2 ?_
    rw [ht.partition]
    exact ⟨.refl _ _, swept_nil _⟩
  | succ n ih =>
    refine .of_memberAt? hg.toShaped fun s₁ hs₁ => ?_
    rw [← hs₁.partition] at hg hk hm ⊢
    split
    · next hnone =>
      rw [List.drop_eq_nil_of_le (List.getElem?_eq_none_iff.1 hnone)]
      exact ⟨.refl _ _, swept_nil _⟩
    next l hl =>
    obtain ⟨hi, rfl⟩ := List.getElem?_eq_some_iff.1 hl
    have hl := List.getElem_mem hi
    have hw' : ∀ P, T.Good P → (P.members id).length ≤ n + (i + 1) := fun P hP => by
      have := hw P hP
      omega
    rw [List.drop_eq_getElem_cons hi]
    generalize (s₁.partition.members id)[i] = l at hl ⊢
    refine Ends.bind_iff.2 (((runs_meet_any he hg hk hl).and (calm_meet he hc hg hk hl)).mono ?_
      fun _ _ _ => trivial)
    rintro _ t ⟨⟨ht, hst, hagree⟩, hcalm⟩
    have hmt := hst.grows.names hm
    refine ((runs_sweep he ht (hk.mono hst.grows) hw').and
      (ih ht (hk.mono hst.grows) hmt hw')).mono ?_ fun _ _ _ => trivial
    rintro _ u ⟨⟨-, hu, -⟩, hcalm', hswept⟩
    constructor
    · refine (hcalm.weaken fun {R D} _ hR hD hA a ha => ?_).trans hcalm' hu.grows
      obtain ⟨-, x, hx, v, hv, rfl⟩ := ha
      rcases List.mem_pair.1 hx with rfl | rfl
      · exact hA v.name (.inr ⟨x, List.mem_cons_self, v, hv, rfl⟩)
      · exact hD.mention (hA m (.inl rfl)) (hR.names hmt) (hR.members (hst.grows.members hl)) hv
    · intro R hR hg' hrec hkR
      have hg := hu.grows.trans hg'
      -- what two members mention lies below their class, which is not below itself
      have hsame : t.partition.members id = s₁.partition.members id := by
        refine hcalm.spares hR hg (hR.region_below id) ?_ (not_below hrec (hg.names hmt)) hm
        rintro _ ⟨halike, x, hx, v, hv, rfl⟩
        rcases List.mem_pair.1 hx with rfl | rfl
        · exact hR.below_of_mem hkR halike.varName?_eq_none hv
        · exact hR.below_of_mem (hg.members (hst.grows.members hl)) halike.symm.varName?_eq_none hv
      obtain ⟨hmem, hmet⟩ := hswept R hR hg' hrec hkR
      rw [hsame] at hmem hmet
      exact ⟨hmem, List.forall_mem_cons.2 ⟨fun halike => (hagree halike).mono hg, hmet⟩⟩

theorem calm_meetAll (hg : T.Good s.partition) (hk : T.Admits s.partition id k)
    (hm : s.partition.Names m id) (hw : ∀ P, T.Good P → (P.members id).length ≤ width) :
    Ends (meetAll equate width id k) s (fun _ t =>
      Calms (fun a => a = m ∨ Kind.Mentioned [k] a) s.partition t.partition ∧
        Swept s.partition t.partition id k (s.partition.members id)) fun _ _ => True := by
  cases k with
  | effect | stack => exact calm_sweep he hc hg hk hm hw
  | _ => exact ⟨.refl _ _, fun _ _ _ _ _ => ⟨rfl, fun _ _ ha => ha.elim⟩⟩

end

/-! ## Unifying -/

/-- Where `constrain`, `join` and `unifyStacks` start from when so many levels are left. -/
structure KeepsCalm (T : Theory st lenient) (width room : Nat) : Prop where
  constrain : ∀ {s n k}, T.Good s.partition → T.call n k → Calm (· = n) (constrain width room n k) s
  join : ∀ {s id k m}, T.Good s.partition → T.Admits s.partition id k → s.partition.Names m id →
    Calm (· = m) (join width room id k) s
  equate : ∀ {s v w}, T.Good s.partition → T.par v w →
    Calm (Kind.Mentioned [.stack v, .stack w]) (unifyStacks width room v w) s

section

variable (h : KeepsCalm T width room) (hc : Contract T width room)

include h hc

/-- **Joining a class is calm** but for its name, if what it calls is. -/
theorem KeepsCalm.join_succ (hw : ∀ P, P.Shaped → T.Holds P → ∀ i, (P.members i).length ≤ width)
    (hg : T.Good s.partition) (hk : T.Admits s.partition id k) (hm : s.partition.Names m id) :
    Calm (· = m) (Unify.join width (room + 1) id k) s := by
  rw [Unify.join_succ]
  refine .nested fun s' hs' => .of_holds (hs' ▸ hg.toShaped) fun _ s₁ hs₁ => ?_
  rw [← hs', ← hs₁] at hg hk hm
  split
  · exact .pure
  have hw' : ∀ P, T.Good P → (P.members id).length ≤ width := fun P hP =>
    hw P hP.toShaped hP.toHolds id
  refine Ends.bind_iff.2 (((runs_meetAll hc.equates hg hk hw').and
    (calm_meetAll hc.equates h.equate hg hk hm hw')).mono ?_ fun _ _ _ => trivial)
  rintro _ t ⟨⟨ht, hst, -⟩, hcalm, hswept⟩
  -- once `k` is a member, what it mentions is in every region of its class
  have hregion : ∀ {P : Partition}, P.Names m id → k ∈ P.members id → ∀ {R D}, R.Sound → P.Grows R →
      R.Region D → (∀ n, n = m → D n) → ∀ n, n = m ∨ Kind.Mentioned [k] n → D n := by
    rintro P hmP hkP R D - hR hD hA n (rfl | ⟨x, hx, v, hv, rfl⟩)
    · exact hA n rfl
    · rw [List.mem_singleton.1 hx] at hv
      exact hD.mention (hA m rfl) (hR.names hmP) (hR.members hkP) hv
  refine .of_find ht.toShaped fun u hu => .of_holds (hu.partition ▸ ht.toShaped) fun b w hb hw => ?_
  rw [← hw.partition.trans hu.partition] at ht hst hcalm hswept
  rw [show u.root id = w.root id from congrFun hw.root.symm id] at hb ⊢
  have hroot : w.partition.root (w.root id) = w.partition.root id := ht.root_root id
  have hmt := hst.grows.names hm
  have hmr : w.partition.Names m (w.root id) := hmt.congr hroot.symm
  have hkr := (hk.mono hst.grows).congr hroot.symm
  split
  · next hb' => exact hcalm.weaken (hregion hmt (ht.members_congr hroot ▸ hb.1 hb'))
  next hb' =>
  have hpart := partition_append ht hkr hroot
  have hpending : Pending T (w.append (w.root id) k).partition (w.root id) k :=
    hpart ▸ .of_append ht hkr fun h => hb' (hb.2 h)
  have hgrow : w.partition.Grows (w.append (w.root id) k).partition := hpart ▸ .append _ _ k
  have happend : Calms (· = m) w.partition (w.append (w.root id) k).partition := by
    rw [hpart]
    refine .append hmr (fun {R} hR hg' hrec l hl => ?_) ht.toShaped
    have hg := (Grows.append _ (w.root id) k).trans hg'
    have hR' : R.root (w.root id) = R.root id := hg.root hroot
    have hkR : k ∈ R.members (w.root id) := hg'.members (mem_append_iff.2 (.inr ⟨rfl, rfl⟩))
    obtain ⟨hmem, hmet⟩ := hswept R hR hg (fun h => hrec (h.congr hR'.symm))
      (hR.members_congr hR' ▸ hkR)
    exact hmet l (hmem ▸ ht.members_congr hroot ▸ hl)
  refine Ends.bind_iff.2 (Site.ends_alter_iff.2 (((runs_bringClass_member hc.joins hpending).and
    (calm_bringClass_member hc.joins h.join hpending (happend.names hmr))).mono ?_
    fun _ _ _ => trivial))
  rintro _ x ⟨⟨hx, hstep, -⟩, hbring⟩
  refine Calms.weaken ((hcalm.trans (happend.mono fun _ => .inl) hgrow).trans
    (hbring.mono fun _ => .inl) hstep.grows) ?_
  have hgx := hgrow.trans hstep.grows
  have hkx : k ∈ x.partition.members id :=
    hx.members_congr (hgx.root hroot) ▸ hstep.grows.members hpending.mem
  exact fun {_ _} hR hg hD hA => hregion (hgx.names hmt) hkx hR hg hD hA

/-- **Constraining a name is calm** but for the name, if what it calls is. -/
theorem KeepsCalm.constrain_succ (hg : T.Good s.partition) (hk : T.call name k) :
    Calm (· = name) (Unify.constrain width (room + 1) name k) s := by
  by_cases hself : k.varName? = some name
  · rw [constrain_self hself]
    exact .nested fun s' hs' => .pure
  by_cases hslot : ∃ slot, k = .stack [slot]
  · obtain ⟨slot, rfl⟩ := hslot
    rw [constrain_slot]
    exact .nested fun s' hs' => h.constrain (hs' ▸ hg) (T.call_slot hk)
  rw [not_exists] at hslot
  have heqn := T.eqn_of_call hk hslot
  rw [Unify.constrain_succ hself hslot]
  refine .nested fun s' hs' => ?_
  rw [← hs'] at hg
  refine Ends.bind_iff.2 ((ends_classFor hg).mono ?_ fun _ _ he => he)
  rintro id t ⟨ht, hgrow, hn, hmem, -⟩
  refine ((runs_bring_join hc.joins ht hn heqn).and
    (calm_bring_join hc.joins h.join ht hn heqn)).mono ?_ fun _ _ _ => trivial
  rintro _ u ⟨⟨-, hu, -⟩, hcalm⟩
  exact (Calms.of_members_eq hgrow.names hmem).trans hcalm hu.grows

end

/-- **Walking down two stacks** starts from the names that they mention. -/
theorem KeepsCalm.equate_succ {L : Kind → Prop} {hL : Kind.Closed L}
    (h : KeepsCalm (.within L hL : Theory st lenient) width room)
    (hc : Contract (.within L hL : Theory st lenient) width room)
    (hg : (Theory.within L hL : Theory st lenient).Good s.partition) {v w : Stack}
    (hv : L (.stack v)) (hw : L (.stack w)) :
    Calm (Kind.Mentioned [.stack v, .stack w]) (unifyStacks width (room + 1) v w) s := by
  generalize hA : Kind.Mentioned [.stack v, .stack w] = A
  have hvars : ∀ k ∈ [Kind.stack v, .stack w], ∀ u ∈ k.vars, A u.name :=
    fun k hk u hu => hA ▸ ⟨k, hk, u, hu, rfl⟩
  refine .nested fun s' hs' => ?_
  rw [← hs'] at hg
  refine Ends.mono (ends_walk (V := .mentioning hL A)
    (I := fun t => (Theory.within L hL : Theory st lenient).Good t.partition ∧
      s'.partition.Grows t.partition ∧ Calms A s'.partition t.partition)
    (E := fun _ _ => True) (fun _ _ _ => trivial) (fun n k hn hk t ht => ?_)
    (fun v w hv hw t ht => ?_) ⟨hv, hvars _ List.mem_cons_self⟩
    ⟨hw, hvars _ (List.mem_cons_of_mem _ List.mem_cons_self)⟩ ⟨hg, .refl _, .refl _ _⟩)
    (fun _ _ ht => ht.2.2) fun _ _ _ => trivial
  · refine ((hc.constrains ht.1 hk.1).and (h.constrain ht.1 hk.1)).mono ?_ fun _ _ _ => trivial
    rintro _ u ⟨⟨hu, hstep, -⟩, hcalm⟩
    exact ⟨hu, ht.2.1.trans hstep.grows,
      ht.2.2.trans (hcalm.mono fun _ e => e ▸ hn) hstep.grows⟩
  · refine ((hc.equates ht.1 ⟨hv.1, hw.1⟩).and (h.equate ht.1 ⟨hv.1, hw.1⟩)).mono ?_
      fun _ _ _ => trivial
    rintro _ u ⟨⟨hu, hstep, -⟩, hcalm⟩
    refine ⟨hu, ht.2.1.trans hstep.grows, ht.2.2.trans (hcalm.mono ?_) hstep.grows⟩
    rintro _ ⟨x, hx, y, hy, rfl⟩
    rcases List.mem_pair.1 hx with rfl | rfl
    · exact hv.2 y hy
    · exact hw.2 y hy

/-- **Unifying reaches no further than the names it starts from lead**, at every level. -/
theorem keepsCalm {L : Kind → Prop} {hL : Kind.Closed L}
    (hw : ∀ P, P.Shaped → (Theory.within L hL : Theory st lenient).Holds P →
      ∀ i, (P.members i).length ≤ width) (room : Nat) :
    KeepsCalm (.within L hL : Theory st lenient) width room := by
  have hc := contract fun P hP => hw P hP.toShaped hP.toHolds
  induction room with
  | zero => exact ⟨fun _ _ => trivial, fun _ _ _ => trivial, fun _ _ => trivial⟩
  | succ room ih =>
    exact ⟨ih.constrain_succ (hc room), ih.join_succ (hc room) hw, fun hg hvw =>
      ih.equate_succ (hc room) hg hvw.1 hvw.2⟩

end Unify

end StackEffect
