import StackEffect.Proofs.Solve.Alongside
import StackEffect.Proofs.Store.History

/-!
# Proofs/Unify/Unseen — operations do not see links

    s.Akin t        stores that differ in nothing but shortcuts

Whoever looks something up leaves shortcuts, and the next one finds other links.  But operations see
no links: on stores that differ in shortcuts they answer the same, fail the same, and leave stores
that differ in shortcuts (`Store.Akin.perform`).  It is proved for every relation that look-ups keep
(`Unseen`), since look-ups on other sites than stores go unseen as well.
-/

namespace StackEffect

open Store

/-- **A relation that operations do not see**: the one site holds a store that differs from the other
store in shortcuts at most, and look-ups and changes keep the relation. -/
structure Unseen {σ : Type} [Site σ] (R : σ → Store → Prop) : Prop where
  akin : ∀ {c t}, R c t → (Site.store c).Akin t
  find : ∀ {c t}, R c t → t.partition.Shaped → ∀ id,
    Alike (Site.find id : EStateM Fault σ Nat) c (Site.find id : Pass Nat) t R
  classOf : ∀ {c t}, R c t → t.partition.Shaped → ∀ name,
    Alike (Site.classOf name : EStateM Fault σ _) c (Site.classOf name : Pass _) t R
  change : ∀ {c t f}, Linkless f → R c t →
    (f t).partition = (f (Site.store c)).partition → R (Site.change f c) (f t)

/-- Taking a note does not look at links. -/
theorem Store.linkless_note (line : Unit → String) : Linkless (·.note line) := by
  intro s parents index
  dsimp only [note]
  split <;> rfl

theorem Store.linkless_warn (line : String) : Linkless (·.warn line) := by
  intro s parents index
  dsimp only [warn]
  split <;> rfl

theorem Store.linkless_absorb (line : Unit → String) (src dst : Nat) :
    Linkless fun s => (s.note line).link src dst := by
  intro s parents index
  dsimp only [note]
  split <;> rfl

namespace Unseen

open Unify

variable {σ : Type} [Site σ] {R : σ → Store → Prop} (h : Unseen R) {st : Option Subtyping}
  {lenient : Bool} {T : Theory st lenient} {c : σ} {t : Store} {name : String} {k : Kind}
  {id src dst width room : Nat}

include h

/-! ## Single steps -/

theorem partition (hct : R c t) : t.partition = (Site.store c).partition := (h.akin hct).partition

theorem kept (hct : R c t) : (Site.store c).kept = t.kept := (h.akin hct).kept.symm

/-- The partition does not tell the level of nesting. -/
theorem level {f : Store → Store} (hf : Linkless f) (hp : ∀ s, (f s).partition = s.partition)
    (hct : R c t) : R (Site.change f c) (f t) :=
  h.change hf hct (by rw [hp, hp, h.partition hct])

/-- Nothing more is seen from a nested call. -/
theorem nested {α : Type} {p : EStateM Fault σ α} {q : Pass α} (hct : R c t)
    (hpq : ∀ c t', R c t' → t'.partition = t.partition → Alike p c q t' R) :
    Alike (Unify.nested p) c (Unify.nested q) t R := by
  have hin := hpq _ _ (h.level (f := Store.deeper) (fun _ _ _ => rfl) (fun _ => rfl) hct) rfl
  have hout {c t} := h.level (f := Store.shallower) (c := c) (t := t) (fun _ _ _ => rfl) fun _ => rfl
  rcases hin.ok_or_error with ⟨a, c', t', hp, hq, hct'⟩ | ⟨e, c', t', hp, hq, hct'⟩
  · exact .of_ok (by rw [Unify.nested, hp]) (by rw [Unify.nested, Site.change_eq, hq]; rfl)
      (hout hct')
  · exact .of_error (by rw [Unify.nested, hp]) (by rw [Unify.nested, Site.change_eq, hq]; rfl)
      (hout hct')

/-- A change that does not look at links may be made on both sides. -/
theorem alter {f : Store → Store} (hf : Linkless f) (hct : R c t)
    (hp : (f t).partition = (f (Site.store c)).partition) :
    Alike (Site.alter f : EStateM Fault σ Unit) c (Site.alter f : Pass Unit) t R :=
  .of_ok rfl rfl (h.change hf hct hp)

/-- Whether a class has a member is answered alike. -/
theorem holds (hct : R c t) (ht : t.partition.Shaped) (id : Nat) (k : Kind) :
    Alike (Site.holds id k : EStateM Fault σ Bool) c (Site.holds id k : Pass Bool) t R := by
  refine (h.find hct ht id).bind (fun root c t hct => ?_) fun _ _ hct => hct
  refine .of_ok (a := (t.kept root).contains k) ?_ rfl hct
  rw [← h.kept hct]
  rfl

theorem memberAt? (hct : R c t) (ht : t.partition.Shaped) (id i : Nat) :
    Alike (Site.memberAt? id i : EStateM Fault σ _) c (Site.memberAt? id i : Pass _) t R := by
  refine (h.find hct ht id).bind (fun root c t hct => ?_) fun _ _ hct => hct
  refine .of_ok (a := (t.kept root)[i]?) ?_ rfl hct
  rw [← h.kept hct]
  rfl

/-! ## Meeting members -/

section

variable {equate : Stack → Stack → EStateM Fault σ Unit} {equate' : Stack → Stack → Pass Unit}
  (he : Equates T equate')
  (heq : ∀ {c t v w}, R c t → T.Good t.partition → T.par v w → Alike (equate v w) c (equate' v w) t R)

include he heq

omit [Site σ] h in
/-- Functions are unified alike. -/
theorem unifyEffects (hct : R c t) (hg : T.Good t.partition) {k l : Kind}
    (hkl : ∀ a p i b q j, k = .effect a p i → l = .effect b q j → T.par a b ∧ T.par p q) :
    Alike (unifyEffects equate k l) c (unifyEffects equate' k l) t R := by
  fun_cases Unify.unifyEffects equate k l with
  | case1 a p i b q j =>
    obtain ⟨hab, hpq⟩ := hkl _ _ _ _ _ _ rfl rfl
    exact (heq hct hg hab).bind_ends (he hg hab) fun _ c t hct ht => heq hct ht.1 hpq
  | case2 _ _ hkl' =>
    rw [unifyEffects.eq_2 _ _ _ hkl']
    exact .of_ok rfl rfl hct

omit [Site σ] h in
theorem meet (hct : R c t) (hg : T.Good t.partition) (hk : T.Admits t.partition id k) {m : Kind}
    (hm : m ∈ t.partition.members id) : Alike (meet equate k m) c (meet equate' k m) t R := by
  by_cases halike : k.Alike m
  · obtain ⟨n, hn, hnk⟩ := hk
    have hnm := hg.member hn hm
    cases k <;> cases m <;> try exact halike.elim
    case stack.stack v w => exact heq hct hg (T.par_stack hnk hnm)
    case effect.effect a p i b q j =>
      refine unifyEffects (k := .effect a p i) (l := .effect b q j) he heq hct hg ?_
      rintro _ _ _ _ _ _ ⟨⟩ ⟨⟩
      exact T.par_effect hnk hnm
  · rw [meet_of_not_alike halike, meet_of_not_alike halike]
    exact .of_ok rfl rfl hct

/-- **All members are met** before the turns are used up. -/
theorem sweep (hct : R c t) (hg : T.Good t.partition) (hk : T.Admits t.partition id k) {n i : Nat}
    (hw : ∀ P, T.Good P → (P.members id).length ≤ n + i) :
    Alike (sweep id (Unify.meet equate k) n i) c (sweep id (Unify.meet equate' k) n i) t R := by
  induction n generalizing c t i with
  | zero =>
    refine (h.memberAt? hct hg.toShaped id i).bind_ends
      (Site.ends_memberAt? (E := fun _ _ => True) hg.toShaped id i) ?_
    rintro _ c t' hct' ⟨rfl, -⟩
    have hnone : (t.partition.members id)[i]? = none := by
      have := hw _ hg
      exact List.getElem?_eq_none_iff.2 (by omega)
    rw [hnone]
    exact .of_ok rfl rfl hct'
  | succ n ih =>
    refine (h.memberAt? hct hg.toShaped id i).bind_ends
      (Site.ends_memberAt? (E := fun _ _ => True) hg.toShaped id i) ?_
    rintro _ c t' hct' ⟨rfl, ht'⟩
    rw [← ht'.partition] at hg hk ⊢
    cases hm : (t'.partition.members id)[i]? with
    | none => exact .of_ok rfl rfl hct'
    | some m =>
      have hm' := List.mem_of_getElem? hm
      refine (meet he heq hct' hg hk hm').bind_ends (runs_meet_any he hg hk hm')
        fun _ c u hcu hu => ih hcu hu.1 (hk.mono hu.2.1.grows) fun P hP => ?_
      have := hw P hP
      omega

/-- **A kind meets the members of a class alike.** -/
theorem meetAll (hct : R c t) (hg : T.Good t.partition) (hk : T.Admits t.partition id k)
    (hw : ∀ P, T.Good P → (P.members id).length ≤ width) :
    Alike (meetAll equate width id k) c (meetAll equate' width id k) t R := by
  cases k with
  | effect | stack => exact h.sweep he heq hct hg hk hw
  | _ => exact .of_ok rfl rfl hct

end

/-! ## Merging classes -/

section

variable {join : Nat → Kind → EStateM Fault σ Unit} {join' : Nat → Kind → Pass Unit}
  (hj : Joins T join')
  (heq : ∀ {c t id k}, R c t → T.Good t.partition → T.Admits t.partition id k →
    Alike (join id k) c (join' id k) t R)

include hj heq

/-- **All members of an absorbed class are taken** before the turns are used up, and no others. -/
theorem drain {ks : List Kind} (hct : R c t) (hd : Draining T t.partition src dst ks) :
    Alike (drain src (join dst) ks.length) c (drain src (join' dst) ks.length) t R := by
  have hfirst : ∀ {c t ks}, R c t → Draining T t.partition src dst ks →
      ((Site.store c).kept src)[0]? = ks.head? ∧ (t.kept src)[0]? = ks.head? := by
    intro c t ks hct hd
    rw [h.kept hct]
    exact ⟨hd.first, hd.first⟩
  induction ks generalizing c t with
  | nil =>
    refine .of_look ?_
    rw [Site.store_eq, (hfirst hct hd).1, (hfirst hct hd).2]
    exact .of_ok rfl rfl hct
  | cons k ks ih =>
    obtain ⟨hks, hk⟩ := hd.takeFirst
    have hd' : Draining T (Site.store c).partition src dst (k :: ks) := h.partition hct ▸ hd
    have hpart : (t.takeFirst src).partition = ((Site.store c).takeFirst src).partition := by
      rw [hd.partition_takeFirst, hd'.partition_takeFirst, h.partition hct]
    refine .of_look ?_
    rw [Site.store_eq, (hfirst hct hd).1, (hfirst hct hd).2]
    refine Alike.bind_ends (Q := fun _ u => u = t.takeFirst src) (E := fun _ _ => True)
      (h.alter (fun _ _ _ => rfl) hct hpart) rfl ?_
    rintro _ c t' hct' rfl
    refine (heq hct' hks.good hk).bind_ends (hj hks.good hk) fun _ c u hcu hu => ?_
    exact ih hcu (hks.step hu.1 hu.2.1)

/-- **Classes are merged alike.** -/
theorem merge (hct : R c t) (hm : Merging T t.partition src dst) :
    Alike (merge join src dst) c (merge join' src dst) t R := by
  have hshaped := hm.toShaped
  refine (h.find hct hshaped src).bind_ends (Site.ends_find (E := fun _ _ => True) hshaped src) ?_
  rintro _ c₁ t₁ hct₁ ⟨rfl, ht₁, -⟩
  have hshaped₁ := ht₁.partition.symm ▸ hshaped
  refine (h.find hct₁ hshaped₁ dst).bind_ends
    (Site.ends_find (E := fun _ _ => True) hshaped₁ dst) ?_
  rintro _ c₂ t₂ hct₂ ⟨rfl, ht₂, -⟩
  rw [ht₁.root]
  split
  · exact .of_ok rfl rfl hct₂
  · next hne =>
    have hshort := ht₁.trans ht₂
    refine .of_look (.of_look ?_)
    rw [Site.store_eq, h.kept hct₂, hshort.kept, hm.size_kept]
    have hpart {s : Store} (hs : s.partition = t.partition) := hm.partition_link hs hne
    refine Alike.bind_ends (Q := fun _ u => u.partition = _) (E := fun _ _ => True)
      (h.alter (linkless_absorb _ _ _) hct₂ ?_) (hpart hshort.partition _) fun _ c₃ t₃ hct₃ ht₃ => ?_
    · exact (hpart hshort.partition _).trans
        (hpart ((h.partition hct₂).symm.trans hshort.partition) _).symm
    · exact h.drain hj heq hct₃ (ht₃.symm ▸ hm.absorb hne)

/-- A new member brings its class along, or is registered. -/
theorem bringClass_member (hct : R c t) (hp : Pending T t.partition id k) :
    Alike (bringClass join true id k) c (bringClass join' true id k) t R := by
  unfold Unify.bringClass
  split
  · exact .of_ok rfl rfl hct
  next name hname =>
  refine (h.classOf hct hp.toShaped name).bind_ends
    (Site.ends_classOf (E := fun _ _ => True) hp.toShaped name) ?_
  rintro _ c t' hct' ⟨rfl, ht', -⟩
  rw [← ht'.classOf?]
  rw [← ht'.partition] at hp
  split
  · next other hother => exact h.merge hj heq hct' (hp.merging hname hother)
  · refine h.alter (fun _ _ _ => rfl) hct' ?_
    rw [partition_register, partition_register, h.partition hct']

/-- A variable brings its class along. -/
theorem bringClass (hct : R c t) (hg : T.Good t.partition) (hn : t.partition.Names name id)
    (hk : T.eqn name k) :
    Alike (Unify.bringClass join false id k) c (Unify.bringClass join' false id k) t R := by
  unfold Unify.bringClass
  split
  · exact .of_ok rfl rfl hct
  next m hm =>
  refine (h.classOf hct hg.toShaped m).bind_ends
    (Site.ends_classOf (E := fun _ _ => True) hg.toShaped m) ?_
  rintro _ c t' hct' ⟨rfl, ht', -⟩
  rw [← ht'.classOf?]
  rw [← ht'.partition] at hg hn
  split
  · next other hother => exact h.merge hj heq hct' (merging_of_index hg hn hk hm hother)
  · exact .of_ok rfl rfl hct'

end

theorem classFor (hct : R c t) (ht : t.partition.Shaped) (name : String) :
    Alike (Unify.classFor name : EStateM Fault σ Nat) c (Unify.classFor name : Pass Nat) t R := by
  refine (h.classOf hct ht name).bind_ends (Site.ends_classOf (E := fun _ _ => True) ht name) ?_
  rintro i c t' hct' ⟨-, ht', -⟩
  cases i with
  | some id => exact .of_ok rfl rfl hct'
  | none =>
    have hsize : t'.members.size = (Site.store c).members.size :=
      congrArg Partition.size (h.partition hct')
    have hshaped := ht'.partition.symm ▸ ht
    refine .of_look ?_
    rw [Site.store_eq, ← hsize]
    refine Alike.bind (h.alter ?_ hct' ?_) (fun _ _ _ hcu => .of_ok rfl rfl hcu) fun _ _ hcu => hcu
    · exact fun _ _ _ => rfl
    · rw [partition_registerNew hshaped, partition_registerNew (h.partition hct' ▸ hshaped),
        h.partition hct']

end Unseen

/-! ## Calls -/

/-- **Calls go unseen**, when so many levels are left. -/
structure UnseenCalls {σ : Type} [Site σ] {st : Option Subtyping} {lenient : Bool}
    (T : Theory st lenient) (R : σ → Store → Prop) (width room : Nat) : Prop where
  constrain : ∀ {c t n k}, R c t → T.Good t.partition → T.call n k →
    Alike (Unify.constrain width room n k : EStateM Fault σ Unit) c
      (Unify.constrain width room n k : Pass Unit) t R
  join : ∀ {c t id k}, R c t → T.Good t.partition → T.Admits t.partition id k →
    Alike (Unify.join width room id k : EStateM Fault σ Unit) c
      (Unify.join width room id k : Pass Unit) t R
  equate : ∀ {c t v w}, R c t → T.Good t.partition → T.par v w →
    Alike (Unify.unifyStacks width room v w : EStateM Fault σ Unit) c
      (Unify.unifyStacks width room v w : Pass Unit) t R

namespace Unseen

open Unify

variable {σ : Type} [Site σ] {R : σ → Store → Prop} (h : Unseen R) {st : Option Subtyping}
  {lenient : Bool} {T : Theory st lenient} {c : σ} {t : Store} {name : String} {k : Kind}
  {id width room : Nat}

include h

/-- **Names are constrained alike**, if what is called is unseen. -/
theorem constrain_succ (hin : UnseenCalls T R width room) (hc : Contract T width room)
    (hct : R c t) (hg : T.Good t.partition) (hk : T.call name k) :
    Alike (Unify.constrain width (room + 1) name k : EStateM Fault σ Unit) c
      (Unify.constrain width (room + 1) name k : Pass Unit) t R := by
  by_cases hself : k.varName? = some name
  · rw [constrain_self hself, constrain_self hself]
    exact h.nested hct fun c t hct _ => .of_ok rfl rfl hct
  by_cases hslot : ∃ slot, k = .stack [slot]
  · obtain ⟨slot, rfl⟩ := hslot
    exact h.nested hct fun c t' hct' ht' => hin.constrain hct' (ht' ▸ hg) (T.call_slot hk)
  rw [not_exists] at hslot
  have heqn := T.eqn_of_call hk hslot
  rw [Unify.constrain_succ hself hslot, Unify.constrain_succ hself hslot]
  refine h.nested hct fun c t' hct' ht' => ?_
  rw [← ht'] at hg
  refine (h.classFor hct' hg.toShaped name).bind_ends (ends_classFor (E := fun _ _ => True) hg)
    fun id c u hcu ⟨hu, _, hn, _⟩ => ?_
  refine (h.bringClass hc.joins hin.join hcu hu hn heqn).bind_ends
    (runs_bringClass hc.joins hu hn heqn) fun _ c v hcv hv => ?_
  exact hin.join hcv hv.1 ⟨name, hv.2.1.grows.names hn, heqn⟩

/-- **Classes are joined alike**, if what is called is unseen. -/
theorem join_succ (hin : UnseenCalls T R width room) (hc : Contract T width room)
    (hw : ∀ P, T.Good P → ∀ i, (P.members i).length ≤ width) (hct : R c t)
    (hg : T.Good t.partition) (hk : T.Admits t.partition id k) :
    Alike (Unify.join width (room + 1) id k : EStateM Fault σ Unit) c
      (Unify.join width (room + 1) id k : Pass Unit) t R := by
  rw [Unify.join_succ, Unify.join_succ]
  refine h.nested hct fun c t' hct' ht' => ?_
  rw [← ht'] at hg hk
  refine (h.holds hct' hg.toShaped id k).bind_ends
    (Site.ends_holds (E := fun _ _ => True) hg.toShaped id k) fun b c t₁ hct₁ ⟨_, ht₁⟩ => ?_
  rw [← ht₁.partition] at hg hk
  split
  · exact .of_ok rfl rfl hct₁
  have hw' : ∀ P, T.Good P → (P.members id).length ≤ width := fun P hP => hw P hP id
  refine (h.meetAll hc.equates hin.equate hct₁ hg hk hw').bind_ends
    (runs_meetAll hc.equates hg hk hw') fun _ c t₂ hct₂ ⟨ht₂, hst, _⟩ => ?_
  refine (h.find hct₂ ht₂.toShaped id).bind_ends
    (Site.ends_find (E := fun _ _ => True) ht₂.toShaped id) ?_
  rintro _ c t₃ hct₃ ⟨rfl, ht₃, -⟩
  rw [← ht₃.partition] at ht₂ hst
  rw [← ht₃.root]
  refine (h.holds hct₃ ht₂.toShaped (t₃.root id) k).bind_ends
    (Site.ends_holds (E := fun _ _ => True) ht₂.toShaped (t₃.root id) k)
    fun b c t₄ hct₄ ⟨hb, ht₄⟩ => ?_
  split
  · exact .of_ok rfl rfl hct₄
  next hb' =>
  have hroot : t₃.root (t₃.root id) = t₃.root id := ht₂.root_root id
  have hkt := (hk.mono hst.grows).congr hroot.symm
  have hpart : ∀ {s : Store}, s.partition = t₃.partition →
      (s.append (t₃.root id) k).partition = t₃.partition.append (t₃.root id) k := by
    intro s hs
    rw [← hs]
    refine partition_append (T := T) (hs ▸ ht₂) (hs ▸ hkt) ?_
    rw [show s.root = t₃.root from congrArg Partition.root hs]
    exact hroot
  refine Alike.bind_ends (Q := fun _ u => u = t₄.append (t₃.root id) k) (E := fun _ _ => True)
    (h.alter (fun _ _ _ => rfl) hct₄ ?_) rfl ?_
  · rw [hpart ht₄.partition, hpart ((h.partition hct₄).symm.trans ht₄.partition)]
  · rintro _ c _ hct₅ rfl
    refine h.bringClass_member hc.joins hin.join hct₅ ?_
    rw [hpart ht₄.partition]
    exact .of_append ht₂ hkt fun hmem => hb' (hb.2 hmem)

theorem equate_succ {L : Kind → Prop} {hL : Kind.Closed L}
    (hin : UnseenCalls (.within L hL : Theory st lenient) R width room)
    (hc : Contract (.within L hL : Theory st lenient) width room) (hct : R c t)
    (hg : (Theory.within L hL : Theory st lenient).Good t.partition) {v w : Stack}
    (hv : L (.stack v)) (hw : L (.stack w)) :
    Alike (Unify.unifyStacks width (room + 1) v w : EStateM Fault σ Unit) c
      (Unify.unifyStacks width (room + 1) v w : Pass Unit) t R := by
  refine h.nested hct fun c t' hct' ht' => ?_
  rw [← ht'] at hg
  have hlook : ∀ c t, R c t ∧ (Theory.within L hL : Theory st lenient).Good t.partition →
      t.subtyping = (Site.store c).subtyping ∧ t.lenient = (Site.store c).lenient := by
    intro c t hct
    rw [(h.akin hct.1).rest]
    exact ⟨rfl, rfl⟩
  have hconstrain : ∀ n k, (Vocabulary.within hL).name n → (Vocabulary.within hL).kind k →
      Abreast _ _ (Unify.constrain width room n k : EStateM Fault σ Unit)
        (Unify.constrain width room n k : Pass Unit) :=
    fun n k _ hk => .of_alike (fun c t hct hg => hin.constrain hct hg hk)
      fun t hg => Ends.mono (hc.constrains hg hk) (fun _ _ hu => hu.1) fun _ _ _ => trivial
  have hequate : ∀ v w, (Vocabulary.within hL).kind (.stack v) → (Vocabulary.within hL).kind (.stack w) →
      Abreast _ _ (Unify.unifyStacks width room v w : EStateM Fault σ Unit)
        (Unify.unifyStacks width room v w : Pass Unit) :=
    fun v w hv hw => .of_alike (fun c t hct hg => hin.equate hct hg ⟨hv, hw⟩)
      fun t hg => Ends.mono (hc.equates hg ⟨hv, hw⟩) (fun _ _ hu => hu.1) fun _ _ _ => trivial
  have hwalk := abreast_walk_self hlook (fun c t hct m => ⟨rfl, hct.1⟩) hconstrain hequate v w hv hw
  exact hwalk.alike_of (fun _ _ hct => hct.1) ⟨hct', hg⟩

/-- **Calls go unseen** at every level, if no class has more members than the width. -/
theorem calls {L : Kind → Prop} {hL : Kind.Closed L}
    (hw : ∀ P, P.Shaped → (Theory.within L hL : Theory st lenient).Holds P →
      ∀ i, (P.members i).length ≤ width) (room : Nat) :
    UnseenCalls (.within L hL : Theory st lenient) R width room := by
  have hw' : ∀ P, (Theory.within L hL : Theory st lenient).Good P →
      ∀ i, (P.members i).length ≤ width := fun P hP => hw P hP.toShaped hP.toHolds
  have hc := contract hw'
  induction room with
  | zero =>
    have hrefuse : ∀ {c t}, R c t →
        Alike (refuse : EStateM Fault σ Unit) c (refuse : Pass Unit) t R := fun hct =>
      .of_error rfl rfl (h.level (f := Store.deeper) (fun _ _ _ => rfl) (fun _ => rfl) hct)
    exact ⟨fun hct _ _ => hrefuse hct, fun hct _ _ => hrefuse hct, fun hct _ _ => hrefuse hct⟩
  | succ room ih =>
    exact ⟨h.constrain_succ ih (hc room), h.join_succ ih (hc room) hw', fun hct hg hvw =>
      h.equate_succ ih (hc room) hct hg hvw.1 hvw.2⟩

/-! ## Operations -/

/-- Whoever asks sees no links. -/
theorem asking :
    Asking (fun c t => R c t ∧ t.partition.Shaped) fun e c f t => f = e ∧ R c t where
  find id := .of_alike (fun c t hct ht => h.find hct ht id) fun t ht =>
    (Site.ends_find ht id).mono (fun _ _ hu => hu.2.1.partition.symm ▸ ht) fun _ _ he => he
  classOf name := .of_alike (fun c t hct ht => h.classOf hct ht name) fun t ht =>
    (Site.ends_classOf ht name).mono (fun _ _ hu => hu.2.1.partition.symm ▸ ht) fun _ _ he => he
  kept hct := (h.kept hct.1).symm
  size hct := congrArg Partition.size (h.partition hct.1)
  names hct := by
    rw [Site.store_eq, (h.akin hct.1).rest]
  subtyping hct := by
    rw [Site.store_eq, (h.akin hct.1).rest]
  note hct line :=
    ⟨h.level (linkless_note line) (partition_note · line) hct.1, (partition_note _ line).symm ▸ hct.2⟩
  warn hct line :=
    ⟨h.level (linkless_warn line) (fun s => (Asked.warn s line).partition) hct.1,
      (Asked.warn _ line).partition.symm ▸ hct.2⟩
  solved hct f := ⟨h.level (fun _ _ _ => rfl) (fun _ => rfl) hct.1, hct.2⟩
  throw hct _ := ⟨rfl, hct.1⟩

omit [Site σ] h in
theorem ask {α : Type} {p : EStateM Fault σ α} {q : Pass α} (hct : R c t) (ht : t.partition.Shaped)
    (hpq : Abreast (fun c t => R c t ∧ t.partition.Shaped) (fun e c f t => f = e ∧ R c t) p q) :
    Alike (do let _ ← p) c (do let _ ← q) t R :=
  (hpq.bind fun _ => .pure).alike_of (fun _ _ hct => hct.1) ⟨hct, ht⟩

/-- What is handed in is seen, and the same on both sides. -/
theorem of_handIn (hct : R c t) (weight : Nat) {f : Nat → Nat → EStateM Fault σ Unit}
    {g : Nat → Nat → Pass Unit}
    (hfg : ∀ c, R c { t with mass := t.mass + weight } →
      Alike (f (t.mass + weight) t.room) c (g (t.mass + weight) t.room)
        { t with mass := t.mass + weight } R) :
    Alike (do handIn weight; let s ← Site.look; f s.mass s.room) c
      (do handIn weight; let s ← Site.look; g s.mass s.room) t R := by
  have hpart := congrArg (fun P : Partition => { P with mass := P.mass + weight }) (h.partition hct)
  have hct' := h.change (f := fun s => { s with mass := s.mass + weight }) (fun _ _ _ => rfl) hct hpart
  have hmass : (Site.store (Site.change (fun s => { s with mass := s.mass + weight }) c)).mass =
      t.mass + weight := (congrArg Partition.mass (h.partition hct')).symm
  have hroom : (Site.store (Site.change (fun s => { s with mass := s.mass + weight }) c)).room =
      t.room := by
    have hrest := congrArg Store.room (h.akin hct').rest
    exact hrest.symm
  refine .modify_bind (.of_look ?_)
  rw [hmass, hroom]
  exact hfg _ hct'

/-- **Operations see no links.** -/
theorem perform (hct : R c t) (ht : t.Orderly) (o : Operation) :
    Alike (o.perform : EStateM Fault σ Unit) c (o.perform : Pass Unit) t R := by
  have hshaped := ht.good.toShaped
  cases o with
  | constrain n k =>
    obtain ⟨L, hL, hsub, hgood, hw⟩ := ht.within (Kind.closed_parts k) (Kind.length_parts k)
    exact h.of_handIn hct _ (f := (Unify.constrain · · n k)) (g := (Unify.constrain · · n k))
      fun c hct' => (h.calls hw _).constrain hct' hgood (hsub (Kind.self_mem_parts k))
  | unifyStacks v w =>
    obtain ⟨L, hL, hsub, hgood, hw⟩ := ht.within
      ((Kind.closed_slotsParts v).append (Kind.closed_slotsParts w))
      (by rw [List.length_append, Kind.length_slotsParts, Kind.length_slotsParts])
    have hv := hsub (List.mem_append_left _ (Kind.stack_mem_slotsParts v))
    have hw' := hsub (List.mem_append_right _ (Kind.stack_mem_slotsParts w))
    exact h.of_handIn hct _ (f := (Unify.unifyStacks · · v w)) (g := (Unify.unifyStacks · · v w))
      fun c hct' => (h.calls hw _).equate hct' hgood ⟨hv, hw'⟩
  | unifyEffects f g =>
    obtain ⟨L, hL, hsub, hgood, hw⟩ := ht.within
      ((Kind.closed_parts f).append (Kind.closed_parts g))
      (by rw [List.length_append, Kind.length_parts, Kind.length_parts])
    have hf := hsub (List.mem_append_left _ (Kind.self_mem_parts f))
    have hg := hsub (List.mem_append_right _ (Kind.self_mem_parts g))
    have hc := contract (fun P hP => hw P hP.toShaped hP.toHolds) t.room
    refine h.of_handIn hct _ (f := fun m r => Unify.unifyEffects (Unify.unifyStacks m r) f g)
      (g := fun m r => Unify.unifyEffects (Unify.unifyStacks m r) f g) fun c hct' =>
        unifyEffects hc.equates (h.calls hw _).equate hct' hgood ?_
    rintro _ _ _ _ _ _ rfl rfl
    exact ⟨⟨hL.consumed hf, hL.consumed hg⟩, hL.produced hf, hL.produced hg⟩
  | solve => exact (h.asking.solve).alike_of (fun _ _ hct => hct.1) ⟨hct, hshaped⟩
  | members name => exact ask hct hshaped (h.asking.findMembers name)
  | sameClass a b => exact ask hct hshaped (h.asking.findSame a b)
  | text => exact ask hct hshaped h.asking.findText
  | reset => exact h.alter (fun _ _ _ => rfl) hct (by rw [(h.akin hct).rest]; rfl)

end Unseen

/-! ## Shortcuts -/

/-- Shortcuts go unseen: look-ups find the same roots, and leave shortcuts. -/
theorem Store.unseen_akin : Unseen Akin where
  akin h := h
  find {s t} h ht id := by
    obtain ⟨r, s', hs, rfl, hss', -⟩ := (Site.ends_find (h.partition ▸ ht) id).exists_ok
    obtain ⟨_, t', ht, rfl, htt', -⟩ := (Site.ends_find ht id).exists_ok
    have hroot : s.root = t.root := congrArg Partition.root h.partition.symm
    exact .of_ok hs (hroot ▸ ht) (hss'.akin.symm.trans (h.trans htt'.akin))
  classOf {s t} h ht name := by
    obtain ⟨r, s', hs, rfl, hss', -⟩ := (Site.ends_classOf (h.partition ▸ ht) name).exists_ok
    obtain ⟨_, t', ht, rfl, htt', -⟩ := (Site.ends_classOf ht name).exists_ok
    have hclass : s.classOf? = t.classOf? := congrArg Partition.index h.partition.symm
    exact .of_ok hs (hclass ▸ ht) (hss'.akin.symm.trans (h.trans htt'.akin))
  change hf h hp := h.map hf hp

/-- **Operations on stores that differ in shortcuts** answer the same, fail the same, and leave stores
that differ in shortcuts. -/
theorem Store.Akin.perform {s t : Store} (h : s.Akin t) (ht : t.Orderly) (o : Operation) :
    Alike o.perform s o.perform t Akin := unseen_akin.perform h ht o

end StackEffect
