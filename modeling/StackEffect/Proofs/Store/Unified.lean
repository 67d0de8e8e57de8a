import StackEffect.Proofs.Store.History
import StackEffect.Proofs.Unify.Calls
import StackEffect.Proofs.Unify.Paired

/-!
# Proofs/Store/Unified — members of a class, unified once more

    Harmless f g        unifying f and g leaves nothing but shortcuts
    n ⟶ … ⟶ n           the class of n is recursive: it leads back to itself

The members of a class are unified when they meet.  After calls that all succeeded, a chain of pairs
that may be unified again connects all effects of a class, and all stacks; and in a class that is not
recursive, any two members may.  In a recursive class, two members may have been kept from meeting,
and clash when they do.
-/

namespace StackEffect

namespace Store

variable {s t : Store} {n m : String} {f g : Kind}

/-! ## Recursive classes -/

/-- **`n` leads to `m`**: a member of the class of `n` that is no variable mentions `m`, or another
name of its class. -/
def Leads (s : Store) (n m : String) : Prop :=
  ∃ k ∈ s.membersFor n, k.varName? = none ∧ ∃ v ∈ k.vars, v.name = m ∨ s.sameClass v.name m = true

/-- **The class of a name is recursive** if the name leads back to itself. -/
def Recursive (s : Store) (n : String) : Prop := Relation.TransGen s.Leads n n

theorem leads_iff (hs : s.partition.Shaped) : s.Leads n m ↔ s.partition.Leads n m := by
  constructor
  · rintro ⟨k, hk, hvar, v, hv, hm⟩
    obtain ⟨i, hi, hki⟩ := mem_membersFor.1 hk
    refine ⟨i, k, Partition.names_of_index hi, hki, hvar, v, hv, hm.imp_right fun hm => ?_⟩
    obtain ⟨a, ha, hb⟩ := sameClass_iff.1 hm
    exact ⟨a, Partition.names_of_index ha, Partition.names_of_index hb⟩
  · rintro ⟨i, k, ⟨j, hj, hji⟩, hk, hvar, v, hv, hm⟩
    refine ⟨k, mem_membersFor.2 ⟨j, hj, hs.members_congr hji ▸ hk⟩, hvar, v, hv, hm.imp_right ?_⟩
    rintro ⟨c, ⟨a, ha, hac⟩, b, hb, hbc⟩
    exact sameClass_of_root_eq hs ha hb (hac.trans hbc.symm)

theorem recursive_of_partition (hs : s.partition.Shaped) {i : Nat} (hi : s.partition.index n = some i)
    (h : s.partition.Recursive i) : s.Recursive n :=
  Relation.TransGen.mono (fun _ _ => (leads_iff hs).2) _ _ (h.leads (Partition.names_of_index hi))

theorem mem_names_of_index (hs : s.partition.Shaped) {i : Nat} (hi : s.partition.index n = some i) :
    n ∈ s.names.toList := hs.mem_names.2 (hi ▸ rfl)

/-- A rank that falls wherever a name leads shows that no class is recursive. -/
theorem not_recursive_of_rank (hs : s.partition.Shaped) (rank : String → Nat)
    (h : ∀ a ∈ s.names.toList, ∀ k ∈ s.membersFor a, k.varName? = none → ∀ v ∈ k.vars,
      rank v.name < rank a ∧ ∀ b ∈ s.names.toList, s.sameClass v.name b = true → rank b < rank a) :
    ¬ s.Recursive n := by
  have hstep : ∀ a b, s.Leads a b → rank b < rank a := by
    rintro a b ⟨k, hk, hvar, v, hv, hb⟩
    obtain ⟨i, hi, -⟩ := mem_membersFor.1 hk
    have hfall := h a (mem_names_of_index hs hi) k hk hvar v hv
    rcases hb with rfl | hb
    · exact hfall.1
    · obtain ⟨j, -, hj⟩ := sameClass_iff.1 hb
      exact hfall.2 b (mem_names_of_index hs hj) hb
  have hfall : ∀ b, Relation.TransGen s.Leads n b → rank b < rank n := by
    intro b hb
    induction hb with
    | single hab => exact hstep _ _ hab
    | tail _ hbc ih => exact Nat.lt_trans (hstep _ _ hbc) ih
  exact fun hn => Nat.lt_irrefl _ (hfall n hn)

/-! ## Unifying once more -/

/-- Unifies two stacks, or two effects. -/
def Operation.unify : Kind → Kind → Operation
  | .stack v, .stack w => .unifyStacks v w
  | f, g => .unifyEffects f g

/-- **Unifying two kinds changes nothing** but the mass, and leaves shortcuts, unless it is nested too
deep. -/
def Harmless (s : Store) (f g : Kind) : Prop :=
  Ends (Operation.unify f g).perform s (fun _ t => { s with mass := t.mass }.Shortened t)
    fun e _ => e = .tooDeep

/-- What is handed in makes no difference to a step that leaves nothing but shortcuts. -/
theorem ends_handIn (hs : s.partition.Sound) {weight : Nat} {p : Store → Pass Unit}
    (h : ∀ s', s'.partition.Sound → s.partition.Grows s'.partition → Unify.Idle (p s') s') :
    Ends (do handIn weight; let s' ← Site.look; p s') s
      (fun _ t => { s with mass := t.mass }.Shortened t) fun e _ => e = .tooDeep := by
  have hgrow := (Theory.Step.handIn (Theory.anything s.subtyping s.lenient) s.partition weight).grows
  refine ends_handIn_iff.2 (Ends.mono (h _ { hs with } hgrow) (fun _ t ht => ?_) fun _ _ he => he)
  have hmass : t.mass = s.mass + weight := congrArg Partition.mass ht.partition
  rwa [hmass]

/-- **Members that agree may be unified again.** -/
theorem harmless_of_agree (hs : s.partition.Sound) (h : s.partition.Agree f g) : s.Harmless f g := by
  cases f <;> cases g <;> try exact h.elim
  case stack.stack v w =>
    exact ends_handIn hs fun s' hs' hg => Unify.idle_unifyStacks hs' (Partition.Settled.mono hg h)
  case effect.effect c p i d q j =>
    exact ends_handIn hs fun s' hs' hg => Unify.Idle.seq
      (Unify.idle_unifyStacks hs' (h.1.mono hg)) fun t ht =>
        Unify.idle_unifyStacks (ht ▸ hs') (ht ▸ h.2.mono hg)

/-! ## Calls that all succeed -/

/-- **A store whose members were unified**: a chain of members that agree connects all members of a
sort, and any two agree unless their class is or becomes recursive. -/
structure Unified (s : Store) : Prop where
  linked : s.partition.LinkedIn s.partition
  paired : ∀ R : Partition, R.Sound → s.partition.Grows R → s.partition.PairedIn R

theorem unified_of_members (h : ∀ i, s.partition.members i = []) : s.Unified where
  linked i _ _ hk := absurd (h i ▸ hk) List.not_mem_nil
  paired _ _ _ i _ _ _ hk := absurd (h i ▸ hk) List.not_mem_nil

theorem unified_empty (st : Option Subtyping) (lenient : Bool) (logging : Logging) :
    (empty st lenient logging).Unified :=
  unified_of_members fun i => by simp [partition, membersOf, kept, empty]

theorem Unified.congr (h : s.Unified) (ht : t.partition = s.partition) : t.Unified where
  linked := ht ▸ h.linked
  paired := ht ▸ h.paired

theorem unified_reset (s : Store) : s.reset.Unified :=
  (unified_empty s.subtyping s.lenient s.logging).congr rfl

/-- A call that succeeds keeps members in pairs. -/
theorem Orderly.pairs_call (hs : s.Orderly) {o : Operation} (ho : o.isCall = true) :
    Ends o.perform s (fun _ t => ∀ R : Partition, R.Sound → t.partition.Grows R →
      s.partition.PairedIn R → t.partition.PairedIn R) fun _ _ => True := by
  refine hs.ends_call (fun L hL t ht hgood hw => ?_) ho
  have hcalm := Unify.keepsCalm hw t.room
  have hcontract := Unify.contract (fun P hP => hw P hP.toShaped hP.toHolds) t.room
  have hpairs : ∀ {A p}, Unify.Calm A p t → Ends p t (fun _ u => ∀ R : Partition, R.Sound →
      u.partition.Grows R → s.partition.PairedIn R → u.partition.PairedIn R) fun _ _ => True :=
    fun h => Ends.mono h (fun _ u hu R hR hg hp => hu.pairs hR hg (ht ▸ hp)) fun _ _ _ => trivial
  refine ⟨fun n k hk => hpairs (hcalm.constrain hgood hk), fun v w hv hw' =>
    hpairs (hcalm.equate hgood ⟨hv, hw'⟩), fun f g hf hg =>
    hpairs (Unify.calm_unifyEffects hcontract.equates hcalm.equate hgood ?_)⟩
  rintro c p i d q j rfl rfl
  exact ⟨⟨hL.consumed hf, hL.consumed hg⟩, hL.produced hf, hL.produced hg⟩

/-- **An operation that succeeds leaves members unified.** -/
theorem Unified.ends_operation (h : s.Unified) (hs : s.Orderly) (o : Operation) :
    Ends o.perform s (fun _ t => t.Unified) fun _ _ => True := by
  have hcall : o.isCall = true → Ends o.perform s (fun _ t => t.Unified) fun _ _ => True := by
    intro ho
    have hreset : o.isReset = false := by cases o <;> first | rfl | cases ho
    refine ((ends_perform hs hreset).and (hs.pairs_call ho)).mono ?_ fun _ _ _ => trivial
    rintro _ t ⟨⟨ht, hstep⟩, hpairs⟩
    exact ⟨hstep.linked _ ht.good.toShaped (.refl _) (h.linked.mono hstep.grows), fun R hR hg =>
      hpairs R hR hg (h.paired R hR (hstep.grows.trans hg))⟩
  cases o with
  | constrain | unifyStacks | unifyEffects => exact hcall rfl
  | solve =>
    exact (ends_solve hs.sound.toShaped).mono (fun _ _ ht => h.congr ht.1) fun _ _ _ => trivial
  | members n =>
    exact (ends_findMembers hs.sound.toShaped n).bind fun _ _ ht => h.congr ht.2.partition
  | sameClass a b =>
    exact (ends_findSame hs.sound.toShaped a b).bind fun _ _ ht => h.congr ht.2.partition
  | text => exact (ends_findText hs.sound.toShaped).bind fun _ _ ht => h.congr ht.2.partition
  | reset => exact unified_reset s

theorem unified_history (st : Option Subtyping) (lenient : Bool) (logging : Logging)
    (os : List Operation) (h : (history (os.map .operate) (empty st lenient logging)).1 = []) :
    (history (os.map .operate) (empty st lenient logging)).2.Unified := by
  refine (history_keeps (I := fun s => s.Orderly ∧ s.Unified) (F := fun _ => False)
    (fun a ha s hs => ?_) ⟨orderly_empty st lenient logging, unified_empty st lenient logging⟩
    (by simp [h])).2
  obtain ⟨o, -, rfl⟩ := List.mem_map.1 ha
  exact ((hs.1.ends_action (.operate o)).and (hs.2.ends_operation hs.1 o)).mono (fun _ _ ht => ht)
    fun _ _ _ => False.elim

/-- Calls that all succeed leave members unified. -/
theorem Unified.performAll (h : s.Unified) (hs : s.Orderly) {cs : List Call}
    (ht : performAll cs s = ([], t)) : t.Unified := by
  induction cs generalizing s with
  | nil => exact (Prod.mk.inj ht).2 ▸ h
  | cons c cs ih =>
    have hcall : Ends c.perform s (fun _ t => t.Orderly ∧ t.Unified) fun _ _ => True := by
      have hall (o : Operation) := ((hs.ends_action (.operate o)).and (h.ends_operation hs o)).mono
        (fun _ _ ht => ht) fun _ _ _ => trivial
      cases c with
      | onStacks v w => exact hall (.unifyStacks v w)
      | onEffects f g => exact hall (.unifyEffects f g)
    rw [Store.performAll] at ht
    split at ht
    · next u hu =>
      obtain ⟨hu', hunified⟩ := hcall.ok hu
      exact ih hunified hu' ht
    · cases (Prod.mk.inj ht).1

/-- **Members stay unified.**  After operations that all succeeded, let `f` and `g` be two effects, or
two stacks, of one class.  Then members that may be unified again, without any change but shortcuts,
connect `f` with `g`; and `f` and `g` may be unified again themselves, unless the class is recursive.  A
member may be unified with itself, if stack variables are at the bottom of its stacks only. -/
theorem members_stay_unified (st : Option Subtyping) (lenient : Bool) (logging : Logging)
    (os : List Operation) (hok : (history (os.map .operate) (empty st lenient logging)).1 = []) :
    let s := (history (os.map .operate) (empty st lenient logging)).2
    ∀ n, ∀ f ∈ s.membersFor n, ∀ g ∈ s.membersFor n, f.Alike g →
      Relation.EqvGen (fun a b => a ∈ s.membersFor n ∧ b ∈ s.membersFor n ∧ s.Harmless a b) f g ∧
        (f ≠ g → ¬ s.Recursive n → s.Harmless f g) ∧
        (f = g → f.bottomed = true → s.Harmless f g) := by
  intro s n f hf g hg halike
  have hs : s.partition.Sound :=
    (orderly_history st lenient logging (os.map .operate)).sound
  have hunified : s.Unified := unified_history st lenient logging os hok
  have hmem : ∀ {k}, k ∈ s.membersFor n ↔ _ := mem_membersFor
  obtain ⟨i, hi, hfi⟩ := hmem.1 hf
  obtain ⟨j, hj, hgi⟩ := hmem.1 hg
  obtain rfl : i = j := Option.some.inj (hi.symm.trans hj)
  refine ⟨?_, fun hne hrec => harmless_of_agree hs ?_, ?_⟩
  · refine Relation.EqvGen.mono ?_ _ _ (hunified.linked i f g hfi hgi halike)
    rintro a b ⟨ha, hb, hab⟩
    exact ⟨hmem.2 ⟨i, hi, ha⟩, hmem.2 ⟨i, hi, hb⟩, harmless_of_agree hs hab⟩
  · refine hunified.paired _ hs (.refl _) i f g (fun h => hrec ?_) hfi hgi hne halike
    exact recursive_of_partition hs.toShaped hi h
  · rintro rfl hbottom
    exact harmless_of_agree hs (Partition.agree_self halike hbottom)

/-- Two effects are made equal to `'a`, which makes `'b` and `'c` equal, a number. -/
theorem members_stay_unified_pair :
    let f : Kind := .effect [.typeVar "'b"] [] false
    let g : Kind := .effect [.typeVar "'c"] [.stackVar "..d"] false
    let os : List Operation := [.constrain "'a" f, .constrain "'b" (.simple "int"), .constrain "'a" g]
    let s := (history (os.map .operate) (empty none false .silent)).2
    s.membersFor "'a" = [f, g] ∧ .simple "int" ∈ s.membersFor "'c" ∧ s.Harmless f g := by
  intro f g os s
  have hs := (orderly_history none false .silent (os.map .operate)).sound.toShaped
  have hrec : ¬ s.Recursive "'a" := not_recursive_of_rank hs (fun n => if n = "'a" then 1 else 0)
    (by decide +kernel)
  have hmem : s.membersFor "'a" = [f, g] := by decide +kernel
  refine ⟨hmem, by decide +kernel, ?_⟩
  exact (members_stay_unified none false .silent os (by decide +kernel) "'a" f (by decide +kernel) g
    (by decide +kernel) trivial).2.1 (by decide) hrec

/-- **Members of a recursive class may clash.**  The third call lets `'a` and `'b` share a class while
its effect is met with the first member of the class of `'a`, and passes over the effect that was made
equal to `'b`: a number of one sort never meets one of the other. -/
theorem members_of_recursive_class_clash :
    let f : Kind := .effect [.simple "int", .typeVar "'b"] [] false
    let g : Kind := .effect [.simple "float", .typeVar "'c"] [] false
    let os : List Operation := [
      .constrain "'b" g,
      .constrain "'a" (.effect [.simple "any", .typeVar "'a"] [] false),
      .constrain "'a" f]
    let (faults, s) := history (os.map .operate) (empty none false .silent)
    faults = [] ∧ f ∈ s.membersFor "'a" ∧ g ∈ s.membersFor "'a" ∧
      Ends (Operation.unify f g).perform s (fun _ _ => False) fun e _ =>
        e = .mismatch ⟨.simple "int", .simple "float", Mismatch.incompatible⟩ := by
  decide +kernel

end Store

end StackEffect
