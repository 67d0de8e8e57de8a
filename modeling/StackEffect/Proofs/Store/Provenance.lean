import StackEffect.Proofs.Unify.Vocabulary
import StackEffect.Proofs.Unify.Watched

/-!
# Proofs/Store/Provenance — where names and members come from

    handedIn as        the kinds that were handed in
    givenNames as      the names that were constrained

Whatever was done to a store, its members are parts of kinds that were handed in, and its names are
names that were given or that occur in such kinds.  So there are only so many of them, and every call
ends by itself: none of its loops is cut short.
-/

namespace StackEffect

namespace Store

/-- The kinds that an operation hands in. -/
def Operation.kinds : Operation → List Kind
  | constrain _ k => [k]
  | unifyStacks v w => [.stack v, .stack w]
  | unifyEffects f g => [f, g]
  | _ => []

/-- The names that an operation constrains. -/
def Operation.names : Operation → List String
  | constrain name _ => [name]
  | _ => []

def Action.kinds : Action → List Kind
  | operate o => o.kinds
  | configure .. => []

def Action.names : Action → List String
  | operate o => o.names
  | configure .. => []

/-- All kinds that are handed in. -/
def handedIn (as : List Action) : List Kind := as.flatMap Action.kinds

/-- All names that are constrained. -/
def givenNames (as : List Action) : List String := as.flatMap Action.names

/-- **The vocabulary of actions**: the parts of what they hand in, the names they constrain, and the
names that occur in what they hand in. -/
def vocabulary (as : List Action) : Vocabulary where
  name n := n ∈ givenNames as ∨ ∃ h ∈ handedIn as, n ∈ h.freeVars
  kind k := ∃ h ∈ handedIn as, k ∈ h.parts
  closed :=
    { slot := fun ⟨h, hh, hk⟩ => ⟨h, hh, (Kind.closed_parts h).slot hk⟩
      rest := fun ⟨h, hh, hk⟩ => ⟨h, hh, (Kind.closed_parts h).rest hk⟩
      consumed := fun ⟨h, hh, hk⟩ => ⟨h, hh, (Kind.closed_parts h).consumed hk⟩
      produced := fun ⟨h, hh, hk⟩ => ⟨h, hh, (Kind.closed_parts h).produced hk⟩ }
  var := by
    rintro k n ⟨h, hh, hk⟩ hn
    have hvars := (Kind.closed_vars (· ∈ h.vars)).of_mem_parts (fun _ hv => hv) k hk
    have hn' : n ∈ k.vars.map Var.name := by
      cases k <;> simp_all [Kind.varName?, Kind.vars]
    obtain ⟨v, hv, rfl⟩ := List.mem_map.1 hn'
    exact .inr ⟨h, hh, by simpa [Kind.freeVars] using ⟨v, hvars v hv, rfl⟩⟩

variable {V : Vocabulary} {s : Store}

theorem covers_empty (V : Vocabulary) (st : Option Subtyping) (lenient : Bool) (logging : Logging) :
    V.Covers (empty st lenient logging) :=
  ⟨fun n hn => by simp [empty] at hn, fun i k hk => by simp [empty] at hk⟩

theorem covers_reset (V : Vocabulary) (s : Store) : V.Covers s.reset :=
  (covers_empty V s.subtyping s.lenient s.logging).congr rfl

/-- **An operation keeps to a vocabulary** that has what it hands in. -/
theorem ends_operation (hs : s.partition.Shaped) (h : V.Covers s) (o : Operation)
    (hk : ∀ k ∈ o.kinds, V.kind k) (hn : ∀ n ∈ o.names, V.name n) :
    Ends o.perform s (fun _ t => V.Covers t) fun _ t => V.Covers t := by
  have hin : ∀ {weight : Nat} {p : Nat → Nat → Pass Unit}, (∀ width room, V.Keeps (p width room)) →
      Ends (do handIn weight; let s ← Site.look; p s.mass s.room) s (fun _ t => V.Covers t)
        fun _ t => V.Covers t :=
    fun hp => ends_handIn_iff.2 (hp _ _ _ ⟨h.names, h.members⟩)
  cases o with
  | constrain n k =>
    exact hin fun width room => (V.kept width room).constrain n k (hn n List.mem_cons_self)
      (hk k List.mem_cons_self)
  | unifyStacks v w =>
    exact hin fun width room => (V.kept width room).equate v w (hk _ List.mem_cons_self)
      (hk _ (List.mem_cons_of_mem _ List.mem_cons_self))
  | unifyEffects f g =>
    exact hin fun width room => (V.kept width room).effects f g (hk _ List.mem_cons_self)
      (hk _ (List.mem_cons_of_mem _ List.mem_cons_self))
  | solve => exact (ends_solve hs).mono (fun _ _ ht => h.congr ht.1) fun _ _ ht => h.congr ht.1
  | members n => exact (ends_findMembers hs n).bind fun _ _ ht => h.congr ht.2.partition
  | sameClass a b => exact (ends_findSame hs a b).bind fun _ _ ht => h.congr ht.2.partition
  | text => exact (ends_findText hs).bind fun _ _ ht => h.congr ht.2.partition
  | reset => exact covers_reset V s

theorem ends_action (hs : s.Orderly) (h : V.Covers s) (a : Action) (hk : ∀ k ∈ a.kinds, V.kind k)
    (hn : ∀ n ∈ a.names, V.name n) :
    Ends a.perform s (fun _ t => V.Covers t) fun _ t => V.Covers t := by
  cases a with
  | configure => exact ⟨h.names, h.members⟩
  | operate o => exact ends_operation hs.sound.toShaped h o hk hn

/-- **A history keeps to its vocabulary.** -/
theorem covers_history (st : Option Subtyping) (lenient : Bool) (logging : Logging)
    (as : List Action) : (vocabulary as).Covers (history as (empty st lenient logging)).2 := by
  refine (history_keeps (I := fun s => s.Orderly ∧ (vocabulary as).Covers s) (F := fun _ => True)
    (fun a ha s hs => ?_) ⟨orderly_empty st lenient logging, covers_empty _ st lenient logging⟩
    fun _ _ => trivial).2
  have hkinds : ∀ k ∈ a.kinds, (vocabulary as).kind k := fun k hk =>
    ⟨k, List.mem_flatMap.2 ⟨a, ha, hk⟩, k.self_mem_parts⟩
  have hnames : ∀ n ∈ a.names, (vocabulary as).name n := fun n hn =>
    .inl (List.mem_flatMap.2 ⟨a, ha, hn⟩)
  exact ((hs.1.ends_action a).and (ends_action hs.1 hs.2 a hkinds hnames)).mono (fun _ _ ht => ht)
    fun _ _ ht _ => ht

/-- **Calls end by themselves and invent nothing.**  After any history, whatever failed in it, it does
not matter what is done about a loop of the next operation that has used up its turns; every member of
every class is a part of a kind that was handed in; and every registered name was constrained, or
occurs in such a kind. -/
theorem calls_end_and_invent_nothing (st : Option Subtyping) (lenient : Bool) (logging : Logging)
    (as : List Action) :
    let s := (history as (empty st lenient logging)).2
    (∀ (late : Pass Unit) (o : Operation), o.performOr late s = o.perform s) ∧
      (∀ i, ∀ k ∈ s.members.getD i #[], ∃ h ∈ handedIn as, k ∈ h.parts) ∧
      ∀ n ∈ s.names, n ∈ givenNames as ∨ ∃ h ∈ handedIn as, n ∈ h.freeVars := by
  intro s
  have hs : s.Orderly := orderly_history st lenient logging as
  have hcovers : (vocabulary as).Covers s := covers_history st lenient logging as
  exact ⟨hs.performOr_eq, hcovers.members, hcovers.names⟩

end Store

end StackEffect
