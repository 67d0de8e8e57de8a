import StackEffect.Proofs.Store.History
import StackEffect.Proofs.Unify.Alongside

/-!
# Proofs/Store/Nesting — the level of nesting is balanced

    level                     d ⟶ d + 1 ⟶ … ⟶ d + 1 ⟶ d
    level, if refused         d ⟶ d + 1 ⟶ … ⟶ 1000 ⟶ 1001 ⟶ 1000 ⟶ … ⟶ d + 1

A call goes down one level, and comes up again whether it fails or not.  A call that is refused goes
down as well, but does not come up; the calls around it do, and so one level is left over, however
deep it was.  The calls that are made at level `d` have as many levels left as lead to the limit, so
that none goes down further than to the one that is refused.

What a call leaves behind does not tell what it went through.  So calls are made on a store with its
past, which keeps what the store was whenever it changes (`Chronicle`).
-/

namespace StackEffect

/-! ## Stores with their past -/

/-- **A store with its past**, the last store first. -/
structure Chronicle where
  now : Store
  past : List Store

namespace Chronicle

/-- All stores that there were. -/
def stores (c : Chronicle) : List Store := c.now :: c.past

/-- The store changes. -/
def change (f : Store → Store) (c : Chronicle) : Chronicle := ⟨f c.now, c.stores⟩

instance : Site Chronicle where
  store := now
  change := change
  late := pure ()

/-- The stores of a course, when it has ended, the last one first. -/
def storesOf {α : Type} : EStateM.Result Fault Chronicle α → List Store
  | .ok _ c | .error _ c => c.stores

end Chronicle

namespace Store

/-- Performs an operation, and records the stores it passes through. -/
def Operation.recorded (o : Operation) : EStateM Fault Chronicle Unit := o.perform

/-- **The course of an operation**: the stores it passes through, the last one first. -/
def Operation.course (o : Operation) (s : Store) : List Store :=
  Chronicle.storesOf (o.recorded ⟨s, []⟩)

end Store

/-! ## Levels along a course -/

namespace Chronicle

variable {low high top d : Nat} {c : Chronicle} {f : Store → Store}

/-- All levels are from `low` to `high`. -/
def Within (low high : Nat) (c : Chronicle) : Prop :=
  ∀ s ∈ c.stores, low ≤ s.nesting ∧ s.nesting ≤ high

theorem Within.change (h : c.Within low high) (hlow : low ≤ (f c.now).nesting)
    (hhigh : (f c.now).nesting ≤ high) : (c.change f).Within low high :=
  List.forall_mem_cons.2 ⟨⟨hlow, hhigh⟩, h⟩

theorem Within.mono (h : c.Within low high) (hle : high ≤ top) : c.Within low top :=
  fun s hs => ⟨(h s hs).1, Nat.le_trans (h s hs).2 hle⟩

/-- **A course that is at level `d`**, and was never deeper than `top`. -/
structure AtLevel (low top d : Nat) (c : Chronicle) : Prop where
  nesting : c.now.nesting = d
  within : c.Within low top

/-- **A course on which a call was refused**: it went down one level further than `top`, and is left
one level deeper than `d`. -/
structure Refused (low top d : Nat) (c : Chronicle) : Prop where
  nesting : c.now.nesting = d + 1
  within : c.Within low (top + 1)
  reached : ∃ s ∈ c.stores, s.nesting = top + 1

/-- **How a call that was made at level `d` fails.** -/
def FailsAt (low top d : Nat) (e : Fault) (c : Chronicle) : Prop :=
  (∃ m, e = .mismatch m) ∧ c.AtLevel low top d ∨ e = .tooDeep ∧ c.Refused low top d

theorem AtLevel.bounds (h : c.AtLevel low top d) : low ≤ d ∧ d ≤ top :=
  h.nesting ▸ h.within c.now List.mem_cons_self

theorem AtLevel.not_reached (h : c.AtLevel low top d) : ¬ ∃ s ∈ c.stores, s.nesting = top + 1 := by
  rintro ⟨s, hs, hreached⟩
  have hle := (h.within s hs).2
  omega

theorem Refused.bounds (h : c.Refused low top d) : low ≤ d + 1 ∧ d + 1 ≤ top + 1 :=
  h.nesting ▸ h.within c.now List.mem_cons_self

/-- One level down. -/
theorem AtLevel.deeper (h : c.AtLevel low top d) (hd : d < top) :
    (c.change Store.deeper).AtLevel low top (d + 1) := by
  have hnow : c.now.deeper.nesting = d + 1 := congrArg (· + 1) h.nesting
  have hlow := h.bounds.1
  exact ⟨hnow, h.within.change (by omega) (by omega)⟩

/-- One level up again. -/
theorem AtLevel.shallower (h : c.AtLevel low top (d + 1)) (hlow : low ≤ d) :
    (c.change Store.shallower).AtLevel low top d := by
  have hnow : c.now.shallower.nesting = d := congrArg (· - 1) h.nesting
  have htop := h.bounds.2
  exact ⟨hnow, h.within.change (by omega) (by omega)⟩

/-- Where no level is left, going down is one level too far. -/
theorem AtLevel.refused (h : c.AtLevel low top top) :
    (c.change Store.deeper).Refused low top top := by
  have hnow : c.now.deeper.nesting = top + 1 := congrArg (· + 1) h.nesting
  have hlow := h.bounds.1
  exact ⟨hnow, (h.within.mono (Nat.le_succ _)).change (by omega) (by omega),
    _, List.mem_cons_self, hnow⟩

/-- **The level that is left over stays**, as the calls around come up. -/
theorem Refused.shallower (h : c.Refused low top (d + 1)) (hlow : low ≤ d) :
    (c.change Store.shallower).Refused low top d := by
  have hnow : c.now.shallower.nesting = d + 1 := congrArg (· - 1) h.nesting
  have htop := h.bounds.2
  obtain ⟨s, hs, hreached⟩ := h.reached
  exact ⟨hnow, h.within.change (by omega) (by omega), s, List.mem_cons_of_mem _ hs, hreached⟩

theorem FailsAt.shallower {e : Fault} (h : FailsAt low top (d + 1) e c) (hlow : low ≤ d) :
    FailsAt low top d e (c.change Store.shallower) :=
  h.imp (And.imp_right fun hlevel => hlevel.shallower hlow)
    (And.imp_right fun hrefused => hrefused.shallower hlow)

/-- What does not change the level leaves a course at its level. -/
theorem AtLevel.change (h : c.AtLevel low top d) (hf : (f c.now).nesting = c.now.nesting) :
    (c.change f).AtLevel low top d := by
  have hnow : (f c.now).nesting = d := hf.trans h.nesting
  exact ⟨hnow, h.within.change (hnow ▸ h.bounds.1) (hnow ▸ h.bounds.2)⟩

/-- A course beside its store, with `n` levels left. -/
structure Beside (low top n : Nat) (c : Chronicle) (s : Store) : Prop where
  now : s = c.now
  le : low + n ≤ top
  level : c.AtLevel low top (top - n)

/-- A course beside its store, on which a call with `n` levels left has failed. -/
structure FailsBeside (low top n : Nat) (e : Fault) (c : Chronicle) (e' : Fault) (s : Store) :
    Prop where
  fault : e' = e
  now : s = c.now
  level : FailsAt low top (top - n) e c

/-- **Calls come up again to the level at which they were made.**  They do to a store with its past
what they do to a store. -/
theorem pairing_beside (low top : Nat) :
    Pairing (.refl String) .everything (Beside low top) (FailsBeside low top) where
  relabeled h := .of_eq (h.now ▸ rfl)
  covers {_ c _} _ := Vocabulary.everything_covers c.now
  change {_ c d f g} hfg h :=
    ⟨by rw [hfg.eq, h.now]; rfl, h.le, h.level.change (hfg.nesting c.now).1⟩
  late _ := .pure
  clash h m := by
    rw [Mismatch.relabel, Kind.relabel_refl, Kind.relabel_refl]
    exact ⟨rfl, h.now, .inl ⟨⟨m, rfl⟩, h.level⟩⟩
  refuse h := ⟨rfl, h.now ▸ rfl, .inr ⟨rfl, h.level.refused⟩⟩
  nested {n p q} hpq := by
    -- where the levels that are left lead beyond `low` no call is made
    by_cases hle : low + (n + 1) ≤ top
    · have hlevel : top - n = top - (n + 1) + 1 := by omega
      have hlow : low ≤ top - (n + 1) := by omega
      refine hpq.nested (fun c s h => ⟨h.now ▸ rfl, by omega, ?_⟩)
        (fun c s h => ⟨h.now ▸ rfl, hle, ?_⟩) fun e c f s h => ⟨h.fault, h.now ▸ rfl, ?_⟩
      · rw [hlevel]
        exact h.level.deeper (by omega)
      · exact (hlevel ▸ h.level).shallower hlow
      · exact (hlevel ▸ h.level).shallower hlow
    · exact fun c s h => absurd h.le hle

end Chronicle

namespace Store

open Chronicle

/-- **A call leaves the level at which it was made**, and goes down to the limit at most. -/
theorem Operation.abreast_recorded {o : Operation} (ho : o.isCall = true) (low : Nat) :
    Abreast (Beside low (max low nestingLimit) (nestingLimit - low))
      (FailsBeside low (max low nestingLimit) (nestingLimit - low)) o.recorded o.perform := by
  have hpair := pairing_beside low (max low nestingLimit)
  have hmass : ∀ weight, Abreast (Beside low (max low nestingLimit) (nestingLimit - low))
      (FailsBeside low (max low nestingLimit) (nestingLimit - low)) (handIn weight) (handIn weight) :=
    fun weight => .alter fun c s h => ⟨h.now ▸ rfl, h.le, h.level.change rfl⟩
  have hroom : ∀ {c s}, Beside low (max low nestingLimit) (nestingLimit - low) c s →
      (Site.store c).room = nestingLimit - low ∧ s = Site.store c := by
    intro c s h
    have hnow : (Site.store c).nesting = _ := h.level.nesting
    refine ⟨?_, h.now⟩
    rw [room, hnow]
    omega
  cases o with
  | constrain n k =>
    refine (hmass _).seq (.of_look fun c s h => ?_)
    obtain ⟨hc, rfl⟩ := hroom h
    have hcall := (hpair.calls (Site.store c).mass (nestingLimit - low)).constrain n k trivial trivial
    rw [Kind.relabel_refl] at hcall
    rwa [Site.store_eq, hc]
  | unifyStacks v w =>
    refine (hmass _).seq (.of_look fun c s h => ?_)
    obtain ⟨hc, rfl⟩ := hroom h
    have hcall := (hpair.calls (Site.store c).mass (nestingLimit - low)).equate v w trivial trivial
    rw [Kind.map_relabel_refl, Kind.map_relabel_refl] at hcall
    rwa [Site.store_eq, hc]
  | unifyEffects f g =>
    refine (hmass _).seq (.of_look fun c s h => ?_)
    obtain ⟨hc, rfl⟩ := hroom h
    have hcall := Unify.abreast_unifyEffects (k := f) (l := g)
      (hpair.calls (Site.store c).mass (nestingLimit - low)).equate trivial trivial
    rw [Kind.relabel_refl, Kind.relabel_refl] at hcall
    rwa [Site.store_eq, hc]
  | solve | members | sameClass | text | reset => cases ho

/-- **How a call is recorded**: as a call, and with levels that are balanced. -/
theorem Operation.ends_recorded (o : Operation) (ho : o.isCall = true) (s : Store) :
    forget (o.recorded ⟨s, []⟩) = o.perform s ∧
      Ends o.recorded ⟨s, []⟩
        (fun _ => AtLevel s.nesting (max s.nesting nestingLimit) s.nesting)
        (FailsAt s.nesting (max s.nesting nestingLimit) s.nesting) := by
  have hlevel : max s.nesting nestingLimit - (nestingLimit - s.nesting) = s.nesting := by omega
  have hstart : Beside s.nesting (max s.nesting nestingLimit) (nestingLimit - s.nesting) ⟨s, []⟩ s :=
    ⟨rfl, by omega, hlevel.symm, List.forall_mem_singleton.2 ⟨Nat.le_refl _, Nat.le_max_left _ _⟩⟩
  have hends := (abreast_recorded ho s.nesting).ends hstart
  have hlevels := hends.mono (fun _ _ ⟨_, _, h⟩ => h.level) fun _ _ ⟨_, _, _, h⟩ => h.level
  rw [hlevel] at hlevels
  refine ⟨?_, hlevels⟩
  cases hr : o.recorded ⟨s, []⟩ with
  | ok a c =>
    obtain ⟨t, ht, h⟩ := hends.ok hr
    rw [ht, h.now]
    rfl
  | error e c =>
    obtain ⟨f, t, ht, h⟩ := hends.error hr
    rw [ht, h.fault, h.now]
    rfl

/-- **The level of nesting is balanced**, whatever a call is made with and in whatever store.  It is
as before when a call succeeds or kinds clash, and one more when a call was refused, however deep
that was.  On its way a call that is made within the limit comes to one more than the limit at most,
and it does so if and only if it is refused. -/
theorem nesting_balanced (o : Operation) (ho : o.isCall = true) (s : Store) :
    Ends o.perform s (fun _ t => t.nesting = s.nesting)
        (fun e t => (∃ m, e = .mismatch m) ∧ t.nesting = s.nesting ∨
          e = .tooDeep ∧ t.nesting = s.nesting + 1) ∧
      forget (o.recorded ⟨s, []⟩) = o.perform s ∧
      (s.nesting ≤ nestingLimit →
        (∀ t ∈ o.course s, s.nesting ≤ t.nesting ∧ t.nesting ≤ nestingLimit + 1) ∧
          ((∃ t ∈ o.course s, t.nesting = nestingLimit + 1) ↔
            ∃ t, o.perform s = .error .tooDeep t)) := by
  obtain ⟨heq, hends⟩ := o.ends_recorded ho s
  refine ⟨?_, heq, fun hlimit => ?_⟩
  · unfold Ends
    rw [← heq]
    cases hr : o.recorded ⟨s, []⟩ with
    | ok a c => exact (hends.ok hr).nesting
    | error e c =>
      exact (hends.error hr).imp (And.imp_right (·.nesting)) (And.imp_right (·.nesting))
  · rw [Nat.max_eq_right hlimit] at hends
    rw [Operation.course, ← heq]
    cases hr : o.recorded ⟨s, []⟩ with
    | ok a c =>
      have hlevel := hends.ok hr
      exact ⟨hlevel.within.mono (Nat.le_succ _),
        iff_of_false hlevel.not_reached (by rintro ⟨t, ⟨⟩⟩)⟩
    | error e c =>
      rcases hends.error hr with ⟨⟨m, rfl⟩, hlevel⟩ | ⟨rfl, hrefused⟩
      · exact ⟨hlevel.within.mono (Nat.le_succ _),
          iff_of_false hlevel.not_reached (by rintro ⟨t, ⟨⟩⟩)⟩
      · exact ⟨hrefused.within, iff_of_true hrefused.reached ⟨_, rfl⟩⟩

/-- One level before the limit, the call within a call is refused. -/
theorem nesting_balanced_refused :
    let s : Store := { Store.empty none false .silent with nesting := 999 }
    let o : Operation := .constrain "'a" (.stack [.simple "int"])
    (∃ t, o.perform s = .error .tooDeep t ∧ t.nesting = 1000) ∧
      ∃ t ∈ o.course s, t.nesting = nestingLimit + 1 := by
  intro s o
  obtain ⟨hends, -, hcourse⟩ := nesting_balanced o rfl s
  obtain ⟨t, ht⟩ : ∃ t, o.perform s = .error .tooDeep t := ⟨_, rfl⟩
  refine ⟨⟨t, ht, ?_⟩, (hcourse (by decide)).2.2 ⟨t, ht⟩⟩
  rcases hends.error ht with ⟨⟨m, ⟨⟩⟩, -⟩ | ⟨-, hnesting⟩
  exact hnesting

end Store

end StackEffect
