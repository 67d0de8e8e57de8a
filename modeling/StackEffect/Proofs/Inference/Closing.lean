import StackEffect.Proofs.Inference.Row

/-!
# Proofs/Inference/Closing — closing an effect, and composing it then

    ('R 'a -> 'R 'a 'a)   ──close──▸   ('a -> 'a 'a)   ──ready──▸   ('R₁ 'a₁ -> 'R₁ 'a₁ 'a₁)

Where closing takes a stack variable away from an effect, making the effect ready puts one back, and
nothing has changed (`closing_keeps_results`).  But only the effect itself is made ready, and not the
effects inside it, while closing closes these as well (`closing_inside_changes_results`).
-/

namespace StackEffect

namespace Kind

variable {sort : String → VarSort} {s : Stack} {k : Kind} {a : String}

theorem slotVars_concat (s : Stack) (k : Kind) : slotVars (s ++ [k]) = k.vars ++ slotVars s := by
  induction s with
  | nil => simp [slotVars]
  | cons l s ih => rw [List.cons_append, slotVars, ih, slotVars, List.append_assoc]

/-- Above the bottom of a tidy stack there is no stack variable. -/
theorem Tidy.isOpen_eq_false (h : (stack (s ++ [k])).Tidy sort) : Stack.isOpen s = false := by
  rw [← Bool.not_eq_true, Stack.isOpen_iff]
  rintro ⟨above, b, rfl⟩
  induction above with
  | nil => simpa [fitsOn] using (tidy_cons_iff.1 h).1
  | cons l above ih => exact ih (tidy_cons_iff.1 h).2.2

theorem exists_of_sharedBottom? {c p : Stack} (h : Stack.sharedBottom? c p = some a) :
    ∃ c' p', c = c' ++ [stackVar a] ∧ p = p' ++ [stackVar a] := by
  unfold Stack.sharedBottom? Stack.bottom? at h
  split at h
  · next x y hx hy =>
    split at h
    · next hxy =>
      subst hxy
      obtain rfl := Option.some.inj h
      obtain ⟨c', rfl⟩ := List.getLast?_eq_some_iff.1 hx
      obtain ⟨p', rfl⟩ := List.getLast?_eq_some_iff.1 hy
      exact ⟨c', p', rfl, rfl⟩
    · simp at h
  · simp at h

end Kind

namespace Effect

variable {sort : String → VarSort} {f g : Effect} {a : String}

/-- **Closing the effect closes no effect inside it.** -/
def ClosesOutside (f : Effect) : Prop :=
  ∀ s ∈ [f.consumed, f.produced], Kind.closeSlots (fun n => f.kind.occurrences n == 2) s = s

instance (f : Effect) : Decidable f.ClosesOutside := List.decidableBAll ..

theorem occurrences_atop {n : String} :
    (g.atop a).kind.occurrences n = g.kind.occurrences n + if a = n then 2 else 0 := by
  have hself : (Kind.stackVar a).vars.countP (fun v => v.name == n) = if a = n then 1 else 0 := by
    simp [Kind.vars, List.countP_cons]
  change (Kind.slotVars (_ ++ _) ++ Kind.slotVars (_ ++ _)).countP _ =
    (Kind.slotVars _ ++ Kind.slotVars _).countP _ + _
  simp only [Kind.slotVars_concat, List.countP_append, hself]
  split <;> omega

theorem notMem_bases_of_occurrences (h : g.kind.occurrences a = 0) : a ∉ g.bases := by
  rw [mem_bases, Kind.mem_freeVars]
  rintro ⟨v, hv, rfl⟩
  exact List.countP_eq_zero.1 h v hv (beq_self_eq_true _)

/-- **Closing an effect alone** changes nothing, or takes away the stack that the effect is above. -/
theorem ClosesOutside.cases (h : f.ClosesOutside) (hf : f.kind.Tidy sort) :
    f.close = f ∨ f.close.isOpen = false ∧ ∃ a ∉ f.close.bases, f = f.close.atop a := by
  have hkind : f.close.kind = if (Stack.sharedBottom? f.consumed f.produced).any
      fun n => f.kind.occurrences n == 2 then .effect f.consumed.dropLast f.produced.dropLast f.impure
      else f.kind := by
    change f.close.kind = if _ then _ else Kind.effect f.consumed f.produced f.impure
    rw [kind_close, Kind.close]
    change (Kind.effect f.consumed f.produced f.impure).closeWith _ = _
    rw [Kind.closeWith, h f.consumed (by simp), h f.produced (by simp)]
  split at hkind
  · next hany =>
    obtain ⟨a, ha, htwice⟩ : ∃ a, Stack.sharedBottom? f.consumed f.produced = some a ∧
        f.kind.occurrences a = 2 := by
      cases hs : Stack.sharedBottom? f.consumed f.produced with
      | none => simp [hs] at hany
      | some a => exact ⟨a, rfl, by simpa [hs] using hany⟩
    obtain ⟨c, p, hc, hp⟩ := Kind.exists_of_sharedBottom? ha
    rw [hc, hp, List.dropLast_concat, List.dropLast_concat] at hkind
    obtain hclose : f.close = ⟨c, p, f.impure⟩ := kind_injective hkind
    have hatop : f = (⟨c, p, f.impure⟩ : Effect).atop a := by rw [atop, ← hc, ← hp]
    obtain ⟨htc, htp⟩ := Kind.tidy_effect_iff.1 hf
    rw [hc] at htc
    rw [hp] at htp
    rw [hclose]
    refine .inr ⟨?_, a, notMem_bases_of_occurrences ?_, hatop⟩
    · rw [isOpen, htc.isOpen_eq_false, htp.isOpen_eq_false, Bool.or_self]
    · rw [hatop, occurrences_atop, if_pos rfl] at htwice
      exact Nat.succ.inj (Nat.succ.inj htwice)
  · exact .inl (kind_injective hkind)

theorem isOpen_atop : (g.atop a).isOpen = true :=
  Bool.or_eq_true_iff.2 (.inl ((Stack.isOpen_iff _).2 ⟨g.consumed, a, rfl⟩))

/-- **Closing takes away again what makes an effect ready.** -/
theorem close_atop (hopen : f.isOpen = false) (ha : a ∉ f.bases) : (f.atop a).close = f.close := by
  have hcount : ∀ n ∈ f.bases, (f.atop a).kind.occurrences n = f.kind.occurrences n := fun n hn => by
    rw [occurrences_atop, if_neg (ne_of_mem_of_not_mem hn ha).symm]
    rfl
  have htwice : (f.atop a).kind.occurrences a = 2 := by
    rw [occurrences_atop, if_pos rfl, Nat.add_eq_right]
    refine List.countP_eq_zero.2 fun v hv hname => ha ?_
    rw [← beq_iff_eq.1 hname]
    exact mem_bases.2 (Kind.mem_freeVars.2 ⟨v, hv, rfl⟩)
  have hslots : ∀ s : Stack, Kind.slotVars s ⊆ f.kind.vars →
      Kind.closeSlots (fun n => (f.atop a).kind.occurrences n == 2) s =
        Kind.closeSlots (fun n => f.kind.occurrences n == 2) s := by
    intro s hs
    rw [Kind.closeSlots_eq_map, Kind.closeSlots_eq_map]
    refine List.map_congr_left fun k hk => Kind.closeWith_congr fun v hv => ?_
    rw [hcount v.name (mem_bases.2 (Kind.mem_freeVars.2 ⟨v, hs (Kind.mem_slotVars.2 ⟨k, hk, hv⟩), rfl⟩))]
  have hbottom : Stack.sharedBottom? f.consumed f.produced = none := by
    refine Option.eq_none_iff_forall_ne_some.2 fun b hb => ?_
    obtain ⟨c, -, hc, -⟩ := Kind.exists_of_sharedBottom? hb
    rw [isOpen, (Stack.isOpen_iff _).2 ⟨c, b, hc⟩, Bool.true_or] at hopen
    cases hopen
  have hshared : Stack.sharedBottom? (f.consumed ++ [.stackVar a]) (f.produced ++ [.stackVar a]) =
      some a := by simp [Stack.sharedBottom?, Stack.bottom?]
  have hconcat : ∀ (drop : String → Bool) (s : Stack), Kind.closeSlots drop (s ++ [.stackVar a]) =
      Kind.closeSlots drop s ++ [.stackVar a] := fun drop s => by
    rw [Kind.closeSlots_eq_map, List.map_append, ← Kind.closeSlots_eq_map]
    rfl
  apply kind_injective
  rw [kind_close, kind_close, Kind.close, Kind.close]
  change (Kind.effect (f.consumed ++ [.stackVar a]) (f.produced ++ [.stackVar a]) f.impure).closeWith _ =
    (Kind.effect f.consumed f.produced f.impure).closeWith _
  rw [Kind.closeWith, Kind.closeWith, hbottom, hshared, Option.any_some, htwice,
    if_pos (beq_self_eq_true 2), Option.any_none, if_neg Bool.false_ne_true, hconcat, hconcat,
    List.dropLast_concat, List.dropLast_concat, hslots _ (List.subset_append_left _ _),
    hslots _ (List.subset_append_right _ _)]

theorem OneSorted.close (hf : f.OneSorted) : f.close.OneSorted := by
  obtain ⟨sort, hsort⟩ := hf
  refine ⟨sort, fun v hv => hsort v ?_⟩
  rw [kind_close] at hv
  exact Kind.mem_vars_of_closeWith hv

theorem tidy_atop (hf : f.kind.Tidy sort) (hopen : f.isOpen = false) (ha : a ∉ f.bases) :
    (f.atop a).kind.Tidy (Function.update sort a .stack) := by
  have hsort : ∀ v ∈ f.kind.vars, Function.update sort a .stack v.name = v.sort := by
    intro v hv
    have hne : v.name ≠ a := by
      rintro rfl
      exact ha (mem_bases.2 (Kind.mem_freeVars.2 ⟨v, hv, rfl⟩))
    rw [Function.update_of_ne hne, hf.2 v hv]
  obtain ⟨hc, hp⟩ := Kind.tidy_effect_iff.1 (show f.kind.Tidy _ from ⟨hf.1, hsort⟩)
  obtain ⟨hoc, hop⟩ := Bool.or_eq_false_iff.1 hopen
  have ha := Kind.tidy_stackVar_iff.2 (Function.update_self a VarSort.stack sort)
  exact Kind.tidy_effect_iff.2 ⟨Kind.concat_of Kind.tidy_nil Kind.tidy_cons_iff hc hoc ha rfl,
    Kind.concat_of Kind.tidy_nil Kind.tidy_cons_iff hp hop ha rfl⟩

/-- **What an effect is when it is ready is tidy** if the effect is. -/
theorem exists_tidy_readyAs (hf : f.kind.Tidy sort) :
    ∃ e, f.ReadyAs e ∧ ∃ sort, e.kind.Tidy sort := by
  have hsorted : f.OneSorted := ⟨sort, hf.2⟩
  cases hopen : f.isOpen with
  | true => exact ⟨f, readyAs_self hsorted hopen, sort, hf⟩
  | false =>
    obtain ⟨a, ha⟩ := (List.finite_toSet f.bases).exists_notMem
    exact ⟨f.atop a, readyAs_atop hsorted hopen ha, _, tidy_atop hf hopen ha⟩

/-- **An effect and the closed effect are ready as one and the same effect.** -/
theorem ClosesOutside.exists_readyAs (h : f.ClosesOutside) (hf : f.kind.Tidy sort) :
    ∃ e, f.ReadyAs e ∧ f.close.ReadyAs e := by
  have hsorted : f.OneSorted := ⟨sort, hf.2⟩
  rcases h.cases hf with hclose | ⟨hopen, a, ha, hatop⟩
  · obtain ⟨e, he⟩ := Effect.exists_readyAs f
    rw [hclose]
    exact ⟨e, he f (.refl hsorted), he f (.refl hsorted)⟩
  · have hready := readyAs_atop hsorted.close hopen ha
    rw [← hatop] at hready
    exact ⟨f, readyAs_self hsorted (hatop ▸ isOpen_atop), hready⟩

end Effect

/-- **Closing inside an effect changes what the effect composes with.**  What `( -> ('R int -> 'R int))`
produces may be used on stacks of any size, and what is left of it when it is closed may not. -/
theorem closing_inside_changes_results :
    ∃ f g : Effect, Effect.parse "( -> ('R int -> 'R int))" = .ok f ∧
      Effect.parse "((string int -> string int) -> )" = .ok g ∧ f.close.text = "( -> (int -> int))" ∧
      (∃ r t, (Request.compose f g).run (Session.start none false .silent) = .ok r t ∧
        r.text = "( -> )") ∧
      ∃ e t, (Request.compose f.close g).run (Session.start none false .silent) = .error e t ∧
        e.message = "Failed to unify [int] with [string int]: stacks differ in size" :=
  ⟨⟨[], [.effect [.simple "int", .stackVar "'R"] [.simple "int", .stackVar "'R"] false], false⟩,
    ⟨[.effect [.simple "int", .simple "string"] [.simple "int", .simple "string"] false], [], false⟩,
    by decide +kernel, by decide +kernel, by decide +kernel, Ends.exists_ok (by decide +kernel),
    Ends.exists_error (by decide +kernel)⟩

/-- **Closing an effect does not change what it composes with**, if it closes no effect inside it.
Before or behind another effect, in sessions of one lattice and one mode, the effect and the closed
effect both fail or both have the same result; provided that counting the fresh names does not begin
again in the middle. -/
theorem closing_keeps_results {f g : Effect} (hf : f.Read) (hg : g.Read) (hclose : f.ClosesOutside)
    {s t : Session} (hs : s.Idle) (ht : t.Idle) (hst : t.store.subtyping = s.store.subtyping)
    (hl : t.store.lenient = s.store.lenient)
    (hcount : ([.nop, f, g].flatMap Effect.drawn).length ≤ 2 ^ 64) :
    Together (Request.compose f g).run s (Request.compose f.close g).run t (fun r _ r' _ => r' = r) ∧
      Together (Request.compose g f).run s (Request.compose g f.close).run t
        fun r _ r' _ => r' = r := by
  have htidy : ∀ {f : Effect}, f.Read → f.kind.Tidy Signature.sortOf := fun ⟨_, hf⟩ =>
    (Effect.written_of_parse hf).tidy
  obtain ⟨e, hfe, hce⟩ := hclose.exists_readyAs (htidy hf)
  obtain ⟨e', he'⟩ := Effect.exists_readyAs g
  have hge := he' g (.refl ⟨_, (htidy hg).2⟩)
  refine ⟨?_, ?_⟩
  · exact Request.together_rows (.cons hfe (.cons hge .nil)) (.cons hce (.cons hge .nil)) hs ht hst hl
      hcount
  · refine Request.together_rows (.cons hge (.cons hfe .nil)) (.cons hge (.cons hce .nil)) hs ht hst hl
      (Nat.le_trans (Nat.le_of_eq ?_) hcount)
    simp [Nat.add_comm]

/-- The closed form of `('R 'a ('b -> 'c) -> 'R ('b -> 'c) 'a)` composes with `(int -> int (int ->
string))`, before and behind it, as the effect itself does. -/
theorem closing_keeps_results_swap :
    let quoted (k l : Kind) : Kind := .effect [k] [l] false
    let f : Effect := ⟨[quoted (.typeVar "'b") (.typeVar "'c"), .typeVar "'a", .stackVar "'R"],
      [.typeVar "'a", quoted (.typeVar "'b") (.typeVar "'c"), .stackVar "'R"], false⟩
    let g : Effect :=
      ⟨[.simple "int"], [quoted (.simple "int") (.simple "string"), .simple "int"], false⟩
    let s := Session.start none false .silent
    f.Read ∧ g.Read ∧ f.ClosesOutside ∧ s.Idle ∧
      ([.nop, f, g].flatMap Effect.drawn).length ≤ 2 ^ 64 ∧
      f.close.text = "('a ('b -> 'c) -> ('b -> 'c) 'a)" ∧
      (∃ r t t', (Request.compose f g).run s = .ok r t ∧ (Request.compose f.close g).run s = .ok r t' ∧
        r.text = "(int ('a -> 'b) -> ('a -> 'b) int (int -> string))") ∧
      ∃ r t t', (Request.compose g f).run s = .ok r t ∧ (Request.compose g f.close).run s = .ok r t' ∧
        r.text = "(int -> (int -> string) int)" := by
  intro quoted f g s
  have hf : f.Read := ⟨"('R 'a ('b -> 'c) -> 'R ('b -> 'c) 'a)", by decide +kernel⟩
  have hg : g.Read := ⟨"(int -> int (int -> string))", by decide +kernel⟩
  have hclose : f.ClosesOutside := by decide +kernel
  have hidle : s.Idle := Session.idle_start .silent
  have hcount : ([.nop, f, g].flatMap Effect.drawn).length ≤ 2 ^ 64 := by decide +kernel
  have hrun : Ends (Request.compose f g).run s
      (fun r _ => r.text = "(int ('a -> 'b) -> ('a -> 'b) int (int -> string))")
      fun _ _ => False := by decide +kernel
  have hrun' : Ends (Request.compose g f).run s
      (fun r _ => r.text = "(int -> (int -> string) int)") fun _ _ => False := by decide +kernel
  obtain ⟨r, t, hrt, htext⟩ := hrun.exists_ok
  obtain ⟨r', t', hrt', htext'⟩ := hrun'.exists_ok
  obtain ⟨hbefore, hbehind⟩ := closing_keeps_results hf hg hclose hidle hidle rfl rfl hcount
  obtain ⟨_, u, hu, rfl⟩ := hbefore.exists_ok hrt
  obtain ⟨_, u', hu', rfl⟩ := hbehind.exists_ok hrt'
  exact ⟨hf, hg, hclose, hidle, hcount, by decide +kernel, ⟨_, t, u, hrt, hu, htext⟩,
    _, t', u', hrt', hu', htext'⟩

end StackEffect
