import StackEffect.Proofs.Inference.Closing
import StackEffect.Proofs.Inference.Relation
import StackEffect.Proofs.Solve.Thread

/-!
# Proofs/Inference/Identity — doing nothing before and after an effect

    ( -> ) ( -> ) ('A 'a -> 'B) ( -> )        'R ≡ 'R',  'R' ≡ 'A₁ 'a₁,  'B₁ ≡ 'S

In a row in which all effects but one do nothing, the stacks that these leave alone are variables of a
thread: before the effect they stand for what it consumes, and after it for what it produces.  So a
pass over the row succeeds, however the stacks of the effect look, and finds the effect in canonical
form (`Session.Idle.ends_amid`).
-/

namespace StackEffect

open Effect

/-! ## Rows in which all effects but one do nothing -/

namespace Effect

variable {f g : Effect} {fs : List Effect} {as bs : List String} {Q : Call → Prop} {a : String}
  {n : Nat} {x z : Stack}

/-- What holds of all effects, one before the other, holds of the calls that join them. -/
theorem forall_joints (h : fs.Pairwise fun f g => Q (.onStacks f.produced g.consumed)) :
    ∀ c ∈ joints fs, Q c := by
  fun_induction joints fs with
  | case1 f g fs ih =>
    rw [List.pairwise_cons] at h
    exact List.forall_mem_cons.2 ⟨h.1 g List.mem_cons_self, ih h.2⟩
  | case2 => simp

theorem bases_nop_atop : (nop.atop a).bases = [a] := by
  refine List.perm_singleton.1 ((bases_atop_perm List.not_mem_nil).trans ?_)
  exact .refl _

/-- Doing nothing again and again relates every stack to itself. -/
theorem path_replicate_nop (hx : Stack.Proper x) :
    Path (List.replicate n (nop.atop a)) x z ↔ x = z := by
  induction n with
  | zero => exact .rfl
  | succ n ih =>
    simp only [List.replicate_succ, path_cons_iff, maps_nop_iff, hx, true_and, exists_eq_left', ih]

/-- Doing nothing changes nothing of what an effect relates. -/
theorem composes_amid {sort : String → VarSort} (hf : f.kind.Tidy sort) (m n : Nat) :
    f.Composes (List.replicate m (nop.atop a) ++ f :: List.replicate n (nop.atop a)) where
  tidy := ⟨sort, hf⟩
  impure := by simp [nop, atop]
  maps x z := by
    simp only [path_append, path_cons_iff]
    constructor
    · intro hxz
      obtain ⟨hx, hz⟩ := hxz.proper hf
      exact ⟨hx, x, (path_replicate_nop hx).2 rfl, z, hxz, (path_replicate_nop hz).2 rfl⟩
    · rintro ⟨hx, y, hxy, w, hyw, hwz⟩
      obtain rfl := (path_replicate_nop hx).1 hxy
      rwa [← (path_replicate_nop (hyw.proper hf).2).1 hwz]

/-- An effect in the middle of effects that do nothing. -/
def amid (as : List String) (g : Effect) (bs : List String) : List Effect :=
  as.map nop.atop ++ g :: bs.map nop.atop

theorem nop_mem_amid (ha : a ∈ as ++ bs) : nop.atop a ∈ amid as g bs := by
  rcases List.mem_append.1 ha with ha | ha
  · exact List.mem_append_left _ (List.mem_map_of_mem ha)
  · exact List.mem_append_right _ (List.mem_cons_of_mem _ (List.mem_map_of_mem ha))

/-- An effect of the row is the one in the middle, or does nothing. -/
theorem mem_amid (hf : f ∈ amid as g bs) : f = g ∨ ∃ a ∈ as ++ bs, f = nop.atop a := by
  simp only [amid, List.mem_append, List.mem_cons, List.mem_map] at hf
  rcases hf with ⟨a, ha, rfl⟩ | rfl | ⟨b, hb, rfl⟩
  · exact .inr ⟨a, List.mem_append_left _ ha, rfl⟩
  · exact .inl rfl
  · exact .inr ⟨b, List.mem_append_right _ hb, rfl⟩

/-- Of two effects of the row, one does nothing. -/
theorem pairwise_amid : (amid as g bs).Pairwise fun f f' =>
    (∃ a, f = nop.atop a) ∨ ∃ a, f' = nop.atop a := by
  refine List.pairwise_append.2 ⟨?_, List.pairwise_cons.2 ⟨?_, ?_⟩, ?_⟩
  · exact List.pairwise_map.2 (List.pairwise_of_forall fun a _ => .inl ⟨a, rfl⟩)
  · intro f' hf'
    obtain ⟨b, -, rfl⟩ := List.mem_map.1 hf'
    exact .inr ⟨b, rfl⟩
  · exact List.pairwise_map.2 (List.pairwise_of_forall fun b _ => .inl ⟨b, rfl⟩)
  · intro f hf f' _
    obtain ⟨a, -, rfl⟩ := List.mem_map.1 hf
    exact .inl ⟨a, rfl⟩

end Effect

namespace Copies

variable {e : Effect} {es es' gs : List Effect} {names : List String} {a : String} {m n : Nat}

theorem of_append (h : Copies (es ++ es') gs names) : ∃ gs₁ gs₂ names₁ names₂,
    gs = gs₁ ++ gs₂ ∧ names = names₁ ++ names₂ ∧ Copies es gs₁ names₁ ∧ Copies es' gs₂ names₂ := by
  induction es generalizing gs names with
  | nil => exact ⟨[], gs, [], names, rfl, rfl, .nil, h⟩
  | cons e es ih =>
    cases h with
    | cons m h =>
      obtain ⟨gs₁, gs₂, names₁, names₂, rfl, rfl, h₁, h₂⟩ := ih h
      exact ⟨_, gs₂, _, names₂, rfl, (List.append_assoc ..).symm, .cons m h₁, h₂⟩

/-- Copies of doing nothing do nothing above stacks of other names. -/
theorem of_replicate_nop (h : Copies (List.replicate n (nop.atop a)) gs names) :
    gs = names.map nop.atop := by
  induction n generalizing gs names with
  | zero =>
    cases h
    rfl
  | succ n ih =>
    rw [List.replicate_succ] at h
    cases h with
    | cons m h =>
      rw [ih h, bases_nop_atop, atop_relabel]
      rfl

/-- **A copy of the row is a row of this form.** -/
theorem of_amid (h : Copies (List.replicate m (nop.atop a) ++ e :: List.replicate n (nop.atop a)) gs
    names) : ∃ r as bs, gs = amid as (e.relabel r) bs ∧
      names = as ++ (e.bases.map r ++ bs) := by
  obtain ⟨gs₁, _, as, _, rfl, rfl, h₁, h₂⟩ := h.of_append
  cases h₂ with
  | @cons _ _ gs₂ bs r h₂ =>
    rw [h₁.of_replicate_nop, h₂.of_replicate_nop]
    exact ⟨r, as, bs, rfl, rfl⟩

end Copies

/-! ## The thread through such a row -/

namespace Valuation

variable {σ : Valuation} {g : Effect} {fs gs : List Effect} {as bs : List String}
  {sort : String → VarSort} {x y z : Stack}

theorem Traces.solves (h : σ.Traces fs x z) : σ.Solves (joints fs) := by
  cases fs with
  | nil => exact fun _ hc => absurd hc List.not_mem_nil
  | cons f fs => exact (traces_cons_iff.1 h).1

theorem Traces.append (h : σ.Traces fs x y) (h' : σ.Traces gs y z) : σ.Traces (fs ++ gs) x z :=
  along_append.2 ⟨y, h, h'⟩

theorem traces_nops (h : ∀ a ∈ as, σ.rest a = x) : σ.Traces (as.map nop.atop) x x := by
  induction as with
  | nil => rfl
  | cons a as ih =>
    rw [List.forall_mem_cons] at h
    have hvalues : σ.values [.stackVar a] = x := (List.append_nil _).trans h.1
    exact ⟨x, ⟨hvalues, hvalues⟩, ih h.2⟩

/-- What is left alone before an effect is what it consumes, and after it what it produces. -/
def around (as : List String) (g : Effect) (bs : List String) : Valuation where
  slot := .typeVar
  rest a := if a ∈ as then g.consumed else if a ∈ bs then g.produced else [.stackVar a]

/-- **What does nothing in a row only passes a stack on.** -/
theorem threads_around (hrow : ∀ f ∈ amid as g bs, f.kind.Tidy sort)
    (hnames : ∀ a ∈ as ++ bs, a ∉ g.bases) (hdisjoint : ∀ a ∈ as, a ∉ bs) :
    (around as g bs).Threads sort (· ∈ as ++ bs) (joints (amid as g bs)) := by
  have hkeeps : ∀ v : Var, v.name ∉ as ++ bs → (around as g bs).value v.kind = [v.kind] := by
    rintro ⟨_ | _, a⟩ ha
    · rfl
    · rw [List.mem_append, not_or] at ha
      exact (if_neg ha.1).trans (if_neg ha.2)
  obtain ⟨htc, htp⟩ := Kind.tidy_effect_iff.1 (hrow g (by simp [amid]))
  have hfree : ∀ v ∈ g.kind.vars, v.name ∉ as ++ bs := fun v hv ha =>
    hnames _ ha (mem_bases.2 (Kind.mem_freeVars.2 ⟨v, hv, rfl⟩))
  obtain ⟨hfc, hfp⟩ := List.forall_mem_append.1 hfree
  have hself : ∀ s : Stack, (Kind.stack s).Tidy sort →
      (∀ v ∈ Kind.slotVars s, v.name ∉ as ++ bs) → (around as g bs).values s = s := by
    intro s hs hv
    rw [values_eq_map (r := id) (fun v h => hkeeps v (hv v h)) hs,
      List.map_congr_left fun k _ => Kind.relabel_id, List.map_id']
  have hsort : ∀ a ∈ as ++ bs, sort a = .stack := fun a ha =>
    (hrow _ (nop_mem_amid ha)).2 ⟨.stack, a⟩ (mem_vars_atop.2 (.inr rfl))
  have halong : ∀ f ∈ amid as g bs, (Kind.stack f.consumed).Along sort (· ∈ as ++ bs) ∧
      (Kind.stack f.produced).Along sort (· ∈ as ++ bs) := by
    intro f hf
    obtain ⟨hc, hp⟩ := Kind.tidy_effect_iff.1 (hrow f hf)
    rcases mem_amid hf with rfl | ⟨a, ha, rfl⟩
    · exact ⟨⟨hc, .inr hfc⟩, hp, .inr hfp⟩
    · exact ⟨⟨hc, .inl ⟨a, ha, .inr rfl⟩⟩, hp, .inl ⟨a, ha, .inr rfl⟩⟩
  refine ⟨hkeeps, hsort, ?_, ?_⟩
  · have hbefore : (around as g bs).Traces (as.map nop.atop) g.consumed g.consumed :=
      traces_nops fun a ha => if_pos ha
    have hafter : (around as g bs).Traces (g :: bs.map nop.atop) g.consumed g.produced := by
      refine ⟨_, ⟨hself _ htc hfc, hself _ htp hfp⟩, traces_nops fun b hb => ?_⟩
      exact (if_neg fun ha => hdisjoint b ha hb).trans (if_pos hb)
    exact (hbefore.append hafter).solves
  · refine forall_joints ((List.pairwise_iff_forall_sublist.2 fun {f f'} hff' => ?_))
    have hf := hff'.subset List.mem_cons_self
    have hf' := hff'.subset (List.mem_cons_of_mem _ List.mem_cons_self)
    refine ⟨_, _, rfl, (halong f hf).2, (halong f' hf').1, ?_⟩
    refine (List.pairwise_iff_forall_sublist.1 pairwise_amid hff').imp ?_ ?_
    · rintro ⟨a, rfl⟩
      exact ⟨a, rfl⟩
    · rintro ⟨a, rfl⟩
      exact ⟨a, rfl⟩

end Valuation

/-! ## Passes -/

namespace Effect

variable {sort : String → VarSort} {f : Effect}

/-- What an effect is when it is ready is closed as the effect is. -/
theorem exists_readyAs_close (hf : f.kind.Tidy sort) :
    ∃ e, f.ReadyAs e ∧ (∃ sort, e.kind.Tidy sort) ∧ e.close = f.close := by
  have hsorted : f.OneSorted := ⟨sort, hf.2⟩
  cases hopen : f.isOpen with
  | true => exact ⟨f, readyAs_self hsorted hopen, ⟨sort, hf⟩, rfl⟩
  | false =>
    obtain ⟨a, ha⟩ := (List.finite_toSet f.bases).exists_notMem
    exact ⟨f.atop a, readyAs_atop hsorted hopen ha, ⟨_, tidy_atop hf hopen ha⟩, close_atop hopen ha⟩

theorem forall₂_replicate {α β : Type} {R : α → β → Prop} {a : α} {b : β} (h : R a b) (n : Nat) :
    List.Forall₂ R (List.replicate n a) (List.replicate n b) := by
  induction n with
  | zero => exact .nil
  | succ n ih => exact .cons h ih

/-- How many names are drawn for the row, at most. -/
theorem length_drawn_amid (f : Effect) (m n : Nat) :
    ((nop :: (List.replicate m nop ++ f :: List.replicate n nop)).flatMap drawn).length ≤
      m + f.bases.length + n + 2 := by
  have hnops : ∀ n, ((List.replicate n nop).flatMap drawn).length = n := by
    intro n
    induction n with
    | zero => rfl
    | succ n ih =>
      rw [List.replicate_succ, List.flatMap_cons, List.length_append, ih]
      exact Nat.add_comm 1 n
  have hpadding : f.padding.length ≤ 1 := by
    rw [padding]
    split <;> simp
  have hone : nop.drawn.length = 1 := rfl
  rw [List.flatMap_cons, List.flatMap_append, List.flatMap_cons, List.length_append,
    List.length_append, List.length_append, hnops, hnops, hone, drawn, List.length_append]
  omega

end Effect

/-- A row in which all effects but one do nothing is a thread. -/
theorem Copies.exists_threads {e : Effect} {gs : List Effect} {names : List String} {a : String}
    {m n : Nat} {sort : String → VarSort}
    (h : Copies (List.replicate m (nop.atop a) ++ e :: List.replicate n (nop.atop a)) gs names)
    (hnodup : names.Nodup) (hsort : ∀ g ∈ gs, g.kind.Tidy sort) :
    ∃ (σ : Valuation) (thread : String → Prop), σ.Threads sort thread (joints gs) := by
  obtain ⟨r, as, bs, rfl, rfl⟩ := h.of_amid
  obtain ⟨-, hrest, has⟩ := List.nodup_append.1 hnodup
  obtain ⟨-, -, hbs⟩ := List.nodup_append.1 hrest
  have hbases : ∀ b ∈ (e.relabel r).bases, b ∈ e.bases.map r := by
    intro b hb
    obtain ⟨v, hv, rfl⟩ := Kind.mem_freeVars.1 (mem_bases.1 hb)
    rw [kind_relabel, Kind.vars_relabel] at hv
    obtain ⟨w, hw, rfl⟩ := List.mem_map.1 hv
    exact List.mem_map_of_mem (mem_bases.2 (Kind.mem_freeVars.2 ⟨w, hw, rfl⟩))
  refine ⟨_, _, Valuation.threads_around hsort (fun a ha hb => ?_) fun a ha hb => ?_⟩
  · rcases List.mem_append.1 ha with ha | ha
    · exact has a ha a (List.mem_append_left _ (hbases a hb)) rfl
    · exact hbs a (hbases a hb) a ha rfl
  · exact has a ha a (List.mem_append_right _ hb) rfl

/-- **Doing nothing before and after an effect**, as often as may be: the pass succeeds, and answers the
effect in canonical form. -/
theorem Session.Idle.ends_amid {s : Session} (hs : s.Idle) (hstrict : s.store.lenient = false)
    {f : Effect} (hf : f.Read) {m n : Nat} (hcount : m + f.bases.length + n + 2 ≤ 2 ^ 64) :
    Ends (Request.composeAll (List.replicate m nop ++ f :: List.replicate n nop)).run s
      (fun r _ => r = f.close.generalize) fun _ _ => False := by
  let fs := List.replicate m nop ++ f :: List.replicate n nop
  have hdrawn : ((nop :: fs).flatMap Effect.drawn).length ≤ 2 ^ 64 :=
    Nat.le_trans (length_drawn_amid f m n) hcount
  obtain ⟨_, hparse⟩ := hf
  obtain ⟨e, he, ⟨sort₀, htidy⟩, hclose⟩ := exists_readyAs_close (written_of_parse hparse).tidy
  let N := nop.atop Infer.restName
  have hes : List.Forall₂ ReadyAs fs (List.replicate m N ++ e :: List.replicate n N) :=
    List.rel_append (forall₂_replicate readyAs_nop m) (.cons he (forall₂_replicate readyAs_nop n))
  have hnop : ∃ sort, N.kind.Tidy sort := ⟨fun _ => .stack, by decide⟩
  have htidies : ∀ e' ∈ List.replicate (m + 1) N ++ e :: List.replicate n N,
      ∃ sort, e'.kind.Tidy sort := by
    intro e' he'
    simp only [List.mem_append, List.mem_cons, List.mem_replicate] at he'
    rcases he' with ⟨-, rfl⟩ | rfl | ⟨-, rfl⟩
    exacts [hnop, ⟨sort₀, htidy⟩, hnop]
  -- the row that the pass works on
  obtain ⟨names, hcopies, hperm⟩ := Copies.readyAll (.cons readyAs_nop hes) s.begin.fresh
  have hnodup : names.Nodup := hperm.nodup_iff.2 (Fresh.nodup_names hdrawn)
  obtain ⟨sort, hsort⟩ := hcopies.exists_sort hnodup htidies
  obtain ⟨σ, thread, hthreads⟩ := Copies.exists_threads (m := m + 1) hcopies hnodup hsort
  obtain ⟨u, u', hu, hu', hexact⟩ := hthreads.exists_exact hstrict
  have hpass : Ends (Request.composeAll fs).run s
      (fun _ t => t.store.Exact ((s.row fs).flatMap fun f => f.kind.vars) (joints (s.row fs)))
      fun _ _ => False := by
    refine (hs.ends_pass fs).mono ?_ ?_
    · rintro _ t ⟨-, v, v', hv, hv', hasked⟩
      obtain rfl := (Prod.mk.inj (hv.symm.trans hu)).2
      obtain rfl := (EStateM.Result.ok.inj (hv'.symm.trans hu')).2
      refine (hexact _ fun w hw => ?_).congr hasked.solution
      obtain ⟨g, hg, hw⟩ := List.mem_flatMap.1 hw
      exact (hsort g hg).2 w hw
    · rintro _ _ ⟨fault, -, hfault | ⟨v, v', hv, hv'⟩⟩
      · rw [show Store.performAll (joints (s.row fs)) s.store.reset = ([], u) from hu] at hfault
        exact absurd hfault List.not_mem_nil
      · obtain rfl := (Prod.mk.inj (hv.symm.trans hu)).2
        simp [hu'] at hv'
  have hregular : s.Regular fs := ⟨hdrawn, hpass.mono (fun _ _ h => h) fun _ _ => False.elim⟩
  refine (Ends.self _ _).mono (fun r t hrt => ?_) fun _ _ het => hpass.error het
  obtain ⟨rfl, hfound⟩ := (hregular.ends_run hs hes fun e' he' =>
    htidies e' (List.mem_cons_of_mem _ he')).ok hrt
  rw [(composes_amid htidy m n).close_generalize_eq hfound, hclose]

end StackEffect
