import StackEffect.Proofs.Inference.Row
import StackEffect.Proofs.Solve.Exact

/-!
# Proofs/Inference/Relation — a pass composes relations

    Maps (found s fs t) x z   ↔   Path [f, g, …] x z   ↔   x ─f─▸ y ─g─▸ … ─▸ z

A pass is regular if the solution that it finds is exact, and if it does not fail for its depth.  A
regular pass over a row finds an effect that relates the stacks which the effects of the row relate one
after the other, and fails only if there are none (`Session.Regular.ends_run`).
-/

namespace StackEffect

/-! ## Rows and their joints -/

namespace Effect

/-- What is seen of two effects, one after the other, from outside. -/
def join (f g : Effect) : Effect := ⟨f.consumed, g.produced, f.impure || g.impure⟩

/-- What is seen of a row from outside. -/
def joinAll : List Effect → Effect
  | [] => nop
  | f :: fs => fs.foldl join f

/-- **The calls that join a row**: what each effect produces is what the next one consumes. -/
def joints : List Effect → List Call
  | f :: g :: fs => .onStacks f.produced g.consumed :: joints (g :: fs)
  | _ => []

variable {f g : Effect} {fs : List Effect} {sort : String → VarSort} {vs : List Var}

theorem joints_join : joints (f.join g :: fs) = joints (g :: fs) := by
  cases fs <;> rfl

theorem impure_joinAll : (joinAll fs).impure = fs.any Effect.impure := by
  cases fs with
  | nil => rfl
  | cons f fs =>
    induction fs generalizing f with
    | nil => simp [joinAll]
    | cons g fs ih =>
      refine (ih (f.join g)).trans ?_
      simp [join, Bool.or_assoc]

/-- Tidy effects are tidy over the variables that they have. -/
theorem tidyOver_vars (h : ∀ f ∈ fs, f.kind.Tidy sort) :
    ∀ f ∈ fs, f.kind.TidyOver sort (fs.flatMap fun f => f.kind.vars) := fun f hf =>
  ⟨h f hf, fun _ hv => List.mem_flatMap.2 ⟨f, hf, hv⟩⟩

theorem tidyOver_joints (h : ∀ f ∈ fs, f.kind.TidyOver sort vs) :
    ∀ c ∈ joints fs, c.sides.1.TidyOver sort vs ∧ c.sides.2.TidyOver sort vs := by
  fun_induction joints fs with
  | case1 f g fs ih =>
    rw [List.forall_mem_cons] at h
    have hclosed := Kind.closed_tidyOver sort vs
    exact List.forall_mem_cons.2 ⟨⟨hclosed.produced h.1, hclosed.consumed (h.2 g List.mem_cons_self)⟩,
      ih h.2⟩
  | case2 => simp

theorem tidyOver_joinAll (h : ∀ g ∈ f :: fs, g.kind.TidyOver sort vs) :
    (joinAll (f :: fs)).kind.TidyOver sort vs := by
  induction fs generalizing f with
  | nil => exact h f List.mem_cons_self
  | cons g fs ih =>
    rw [List.forall_mem_cons, List.forall_mem_cons] at h
    obtain ⟨⟨htf, hvf⟩, ⟨htg, hvg⟩, hfs⟩ := h
    refine ih (f := f.join g) (List.forall_mem_cons.2 ⟨⟨?_, ?_⟩, hfs⟩)
    · exact Kind.tidy_effect_iff.2 ⟨(Kind.tidy_effect_iff.1 htf).1, (Kind.tidy_effect_iff.1 htg).2⟩
    · exact List.append_subset.2 ⟨(List.append_subset.1 hvf).1, (List.append_subset.1 hvg).2⟩

end Effect

namespace Store

open Effect

/-- A row is composed if all the calls that join it succeed. -/
theorem ends_composeRow (f : Effect) (gs : List Effect) (s : Store) : Ends (composeRow f gs) s
    (fun g t => g = joinAll (f :: gs) ∧ performAll (joints (f :: gs)) s = ([], t))
    fun fault _ => fault ∈ (performAll (joints (f :: gs)) s).1 := by
  induction gs generalizing f s with
  | nil => exact ⟨rfl, rfl⟩
  | cons g gs ih =>
    rw [composeRow, Ends.bind_iff, joints, performAll]
    refine (Ends.self _ _).mono (fun _ t ht => ?_) fun fault t ht => ?_
    · rw [Call.perform, ht]
      have hrest := ih (f.join g) t
      rwa [joints_join] at hrest
    · rw [Call.perform, ht]
      exact List.mem_cons_self

end Store

/-! ## Paths -/

namespace Effect

variable {f g : Effect} {es fs gs : List Effect} {names : List String} {sort : String → VarSort}
  {x y z : Stack}

/-- **What a row relates** if each of its effects relates what `R` says. -/
def Along {α : Type} (R : Effect → α → α → Prop) : List Effect → α → α → Prop
  | [], x, z => x = z
  | f :: fs, x, z => ∃ y, R f x y ∧ Along R fs y z

section Along

variable {α : Type} {R S : Effect → α → α → Prop} {x z : α}

theorem along_append : Along R (es ++ fs) x z ↔ ∃ y, Along R es x y ∧ Along R fs y z := by
  induction es generalizing x with
  | nil => simp [Along]
  | cons e es ih =>
    simp only [List.cons_append, Along, ih]
    constructor
    · rintro ⟨y, he, w, hes, hfs⟩
      exact ⟨w, ⟨y, he, hes⟩, hfs⟩
    · rintro ⟨w, ⟨y, he, hes⟩, hfs⟩
      exact ⟨y, he, w, hes, hfs⟩

theorem Along.imp (h : ∀ f ∈ fs, ∀ x y, R f x y → S f x y) (hfs : Along R fs x z) :
    Along S fs x z := by
  induction fs generalizing x with
  | nil => exact hfs
  | cons f fs ih =>
    rw [List.forall_mem_cons] at h
    obtain ⟨y, hxy, hyz⟩ := hfs
    exact ⟨y, h.1 x y hxy, ih h.2 hyz⟩

/-- **What a row relates, by the calls that join it**: what one effect produces is what the next one
consumes. -/
theorem along_cons_iff {T P : Stack → α → Prop} :
    Along (fun f x y => T f.consumed x ∧ P f.produced y) (f :: fs) x z ↔
      (∀ c ∈ joints (f :: fs), c.Relates fun v w => ∃ y, P v y ∧ T w y) ∧
        T (joinAll (f :: fs)).consumed x ∧ P (joinAll (f :: fs)).produced z := by
  induction fs generalizing f with
  | nil => simp [Along, joints, joinAll]
  | cons g fs ih =>
    have hjoints : (∀ c ∈ joints (f :: g :: fs), c.Relates fun v w => ∃ y, P v y ∧ T w y) ↔
        (∃ y, P f.produced y ∧ T g.consumed y) ∧
          ∀ c ∈ joints (f.join g :: fs), c.Relates fun v w => ∃ y, P v y ∧ T w y := by
      rw [joints_join]
      exact List.forall_mem_cons
    have hjoin := ih (f := f.join g)
    rw [hjoints, and_assoc]
    refine Iff.trans ?_ (and_congr_right' hjoin)
    constructor
    · rintro ⟨y, ⟨hx, hf⟩, w, ⟨hy, hg⟩, hfs⟩
      exact ⟨⟨y, hf, hy⟩, w, ⟨hx, hg⟩, hfs⟩
    · rintro ⟨⟨y, hf, hy⟩, w, ⟨hx, hg⟩, hfs⟩
      exact ⟨y, ⟨hx, hf⟩, w, ⟨hy, hg⟩, hfs⟩

end Along

/-- **What effects relate one after the other.** -/
def Path (es : List Effect) (x z : Stack) : Prop := Along Maps es x z

theorem path_cons_iff : Path (f :: fs) x z ↔ ∃ y, f.Maps x y ∧ Path fs y z := .rfl

theorem path_append : Path (es ++ fs) x z ↔ ∃ y, Path es x y ∧ Path fs y z := along_append

theorem Maps.proper (h : f.Maps x y) (hf : f.kind.Tidy sort) : Stack.Proper x ∧ Stack.Proper y := by
  obtain ⟨σ, hσ, rfl, rfl⟩ := h
  obtain ⟨hc, hp⟩ := Kind.tidy_effect_iff.1 hf
  exact ⟨Valuation.proper_values hσ (Stack.proper_of_wellFormed hc.1),
    Valuation.proper_values hσ (Stack.proper_of_wellFormed hp.1)⟩

/-- Doing nothing relates every stack to itself. -/
theorem maps_nop_iff {a : String} : (nop.atop a).Maps x y ↔ Stack.Proper x ∧ x = y := by
  constructor
  · rintro ⟨σ, hσ, rfl, rfl⟩
    exact ⟨Valuation.proper_values hσ (.inr ⟨⟨a, rfl⟩, rfl⟩), rfl⟩
  · rintro ⟨hx, rfl⟩
    refine ⟨⟨fun _ => .absent, fun _ => x⟩, ⟨fun _ => rfl, fun _ => hx⟩, ?_, ?_⟩
    · exact List.append_nil x
    · exact List.append_nil x

end Effect

/-- **An effect that relates what a row relates.** -/
structure Effect.Composes (e : Effect) (es : List Effect) : Prop where
  tidy : ∃ sort, e.kind.Tidy sort
  impure : e.impure = es.any Effect.impure
  maps : ∀ x z, e.Maps x z ↔ Stack.Proper x ∧ Path es x z

/-- **Effects that relate what one row relates have one closed canonical form.** -/
theorem Effect.Composes.close_generalize_eq {e f : Effect} {es : List Effect} (he : e.Composes es)
    (hf : f.Composes es) : f.close.generalize = e.close.generalize := by
  obtain ⟨sort, htidy⟩ := he.tidy
  obtain ⟨sort', htidy'⟩ := hf.tidy
  have hmaps : ∀ x z, e.Maps x z ↔ f.Maps x z := fun x z => (he.maps x z).trans (hf.maps x z).symm
  obtain ⟨r, hr, rfl⟩ := exists_relabel_of_maps htidy htidy' ((hmaps _ _).2 (maps_self htidy'))
    ((hmaps _ _).1 (maps_self htidy)) (hf.impure.trans he.impure.symm)
  exact close_generalize_relabel hr

/-! ## Valuations of a row -/

namespace Valuation

variable {σ τ : Valuation} {f : Effect} {fs : List Effect} {x z : Stack} {m : String → String}

/-- The valuation that is made of values for each name. -/
def of (φ : String → Kind × Stack) : Valuation := ⟨fun a => (φ a).1, fun a => (φ a).2⟩

theorem values_relabel_of (h : ∀ v ∈ f.kind.vars, τ.value (v.relabel m).kind = σ.value v.kind) :
    τ.values (f.relabel m).consumed = σ.values f.consumed ∧
      τ.values (f.relabel m).produced = σ.values f.produced := by
  obtain ⟨hc, hp⟩ := List.forall_mem_append.1 h
  rw [Effect.relabel_eq]
  exact ⟨values_map_relabel_of fun k hk => value_relabel_of fun v hv =>
      hc v (Kind.mem_slotVars.2 ⟨k, hk, hv⟩),
    values_map_relabel_of fun k hk => value_relabel_of fun v hv =>
      hp v (Kind.mem_slotVars.2 ⟨k, hk, hv⟩)⟩

/-- A valuation under which each effect of a row consumes what the one before it produces. -/
def Traces (σ : Valuation) (fs : List Effect) (x z : Stack) : Prop :=
  Effect.Along (fun f x y => σ.values f.consumed = x ∧ σ.values f.produced = y) fs x z

theorem solves_joints_iff : σ.Solves (Effect.joints fs) ↔ ∀ c ∈ Effect.joints fs,
    c.Relates fun v w => ∃ y, σ.values v = y ∧ σ.values w = y := by
  fun_induction Effect.joints fs with
  | case1 f g fs ih =>
    rw [List.forall_mem_cons, ← ih]
    refine List.forall_mem_cons.trans (and_congr_left' ?_)
    exact ⟨fun h => ⟨_, h, rfl⟩, fun ⟨_, h, h'⟩ => h.trans h'.symm⟩
  | case2 => simp [Solves]

/-- **A row is traced by the valuations that solve the calls which join it.** -/
theorem traces_cons_iff : σ.Traces (f :: fs) x z ↔ σ.Solves (Effect.joints (f :: fs)) ∧
    σ.values (Effect.joinAll (f :: fs)).consumed = x ∧
      σ.values (Effect.joinAll (f :: fs)).produced = z := by
  rw [solves_joints_iff]
  exact Effect.along_cons_iff (T := fun s x => σ.values s = x) (P := fun s x => σ.values s = x)

end Valuation

/-! ## Copies -/

namespace Copies

open Effect

variable {es gs : List Effect} {names : List String} {x z : Stack}

theorem name_mem (h : Copies es gs names) {g : Effect} (hg : g ∈ gs) {v : Var}
    (hv : v ∈ g.kind.vars) : v.name ∈ names := by
  induction h with
  | nil => exact absurd hg List.not_mem_nil
  | @cons e es gs names m _ ih =>
    rcases List.mem_cons.1 hg with rfl | hg
    · rw [kind_relabel, Kind.vars_relabel] at hv
      obtain ⟨w, hw, rfl⟩ := List.mem_map.1 hv
      refine List.mem_append_left _ (List.mem_map_of_mem ?_)
      exact mem_bases.2 (Kind.mem_freeVars.2 ⟨w, hw, rfl⟩)
    · exact List.mem_append_right _ (ih hg)

theorem any_impure (h : Copies es gs names) : gs.any Effect.impure = es.any Effect.impure := by
  induction h with
  | nil => rfl
  | cons m _ ih => rw [List.any_cons, List.any_cons, ih, relabel_eq]

/-- The name that a name was given to in a copy. -/
def source (e : Effect) (m : String → String) (a : String) : Option String :=
  e.bases.find? fun b => m b == a

variable {e : Effect} {m : String → String} {b : String}

theorem separates_of_nodup (h : (e.bases.map m ++ names).Nodup) : Kind.Separates m e.kind :=
  fun _ ha _ hb =>
    List.inj_on_of_nodup_map (List.nodup_append.1 h).1 (mem_bases.2 ha) (mem_bases.2 hb)

theorem source_of_mem (h : (e.bases.map m ++ names).Nodup) (hb : b ∈ e.bases) :
    source e m (m b) = some b := by
  have hinj := List.inj_on_of_nodup_map (List.nodup_append.1 h).1
  cases hsource : source e m (m b) with
  | none => simpa using List.find?_eq_none.1 hsource b hb
  | some c =>
    have hc := List.mem_of_find?_eq_some hsource
    rw [hinj hc hb (by simpa using List.find?_some hsource)]

theorem source_of_mem_names (h : (e.bases.map m ++ names).Nodup) (hb : b ∈ names) :
    source e m b = none := by
  refine List.find?_eq_none.2 fun c hc hcb => ?_
  rw [← beq_iff_eq.1 hcb] at hb
  exact (List.nodup_append.1 h).2.2 _ (List.mem_map_of_mem hc) _ hb rfl

/-- **Copies of tidy effects are tidy together**, as they have no names in common. -/
theorem exists_sort (h : Copies es gs names) (hnodup : names.Nodup)
    (hes : ∀ e ∈ es, ∃ sort, e.kind.Tidy sort) : ∃ sort, ∀ g ∈ gs, g.kind.Tidy sort := by
  induction h with
  | nil => exact ⟨fun _ => .slot, fun _ hg => absurd hg List.not_mem_nil⟩
  | @cons e es gs names m hcopies ih =>
    rw [List.forall_mem_cons] at hes
    obtain ⟨⟨sort, he⟩, hes⟩ := hes
    obtain ⟨sort', hgs⟩ := ih (List.nodup_append.1 hnodup).2.1 hes
    refine ⟨fun a => (source e m a).elim (sort' a) sort, List.forall_mem_cons.2 ⟨⟨?_, ?_⟩, ?_⟩⟩
    · exact Kind.wellFormed_relabel.trans he.1
    · intro v hv
      rw [kind_relabel, Kind.vars_relabel] at hv
      obtain ⟨w, hw, rfl⟩ := List.mem_map.1 hv
      have hsource := source_of_mem hnodup (mem_bases.2 (Kind.mem_freeVars.2 ⟨w, hw, rfl⟩))
      exact (congrArg (fun o => Option.elim o _ sort) hsource).trans (he.2 w hw)
    · intro g hg
      refine ⟨(hgs g hg).1, fun v hv => ?_⟩
      have hsource := source_of_mem_names hnodup (hcopies.name_mem hg hv)
      exact (congrArg (fun o => Option.elim o _ sort) hsource).trans ((hgs g hg).2 v hv)

/-- **What copies relate under one assignment** is what the effects relate under one assignment each, as
the copies have no names in common.  An assignment `F φ` is made of what `φ` gives to each name, and
only the names of an effect matter for it. -/
theorem along_iff {α A β : Type} {F : (String → α) → A} {P : α → Prop} {Q : A → Prop}
    {S : A → Effect → β → β → Prop} {x z : β} (h : Copies es gs names) (hnodup : names.Nodup)
    (hF : Function.Surjective F) (hQ : ∀ φ, Q (F φ) ↔ ∀ b, P (φ b)) (hP : ∃ a, P a)
    (hS : ∀ {φ ψ f m x y}, Kind.Separates m f.kind → (∀ b ∈ f.bases, ψ (m b) = φ b) →
      (S (F ψ) (f.relabel m) x y ↔ S (F φ) f x y)) :
    Along (fun f x y => ∃ σ, Q σ ∧ S σ f x y) es x z ↔ ∃ σ, Q σ ∧ Along (S σ) gs x z := by
  simp only [hF.exists, hQ]
  induction h generalizing x with
  | nil => exact ⟨fun h => ⟨fun _ => hP.choose, fun _ => hP.choose_spec, h⟩, fun ⟨_, _, h⟩ => h⟩
  | @cons e es gs names m hcopies ih =>
    have ih := fun {x} => ih (x := x) (List.nodup_append.1 hnodup).2.1
    have hsep := separates_of_nodup hnodup
    constructor
    · rintro ⟨y, ⟨φ, hφ, he⟩, hes⟩
      obtain ⟨ψ, hψ, hgs⟩ := ih.1 hes
      -- the names of the first copy have the values of the names that they were given to
      let χ : String → α := fun a => (source e m a).elim (ψ a) φ
      have hfirst : ∀ b ∈ e.bases, χ (m b) = φ b := fun b hb =>
        congrArg (fun o => Option.elim o _ φ) (source_of_mem hnodup hb)
      have hrest : ∀ g ∈ gs, ∀ b ∈ g.bases, χ b = ψ b := fun g hg b hb => by
        obtain ⟨v, hv, rfl⟩ := Kind.mem_freeVars.1 (mem_bases.1 hb)
        exact congrArg (fun o => Option.elim o _ φ)
          (source_of_mem_names hnodup (hcopies.name_mem hg hv))
      refine ⟨χ, fun b => ?_, y, (hS hsep hfirst).2 he, hgs.imp fun g hg x y hxy => ?_⟩
      · change P ((source e m b).elim (ψ b) φ)
        cases source e m b with
        | none => exact hψ b
        | some c => exact hφ c
      · have hid : g.relabel id = g := kind_injective (Kind.relabel_id (k := g.kind))
        exact hid ▸ (hS (fun _ _ _ _ h => h) (hrest g hg)).2 hxy
    · rintro ⟨ψ, hψ, y, he, hgs⟩
      exact ⟨y, ⟨ψ ∘ m, fun b => hψ (m b), (hS hsep fun _ _ => rfl).1 he⟩, ih.2 ⟨ψ, hψ, hgs⟩⟩

/-- **A path through effects is a valuation of their copies.** -/
theorem path_iff (h : Copies es gs names) (hnodup : names.Nodup) :
    Path es x z ↔ ∃ σ : Valuation, σ.Proper ∧ σ.Traces gs x z := by
  refine h.along_iff (F := Valuation.of) (P := fun u => u.1.isSlot = true ∧ Stack.Proper u.2) hnodup
    (fun σ => ⟨fun a => (σ.slot a, σ.rest a), rfl⟩)
    (fun φ => ⟨fun h b => ⟨h.slot b, h.rest b⟩, fun h => ⟨fun b => (h b).1, fun b => (h b).2⟩⟩)
    ⟨(.absent, []), rfl, trivial⟩ fun {φ ψ f m _ _} _ hm => ?_
  obtain ⟨hc, hp⟩ : (Valuation.of ψ).values (f.relabel m).consumed = (Valuation.of φ).values f.consumed ∧
      (Valuation.of ψ).values (f.relabel m).produced = (Valuation.of φ).values f.produced := by
    refine Valuation.values_relabel_of fun v hv => ?_
    have hb := hm v.name (mem_bases.2 (Kind.mem_freeVars.2 ⟨v, hv, rfl⟩))
    rcases v with ⟨_ | _, a⟩
    · exact congrArg (fun u => [u.1]) hb
    · exact congrArg Prod.snd hb
  rw [hc, hp]

end Copies

/-! ## Passes -/

theorem Store.Exact.congr {t u : Store} {vs : List Var} {cs : List Call} (h : t.Exact vs cs)
    (hsol : u.solution = t.solution) : u.Exact vs cs := by
  have hresolve : u.resolveKind = t.resolveKind := by
    funext k
    rw [resolveKind, resolveKind, hsol]
  exact ⟨hresolve ▸ h.sides, hresolve ▸ h.slots⟩

namespace Session

open Effect

variable {s t : Session} {fs es : List Effect}

/-- **The row that a pass works on**: the effect of doing nothing and the effects that are asked for,
made ready. -/
def row (s : Session) (fs : List Effect) : List Effect := s.begin.fresh.readyAll (.nop :: fs)

/-- The effect that a pass from `s` to `t` has found, before it is closed. -/
def found (s : Session) (fs : List Effect) (t : Session) : Effect :=
  t.store.resolveEffect (joinAll (s.row fs))

/-- A pass answers the effect that it has found, or its calls fail or cannot be solved. -/
theorem Idle.ends_pass (hs : s.Idle) (fs : List Effect) : Ends (Request.composeAll fs).run s
    (fun r t => r = (s.found fs t).close.generalize ∧
      ∃ u u', Store.performAll (joints (s.row fs)) s.store.reset = ([], u) ∧
        Store.solve u = .ok () u' ∧ u'.Asked t.store)
    fun e _ => ∃ fault, e = .constraint fault ∧
      (fault ∈ (Store.performAll (joints (s.row fs)) s.store.reset).1 ∨
        ∃ u u', Store.performAll (joints (s.row fs)) s.store.reset = ([], u) ∧
          Store.solve u = .error fault u') := by
  have hpass : Ends (Store.passRow (s.begin.fresh.ready .nop).1
      ((s.begin.fresh.ready .nop).2.readyAll fs)) s.store.reset
      (fun f u' => f = joinAll (s.row fs) ∧
        ∃ u, Store.performAll (joints (s.row fs)) s.store.reset = ([], u) ∧ Store.solve u = .ok () u')
      fun fault _ => fault ∈ (Store.performAll (joints (s.row fs)) s.store.reset).1 ∨
        ∃ u u', Store.performAll (joints (s.row fs)) s.store.reset = ([], u) ∧
          Store.solve u = .error fault u' := by
    refine Ends.bind_iff.2 ((Store.ends_composeRow _ _ _).mono ?_ fun _ _ he => .inl he)
    rintro _ u ⟨rfl, hu⟩
    refine Ends.bind_iff.2 ((Ends.self _ _).mono (fun _ u' hu' => ?_) fun fault u' hu' => ?_)
    · exact ⟨rfl, u, hu, hu'⟩
    · exact .inr ⟨u, u', hu, hu'⟩
  refine (Request.ends_row hs hpass).mono ?_ ?_
  · rintro _ t ⟨_, u', ⟨rfl, u, hu, hu'⟩, hasked, rfl⟩
    refine ⟨?_, u, u', hu, hu', hasked⟩
    rw [found, Store.resolveEffect, Store.resolveEffect, hasked.solution]
  · rintro _ _ ⟨fault, rfl, u, he⟩
    exact ⟨fault, rfl, he⟩

/-- **A regular pass**: the solution that it finds is exact, and it does not fail for its depth.  It
does not draw so many names that counting them begins again. -/
structure Regular (s : Session) (fs : List Effect) : Prop where
  count : ((Effect.nop :: fs).flatMap Effect.drawn).length ≤ 2 ^ 64
  ends : Ends (Request.composeAll fs).run s
    (fun _ t => t.store.Exact ((s.row fs).flatMap fun f => f.kind.vars) (joints (s.row fs)))
    fun e _ => e ≠ .constraint .tooDeep

instance (s : Session) (fs : List Effect) : Decidable (s.Regular fs) :=
  decidable_of_iff (((Effect.nop :: fs).flatMap Effect.drawn).length ≤ 2 ^ 64 ∧
    Ends (Request.composeAll fs).run s
      (fun _ t => t.store.Exact ((s.row fs).flatMap fun f => f.kind.vars) (joints (s.row fs)))
      fun e _ => e ≠ .constraint .tooDeep)
    ⟨fun h => ⟨h.1, h.2⟩, fun h => ⟨h.1, h.2⟩⟩

/-- **A row is tidy, and made of copies** of the effect of doing nothing and of what the effects are when
they are ready. -/
theorem exists_copies_row (s : Session)
    (hcount : ((Effect.nop :: fs).flatMap Effect.drawn).length ≤ 2 ^ 64)
    (hes : List.Forall₂ ReadyAs fs es) (htidy : ∀ e ∈ es, ∃ sort, e.kind.Tidy sort) :
    (∃ names, Copies (nop.atop Infer.restName :: es) (s.row fs) names ∧ names.Nodup) ∧
      (s.row fs).any Effect.impure = es.any Effect.impure ∧
      ∃ sort, ∀ f ∈ s.row fs, f.kind.Tidy sort := by
  obtain ⟨names, hcopies, hperm⟩ := Copies.readyAll (.cons readyAs_nop hes) s.begin.fresh
  have hnodup : names.Nodup := hperm.nodup_iff.2 (Fresh.nodup_names hcount)
  have hnop : ∃ sort, (nop.atop Infer.restName).kind.Tidy sort := ⟨fun _ => .stack, by decide⟩
  exact ⟨⟨names, hcopies, hnodup⟩, hcopies.any_impure.trans (Bool.false_or _),
    hcopies.exists_sort hnodup (List.forall_mem_cons.2 ⟨hnop, htidy⟩)⟩

/-- **A row has a valuation for every path** through the effects that it is made of. -/
theorem path_row_iff (s : Session)
    (hcount : ((Effect.nop :: fs).flatMap Effect.drawn).length ≤ 2 ^ 64)
    (hes : List.Forall₂ ReadyAs fs es) (htidy : ∀ e ∈ es, ∃ sort, e.kind.Tidy sort) (x z : Stack) :
    Stack.Proper x ∧ Path es x z ↔ ∃ σ : Valuation, σ.Proper ∧
      σ.Solves (joints (s.row fs)) ∧ σ.values (joinAll (s.row fs)).consumed = x ∧
        σ.values (joinAll (s.row fs)).produced = z := by
  obtain ⟨⟨names, hcopies, hnodup⟩, -⟩ := s.exists_copies_row hcount hes htidy
  have hcons : Stack.Proper x ∧ Path es x z ↔ Path (nop.atop Infer.restName :: es) x z := by
    simp only [path_cons_iff, maps_nop_iff, and_assoc, exists_and_left, exists_eq_left']
  rw [hcons, hcopies.path_iff hnodup]
  exact exists_congr fun σ => and_congr_right' Valuation.traces_cons_iff

/-- **A regular pass composes relations**, and fails only if they have nothing to compose. -/
theorem Regular.ends_run (h : s.Regular fs) (hs : s.Idle) (hes : List.Forall₂ ReadyAs fs es)
    (htidy : ∀ e ∈ es, ∃ sort, e.kind.Tidy sort) : Ends (Request.composeAll fs).run s
      (fun r t => r = (s.found fs t).close.generalize ∧ (s.found fs t).Composes es)
      fun _ _ => ∀ x z, Stack.Proper x → ¬Path es x z := by
  obtain ⟨-, himpure, sort, hsort⟩ := s.exists_copies_row h.count hes htidy
  have hpath := s.path_row_iff h.count hes htidy
  have hrow := tidyOver_vars hsort
  have hjoints := tidyOver_joints hrow
  refine (Ends.self _ _).mono (fun r t hrt => ?_) fun e t het x z hx hxz => ?_
  · obtain ⟨hr, u, u', hu, hu', hasked⟩ := (hs.ends_pass fs).ok hrt
    have hvs : ∀ v ∈ (s.row fs).flatMap fun f => f.kind.vars, sort v.name = v.sort := by
      intro v hv
      obtain ⟨f, hf, hvf⟩ := List.mem_flatMap.1 hv
      exact (hsort f hf).2 v hvf
    have hfound : s.found fs t = u'.resolveEffect (joinAll (s.row fs)) := by
      rw [found, Store.resolveEffect, Store.resolveEffect, hasked.solution]
    have hexact := (h.ends.ok hrt).congr hasked.solution.symm
    obtain ⟨hfoundTidy, hmaps⟩ := hexact.maps_iff hvs hjoints hu hu'
      (tidyOver_joinAll hrow)
    refine ⟨hr, ⟨sort, hfound ▸ hfoundTidy⟩, impure_joinAll.trans himpure, fun x z => ?_⟩
    rw [hfound, hpath]
    exact hmaps x z
  · obtain ⟨fault, rfl, hfault⟩ := (hs.ends_pass fs).error het
    obtain ⟨σ, -, hsolves, -⟩ := (hpath x z).1 ⟨hx, hxz⟩
    have hdeep := Store.eq_tooDeep_of_relates (T := σ.theory sort _ _) id (fun _ _ hk => hk.1)
      (hsolves.relates (fun c hc => ⟨(hjoints c hc).1.1, (hjoints c hc).2.1⟩) _ _) hfault
    exact h.ends.error het (by rw [hdeep])

end Session

end StackEffect
