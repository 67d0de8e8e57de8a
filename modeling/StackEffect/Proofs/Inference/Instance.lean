import Mathlib.Algebra.Group.Nat.Defs
import Mathlib.Data.List.Basic
import Mathlib.Logic.Equiv.Basic
import StackEffect.Inference.Session
import StackEffect.Proofs.Inference.Names
import StackEffect.Proofs.Kind.Relabel

/-!
# Proofs/Inference/Instance — instances of effects that differ by names

    ('a -> 'a 'b)   ⟶   ('a_3 -> 'a_3 'b_4)
    ('x -> 'x 'y)   ⟶   ('x_3 -> 'x_3 'y_4)

Fresh names differ, whatever their bases are, until the counter has gone round (`nodup_names`).  So a
permutation takes those of the one instance to those of the other (`exists_perm_map_eq`), and with them the
one instance to the other (`instantiateEffect_relabel`).
-/

namespace StackEffect

namespace Fresh

/-! ## Fresh names -/

/-- The counter, when names were drawn. -/
def after : List String → Fresh → Fresh
  | [], c => c
  | a :: as, c => after as (name a c).2

/-- The names that are drawn for some bases. -/
def names : List String → Fresh → List String
  | [], _ => []
  | a :: as, c => (name a c).1 :: names as (name a c).2

variable {a b : String} {as bs as' bs' : List String} {c c' : Fresh}

theorem after_append : after (as ++ bs) c = after bs (after as c) := by
  induction as generalizing c with
  | nil => rfl
  | cons a as ih => exact ih

theorem names_append : names (as ++ bs) c = names as c ++ names bs (after as c) := by
  induction as generalizing c with
  | nil => rfl
  | cons a as ih => exact congrArg _ ih

@[simp] theorem length_names : (names as c).length = as.length := by
  induction as generalizing c with
  | nil => rfl
  | cons a as ih => exact congrArg (· + 1) ih

/-- **A fresh name tells its number.** -/
theorem next_eq_of_name_eq (h : (name a c).1 = (name b c').1) : c.next = c'.next := by
  have hdigits : ∀ n : Nat, ∀ x ∈ (Nat.toDigits 10 n).reverse, (x != '_') = true := by
    intro n x hx
    rw [bne_iff_ne]
    rintro rfl
    exact absurd (Nat.isDigit_of_mem_toDigits (by decide) (by decide) (List.mem_reverse.1 hx))
      (by decide)
  have hnumber : ∀ (s : String) (n : Nat),
      (s ++ "_" ++ toString n).toList.reverse.takeWhile (· != '_') = (Nat.toDigits 10 n).reverse := by
    intro s n
    rw [String.toList_append, String.toList_append, List.reverse_append, List.reverse_append,
      Nat.toString_eq_ofList_toDigits, String.toList_ofList,
      List.takeWhile_append_of_pos (hdigits n)]
    simp
  have hlast := congrArg (fun s : String => s.toList.reverse.takeWhile (· != '_')) h
  dsimp only [name] at hlast
  rw [hnumber, hnumber, List.reverse_inj] at hlast
  refine UInt64.toNat_inj.1 ?_
  calc c.next.toNat = Nat.ofDigitChars 10 (Nat.toDigits 10 c.next.toNat) 0 :=
        Nat.ofDigitChars_ten_toDigits.symm
    _ = Nat.ofDigitChars 10 (Nat.toDigits 10 c'.next.toNat) 0 := by rw [hlast]
    _ = c'.next.toNat := Nat.ofDigitChars_ten_toDigits

/-- A name that is drawn later is another one, until the counter has gone round. -/
theorem name_notMem_names (h : as.length < 2 ^ 64) : (name a c).1 ∉ names as (name b c).2 := by
  suffices hdist : ∀ (as : List String) (c' : Fresh) (k : Nat), c'.next = c.next + UInt64.ofNat k →
      0 < k → k + as.length ≤ 2 ^ 64 → (name a c).1 ∉ names as c' from
    hdist as _ 1 rfl Nat.one_pos (by omega)
  intro as
  induction as with
  | nil => exact fun _ _ _ _ _ => List.not_mem_nil
  | cons d as ih =>
    intro c' k hk hpos hle
    rw [List.length_cons] at hle
    rw [names, List.mem_cons, not_or]
    refine ⟨fun he => ?_, ih _ (k + 1) ?_ (Nat.succ_pos k) (by omega)⟩
    · have hnext := next_eq_of_name_eq he
      rw [hk, UInt64.left_eq_add] at hnext
      have := congrArg UInt64.toNat hnext
      rw [UInt64.toNat_ofNat'] at this
      simp only [UInt64.toNat_zero] at this
      omega
    · change c'.next + 1 = _
      rw [hk, UInt64.add_assoc, UInt64.ofNat_add]
      rfl

/-- **Fresh names differ**, until the counter has gone round. -/
theorem nodup_names (h : as.length ≤ 2 ^ 64) : (names as c).Nodup := by
  induction as generalizing c with
  | nil => exact List.nodup_nil
  | cons a as ih =>
    rw [List.length_cons] at h
    exact List.nodup_cons.2 ⟨name_notMem_names (by omega), ih (by omega)⟩

/-- **Lists that do not repeat themselves are told by each other**, up to a permutation. -/
theorem exists_perm_map_eq {l l' : List String} (h : l.Nodup) (h' : l'.Nodup)
    (hlen : l.length = l'.length) : ∃ ρ : Equiv.Perm String, l.map ρ = l' := by
  induction l generalizing l' with
  | nil => exact ⟨.refl _, (List.length_eq_zero_iff.1 hlen.symm).symm⟩
  | cons x xs ih =>
    obtain ⟨y, ys, rfl⟩ := List.exists_cons_of_length_eq_add_one hlen.symm
    rw [List.nodup_cons] at h h'
    obtain ⟨ρ, hρ⟩ := ih h.2 h'.2 (Nat.succ.inj hlen)
    -- whatever `x` was taken to gives way to `y`
    refine ⟨ρ.trans (Equiv.swap (ρ x) y), ?_⟩
    rw [List.map_cons, Equiv.trans_apply, Equiv.swap_apply_left, ← hρ]
    refine congrArg _ (List.map_congr_left fun z hz => ?_)
    rw [Equiv.trans_apply]
    refine Equiv.swap_apply_of_ne_of_ne (fun e => h.1 (ρ.injective e ▸ hz)) ?_
    rintro rfl
    exact h'.1 (hρ ▸ List.mem_map_of_mem hz)

theorem exists_perm_names (h : as.length = bs.length) (hlen : as.length ≤ 2 ^ 64) (c c' : Fresh) :
    ∃ ρ : Equiv.Perm String, (names as c).map ρ = names bs c' :=
  exists_perm_map_eq (nodup_names hlen) (nodup_names (h ▸ hlen)) (by simp [h])

theorem map_names_append {ρ : String → String} (h : as.length = bs.length) :
    (names (as ++ as') c).map ρ = names (bs ++ bs') c' ↔ (names as c).map ρ = names bs c' ∧
      (names as' (after as c)).map ρ = names bs' (after bs c') := by
  rw [names_append, names_append, List.map_append]
  constructor
  · exact fun he => List.append_inj he (by simp [h])
  · rintro ⟨h₁, h₂⟩
    rw [h₁, h₂]

/-! ## Tables of fresh variables -/

/-- The names among those of `vs` that a table does not have. -/
def missing (vs : List Var) (table : List (String × Var)) : List String :=
  ((vs.map Var.name).filter fun a => (table.lookup a).isNone).eraseDups

variable {vs : List Var} {v w : Var} {table table' : List (String × Var)}

theorem missing_cons_of_isSome (h : (table.lookup v.name).isSome = true) :
    missing (v :: vs) table = missing vs table := by
  rw [missing, List.map_cons, List.filter_cons_of_neg (by simpa using h), missing]

theorem missing_cons_of_isNone (h : (table.lookup v.name).isSome = false) (w : Var) :
    missing (v :: vs) table = v.name :: missing vs ((v.name, w) :: table) := by
  rw [missing, List.map_cons, List.filter_cons_of_pos (by simpa using h), List.eraseDups_cons,
    missing, List.filter_filter]
  refine congrArg (fun l => _ :: List.eraseDups l) (List.filter_congr fun b _ => ?_)
  rw [List.lookup_cons]
  cases b == v.name <;> simp

theorem rename_snd (vs : List Var) (table : List (String × Var)) (c : Fresh) :
    (rename vs table c).2 = after (missing vs table) c := by
  induction vs generalizing table c with
  | nil => rfl
  | cons v vs ih =>
    rw [rename]
    cases h : (table.lookup v.name).isSome with
    | true => rw [if_pos rfl, missing_cons_of_isSome h, ih]
    | false =>
      rw [if_neg Bool.false_ne_true, missing_cons_of_isNone h (variant v c).1]
      exact ih _ _

/-- A table keeps its entries. -/
theorem lookup_rename_of_isSome {x : String} (h : (table.lookup x).isSome = true) :
    (rename vs table c).1.lookup x = table.lookup x := by
  induction vs generalizing table c with
  | nil => rfl
  | cons v vs ih =>
    rw [rename]
    split
    · exact ih h
    · next hv =>
      have hne : (x == v.name) = false := beq_eq_false_iff_ne.2 fun e => hv (e ▸ h)
      have hlookup : ((v.name, (variant v c).1) :: table).lookup x = table.lookup x := by
        rw [List.lookup_cons, hne]
      exact (ih (hlookup ▸ h)).trans hlookup

theorem isSome_lookup_rename (h : v ∈ vs) :
    ((rename vs table c).1.lookup v.name).isSome = true := by
  induction vs generalizing table c with
  | nil => exact absurd h List.not_mem_nil
  | cons w vs ih =>
    rw [rename]
    rcases List.mem_cons.1 h with rfl | h
    · split
      · next hv => rwa [lookup_rename_of_isSome hv]
      · have hself : (((v.name, (variant v c).1) :: table).lookup v.name).isSome = true := by
          rw [List.lookup_cons_self]
          rfl
        exact (congrArg Option.isSome (lookup_rename_of_isSome hself)).trans hself
    · split
      · exact ih h
      · exact ih h

/-- The name that a table has for a name. -/
def newName (table : List (String × Var)) (a : String) : String :=
  ((table.lookup a).map Var.name).getD a

/-- **The names that are missing get fresh ones**, in turn. -/
theorem map_newName_rename (vs : List Var) (table : List (String × Var)) (c : Fresh) :
    (missing vs table).map (newName (rename vs table c).1) = names (missing vs table) c := by
  induction vs generalizing table c with
  | nil => rfl
  | cons v vs ih =>
    rw [rename]
    cases h : (table.lookup v.name).isSome with
    | true => rw [if_pos rfl, missing_cons_of_isSome h, ih]
    | false =>
      have hself : (((v.name, (variant v c).1) :: table).lookup v.name) = some (variant v c).1 :=
        List.lookup_cons_self
      have hname : newName (rename vs ((v.name, (variant v c).1) :: table) (variant v c).2).1
          v.name = (name v.name c).1 := by
        rw [newName, lookup_rename_of_isSome (hself ▸ rfl), hself]
        rfl
      rw [if_neg Bool.false_ne_true, missing_cons_of_isNone h (variant v c).1, names]
      exact congrArg₂ List.cons hname (ih _ _)

theorem sort_lookup_rename {sort : String → VarSort} (hvs : ∀ v ∈ vs, sort v.name = v.sort)
    (htable : ∀ a w, table.lookup a = some w → w.sort = sort a) :
    ∀ a w, (rename vs table c).1.lookup a = some w → w.sort = sort a := by
  induction vs generalizing table c with
  | nil => exact htable
  | cons v vs ih =>
    rw [List.forall_mem_cons] at hvs
    rw [rename]
    split
    · exact ih hvs.2 htable
    · refine ih hvs.2 fun a w hw => ?_
      rw [List.lookup_cons] at hw
      split at hw
      · next ha => rw [beq_iff_eq.1 ha, ← Option.some.inj hw, hvs.1]
      · exact htable a w hw

end Fresh

/-! ## Instances -/

/-- The names of the variables of an effect, in the order in which fresh ones are drawn for them. -/
def Effect.bases (f : Effect) : List String := (f.kind.storedVars.map Var.name).eraseDups

/-- **No name is used in both sorts.** -/
def Effect.OneSorted (f : Effect) : Prop :=
  ∃ sort : String → VarSort, ∀ v ∈ f.kind.vars, sort v.name = v.sort

theorem Effect.mem_bases {f : Effect} {a : String} : a ∈ f.bases ↔ a ∈ f.kind.freeVars := by
  rw [bases, List.mem_eraseDups, List.mem_map, Kind.mem_freeVars]
  simp only [Kind.mem_storedVars]

theorem Effect.bases_relabel {f : Effect} {r : String → String}
    (hr : Kind.Separates r f.kind) : (f.relabel r).bases = f.bases.map r := by
  have hvars : (f.relabel r).kind.storedVars = f.kind.storedVars.map (Var.relabel r) :=
    Kind.storedVars_relabel (k := f.kind)
  have hinj : Set.InjOn r {n | n ∈ f.kind.storedVars.map Var.name} :=
    hr.mono fun n hn => mem_bases.1 (List.mem_eraseDups.2 hn)
  rw [bases, hvars, List.map_map, bases, ← Kind.eraseDups_map hinj, List.map_map]
  rfl

namespace Fresh

variable {f : Effect} {r ρ : String → String} {c c' : Fresh}

theorem missing_nil (f : Effect) : missing f.kind.storedVars [] = f.bases := by
  rw [missing, Effect.bases, List.filter_eq_self.2 (by simp)]

theorem instantiateEffect_snd (f : Effect) (c : Fresh) :
    (c.instantiateEffect f).2 = after f.bases c := by
  rw [← missing_nil]
  exact rename_snd _ _ _

/-- **An instance is the kind under fresh names.** -/
theorem exists_instantiate_eq {k : Kind} {sort : String → VarSort}
    (hsort : ∀ v ∈ k.vars, sort v.name = v.sort) (c : Fresh) :
    ∃ m, (c.instantiate k).1 = k.relabel m ∧
      (missing k.storedVars []).map m = names (missing k.storedVars []) c := by
  refine ⟨newName (rename k.storedVars [] c).1, Kind.subst_congr fun v hv => ?_,
    map_newName_rename _ _ _⟩
  obtain ⟨w, hw⟩ : ∃ w, (rename k.storedVars [] c).1.lookup v.name = some w :=
    Option.isSome_iff_exists.1 (isSome_lookup_rename (Kind.mem_storedVars.2 hv))
  have hws : w.sort = sort v.name := sort_lookup_rename
    (fun v hv => hsort v (Kind.mem_storedVars.1 hv)) (by simp) _ w hw
  rw [apply, Var.relabel, newName, hw, Option.map_some, Option.getD_some, Option.getD_some,
    ← hsort v hv, ← hws]

/-- **An instance is the effect under fresh names.** -/
theorem exists_instantiateEffect_eq (hf : f.OneSorted) (c : Fresh) :
    ∃ m, (c.instantiateEffect f).1 = f.relabel m ∧ f.bases.map m = names f.bases c := by
  obtain ⟨sort, hsort⟩ := hf
  obtain ⟨m, hm, hnames⟩ := exists_instantiate_eq hsort c
  rw [missing_nil] at hnames
  exact ⟨m, Effect.kind_injective hm, hnames⟩

/-- **Instances of effects that differ by names differ by names**, if the fresh names do. -/
theorem instantiateEffect_relabel (hf : f.OneSorted) (hf' : (f.relabel r).OneSorted)
    (hr : Kind.Separates r f.kind) (hρ : (names f.bases c).map ρ = names (f.relabel r).bases c') :
    (c'.instantiateEffect (f.relabel r)).1 = (c.instantiateEffect f).1.relabel ρ := by
  obtain ⟨m, hm, hnames⟩ := exists_instantiateEffect_eq hf c
  obtain ⟨m', hm', hnames'⟩ := exists_instantiateEffect_eq hf' c'
  rw [← hnames, ← hnames', Effect.bases_relabel hr, List.map_map, List.map_map] at hρ
  refine Effect.kind_injective ?_
  rw [hm, hm', Effect.kind_relabel, Effect.kind_relabel, Effect.kind_relabel, Effect.kind_relabel,
    Kind.relabel_relabel, Kind.relabel_relabel]
  refine Kind.relabel_congr fun v hv => ?_
  exact (List.map_inj_left.1 hρ v.name (Effect.mem_bases.2 (Kind.mem_freeVars.2 ⟨v, hv, rfl⟩))).symm

end Fresh

end StackEffect
