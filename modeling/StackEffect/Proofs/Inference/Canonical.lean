import StackEffect.Proofs.Inference.Names
import StackEffect.Proofs.Inference.Relabel

/-!
# Proofs/Inference/Canonical — canonical forms are variants

    'a, 'b, …, 'z, 'a1, …        'A, 'B, …, 'Z, 'A1, …

Different variables have different canonical names: a name tells its place in its row
(`letterName_injective`), and its letter tells the row.  So a kind in canonical form is the kind under
other names, and kinds of one canonical form are each other under other names
(`Kind.canonical_form_decides_renaming`).  A name in both sorts is settled in one of them first.
-/

namespace StackEffect

open Signature

/-- **A canonical name tells its place.** -/
theorem letterName_injective {first : Char} (hfirst : first.toNat + 26 ≤ 0xD800) :
    Function.Injective (letterName first) := by
  have hletter : ∀ i : Nat, (Char.ofNat (first.toNat + i % 26)).toNat = first.toNat + i % 26 := by
    intro i
    rw [Char.ofNat, dif_pos (.inl (by omega))]
    rfl
  have hnumber : ∀ i : Nat,
      Nat.ofDigitChars 10 (if i < 26 then "" else toString (i / 26)).toList 0 = i / 26 := by
    intro i
    split
    · next hi => rw [Nat.div_eq_of_lt hi]; rfl
    · rw [Nat.toString_eq_ofList_toDigits, String.toList_ofList, Nat.ofDigitChars_ten_toDigits]
  intro i j hij
  have hlist := congrArg String.toList hij
  rw [letterName, letterName, String.toList_append, String.toList_append, String.toList_append,
    String.toList_append, List.append_assoc, List.append_assoc, List.append_cancel_left_eq] at hlist
  obtain ⟨hl, hn⟩ := List.append_inj hlist (by simp)
  have hmod : i % 26 = j % 26 := by
    have := congrArg Char.toNat (List.singleton_inj.1 (by simpa using hl))
    rw [hletter, hletter] at this
    omega
  have hdiv : i / 26 = j / 26 := by rw [← hnumber i, ← hnumber j, hn]
  rw [← Nat.div_add_mod i 26, ← Nat.div_add_mod j 26, hmod, hdiv]

namespace Kind

variable {isStack : String → Bool} {names : List String} {i j : Nat} {w : Var} {k : Kind}

/-- The places of canonical variables begin where they are told to begin. -/
theorem exists_of_mem_canonicalVars (h : w ∈ (canonicalVars isStack names i j).map Prod.snd) :
    (∃ n ≥ j, w = ⟨.stack, letterName 'A' n⟩) ∨ ∃ n ≥ i, w = ⟨.slot, letterName 'a' n⟩ := by
  induction names generalizing i j with
  | nil => exact absurd h List.not_mem_nil
  | cons name names ih =>
    rw [canonicalVars] at h
    split at h <;> rcases List.mem_cons.1 h with rfl | h
    · exact .inl ⟨j, Nat.le_refl j, rfl⟩
    · exact (ih h).imp_left (.imp fun n => And.imp_left Nat.le_of_succ_le)
    · exact .inr ⟨i, Nat.le_refl i, rfl⟩
    · exact (ih h).imp_right (.imp fun n => And.imp_left Nat.le_of_succ_le)

theorem nodup_canonicalVars : ((canonicalVars isStack names i j).map Prod.snd).Nodup := by
  induction names generalizing i j with
  | nil => exact List.nodup_nil
  | cons name names ih =>
    rw [canonicalVars]
    split <;> refine List.nodup_cons.2 ⟨fun h => ?_, ih⟩
    · rcases exists_of_mem_canonicalVars h with ⟨n, hn, hw⟩ | ⟨n, -, hw⟩
      · have := letterName_injective (by decide) (Var.mk.inj hw).2
        omega
      · cases (Var.mk.inj hw).1
    · rcases exists_of_mem_canonicalVars h with ⟨n, -, hw⟩ | ⟨n, hn, hw⟩
      · cases (Var.mk.inj hw).1
      · have := letterName_injective (by decide) (Var.mk.inj hw).2
        omega

/-- **A canonical form is the kind under other names**, whose letters tell their sorts. -/
theorem exists_generalize_eq {sort : String → VarSort} (hsort : ∀ v ∈ k.vars, sort v.name = v.sort) :
    ∃ m, Separates m k ∧ k.generalize = k.relabel m ∧ ∀ v ∈ k.vars, sortOf (m v.name) = v.sort := by
  have hlookup : ∀ v ∈ k.vars, ∃ w, k.canonicalTable.lookup v.name = some w ∧ w.sort = v.sort ∧
      sortOf w.name = w.sort := by
    intro v hv
    obtain ⟨w, hw, -⟩ := lookup_canonicalVars_map (ρ := id) (i := 0) (j := 0)
      (Function.injective_id.injOn) (fun _ _ => rfl) (mem_freeVars.2 ⟨v, hv, rfl⟩)
    obtain ⟨hws, hwrite⟩ := sort_canonicalTable hsort hv hw
    exact ⟨w, hw, hws, (writable_var.1 hwrite).2⟩
  refine ⟨fun a => ((k.canonicalTable.lookup a).map Var.name).getD a, fun a ha b hb hab => ?_,
    subst_congr fun v hv => ?_, fun v hv => ?_⟩
  · obtain ⟨v, hv, rfl⟩ := mem_freeVars.1 ha
    obtain ⟨v', hv', rfl⟩ := mem_freeVars.1 hb
    obtain ⟨w, hw, -, hs⟩ := hlookup v hv
    obtain ⟨w', hw', -, hs'⟩ := hlookup v' hv'
    simp only [hw, hw', Option.map_some, Option.getD_some] at hab
    have hww : w' = w := by
      rcases w with ⟨s, n⟩
      rcases w' with ⟨s', n'⟩
      simp_all
    subst hww
    have hmem : ∀ {a w}, k.canonicalTable.lookup a = some w → (a, w) ∈ k.canonicalTable := by
      intro a w h
      obtain ⟨l, l', heq, -⟩ := List.lookup_eq_some_iff.1 h
      rw [heq]
      exact List.mem_append_right _ List.mem_cons_self
    exact congrArg Prod.fst (List.inj_on_of_nodup_map nodup_canonicalVars (hmem hw) (hmem hw') rfl)
  · obtain ⟨w, hw, hws, -⟩ := hlookup v hv
    simp only [hw, Var.relabel, Option.map_some, Option.getD_some, ← hws]
  · obtain ⟨w, hw, hws, hs⟩ := hlookup v hv
    simp only [hw, Option.map_some, Option.getD_some, hs, hws]

/-! ## Canonical forms and new names -/

/-- The names of a canonical form tell their sorts. -/
theorem OneSorted.generalize (hk : k.OneSorted) : k.generalize.OneSorted := by
  obtain ⟨m, -, heq, hsorts⟩ := exists_generalize_eq fun v hv => hk.sortIn_eq hv
  refine oneSorted_of_sort sortOf fun v hv => ?_
  rw [heq, vars_relabel] at hv
  obtain ⟨w, hw, rfl⟩ := List.mem_map.1 hv
  exact hsorts w hw

/-- **Kinds of one canonical form differ only by names**: what turns the one into the form, and then
back into the other. -/
theorem exists_relabel_of_generalize_eq {l : Kind} (hk : k.OneSorted) (hl : l.OneSorted)
    (h : k.generalize = l.generalize) : ∃ ρ, Separates ρ k ∧ l = k.relabel ρ := by
  obtain ⟨m, hm, hkm, -⟩ := exists_generalize_eq fun v hv => hk.sortIn_eq hv
  obtain ⟨m', hm', hlm, -⟩ := exists_generalize_eq fun v hv => hl.sortIn_eq hv
  have heq : k.relabel m = l.relabel m' := by rw [← hkm, ← hlm, h]
  let back := Function.invFunOn m' {n | n ∈ l.freeVars}
  have hback : l.relabel (back ∘ m') = l := relabel_eq_self fun v hv =>
    Set.InjOn.leftInvOn_invFunOn hm' (mem_freeVars.2 ⟨v, hv, rfl⟩)
  have himage : ∀ n ∈ k.freeVars, m n ∈ m' '' {n | n ∈ l.freeVars} := by
    intro n hn
    have hmem : m n ∈ (l.relabel m').freeVars := by
      rw [← heq, freeVars_relabel hm]
      exact List.mem_map_of_mem hn
    rw [freeVars_relabel hm'] at hmem
    exact List.mem_map.1 hmem
  refine ⟨back ∘ m, fun a ha b hb hab => hm ha hb ?_, ?_⟩
  · exact Function.invFunOn_injOn_image m' _ (himage a ha) (himage b hb) hab
  · rw [← relabel_relabel, heq, relabel_relabel, hback]

/-- The kind in which a name that stands for a stack somewhere does so everywhere. -/
def settleSorts (k : Kind) : Kind := k.subst fun v => (Var.mk (k.sortIn v.name) v.name).kind

theorem vars_settleSorts : k.settleSorts.vars = k.vars.map fun v => ⟨k.sortIn v.name, v.name⟩ :=
  vars_subst_var

theorem oneSorted_settleSorts : k.settleSorts.OneSorted := by
  refine oneSorted_of_sort k.sortIn fun v hv => ?_
  rw [vars_settleSorts] at hv
  obtain ⟨w, -, rfl⟩ := List.mem_map.1 hv
  rfl

theorem freeVars_settleSorts : k.settleSorts.freeVars = k.freeVars := by
  rw [freeVars, vars_settleSorts, List.map_map, freeVars]
  rfl

theorem contains_stackNames_settleSorts {n : String} (hn : n ∈ k.freeVars) :
    k.settleSorts.stackNames.contains n = k.stackNames.contains n := by
  have hsort : ∀ v ∈ k.settleSorts.vars, v.sort = k.sortIn v.name := fun v hv => by
    rw [vars_settleSorts] at hv
    obtain ⟨w, -, rfl⟩ := List.mem_map.1 hv
    rfl
  have hstack : k.sortIn n = .stack ↔ k.stackNames.contains n = true := by
    rw [sortIn]
    split <;> simp_all
  rw [← freeVars_settleSorts] at hn
  obtain ⟨v, hv, rfl⟩ := mem_freeVars.1 hn
  rw [Bool.eq_iff_iff, ← hstack, stackNames, List.contains_iff_mem]
  simp only [List.mem_map, List.mem_filter, beq_iff_eq]
  constructor
  · rintro ⟨w, ⟨hw, hs⟩, hwv⟩
    rw [← hwv, ← hsort w hw, hs]
  · exact fun hs => ⟨v, ⟨hv, (hsort v hv).trans hs⟩, rfl⟩

/-- **The canonical form settles the sorts.** -/
theorem generalize_settleSorts : k.settleSorts.generalize = k.generalize := by
  rw [generalize, settleSorts, subst_subst, generalize]
  refine subst_congr fun v hv => ?_
  obtain ⟨w, hw, hw'⟩ := lookup_canonicalVars_map (ρ := id) (i := 0) (j := 0)
    (Function.injective_id.injOn) (fun _ hn => contains_stackNames_settleSorts hn)
    (mem_freeVars.2 ⟨v, hv, rfl⟩)
  rw [List.map_id] at hw'
  simp only [id] at hw hw'
  rw [subst_varKind, ← settleSorts, canonicalTable, canonicalTable, freeVars_settleSorts, hw', hw]
  rfl

/-- **A canonical form is its own canonical form.** -/
theorem generalize_generalize : k.generalize.generalize = k.generalize := by
  obtain ⟨m, hm, heq, -⟩ := exists_generalize_eq (k := k.settleSorts) fun v hv =>
    oneSorted_settleSorts.sortIn_eq hv
  rw [← generalize_settleSorts (k := k), heq, generalize_relabel hm, heq]

/-- **Canonical forms decide whether kinds differ only in the names of variables.**  Where no name is
used in both sorts, the canonical form of a kind is the kind under new variables, and two kinds have
the same one if and only if new variables turn the one kind into the other.  Whatever the sorts, a
canonical form is its own canonical form. -/
theorem canonical_form_decides_renaming :
    (∀ k : Kind, k.OneSorted → k.generalize.OneSorted ∧
      ∃ r, Renaming r k ∧ k.generalize = k.subst fun v => (r v).kind) ∧
      (∀ k l : Kind, k.OneSorted → l.OneSorted → (k.generalize = l.generalize ↔
        ∃ r, Renaming r k ∧ l = k.subst fun v => (r v).kind)) ∧
      ∀ k : Kind, k.generalize.generalize = k.generalize := by
  refine ⟨fun k hk => ⟨hk.generalize, ?_⟩, fun k l hk hl => ⟨fun h => ?_, ?_⟩,
    fun _ => generalize_generalize⟩
  · obtain ⟨m, hm, heq, -⟩ := exists_generalize_eq fun v hv => hk.sortIn_eq hv
    exact ⟨_, hm.renaming, heq⟩
  · obtain ⟨ρ, hρ, heq⟩ := exists_relabel_of_generalize_eq hk hl h
    exact ⟨_, hρ.renaming, heq⟩
  · rintro ⟨r, hr, rfl⟩
    obtain ⟨ρ, hρ, heq⟩ := hr.exists_relabel hk hl
    rw [heq, generalize_relabel hρ]

/-- A name in both sorts. -/
example : (effect [typeVar "'x", stackVar "'x"] [typeVar "'y"] false).generalize =
    effect [stackVar "'A", stackVar "'A"] [typeVar "'a"] false := by
  decide +kernel

end Kind

namespace Effect

variable {f : Effect}

/-- **An effect in canonical form is the effect under other names.** -/
theorem variant_generalize (hf : f.OneSorted) : f.Variant f.generalize := by
  obtain ⟨sort, hsort⟩ := id hf
  obtain ⟨m, hm, heq, hsorts⟩ := Kind.exists_generalize_eq hsort
  have heq : f.generalize = f.relabel m := kind_injective heq
  refine ⟨hf, ⟨sortOf, fun v hv => ?_⟩, Var.relabel m, fun _ => rfl, hm.renaming.injOn, heq⟩
  rw [heq, kind_relabel, Kind.vars_relabel] at hv
  obtain ⟨w, hw, rfl⟩ := List.mem_map.1 hv
  exact hsorts w hw

end Effect

end StackEffect
