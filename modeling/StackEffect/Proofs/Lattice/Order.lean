import Mathlib.Data.Fintype.EquivFin
import StackEffect.Lattice.Reader
import StackEffect.Proofs.Lattice.Validate

/-!
# Proofs/Lattice/Order — when the names of a valid lattice are ordered

    canonical top = top        ↔   every name is a subtype of the top type
    supertypes top = []        ↔   subtyping is transitive   ↔   subtyping is antisymmetric

Validation rules out cycles of declared supertypes.  But the top type lies above every name without
being declared there, so that a supertype of the top type makes a cycle that validation cannot see.
And if the top type is an alias, then what it leads to is not known to lie above every name.
-/

namespace StackEffect

theorem Assoc.get?_eq_none_of_notMem {α : Type} {t : Assoc α} {key : String} (h : key ∉ keys t) :
    get? t key = none := by
  refine List.lookup_eq_none_iff.2 fun e he => bne_iff_ne.2 ?_
  rintro rfl
  exact h (List.mem_map.2 ⟨e, he, rfl⟩)

namespace Lattice

variable {l : Lattice} {a b c n : String}

/-! ## Names that nothing was declared of -/

theorem infinite_string : Infinite String := by
  refine Infinite.of_injective (fun n => String.ofList (List.replicate n 'a')) fun m n h => ?_
  have hlist := congrArg (fun s => s.toList.length) h
  simpa using hlist

/-- **There is always another name** that stands for itself and has no supertypes. -/
theorem exists_undeclared (l : Lattice) (b : String) :
    ∃ a, a ≠ b ∧ l.canonical a = a ∧ l.supertypes a = [] := by
  have := infinite_string
  obtain ⟨a, ha⟩ := Infinite.exists_notMem_finset
    (b :: (Assoc.keys l.aliases ++ Assoc.keys l.types)).toFinset
  simp only [List.mem_toFinset, List.mem_cons, List.mem_append, not_or] at ha
  obtain ⟨hb, halias, htype⟩ := ha
  refine ⟨a, hb, ?_, ?_⟩
  · rw [canonical, chase, Assoc.get?_eq_none_of_notMem halias]
  · rw [supertypes, Assoc.get?_eq_none_of_notMem htype, Option.getD_none]

/-! ## The laws -/

theorem isSubtypeOf_self (l : Lattice) (a : String) : l.isSubtypeOf a a = true :=
  isSubtypeOf_iff.2 (.inr .refl)

/-- **The top type is the greatest if and only if it is no alias of another.** -/
theorem forall_isSubtypeOf_top_iff :
    (∀ a, l.isSubtypeOf a l.top = true) ↔ l.canonical l.top = l.top := by
  refine ⟨fun h => ?_, fun h a => isSubtypeOf_iff.2 (.inl h)⟩
  obtain ⟨a, hne, ha, hnone⟩ := l.exists_undeclared (l.canonical l.top)
  refine (isSubtypeOf_iff.1 (h a)).resolve_right fun hbelow => hne ?_
  rw [ha] at hbelow
  exact eq_of_below hbelow hnone

/-- **Nothing lies above the top type**, if it is the canonical name of any. -/
def TopIsMaximal (l : Lattice) : Prop := (∃ n, l.canonical n = l.top) → l.supertypes l.top = []

theorem TopIsMaximal.eq_top (h : l.TopIsMaximal) (hn : l.canonical n = l.top)
    (hbelow : l.Below l.top b) : b = l.top :=
  (eq_of_below hbelow (h ⟨n, hn⟩)).symm

section Valid

variable (hv : l.validate = .ok ())

include hv

theorem ne_of_up (h : l.Up a b) : b ≠ a := by
  rintro rfl
  exact (validate_iff_wellDeclared.1 hv).acyclic b (.single h)

theorem eq_of_below_of_below (h : l.Below a b) (h' : l.Below b a) : a = b := by
  rcases Relation.reflTransGen_iff_eq_or_transGen.1 h with rfl | hab
  · rfl
  · exact absurd (hab.trans_left h') ((validate_iff_wellDeclared.1 hv).acyclic a)

/-- **Subtyping is transitive if and only if nothing lies above the top type.** -/
theorem isSubtypeOf_trans_iff :
    (∀ a b c, l.isSubtypeOf a b = true → l.isSubtypeOf b c = true → l.isSubtypeOf a c = true) ↔
      l.TopIsMaximal := by
  constructor
  · rintro h ⟨n, hn⟩
    by_contra hsupers
    obtain ⟨p, hp⟩ := List.exists_mem_of_ne_nil _ hsupers
    have hup : l.Up l.top (l.canonical p) := ⟨p, hp, rfl⟩
    -- a name of which nothing was declared is below the top type, but not below `p`
    obtain ⟨a, hne, ha, hnone⟩ := l.exists_undeclared (l.canonical p)
    have hap := h a n p (isSubtypeOf_iff.2 (.inl hn))
      (isSubtypeOf_iff.2 (.inr (hn ▸ .single hup)))
    rcases isSubtypeOf_iff.1 hap with htop | hbelow
    · exact ne_of_up hv hup htop
    · rw [ha] at hbelow
      exact hne (eq_of_below hbelow hnone)
  · intro h a b c hab hbc
    rw [isSubtypeOf_iff] at hab hbc ⊢
    rcases hbc with hc | hbc
    · exact .inl hc
    · rcases hab with hb | hab
      · exact .inl (h.eq_top hb (hb ▸ hbc))
      · exact .inr (hab.trans hbc)

/-- **Subtyping is antisymmetric if and only if nothing lies above the top type.** -/
theorem isSubtypeOf_antisymm_iff :
    (∀ a b, l.isSubtypeOf a b = true → l.isSubtypeOf b a = true → l.canonical a = l.canonical b) ↔
      l.TopIsMaximal := by
  constructor
  · rintro h ⟨n, hn⟩
    by_contra hsupers
    obtain ⟨p, hp⟩ := List.exists_mem_of_ne_nil _ hsupers
    have hup : l.Up l.top (l.canonical p) := ⟨p, hp, rfl⟩
    have heq := h n p (isSubtypeOf_iff.2 (.inr (hn ▸ .single hup))) (isSubtypeOf_iff.2 (.inl hn))
    exact ne_of_up hv hup (heq.symm.trans hn)
  · intro h a b hab hba
    rw [isSubtypeOf_iff] at hab hba
    rcases hab with hb | hab
    · rcases hba with ha | hba
      · exact ha.trans hb.symm
      · exact (h.eq_top hb (hb ▸ hba)).trans hb.symm
    · rcases hba with ha | hba
      · exact ha.trans (h.eq_top ha (ha ▸ hab)).symm
      · exact eq_of_below_of_below hv hab hba

end Valid

theorem validate_default : default.validate = .ok () :=
  validate_of_rank (["any", "number", "int", "byte", "list", "stream", "bytes"].idxOf ·)
    (by decide +kernel)

/-- **When the names of a valid lattice are ordered.**  Every name is a subtype of itself.  The top
type is the greatest if and only if it is no alias of another; subtyping is transitive, and
antisymmetric up to aliases, if and only if nothing lies above the top type.  So all laws hold if
and only if the top type is its own canonical name and declares no supertypes. -/
theorem valid_lattice_ordered_iff (l : Lattice) (hv : l.validate = .ok ()) :
    let greatest := ∀ a, l.isSubtypeOf a l.top = true
    let transitive := ∀ a b c,
      l.isSubtypeOf a b = true → l.isSubtypeOf b c = true → l.isSubtypeOf a c = true
    let antisymmetric := ∀ a b,
      l.isSubtypeOf a b = true → l.isSubtypeOf b a = true → l.canonical a = l.canonical b
    (∀ a, l.isSubtypeOf a a = true) ∧
      (greatest ↔ l.canonical l.top = l.top) ∧
      (transitive ↔ l.TopIsMaximal) ∧ (antisymmetric ↔ l.TopIsMaximal) ∧
      (greatest ∧ transitive ∧ antisymmetric ↔
        l.canonical l.top = l.top ∧ l.supertypes l.top = []) := by
  intro greatest transitive antisymmetric
  have hgreatest : greatest ↔ l.canonical l.top = l.top := forall_isSubtypeOf_top_iff
  have htransitive : transitive ↔ l.TopIsMaximal := isSubtypeOf_trans_iff hv
  have hantisymmetric : antisymmetric ↔ l.TopIsMaximal := isSubtypeOf_antisymm_iff hv
  refine ⟨l.isSubtypeOf_self, hgreatest, htransitive, hantisymmetric, ?_⟩
  rw [hgreatest, htransitive, hantisymmetric, and_self]
  exact and_congr_right fun htop => ⟨fun h => h ⟨_, htop⟩, fun h _ => h⟩

/-- The names of the default lattice are ordered, with `any` on top. -/
theorem default_lattice_ordered :
    let l := Lattice.default
    l.validate = .ok () ∧ l.canonical "var" = l.top ∧ l.isSubtypeOf "bit" "number" = true ∧
      (∀ a, l.isSubtypeOf a l.top = true) ∧
      (∀ a b c, l.isSubtypeOf a b = true → l.isSubtypeOf b c = true → l.isSubtypeOf a c = true) ∧
      ∀ a b,
        l.isSubtypeOf a b = true → l.isSubtypeOf b a = true → l.canonical a = l.canonical b := by
  intro l
  obtain ⟨-, -, -, -, hlaws⟩ := valid_lattice_ordered_iff l validate_default
  exact ⟨validate_default, by decide +kernel, by decide +kernel, hlaws.2 (by decide +kernel)⟩

/-- **Valid lattices need not be ordered.**  With a supertype of the top type, `int` is a subtype of
`any`, and `any` of `object`, but `int` is not a subtype of `object`; and `any` and `object` are
subtypes of each other.  If the top type is an alias, `int` is not a subtype of it. -/
theorem valid_lattice_not_ordered :
    let above := ((empty "any").declare "object" []).declare "any" ["object"]
    let aliased := ((empty "any").declare "object" []).addAlias "any" "object"
    above.validate = .ok () ∧ above.isSubtypeOf "int" "any" = true ∧
      above.isSubtypeOf "any" "object" = true ∧ above.isSubtypeOf "int" "object" = false ∧
      above.isSubtypeOf "object" "any" = true ∧
      above.canonical "any" ≠ above.canonical "object" ∧
      aliased.validate = .ok () ∧ aliased.isSubtypeOf "int" aliased.top = false := by
  intro above aliased
  have habove : above.validate = .ok () :=
    validate_of_rank (["object", "any"].idxOf ·) (by decide +kernel)
  have haliased : aliased.validate = .ok () := validate_of_rank (fun _ => 0) (by decide +kernel)
  exact ⟨habove, by decide +kernel, by decide +kernel, by decide +kernel, by decide +kernel,
    by decide +kernel, haliased, by decide +kernel⟩

end Lattice

end StackEffect
