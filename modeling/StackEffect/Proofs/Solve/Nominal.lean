import StackEffect.Proofs.Lattice.Reduce
import StackEffect.Proofs.Solve.Solution
import StackEffect.Proofs.Store.History

/-!
# Proofs/Solve/Nominal — when the order of nominal types does not matter

    'a = int,  'a = string,  'a = bool        'a  stands for  bool
    'a = int,  'a = bool,  'a = string        'a  stands for  string

A variable that is made equal to names, one after the other, stands for what they are reduced to in
this order (`ends_resolveNames`).
-/

namespace StackEffect

namespace Store

/-- **Makes a variable equal to names**, one after the other, and answers what it stands for. -/
def resolveNames (a : String) (ns : List String) : Pass Kind := do
  ns.forM fun n => constrain a (.simple n)
  solve
  return (← get).resolveKind (.typeVar a)

/-- **All that a store was told** is that a variable equals names, one after the other. -/
def Told (a : String) (ns : List String) (t : Store) : Prop :=
  t.parents = #[0] ∧ t.members = #[(ns.eraseDups.map Kind.simple).toArray] ∧ t.names = #[a] ∧
    t.index[a]? = some 0

/-- The store was told nothing. -/
def Blank (t : Store) : Prop := t.parents = #[] ∧ t.members = #[] ∧ t.names = #[] ∧ t.index = ∅

variable {s t : Store} {st : Option Subtyping} {lenient : Bool} {logging : Logging} {a n : String}
  {ns : List String} {width room : Nat}

/-! ## One name after the other -/

theorem eraseDups_concat (ns : List String) (n : String) :
    (ns ++ [n]).eraseDups = if n ∈ ns then ns.eraseDups else ns.eraseDups ++ [n] := by
  have hone : [n].eraseDups = [n] := Kind.eraseDups_of_nodup (List.nodup_singleton n)
  rw [List.eraseDups_append]
  split
  · next hn => simp [List.removeAll, hn]
  · next hn => simp [List.removeAll, hn, hone]

namespace Told

theorem root_zero (h : Told a ns t) : t.root 0 = 0 := by
  rw [root, h.1]
  rfl

theorem kept_zero (h : Told a ns t) : t.kept 0 = (ns.eraseDups.map Kind.simple).toArray := by
  rw [kept, h.2.1]
  rfl

theorem append (h : Told a ns t) (hn : n ∉ ns) : Told a (ns ++ [n]) (t.append 0 (.simple n)) := by
  refine ⟨h.1, ?_, h.2.2⟩
  rw [Store.append, h.2.1, eraseDups_concat, if_neg hn]
  simp

section

variable {E : Fault → Store → Prop}

/-- The only class is found without any link to follow. -/
theorem ends_find (h : Told a ns t) {Q : Nat → Store → Prop} (hQ : Q 0 t) :
    Ends (Site.find 0) t Q E := by
  have hparent : t.parent 0 = 0 := by rw [parent, h.1]; rfl
  have hsize : t.parents.size = 1 := by rw [h.1]; rfl
  have hfollow : follow t.parents 1 0 = 0 := by rw [h.1]; rfl
  rw [Site.find, Ends.bind_iff, Site.ends_look_iff, hsize, Ends.bind_iff, Site.ends_climb_iff,
    hfollow, Ends.bind_iff, Site.shorten, Ends.bind_iff, Site.ends_look_iff]
  dsimp only
  rw [if_pos hparent]
  exact hQ

theorem ends_holds (h : Told a ns t) {Q : Bool → Store → Prop} (hQ : Q (decide (n ∈ ns)) t) :
    Ends (Site.holds 0 (.simple n)) t Q E := by
  have hmem : (t.kept 0).contains (.simple n) = decide (n ∈ ns) := by
    rw [h.kept_zero, Bool.eq_iff_iff]
    simp
  refine Ends.bind_iff.2 (h.ends_find (Ends.bind_iff.2 (Site.ends_look_iff.2 ?_)))
  rw [hmem]
  exact hQ

theorem ends_classOf (h : Told a ns t) : Ends (Site.classOf a) t
    (fun id u => id = some 0 ∧ Told a ns u ∧ u.nesting = t.nesting) E := by
  refine Ends.bind_iff.2 (Site.ends_look_iff.2 ?_)
  rw [h.2.2.2]
  refine Ends.bind_iff.2 (h.ends_find (Ends.bind_iff.2 (Site.ends_alter_iff.2 ?_)))
  refine ⟨rfl, ⟨h.1, h.2.1, h.2.2.1, ?_⟩, rfl⟩
  rw [settle, index_insert, if_pos rfl]

end

theorem ends_join (h : Told a ns t) : Ends (Unify.join width (room + 1) 0 (.simple n)) t
    (fun _ u => Told a (ns ++ [n]) u ∧ u.nesting = t.nesting) fun _ _ => False := by
  rw [Unify.join_succ, Unify.ends_nested_iff, Ends.bind_iff]
  generalize ht : t.deeper = t'
  have h' : Told a ns t' := ht ▸ h
  have hnesting : t'.nesting = t.nesting + 1 := ht ▸ rfl
  refine h'.ends_holds ?_
  by_cases hn : n ∈ ns
  · rw [if_pos (decide_eq_true hn)]
    refine ⟨⟨h'.1, ?_, h'.2.2⟩, congrArg (· - 1) hnesting⟩
    rw [eraseDups_concat, if_pos hn]
    exact h'.2.1
  · have hmeet : Unify.meetAll (Unify.unifyStacks width room : _ → _ → Pass Unit) width 0 (.simple n) =
        pure () := rfl
    have hnot : ¬ decide (n ∈ ns) = true := by simpa using hn
    rw [if_neg hnot, hmeet, pure_bind, Ends.bind_iff]
    refine h'.ends_find (Ends.bind_iff.2 (h'.ends_holds ?_))
    rw [if_neg hnot, Ends.bind_iff, Site.ends_alter_iff]
    exact ⟨h'.append hn, congrArg (· - 1) hnesting⟩

end Told

/-- A variable gets a class, if it has none. -/
theorem ends_classFor (h : Told a ns t ∨ ns = [] ∧ t.Blank) : Ends (Unify.classFor a) t
    (fun id u => id = 0 ∧ Told a ns u ∧ u.nesting = t.nesting) fun _ _ => False := by
  unfold Unify.classFor
  rcases h with h | ⟨rfl, hparents, hmembers, hnames, hindex⟩
  · refine h.ends_classOf.bind ?_
    rintro _ u ⟨rfl, hu⟩
    exact ⟨rfl, hu⟩
  · have hnone : t.index[a]? = none := by rw [hindex, Std.TreeMap.getElem?_emptyc]
    refine Ends.bind_iff.2 (Ends.bind_iff.2 (Site.ends_look_iff.2 ?_))
    rw [hnone]
    simp only [Ends.bind_iff, Site.ends_look_iff, Site.ends_alter_iff, Ends.pure_iff, registerNew,
      register]
    simp [Told, hparents, hmembers, hnames]

/-- **A variable equals one more name.** -/
theorem ends_constrain_simple (h : Told a ns t ∨ ns = [] ∧ t.Blank) (ht : t.nesting = 0) :
    Ends (constrain a (.simple n)) t (fun _ u => Told a (ns ++ [n]) u ∧ u.nesting = 0)
      fun _ _ => False := by
  refine ends_handIn_iff.2 ?_
  generalize ht' : ({ t with mass := t.mass + (Kind.simple n).weight } : Store) = t'
  have h' : Told a ns t' ∨ ns = [] ∧ t'.Blank := ht' ▸ h
  have hnesting : t'.nesting = 0 := ht' ▸ ht
  have hroom : t'.room = 998 + 1 + 1 := by
    rw [room, hnesting]
    rfl
  rw [hroom, Unify.constrain_succ (by simp [Kind.varName?]) (by simp), Unify.ends_nested_iff]
  refine (ends_classFor (t := t'.deeper) h').bind ?_
  rintro _ v ⟨rfl, hv, hnesting'⟩
  change Ends (Unify.join t'.mass (998 + 1) 0 (.simple n)) v _ _
  refine hv.ends_join.mono ?_ fun _ _ hf => hf
  rintro _ u ⟨hu, hnesting''⟩
  refine ⟨hu, ?_⟩
  change u.nesting - 1 = 0
  rw [hnesting'', hnesting']
  exact hnesting

/-- **A variable equals names, one after the other.** -/
theorem ends_forM_constrain (st : Option Subtyping) (lenient : Bool) (logging : Logging)
    (a : String) (ns : List String) :
    Ends (ns.forM fun n => constrain a (.simple n)) (empty st lenient logging)
      (fun _ t => t.Under (Theory.anything st lenient) ∧ (Told a ns t ∨ ns = [] ∧ t.Blank))
      fun _ _ => False := by
  refine (Ends.forM (I := fun rest t => t.Under (Theory.anything st lenient) ∧ t.nesting = 0 ∧
    ∃ before, before ++ rest = ns ∧ (Told a before t ∨ before = [] ∧ t.Blank)) ?_ ?_).mono ?_
    fun _ _ hf => hf
  · exact ⟨under_empty _ logging, rfl, [], rfl, .inr ⟨rfl, rfl, rfl, rfl, rfl⟩⟩
  · rintro n rest t ⟨hunder, hnesting, before, rfl, htold⟩
    have hkeep := ends_perform hunder (o := .constrain a (.simple n)) rfl
    refine (hkeep.and (ends_constrain_simple htold hnesting)).mono ?_ fun _ _ hf => hf.2
    rintro _ u ⟨⟨hu, -⟩, htold', hnesting'⟩
    exact ⟨hu, hnesting', before ++ [n], by simp, .inl htold'⟩
  · rintro _ t ⟨hunder, -, before, rfl, htold⟩
    exact ⟨hunder, by rwa [List.append_nil]⟩

/-! ## Solving -/

section

variable {l : Lattice}

theorem pickName_eq (l : Lattice) (a b : String) :
    Kind.pickName (some l.subtyping) a b = l.lower a b := by
  have hle : ∀ a b,
      Subtyping.le (some l.subtyping) (.simple a) (.simple b) = l.isSubtypeOf a b := by
    intro a b
    change (Kind.simple a == Kind.simple b || l.isSubtypeOf a b) = l.isSubtypeOf a b
    by_cases hab : a = b
    · rw [hab, l.isSubtypeOf_self, Bool.or_true]
    · rw [beq_eq_false_iff_ne.2 fun he => hab (Kind.simple.inj he), Bool.false_or]
  rw [Kind.pickName, hle, hle]
  rfl

theorem foldlM_pick_simple (l : Lattice) (r : String) (ns : List String) :
    (ns.map Kind.simple).foldlM (Kind.pick (some l.subtyping)) (.simple r) =
      some (.simple (ns.foldl l.lower r)) := by
  induction ns generalizing r with
  | nil => rfl
  | cons n ns ih =>
    have hpick : Kind.pick (some l.subtyping) (.simple r) (.simple n) =
        some (.simple (l.lower r n)) :=
      congrArg (fun m => some (Kind.simple m)) (pickName_eq l r n)
    rw [List.map_cons, List.foldlM_cons, hpick]
    exact ih _

/-- The class of a variable that equals names is represented by what they are reduced to. -/
theorem Told.repOf_eq (h : l.Ordered) (ht : Told a ns t) (hst : t.subtyping = some l.subtyping)
    (hne : ns ≠ []) : ∃ r, t.partition.repOf a = some (.simple r) ∧
      l.canonical r = l.canonical (l.reduce ns.eraseDups) := by
  obtain ⟨n, rest, hns⟩ := List.exists_cons_of_ne_nil (l := ns.eraseDups) fun hnil => by
    obtain ⟨m, hm⟩ := List.exists_mem_of_ne_nil ns hne
    exact List.not_mem_nil (hnil ▸ List.mem_eraseDups.2 hm)
  refine ⟨rest.foldl l.lower n, ?_, by rw [hns, Lattice.reduce_cons h]⟩
  have hindex : t.partition.index a = some 0 := by
    change t.classOf? a = some 0
    rw [classOf?, ht.2.2.2, Option.map_some, ht.root_zero]
  have hmembers : t.partition.members 0 = .simple n :: rest.map Kind.simple := by
    rw [← List.map_cons, ← hns]
    change (t.kept (t.root 0)).toList = _
    rw [ht.root_zero, ht.kept_zero]
  have hfold : (t.partition.members 0).foldlM (Kind.pick (some l.subtyping)) .absent =
      some (.simple (rest.foldl l.lower n)) := by
    rw [hmembers]
    exact foldlM_pick_simple l n rest
  have hst' : t.partition.subtyping = some l.subtyping := hst
  rw [Partition.repOf, hindex, Option.bind_some, Partition.rep, hst', hfold, Option.bind_some,
    if_neg (by simp)]

/-- **A variable that equals names stands for what they are reduced to**, each of them once. -/
theorem ends_resolveNames (h : l.Ordered) (lenient : Bool) (logging : Logging) (a : String)
    (hne : ns ≠ []) : Ends (resolveNames a ns) (empty (some l.subtyping) lenient logging)
      (fun k _ => ∃ r, k = .simple r ∧ l.canonical r = l.canonical (l.reduce ns.eraseDups))
      fun _ _ => False := by
  unfold resolveNames
  refine (ends_forM_constrain _ lenient logging a ns).bind ?_
  rintro _ s ⟨hunder, htold⟩
  replace htold : Told a ns s := htold.resolve_right fun hnil => hne hnil.1
  obtain ⟨r, hrep, hr⟩ := htold.repOf_eq h hunder.good.subtyping hne
  have hshaped : s.partition.Shaped := hunder.good.toShaped
  have hnames : ∀ n, (s.partition.index n).isSome = true → n = a := fun n hn => by
    have hmem : n ∈ s.names.toList := hshaped.mem_names.2 hn
    simpa [htold.2.2.1] using hmem
  obtain ⟨t, ht, -, order, hsol⟩ := exists_solution hshaped fun n hn => by
    rw [hnames n hn, hrep]
    exact Option.some_ne_none _
  have hsolved : t.solution[a]? = some (.simple r) := by
    obtain ⟨pre, post, horder⟩ := List.append_of_mem
      (hsol.mem_order.2 (Partition.isSome_of_repOf hrep))
    obtain ⟨r', hr', hθ⟩ := hsol.eq_some horder
    obtain rfl := Option.some.inj (hrep.symm.trans hr')
    exact hθ
  have hends : Ends solve s (fun _ u => u = t) fun _ _ => False := by rw [Ends, ht]
  refine hends.bind ?_
  rintro _ _ rfl
  rw [Ends.bind_iff, Ends.get_iff, Ends.pure_iff]
  exact ⟨r, by rw [resolveKind, Kind.resolve, hsolved, Option.getD_some], hr⟩

end

/-- **The order of nominal types matters.**  `int` and `string` are not related, and go up to the
top type; but `bool` comes down from there, and does not if `string` is told after it. -/
theorem later_name_narrows_again :
    let l : Lattice := .default
    let s := empty (some l.subtyping) false .silent
    l.validate = .ok () ∧ l.Ordered ∧ l.Unrelated "int" "string" ∧
      ["int", "bool", "string"].Perm ["int", "string", "bool"] ∧
      (∃ t, resolveNames "'a" ["int", "string", "bool"] s = .ok (.simple "bool") t) ∧
      (∃ t, resolveNames "'a" ["int", "bool", "string"] s = .ok (.simple "string") t) ∧
      l.canonical "bool" ≠ l.canonical "string" ∧ l.canonical "bool" ≠ l.top := by
  intro l s
  have hbool : Ends (resolveNames "'a" ["int", "string", "bool"]) s (fun k _ => k = .simple "bool")
      fun _ _ => False := by decide +kernel
  have hstring : Ends (resolveNames "'a" ["int", "bool", "string"]) s
      (fun k _ => k = .simple "string") fun _ _ => False := by decide +kernel
  obtain ⟨_, t, ht, rfl⟩ := hbool.exists_ok
  obtain ⟨_, t', ht', rfl⟩ := hstring.exists_ok
  exact ⟨Lattice.validate_default, Lattice.ordered_default, by decide +kernel, by decide, ⟨t, ht⟩,
    ⟨t', ht'⟩, by decide +kernel, by decide +kernel⟩

/-- **When the order of nominal types does not matter.**  In a lattice whose names are ordered, a
variable that is made equal to names, one after the other, stands for a name.  It stands for the
same name in every order, up to aliases, if and only if one name is a subtype of all the others, or
no name is a subtype of another and their number is even, apart from the top type.  In the first
case the variable stands for that name, and in the second for the top type. -/
theorem nominal_order_iff (l : Lattice) (h : l.Ordered) (lenient : Bool) (logging : Logging)
    (a : String) (ns : List String) (hne : ns ≠ []) :
    let s := empty (some l.subtyping) lenient logging
    (∀ ms : List String, ms.Perm ns → ∃ r t, resolveNames a ms s = .ok (.simple r) t ∧
      (∀ m ∈ ns, (∀ n ∈ ns, l.isSubtypeOf m n = true) → l.canonical r = l.canonical m) ∧
      (l.EvenlyUnrelated ns → l.canonical r = l.top)) ∧
      ((∀ ms : List String, ms.Perm ns → ∀ r t r' t', resolveNames a ns s = .ok (.simple r) t →
        resolveNames a ms s = .ok (.simple r') t' → l.canonical r' = l.canonical r) ↔
        (∃ m ∈ ns, ∀ n ∈ ns, l.isSubtypeOf m n = true) ∨ l.EvenlyUnrelated ns) := by
  intro s
  have hends : ∀ ms : List String, ms.Perm ns → Ends (resolveNames a ms) s
      (fun k _ => ∃ r, k = .simple r ∧ l.canonical r = l.canonical (l.reduce ms.eraseDups))
      fun _ _ => False := fun ms hms =>
    ends_resolveNames h lenient logging a fun hnil => hne (hnil ▸ hms).symm.eq_nil
  refine ⟨fun ms hms => ?_, ?_⟩
  · obtain ⟨_, t, ht, r, rfl, hr⟩ := (hends ms hms).exists_ok
    refine ⟨r, t, ht, fun m hm hle => ?_, fun heven => ?_⟩
    · rw [hr]
      exact Lattice.canonical_reduce_of_least h (List.mem_eraseDups.2 (hms.mem_iff.2 hm))
        fun n hn => hle n (hms.mem_iff.1 (List.mem_eraseDups.1 hn))
    · rw [hr, heven.reduce_eq h hms, Lattice.canonical_top h]
  · rw [← Lattice.reduce_eraseDups_perm_iff h]
    refine forall₂_congr fun ms hms => ⟨fun hsame => ?_, fun hsame r t r' t' ht ht' => ?_⟩
    · obtain ⟨_, t, ht, r, rfl, hr⟩ := (hends ns (.refl ns)).exists_ok
      obtain ⟨_, t', ht', r', rfl, hr'⟩ := (hends ms hms).exists_ok
      rw [← hr, ← hr']
      exact hsame r t r' t' ht ht'
    · obtain ⟨_, ⟨⟩, hr⟩ := (hends ns (.refl ns)).ok ht
      obtain ⟨_, ⟨⟩, hr'⟩ := (hends ms hms).ok ht'
      rw [hr, hr', hsame]

/-- Four unrelated names go up to the top type in every order, though one of them is told twice and
another one stands for the top type. -/
theorem nominal_order_iff_in_pairs :
    let l : Lattice := .default
    let s := empty (some l.subtyping) false .silent
    let ns := ["int", "string", "var", "bool", "list", "int"]
    l.Ordered ∧ l.EvenlyUnrelated ns ∧
      (∀ ms : List String, ms.Perm ns →
        ∃ r t, resolveNames "'a" ms s = .ok (.simple r) t ∧ l.canonical r = "any") ∧
      ∀ ms : List String, ms.Perm ns → ∀ r t r' t', resolveNames "'a" ns s = .ok (.simple r) t →
        resolveNames "'a" ms s = .ok (.simple r') t' → l.canonical r' = l.canonical r := by
  intro l s ns
  have heven : l.EvenlyUnrelated ns := by decide +kernel
  obtain ⟨hall, hiff⟩ :=
    nominal_order_iff l Lattice.ordered_default false .silent "'a" ns (by decide)
  refine ⟨Lattice.ordered_default, heven, fun ms hms => ?_, hiff.2 (.inr heven)⟩
  obtain ⟨r, t, ht, -, htop⟩ := hall ms hms
  exact ⟨r, t, ht, htop heven⟩

end Store

end StackEffect
