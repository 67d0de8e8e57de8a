import StackEffect.Proofs.Digraph.Twin
import StackEffect.Proofs.Solve.Solution
import StackEffect.Proofs.Unify.Relabel

/-!
# Proofs/Solve/Relabel — solving stores that differ by names

    rep n is no variable        it is the same in both stores, but for its names
    rep n is a variable         it is one in both, and each store takes the first by name

Where no member but variables is left, the choice depends on names, and so does the order in which
names are solved.  Neither is told by the result: names that stand for a variable are solved before
those that mention them, the others are solved in the same order (`filter_nameOrder`), and so the
solutions differ by names again (`Solution.relabel`).
-/

namespace StackEffect

/-! ## Representatives -/

namespace Kind

/-- **Kinds that differ by names.**  If they are variables it may be any two of one sort. -/
def Similar (ρ : Equiv.Perm String) (k l : Kind) : Prop :=
  l = k.relabel ρ ∨ k.isVar = true ∧ l.isVar = true ∧ l.rank = k.rank

variable {ρ : Equiv.Perm String} {k k' l : Kind} {st : Option Subtyping}

/-- Similar kinds have the same rank. -/
theorem Similar.rank_eq (h : Similar ρ k l) : l.rank = k.rank := by
  rcases h with rfl | ⟨-, -, h⟩
  · exact rank_relabel
  · exact h

theorem Similar.isVar_eq (h : Similar ρ k l) : l.isVar = k.isVar := by
  rcases h with rfl | ⟨hk, hl, -⟩
  · exact isVar_relabel
  · rw [hk, hl]

theorem Similar.eq_absent_iff (h : Similar ρ k l) : l = absent ↔ k = absent := by
  have hrank : ∀ m : Kind, m = absent ↔ m.rank = 0 := by
    intro m
    cases m <;> simp [rank]
  rw [hrank, hrank, h.rank_eq]

/-- Of a variable and a kind of the same rank a variable is picked. -/
theorem pick_of_isVar (st : Option Subtyping) (hk : k.isVar = true) (h : k.rank = l.rank) :
    ∃ m, k.pick st l = some m ∧ m.isVar = true ∧ m.rank = k.rank := by
  cases k <;> simp [isVar] at hk <;> cases l <;> simp [rank] at h <;> refine ⟨_, rfl, ?_⟩ <;>
    split <;> exact ⟨rfl, rfl⟩

/-- **The representative of two kinds differs by names**, if the kinds do. -/
theorem Similar.pick (h : Similar ρ k k') (st : Option Subtyping) (l : Kind) :
    Option.Rel (Similar ρ) (k.pick st l) (k'.pick st (l.relabel ρ)) := by
  by_cases hr : k.rank = l.rank
  · cases hv : k.isVar with
    | true =>
      obtain ⟨m, hm, hmv, hmr⟩ := pick_of_isVar st hv hr
      obtain ⟨m', hm', hmv', hmr'⟩ := pick_of_isVar st (l := l.relabel ρ)
        (h.isVar_eq.trans hv) (by rw [rank_relabel, h.rank_eq, hr])
      rw [hm, hm']
      exact .some (.inr ⟨hmv, hmv', by rw [hmr', hmr, h.rank_eq]⟩)
    | false =>
      obtain rfl : k' = k.relabel ρ := h.resolve_right fun hk => by simp [hv] at hk
      cases k <;> simp [isVar] at hv <;> cases l <;> simp [rank] at hr
      case stack.stack v w =>
        rw [relabel_stack, relabel_stack]
        change Option.Rel _ (some (if w.length < v.length then _ else _))
          (some (if (w.map _).length < (v.map _).length then _ else _))
        rw [List.length_map, List.length_map]
        split <;> exact .some (.inl relabel_stack.symm)
      case effect.effect c p i d q j =>
        rw [relabel_effect, relabel_effect]
        change Option.Rel _ (some (if d.length < c.length then _ else _))
          (some (if (d.map _).length < (c.map _).length then _ else _))
        rw [List.length_map, List.length_map]
        split <;> exact .some (.inl relabel_effect.symm)
      case simple.foreign | foreign.simple | foreign.foreign => exact .none
      case simple.simple | self.self | absent.absent => exact .some (.inl rfl)
  · unfold Kind.pick
    rw [h.rank_eq, rank_relabel]
    split
    · exact .some h
    split
    · exact .some (.inl rfl)
    · omega

/-- What is related stays so when it is gone on with alike. -/
theorem rel_bind {α β : Type} {R : α → α → Prop} {R' : β → β → Prop} {x y : Option α}
    {f g : α → Option β} (h : Option.Rel R x y) (hf : ∀ a b, R a b → Option.Rel R' (f a) (g b)) :
    Option.Rel R' (x.bind f) (y.bind g) := by
  cases h with
  | none => exact .none
  | some h => exact hf _ _ h

/-- **Similar kinds are picked from lists that differ by names.** -/
theorem Similar.foldlM_pick (h : Similar ρ k k') (st : Option Subtyping) (ks : List Kind) :
    Option.Rel (Similar ρ) (ks.foldlM (Kind.pick st) k)
      ((ks.map (relabel ρ)).foldlM (Kind.pick st) k') := by
  induction ks generalizing k k' with
  | nil => exact .some h
  | cons l ks ih =>
    rw [List.map_cons, List.foldlM_cons, List.foldlM_cons]
    exact rel_bind (h.pick st l) fun _ _ h => ih h

/-- One of two kinds is picked, or a kind that is no variable. -/
theorem pick_cases {m : Kind} (h : k.pick st l = some m) : m = k ∨ m = l ∨ m.isVar = false := by
  unfold Kind.pick at h
  split at h
  · exact .inl (Option.some.inj h).symm
  split at h
  · exact .inr (.inl (Option.some.inj h).symm)
  split at h <;> try obtain rfl := Option.some.inj h
  all_goals first
    | exact .inr (.inl rfl)
    | exact .inr (.inr rfl)
    | (split <;> simp)
    | simp at h

/-- A variable that represents kinds is one of them. -/
theorem mem_of_foldlM_pick {ks : List Kind} (h : ks.foldlM (Kind.pick st) k = some l)
    (hl : l.isVar = true) : l ∈ k :: ks := by
  induction ks generalizing k with
  | nil => exact List.mem_singleton.2 (Option.some.inj h).symm
  | cons m ks ih =>
    rw [List.foldlM_cons] at h
    obtain ⟨c, hc, hrest⟩ := Option.bind_eq_some_iff.1 h
    rcases List.mem_cons.1 (ih hrest) with rfl | hmem
    · rcases pick_cases hc with rfl | rfl | hv
      · exact List.mem_cons_self
      · exact List.mem_cons_of_mem _ List.mem_cons_self
      · simp [hl] at hv
    · exact List.mem_cons_of_mem _ (List.mem_cons_of_mem _ hmem)

theorem isVar_iff : k.isVar = true ↔ ∃ v : Var, k = v.kind := by
  constructor
  · intro h
    cases k <;> simp [isVar] at h
    · exact ⟨⟨.slot, _⟩, rfl⟩
    · exact ⟨⟨.stack, _⟩, rfl⟩
  · rintro ⟨⟨_ | _, _⟩, rfl⟩ <;> rfl

theorem varName?_varKind (v : Var) : v.kind.varName? = some v.name := by
  rcases v with ⟨_ | _, _⟩ <;> rfl

end Kind

namespace Partition

variable {P : Partition} {n m : String} {r : Kind} {i : Nat}

/-- A representative that is a variable is a member of its class. -/
theorem mem_members_of_rep (h : P.rep i = some r) (hr : r.isVar = true) : r ∈ P.members i := by
  obtain ⟨k, hk, hkr⟩ := Option.bind_eq_some_iff.1 h
  split at hkr
  · simp at hkr
  · obtain rfl := Option.some.inj hkr
    refine (List.mem_cons.1 (Kind.mem_of_foldlM_pick hk hr)).resolve_left ?_
    rintro rfl
    simp [Kind.isVar] at hr

/-- **A variable that represents a class** is registered with it. -/
theorem Sound.names_of_rep {v : Var} (h : P.Sound) (hr : P.rep i = some v.kind) :
    P.Names v.name i :=
  h.member_var (mem_members_of_rep hr (Kind.isVar_iff.2 ⟨v, rfl⟩)) (Kind.varName?_varKind v)

/-- A name stands for the representative of its class. -/
theorem Shaped.repOf_of_names (h : P.Shaped) (hn : P.Names n i) : P.repOf n = P.rep i := by
  obtain ⟨j, hj, hji⟩ := hn
  rw [repOf, hj, Option.bind_some]
  exact h.rep_congr hji

/-- A variable that represents a name represents itself. -/
theorem Sound.repOf_self {v : Var} (h : P.Sound) (hr : P.repOf n = some v.kind) :
    P.repOf v.name = some v.kind := by
  obtain ⟨i, hi, hri⟩ := Option.bind_eq_some_iff.1 hr
  rw [h.repOf_of_names (h.names_of_rep hri), hri]

end Partition

namespace Store.Relabeled

variable {ρ : Equiv.Perm String} {s t : Store}

/-- The members of a class have new names on the other side. -/
theorem members_partition (h : s.Relabeled ρ t) (i : Nat) :
    t.partition.members i = (s.partition.members i).map (Kind.relabel ρ) := by
  change (t.membersOf i).toList = _
  rw [h.membersOf, Array.toList_map]
  rfl

theorem index_partition (h : s.Relabeled ρ t) (n : String) :
    t.partition.index (ρ n) = s.partition.index n := h.classOf? n

/-- **Representatives differ by names.** -/
theorem rep (h : s.Relabeled ρ t) (i : Nat) :
    Option.Rel (Kind.Similar ρ) (s.partition.rep i) (t.partition.rep i) := by
  have hst : t.partition.subtyping = s.partition.subtyping := h.subtyping
  unfold Partition.rep
  rw [h.members_partition, hst]
  refine Kind.rel_bind (Kind.Similar.foldlM_pick (.inl rfl) _ _) fun k l hkl => ?_
  simp only [hkl.eq_absent_iff]
  split
  · exact .none
  · exact .some hkl

/-- **A name and its new name stand for similar kinds.** -/
theorem repOf (h : s.Relabeled ρ t) (n : String) :
    Option.Rel (Kind.Similar ρ) (s.partition.repOf n) (t.partition.repOf (ρ n)) := by
  unfold Partition.repOf
  rw [h.index_partition]
  cases s.partition.index n with
  | none => exact .none
  | some i => exact h.rep i

end Store.Relabeled

/-! ## The order of names -/

namespace Partition

variable {P : Partition}

/-- Whether a name is represented by something else than a variable. -/
def solid (P : Partition) (n : String) : Bool := (P.repOf n).any fun r => !r.isVar

/-- A name is solid if it stands for a kind that is no variable. -/
theorem solid_of_repOf {n : String} {r : Kind} (h : P.repOf n = some r)
    (hr : ∀ v : Var, r ≠ v.kind) : P.solid n = true := by
  have hvar : r.isVar = false := Bool.eq_false_iff.2 fun hv => by
    obtain ⟨v, hv⟩ := Kind.isVar_iff.1 hv
    exact hr v hv
  simp [solid, h, hvar]

theorem repOf_of_mem_table {p : String × Kind} (h : p ∈ P.table) : P.repOf p.1 = some p.2 := by
  obtain ⟨n, -, hn⟩ := List.mem_filterMap.1 h
  obtain ⟨r, hr, rfl⟩ := Option.map_eq_some_iff.1 hn
  exact hr

theorem nodup_table (h : P.Shaped) : (P.table.map Prod.fst).Nodup := by
  rw [table, List.map_filterMap]
  refine h.names_nodup.filterMap fun a b n ha hb => ?_
  simp only [Option.map_map, Option.mem_def, Option.map_eq_some_iff] at ha hb
  obtain ⟨_, -, ha⟩ := ha
  obtain ⟨_, -, hb⟩ := hb
  exact ha.trans hb.symm

end Partition

namespace Store

variable {kinds : Array (String × Kind)}

/-- Where a name stands in a table. -/
def position (kinds : Array (String × Kind)) (n : String) : Option (Fin kinds.size) :=
  ((List.finRange kinds.size).foldl
    (fun (m : Std.TreeMap String (Fin kinds.size)) i => m.insert (entry kinds i).1 i) ∅)[n]?

/-- The position of a name is where its entry is. -/
theorem position_eq_some_iff
    (hinj : Function.Injective fun i : Fin kinds.size => (entry kinds i).1) {n : String}
    {j : Fin kinds.size} : position kinds n = some j ↔ (entry kinds j).1 = n := by
  refine ⟨fun h => ?_, ?_⟩
  · exact eq_of_getElem?_foldl_insert (f := fun i : Fin kinds.size => (entry kinds i).1) (by simp) h
  · rintro rfl
    exact getElem?_foldl_insert hinj (.inl (List.mem_finRange j))

/-- **The edges from a name lead to the names that its kind mentions**, in that order. -/
theorem succ_mentionGraph (kinds : Array (String × Kind)) (i : Fin kinds.size) :
    (mentionGraph kinds).succ i =
      ((entry kinds i).2.vars.filterMap fun v => position kinds v.name).foldl Digraph.addOnce [] := by
  have hedges : mentionGraph kinds = Digraph.ofEdges _ ((List.finRange kinds.size).flatMap fun i =>
      (entry kinds i).2.vars.filterMap fun v => (position kinds v.name).map fun j => (i, j)) := rfl
  have hother : ∀ a, a ≠ i → (((entry kinds a).2.vars.filterMap fun v =>
      (position kinds v.name).map fun j => (a, j)).filter (·.1 = i)) = [] := by
    intro a ha
    refine List.filter_eq_nil_iff.2 fun e he => ?_
    obtain ⟨v, -, hv⟩ := List.mem_filterMap.1 he
    obtain ⟨j, -, rfl⟩ := Option.map_eq_some_iff.1 hv
    simpa using ha
  have hown : (((entry kinds i).2.vars.filterMap fun v =>
      (position kinds v.name).map fun j => (i, j)).filter (·.1 = i)).map Prod.snd =
      (entry kinds i).2.vars.filterMap fun v => position kinds v.name := by
    rw [List.filter_eq_self.2 fun e he => ?_, List.map_filterMap]
    · simp
    · obtain ⟨v, -, hv⟩ := List.mem_filterMap.1 he
      obtain ⟨j, -, rfl⟩ := Option.map_eq_some_iff.1 hv
      simp
  obtain ⟨pre, post, hsplit⟩ := List.append_of_mem (List.mem_finRange i)
  have hnodup := List.nodup_middle.1 (hsplit ▸ List.nodup_finRange kinds.size)
  rw [List.nodup_cons, List.mem_append, not_or] at hnodup
  rw [hedges, Digraph.succ_ofEdges, List.filter_flatMap, hsplit, List.flatMap_append,
    List.flatMap_cons, List.flatMap_eq_nil_iff.2 fun a ha => hother a fun e => hnodup.1.1 (e ▸ ha),
    List.flatMap_eq_nil_iff.2 fun a ha => hother a fun e => hnodup.1.2 (e ▸ ha), List.nil_append,
    List.append_nil, hown]

theorem repOf_entry (P : Partition) (i : Fin P.table.toArray.size) :
    P.repOf (entry P.table.toArray i).1 = some (entry P.table.toArray i).2 :=
  Partition.repOf_of_mem_table (by simp [entry, Vector.get])

/-- **A name that is represented by a variable leads to no solid name.** -/
theorem shuts_mentionGraph {P : Partition} (h : P.Sound) :
    (mentionGraph P.table.toArray).Shuts fun i => P.solid (entry P.table.toArray i).1 := by
  intro i hi j hj
  obtain ⟨v, hv, hvj⟩ :=
    (mem_succ_mentionGraph (entry_injective (Partition.nodup_table h.toShaped))).1 hj
  have hvar : (entry P.table.toArray i).2.isVar = true := by
    simpa [Partition.solid, repOf_entry P i] using hi
  obtain ⟨w, hw⟩ := Kind.isVar_iff.1 hvar
  obtain rfl : v = w := by
    rw [hw, Kind.vars_varKind] at hv
    exact List.mem_singleton.1 hv
  have hrep := repOf_entry P i
  rw [hw] at hrep hvar
  simp [Partition.solid, ← hvj, h.repOf_self hrep, hvar]

end Store

namespace Store.Relabeled

variable {ρ : Equiv.Perm String} {s t : Store}

/-- A name is solid if its new name is. -/
theorem solid_eq (h : s.Relabeled ρ t) (n : String) : t.partition.solid (ρ n) = s.partition.solid n := by
  unfold Partition.solid
  have hrel := h.repOf n
  generalize s.partition.repOf n = x at hrel
  generalize t.partition.repOf (ρ n) = y at hrel
  cases hrel with
  | none => rfl
  | some hk => simp [hk.isVar_eq]

/-- **The tables of names have similar entries**, one by one. -/
theorem forall₂_table (h : s.Relabeled ρ t) : List.Forall₂
    (fun p q => q.1 = ρ p.1 ∧ p.2.Similar ρ q.2) s.partition.table t.partition.table := by
  have hnames : t.partition.names = s.partition.names.map ρ := by
    change t.names.toList = _
    rw [h.names, Array.toList_map]
    rfl
  rw [Partition.table, Partition.table, hnames]
  induction s.partition.names with
  | nil => exact .nil
  | cons n names ih =>
    rw [List.map_cons, List.filterMap_cons, List.filterMap_cons]
    have hrel := h.repOf n
    generalize s.partition.repOf n = x at hrel
    generalize t.partition.repOf (ρ n) = y at hrel
    cases hrel with
    | none => exact ih
    | some hk => exact .cons ⟨rfl, hk⟩ ih

theorem size_table (h : s.Relabeled ρ t) :
    s.partition.table.toArray.size = t.partition.table.toArray.size := by
  simpa using h.forall₂_table.length_eq

theorem entry_table (h : s.Relabeled ρ t) {i : Fin s.partition.table.toArray.size}
    {j : Fin t.partition.table.toArray.size} (hij : i.val = j.val) :
    (entry t.partition.table.toArray j).1 = ρ (entry s.partition.table.toArray i).1 ∧
      (entry s.partition.table.toArray i).2.Similar ρ (entry t.partition.table.toArray j).2 := by
  have hi : i.val < s.partition.table.length := by simpa using i.isLt
  have hj : i.val < t.partition.table.length := by simpa [hij] using j.isLt
  have := (List.forall₂_iff_get.1 h.forall₂_table).2 i hi hj
  simpa [entry, Vector.get, hij] using this

/-- A name and its new name are at the same position. -/
theorem map_position (h : s.Relabeled ρ t) (hs : s.partition.Sound) (ht : t.partition.Sound)
    (n : String) : (position t.partition.table.toArray (ρ n)).map Fin.val =
      (position s.partition.table.toArray n).map Fin.val := by
  have hinj := entry_injective (Partition.nodup_table hs.toShaped)
  have hinj' := entry_injective (Partition.nodup_table ht.toShaped)
  refine Option.ext fun a => ?_
  simp only [Option.map_eq_some_iff, position_eq_some_iff hinj, position_eq_some_iff hinj']
  constructor
  · rintro ⟨j, hj, rfl⟩
    refine ⟨⟨j, Nat.lt_of_lt_of_eq j.isLt h.size_table.symm⟩, ρ.injective ?_, rfl⟩
    rw [← (h.entry_table rfl).1, hj]
  · rintro ⟨i, hi, rfl⟩
    refine ⟨⟨i, Nat.lt_of_lt_of_eq i.isLt h.size_table⟩, ?_, rfl⟩
    rw [(h.entry_table (i := i) rfl).1, hi]

/-- Solid names mention the same names, in the same order. -/
theorem map_succ_mentionGraph (h : s.Relabeled ρ t) (hs : s.partition.Sound)
    (ht : t.partition.Sound) {i : Fin s.partition.table.toArray.size}
    {j : Fin t.partition.table.toArray.size} (hij : i.val = j.val)
    (hi : s.partition.solid (entry s.partition.table.toArray i).1 = true) :
    ((mentionGraph t.partition.table.toArray).succ j).map Fin.val =
      ((mentionGraph s.partition.table.toArray).succ i).map Fin.val := by
  have hkind : (entry t.partition.table.toArray j).2 =
      (entry s.partition.table.toArray i).2.relabel ρ := by
    refine (h.entry_table hij).2.resolve_right fun hv => ?_
    simp [Partition.solid, repOf_entry, hv.1] at hi
  rw [succ_mentionGraph, succ_mentionGraph, Digraph.map_foldl_addOnce Fin.val_injective,
    Digraph.map_foldl_addOnce Fin.val_injective, hkind, Kind.vars_relabel, List.filterMap_map,
    List.map_filterMap, List.map_filterMap]
  simp only [Function.comp, Var.relabel, h.map_position hs ht, List.map_nil]

/-- **Solid names are solved in the same order.** -/
theorem filter_nameOrder (h : s.Relabeled ρ t) (hs : s.partition.Sound) (ht : t.partition.Sound) :
    (nameOrder t.partition.table.toArray).filter t.partition.solid =
      ((nameOrder s.partition.table.toArray).filter s.partition.solid).map ρ := by
  let name (i : Nat) : String := (s.partition.table.map Prod.fst).getD i ""
  have hname : ∀ i : Fin s.partition.table.toArray.size,
      (entry s.partition.table.toArray i).1 = name i := by
    intro i
    have hi : i.val < s.partition.table.length := by simpa using i.isLt
    simp [name, entry, Vector.get, List.getD_eq_getElem?_getD, hi]
  have hname' : ∀ j : Fin t.partition.table.toArray.size,
      (entry t.partition.table.toArray j).1 = ρ (name j) := fun j => by
    rw [(h.entry_table (i := ⟨j, Nat.lt_of_lt_of_eq j.isLt h.size_table.symm⟩) rfl).1,
      hname]
  have horder : nameOrder s.partition.table.toArray =
      ((mentionGraph s.partition.table.toArray).dependencyOrder.map Fin.val).map name := by
    rw [nameOrder, List.map_map]
    exact List.map_congr_left fun i _ => hname i
  have horder' : nameOrder t.partition.table.toArray =
      ((mentionGraph t.partition.table.toArray).dependencyOrder.map Fin.val).map (ρ ∘ name) := by
    rw [nameOrder, List.map_map]
    exact List.map_congr_left fun i _ => hname' i
  have hsolid : t.partition.solid ∘ ρ ∘ name = s.partition.solid ∘ name :=
    funext fun i => h.solid_eq _
  rw [horder, horder', List.filter_map (f := ρ ∘ name), List.filter_map (f := name), hsolid,
    List.map_map]
  refine congrArg _ (Digraph.filter_dependencyOrder_val h.size_table ?_ ?_ fun i j hij hi => ?_)
  · simpa only [hname, Function.comp] using shuts_mentionGraph hs
  · simpa only [hname', h.solid_eq, Function.comp] using shuts_mentionGraph ht
  · exact h.map_succ_mentionGraph hs ht hij (by rwa [hname])

end Store.Relabeled

end StackEffect
