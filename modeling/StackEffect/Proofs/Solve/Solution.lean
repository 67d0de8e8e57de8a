import Mathlib.Logic.Relation
import StackEffect.Proofs.Digraph
import StackEffect.Proofs.Solve.Representative
import StackEffect.Proofs.Solve.Resolve

/-!
# Proofs/Solve/Solution — what a solution consists of

    θ n = rep n, with the names replaced that were solved before n        (`Solution`)
    θ n = rep n, with all names replaced by θ                             (`Solution.eq_resolve`)

Solving takes the names in an order in which those that a representative mentions come first.  Where
no class leads back to itself, the names that were solved before are all names that matter.
-/

namespace StackEffect

namespace Partition

variable (P : Partition)

/-- The representative of the class of a name. -/
def repOf (n : String) : Option Kind := (P.index n).bind P.rep

theorem isSome_of_repOf {P : Partition} {n : String} {r : Kind} (h : P.repOf n = some r) :
    (P.index n).isSome := by
  obtain ⟨i, hi, -⟩ := Option.bind_eq_some_iff.1 h
  exact hi ▸ rfl

/-- The names that have a representative, each with it. -/
def table : List (String × Kind) := P.names.filterMap fun n => (P.repOf n).map (n, ·)

theorem table_eq {P : Partition} {kinds : List (String × Kind)} (h : kinds.map Prod.fst = P.names)
    (hrep : ∀ p ∈ kinds, P.repOf p.1 = some p.2) : P.table = kinds := by
  rw [table, ← h, List.filterMap_map]
  refine (List.filterMap_congr fun p hp => ?_).trans (List.filterMap_some (l := kinds))
  rw [Function.comp, hrep p hp]
  rfl

/-- The representative of the one name mentions the other. -/
def Mentions (n m : String) : Prop :=
  (P.index m).isSome ∧ ∃ r, P.repOf n = some r ∧ ∃ v ∈ r.vars, v.name = m

end Partition

/-! ## The table of representatives -/

namespace Store

variable {s : Store}

/-- Enters the representative of a class in a table. -/
def addRep (reps : Std.TreeMap Nat Kind) (id : Nat) : Pass (Std.TreeMap Nat Kind) := do
  match ← represent id with
  | some k => return reps.insert id k
  | none => return reps

theorem ends_addRep (h : s.partition.Shaped) {id : Nat} (hid : s.root id = id)
    (reps : Std.TreeMap Nat Kind) : Ends (addRep reps id) s
      (fun reps' t => s.Asked t ∧
        ∀ j, reps'[j]? = if j = id then (s.partition.rep id).or reps[j]? else reps[j]?)
      (fun _ t => s.Asked t ∧ s.partition.rep id = none) := by
  refine (ends_represent h hid).bind fun r t ⟨ht, hr⟩ => ?_
  rw [← hr]
  cases r with
  | none => exact ⟨ht, fun j => by simp⟩
  | some k =>
    refine ⟨ht, fun j => ?_⟩
    rw [Std.TreeMap.getElem?_insert]
    by_cases hj : j = id
    · simp [hj]
    · simp [hj, Ne.symm hj]

theorem ends_foldlM_addRep (hs : s.partition.Shaped) {ids : List Nat}
    (hids : ∀ id ∈ ids, s.root id = id) (seen : List Nat) {reps : Std.TreeMap Nat Kind}
    (h : ∀ id, reps[id]? = if id ∈ seen then s.partition.rep id else none) :
    Ends (ids.foldlM addRep reps) s
      (fun reps t => s.Asked t ∧
        ∀ id, reps[id]? = if id ∈ seen ++ ids then s.partition.rep id else none)
      (fun _ t => s.Asked t ∧ ∃ id ∈ ids, s.partition.rep id = none) := by
  induction ids generalizing s seen reps with
  | nil => exact ⟨.refl s, by simpa using h⟩
  | cons id ids ih =>
    rw [List.forall_mem_cons] at hids
    rw [List.foldlM_cons, Ends.bind_iff]
    refine (ends_addRep hs hids.1 reps).mono ?_ fun _ t ht => ⟨ht.1, id, List.mem_cons_self, ht.2⟩
    rintro reps' t ⟨ht, hreps⟩
    have hseen : ∀ j, reps'[j]? = if j ∈ seen ++ [id] then t.partition.rep j else none := by
      intro j
      rw [hreps, h j, ht.partition]
      by_cases hj : j = id
      · subst hj
        cases s.partition.rep j <;> simp
      · simp [hj]
    rw [← ht.partition] at hs ⊢
    refine (ih hs (ht.root.symm ▸ hids.2) (seen ++ [id]) hseen).mono ?_ ?_
    · rintro reps'' u ⟨hu, hreps''⟩
      exact ⟨ht.trans hu, fun j => by simpa using hreps'' j⟩
    · rintro _ u ⟨hu, j, hj, hnone⟩
      exact ⟨ht.trans hu, j, List.mem_cons_of_mem _ hj, hnone⟩

theorem ends_representatives (h : s.partition.Shaped) : Ends (representatives : Pass _) s
    (fun reps t => s.Asked t ∧
      ∀ id, reps[id]? = if id ∈ s.liveClasses then s.partition.rep id else none)
    (fun _ t => s.Asked t ∧ ∃ id ∈ s.liveClasses, s.partition.rep id = none) := by
  refine (ends_findLive h).bind ?_
  rintro _ t ⟨rfl, ht⟩
  have hids : ∀ id ∈ s.liveClasses, t.root id = id := by
    rw [ht.root]
    exact fun id hid => beq_iff_eq.1 (List.mem_filter.1 hid).2
  rw [← ht.partition] at h ⊢
  exact (ends_foldlM_addRep h hids [] (by simp)).mono
    (fun _ _ hu => ⟨ht.asked.trans hu.1, by simpa using hu.2⟩)
    fun _ _ hu => ⟨ht.asked.trans hu.1, hu.2⟩

/-- The table has the representative of every name. -/
theorem classOf?_bind_reps (h : s.partition.Shaped) {reps : Std.TreeMap Nat Kind}
    (hreps : ∀ id, reps[id]? = if id ∈ s.liveClasses then s.partition.rep id else none)
    (n : String) : (s.classOf? n).bind (reps[·]?) = s.partition.repOf n := by
  rw [Partition.repOf]
  change (s.partition.index n).bind (reps[·]?) = _
  cases hi : s.partition.index n with
  | none => rfl
  | some i =>
    have hlive : i ∈ s.liveClasses := by
      have hlt : i < s.members.size := h.index_lt hi
      have hroot : s.root i = i := h.index_root hi
      simp [liveClasses, hlt, hroot]
    change reps[i]? = _
    rw [hreps, if_pos hlive]
    rfl

theorem ends_nameKinds (h : s.partition.Shaped) (reps : Std.TreeMap Nat Kind) :
    Ends (nameKinds reps : Pass _) s
      (fun kinds t => s.Shortened t ∧ kinds.map Prod.fst = s.names.toList ∧
        ∀ p ∈ kinds, (s.classOf? p.1).bind (reps[·]?) = some p.2)
      (fun _ t => s.Shortened t ∧ ∃ n ∈ s.names.toList, (s.classOf? n).bind (reps[·]?) = none) := by
  unfold nameKinds
  rw [Ends.bind_iff, Site.ends_look_iff]
  -- the names are looked up in stores that are more and more shortened
  suffices haux : ∀ t : Store, s.Shortened t → Ends _ t _ _ from haux s (.refl s)
  induction s.names.toList with
  | nil => exact fun t ht => ⟨ht, rfl, by simp⟩
  | cons n names ih =>
    intro t ht
    rw [List.mapM_cons, bind_assoc]
    refine .of_classOf (ht.partition.symm ▸ h) fun u hu => ?_
    replace hu := ht.trans hu
    have hclass : u.partition.index n = s.classOf? n := congrFun hu.classOf? n
    rw [hclass]
    split
    · next k hk =>
      refine Ends.bind_iff.2 (Ends.bind_iff.2 ((ih u hu).mono ?_ ?_))
      · rintro kinds v ⟨hv, hfst, hall⟩
        exact ⟨hv, by rw [List.map_cons, hfst], List.forall_mem_cons.2 ⟨hk, hall⟩⟩
      · rintro _ v ⟨hv, m, hm, hnone⟩
        exact ⟨hv, m, List.mem_cons_of_mem _ hm, hnone⟩
    · next hnone => exact ⟨hu, n, List.mem_cons_self, hnone⟩

/-! ## The graph of mentions -/

theorem eq_of_getElem?_foldl_insert {n : Nat} {f : Fin n → String} {is : List (Fin n)}
    {m : Std.TreeMap String (Fin n)} (hm : ∀ {x j}, m[x]? = some j → f j = x) {x : String}
    {j : Fin n}
    (h : (is.foldl (fun m i => m.insert (f i) i) m)[x]? = some j) : f j = x := by
  induction is generalizing m with
  | nil => exact hm h
  | cons i is ih =>
    refine ih (fun {y j} hy => ?_) h
    rw [Std.TreeMap.getElem?_insert] at hy
    split at hy
    · next hi => exact Option.some.inj hy ▸ Std.LawfulEqCmp.eq_of_compare hi
    · exact hm hy

theorem getElem?_foldl_insert {n : Nat} {f : Fin n → String} (hf : Function.Injective f)
    {is : List (Fin n)} {m : Std.TreeMap String (Fin n)} {j : Fin n}
    (h : j ∈ is ∨ m[f j]? = some j) :
    (is.foldl (fun m i => m.insert (f i) i) m)[f j]? = some j := by
  induction is generalizing m with
  | nil => simpa using h
  | cons i is ih =>
    refine ih ?_
    by_cases hji : j = i
    · exact .inr (by simp [hji])
    · have hne : f i ≠ f j := fun he => hji (hf he).symm
      refine h.imp (fun hj => (List.mem_cons.1 hj).resolve_left hji) fun hj => ?_
      simpa [Std.TreeMap.getElem?_insert, hne] using hj

variable {kinds : Array (String × Kind)}

/-- An entry of the table. -/
def entry (kinds : Array (String × Kind)) (i : Fin kinds.size) : String × Kind :=
  kinds.toVector.get i

theorem entry_injective {kinds : List (String × Kind)} (h : (kinds.map Prod.fst).Nodup) :
    Function.Injective fun i : Fin kinds.toArray.size => (entry kinds.toArray i).1 := by
  intro i j hij
  have hi : i.val < (kinds.map Prod.fst).length := by simpa using i.isLt
  have hj : j.val < (kinds.map Prod.fst).length := by simpa using j.isLt
  have hij' : (kinds.map Prod.fst)[i.val] = (kinds.map Prod.fst)[j.val] := by
    simpa [entry, Vector.get] using hij
  exact Fin.ext (h.getElem_inj_iff.1 hij')

/-- The names of a table, in the order of its graph. -/
def nameOrder (kinds : Array (String × Kind)) : List String :=
  (mentionGraph kinds).dependencyOrder.map fun i => (entry kinds i).1

/-- **An edge of the graph is a mention.** -/
theorem mem_succ_mentionGraph
    (hinj : Function.Injective fun i : Fin kinds.size => (entry kinds i).1)
    {i j : Fin kinds.size} :
    j ∈ (mentionGraph kinds).succ i ↔ ∃ v ∈ (entry kinds i).2.vars, v.name = (entry kinds j).1 := by
  have hpos : ∀ x, ((List.finRange kinds.size).foldl
      (fun (m : Std.TreeMap String (Fin kinds.size)) i => m.insert (entry kinds i).1 i) ∅)[x]? =
        some j ↔ x = (entry kinds j).1 := by
    refine fun x => ⟨fun h => ?_, ?_⟩
    · exact (eq_of_getElem?_foldl_insert (f := fun i : Fin kinds.size => (entry kinds i).1)
        (by simp) h).symm
    · rintro rfl
      exact getElem?_foldl_insert hinj (.inl (List.mem_finRange j))
  unfold mentionGraph
  rw [Digraph.mem_succ_ofEdges]
  simp only [List.mem_flatMap, List.mem_filterMap, Option.map_eq_some_iff, Prod.mk.injEq]
  constructor
  · rintro ⟨i', -, v, hv, j', hj', rfl, rfl⟩
    exact ⟨v, hv, (hpos _).1 hj'⟩
  · rintro ⟨v, hv, hn⟩
    exact ⟨i, List.mem_finRange i, v, hv, j, (hpos _).2 hn, rfl, rfl⟩

end Store

/-! ## Solving name by name -/

/-- The names of `order` are solved in turn, each by its representative in which those before it are
replaced. -/
structure Solving (rep : String → Option Kind) (order : List String) (θ : String → Option Kind) :
    Prop where
  nodup : order.Nodup
  eq_none : ∀ {n}, n ∉ order → θ n = none
  eq_some : ∀ {pre n post}, order = pre ++ n :: post →
    ∃ r, rep n = some r ∧ θ n = some (r.resolve fun m => if m ∈ pre then θ m else none)

namespace Solving

variable {rep : String → Option Kind} {order : List String} {θ : String → Option Kind}

theorem nil : Solving rep [] fun _ => none where
  nodup := List.nodup_nil
  eq_none _ := rfl
  eq_some h := by simp at h

/-- One name more. -/
theorem snoc (h : Solving rep order θ) {n : String} (hn : n ∉ order) {r : Kind}
    (hr : rep n = some r) {θ' : String → Option Kind}
    (hθ : ∀ m, θ' m = if m = n then some (r.resolve θ) else θ m) :
    Solving rep (order ++ [n]) θ' := by
  have hold : ∀ {pre : List String}, (∀ m ∈ pre, m ∈ order) →
      (fun m => if m ∈ pre then θ' m else none) = fun m => if m ∈ pre then θ m else none := by
    intro pre hpre
    funext m
    split
    · next hm => rw [hθ, if_neg fun (he : m = n) => hn (he ▸ hpre m hm)]
    · rfl
  refine ⟨?_, fun {m} hm => ?_, fun {pre m post} he => ?_⟩
  · exact List.nodup_append.2 ⟨h.nodup, List.nodup_singleton n, fun a ha b hb hab =>
      hn (List.mem_singleton.1 hb ▸ hab ▸ ha)⟩
  · rw [List.mem_append, List.mem_singleton, not_or] at hm
    rw [hθ, if_neg hm.2, h.eq_none hm.1]
  · rcases List.eq_nil_or_concat post with rfl | ⟨post', x, rfl⟩
    · obtain ⟨rfl, hnm⟩ := List.append_inj' he rfl
      obtain rfl : n = m := (List.cons.inj hnm).1
      refine ⟨r, hr, ?_⟩
      rw [hold fun _ hm => hm, hθ, if_pos rfl]
      congr 2
      funext m
      split
      · rfl
      · next hm => exact h.eq_none hm
    · have he' : order ++ [n] = (pre ++ m :: post') ++ [x] := by simpa using he
      obtain ⟨hord, -⟩ := List.append_inj' he' rfl
      obtain ⟨r', hr', hθm⟩ := h.eq_some hord
      have hm : m ∈ order := by simp [hord]
      refine ⟨r', hr', ?_⟩
      rw [hold fun x hx => by simp [hord, hx], hθ, if_neg fun (he : m = n) => hn (he ▸ hm), hθm]

/-- What holds of an entry if it holds of those before it holds of all. -/
theorem forall_of_before {α : Type} {order : List α} {C : α → Prop}
    (h : ∀ pre n post, order = pre ++ n :: post → (∀ m ∈ pre, C m) → C n) : ∀ n ∈ order, C n := by
  suffices hpre : ∀ pre post, order = pre ++ post → ∀ n ∈ pre, C n from
    hpre order [] (List.append_nil order).symm
  intro pre
  induction pre using List.reverseRecOn with
  | nil => simp
  | append_singleton pre n ih =>
    intro post he
    rw [List.append_assoc] at he
    have hbefore := ih _ he
    exact List.forall_mem_append.2
      ⟨hbefore, List.forall_mem_singleton.2 (h pre n post he hbefore)⟩

/-- **What holds of a representative with solved names replaced holds of every solution.** -/
theorem forall_solved (h : Solving rep order θ) {I : String → Kind → Prop}
    (hI : ∀ n r, rep n = some r → ∀ θ' : String → Option Kind,
      (∀ m u, θ' m = some u → I m u) → I n (r.resolve θ')) : ∀ n u, θ n = some u → I n u := by
  have hall : ∀ n ∈ order, ∀ u, θ n = some u → I n u := by
    refine forall_of_before fun pre n post he hbefore u hu => ?_
    obtain ⟨r, hr, hθ⟩ := h.eq_some he
    obtain rfl := Option.some.inj (hθ.symm.trans hu)
    refine hI n r hr _ fun m w hw => ?_
    split at hw
    · next hm => exact hbefore m hm w hw
    · simp at hw
  intro n u hu
  refine hall n ?_ u hu
  by_contra hn
  simp [h.eq_none hn] at hu

end Solving

/-! ## The solution of a partition -/

/-- **A solution of a partition**: all its names, in an order in which those that a representative
mentions come first, unless they lead back. -/
structure Partition.Solution (P : Partition) (order : List String) (θ : String → Option Kind) :
    Prop extends Solving P.repOf order θ where
  mem_order : ∀ {n}, n ∈ order ↔ (P.index n).isSome
  before : ∀ {pre n post}, order = pre ++ n :: post → ∀ m, P.Mentions n m →
    m ∈ pre ∨ Relation.ReflTransGen P.Mentions m n

namespace Store

variable {s : Store} {kinds : Array (String × Kind)}

/-- The names of vertices, in the order of the graph, are the names in an order that serves. -/
theorem before_of_mentionGraph {P : Partition}
    (hinj : Function.Injective fun i : Fin kinds.size => (entry kinds i).1)
    (hrep : ∀ i : Fin kinds.size, P.repOf (entry kinds i).1 = some (entry kinds i).2)
    (hmem : ∀ n, (P.index n).isSome → ∃ i : Fin kinds.size, (entry kinds i).1 = n)
    {pre post : List String} {n : String}
    (h : nameOrder kinds = pre ++ n :: post)
    (m : String) (hnm : P.Mentions n m) : m ∈ pre ∨ Relation.ReflTransGen P.Mentions m n := by
  obtain ⟨pre', rest, horder, rfl, hrest⟩ := List.map_eq_append_iff.1 h
  obtain ⟨i, post', rfl, rfl, rfl⟩ := List.map_eq_cons_iff.1 hrest
  obtain ⟨hm, r, hr, v, hv, hvm⟩ := hnm
  obtain ⟨j, rfl⟩ := hmem m hm
  obtain rfl : (entry kinds i).2 = r := Option.some.inj ((hrep i).symm.trans hr)
  have hedge : j ∈ (mentionGraph kinds).succ i := (mem_succ_mentionGraph hinj).2 ⟨v, hv, hvm⟩
  have hedges : ∀ a b, b ∈ (mentionGraph kinds).succ a →
      P.Mentions (entry kinds a).1 (entry kinds b).1 := by
    intro a b hab
    obtain ⟨w, hw, hwb⟩ := (mem_succ_mentionGraph hinj).1 hab
    exact ⟨Partition.isSome_of_repOf (hrep b), _, hrep a, w, hw, hwb⟩
  rcases (mentionGraph kinds).dependencyOrder_spec.2.2 pre' i post' horder j hedge with hj | hj
  · exact .inl (List.mem_map_of_mem hj)
  · exact .inr (hj.lift (fun a => (entry kinds a).1) hedges)

/-- What one name adds to the solution. -/
theorem solving_insert {rep : String → Option Kind} {order : List String} {r : Kind} {n : String}
    (h : Solving rep order fun m => s.solution[m]?) (hn : n ∉ order) (hr : rep n = some r) :
    Solving rep (order ++ [n]) fun m => (s.solution.insert n (s.resolveKind r))[m]? := by
  refine h.snoc hn hr fun m => ?_
  rw [Std.TreeMap.getElem?_insert]
  by_cases hm : m = n
  · simp [hm, resolveKind]
  · simp [hm, Ne.symm hm]

/-- Solving the names of a table in the order of its graph. -/
theorem ends_solveAll {P : Partition} (hs : s.partition = P) (hsol : s.solution = ∅)
    (hinj : Function.Injective fun i : Fin kinds.size => (entry kinds i).1)
    (hrep : ∀ i : Fin kinds.size, P.repOf (entry kinds i).1 = some (entry kinds i).2)
    (hmem : ∀ n, (P.index n).isSome → ∃ i : Fin kinds.size, (entry kinds i).1 = n)
    {E : Fault → Store → Prop} :
    Ends ((mentionGraph kinds).dependencyOrder.forM fun i =>
        Site.alter fun s => { s with
          solution := s.solution.insert (entry kinds i).1 (s.resolveKind (entry kinds i).2) }) s
      (fun _ t => t.partition = P ∧ P.Solution (nameOrder kinds) fun n => t.solution[n]?) E := by
  obtain ⟨hnodup, hall, -⟩ := (mentionGraph kinds).dependencyOrder_spec
  have hI := Ends.forM (E := E) (s := s) (l := (mentionGraph kinds).dependencyOrder)
    (f := fun i => Site.alter fun s =>
      { s with solution := s.solution.insert (entry kinds i).1 (s.resolveKind (entry kinds i).2) })
    (I := fun rest t => t.partition = P ∧ ∃ before,
      (mentionGraph kinds).dependencyOrder = before ++ rest ∧
      Solving P.repOf (before.map fun i => (entry kinds i).1) fun n => t.solution[n]?)
    ⟨hs, [], rfl, by simpa [hsol] using Solving.nil⟩ ?_
  · refine hI.mono ?_ fun _ _ he => he
    rintro _ t ⟨ht, before, hbefore, hsolving⟩
    rw [List.append_nil] at hbefore
    subst hbefore
    refine ⟨ht, hsolving, fun {n} => ⟨fun hn => ?_, fun hn => ?_⟩, fun {pre n post} he =>
      before_of_mentionGraph hinj hrep hmem he⟩
    · obtain ⟨i, -, rfl⟩ := List.mem_map.1 hn
      exact Partition.isSome_of_repOf (hrep i)
    · obtain ⟨i, rfl⟩ := hmem n hn
      exact List.mem_map_of_mem (hall i)
  · rintro i rest t ⟨ht, before, hbefore, hsolving⟩
    refine ⟨ht, before ++ [i], by simp [hbefore], ?_⟩
    rw [List.map_append, List.map_singleton]
    refine solving_insert hsolving (fun hi => ?_) (hrep i)
    obtain ⟨j, hj, hji⟩ := List.mem_map.1 hi
    rw [hbefore] at hnodup
    exact (List.nodup_append.1 hnodup).2.2 j hj i List.mem_cons_self (hinj hji)

/-- **Solving finds a solution**, unless a name has no representative, and takes the names in the
order of the graph. -/
theorem ends_solve_nameOrder (h : s.partition.Shaped) : Ends solve s
    (fun _ t => t.partition = s.partition ∧
      s.partition.Solution (nameOrder s.partition.table.toArray) fun n => t.solution[n]?)
    (fun _ t => t.partition = s.partition ∧
      ∃ n, (s.partition.index n).isSome ∧ s.partition.repOf n = none) := by
  unfold solve
  refine Ends.bind_iff.2 (Site.ends_alter_iff.2 ?_)
  generalize hs₀ : ({ s with solution := ∅ } : Store) = s₀
  have hP : s₀.partition = s.partition := hs₀ ▸ rfl
  rw [← hP] at h ⊢
  rw [Ends.bind_iff]
  refine (ends_representatives h).mono ?_ ?_
  · rintro reps t ⟨ht, hreps⟩
    have hshaped := ht.partition.symm ▸ h
    have hbind : ∀ n, (t.classOf? n).bind (reps[·]?) = s₀.partition.repOf n := by
      rw [show t.classOf? = s₀.classOf? from congrArg Partition.index ht.partition]
      exact classOf?_bind_reps h hreps
    have hnames : ∀ {n}, n ∈ t.names.toList ↔ (s₀.partition.index n).isSome := by
      rw [← ht.partition]
      exact hshaped.mem_names
    rw [Ends.bind_iff]
    refine (ends_nameKinds hshaped reps).mono ?_ ?_
    · rintro kinds u ⟨hu, hfst, hkinds⟩
      have htable : s₀.partition.table = kinds := by
        refine Partition.table_eq (hfst.trans ?_) fun p hp => ?_
        · exact congrArg Partition.names ht.partition
        · rw [← hbind]
          exact hkinds p hp
      rw [htable]
      refine ends_solveAll (hu.partition.trans ht.partition) ?_ ?_ ?_ ?_
      · rw [hu.solution, ht.solution, ← hs₀]
      · exact entry_injective (hfst ▸ hshaped.names_nodup)
      · intro i
        rw [← hbind]
        exact hkinds _ (by simp [entry, Vector.get])
      · intro n hn
        rw [← hnames, ← hfst] at hn
        obtain ⟨p, hp, rfl⟩ := List.mem_map.1 hn
        obtain ⟨i, hi, rfl⟩ := List.getElem_of_mem hp
        exact ⟨⟨i, by simpa using hi⟩, rfl⟩
    · rintro _ u ⟨hu, n, hn, hnone⟩
      exact ⟨hu.partition.trans ht.partition, n, hnames.1 hn, (hbind n).symm.trans hnone⟩
  · rintro _ t ⟨ht, id, hid, hnone⟩
    have hlt : id < s₀.partition.size := List.mem_range.1 (List.mem_filter.1 hid).1
    obtain ⟨n, i, hi, hroot⟩ := h.exists_names hlt
    refine ⟨ht.partition, n, hi ▸ rfl, ?_⟩
    rw [Partition.repOf, hi]
    exact (h.rep_congr hroot).trans hnone

theorem ends_solve (h : s.partition.Shaped) : Ends solve s
    (fun _ t => t.partition = s.partition ∧
      ∃ order, s.partition.Solution order fun n => t.solution[n]?)
    (fun _ t => t.partition = s.partition ∧
      ∃ n, (s.partition.index n).isSome ∧ s.partition.repOf n = none) :=
  (ends_solve_nameOrder h).mono (fun _ _ ht => ⟨ht.1, _, ht.2⟩) fun _ _ ht => ht

/-- **Constraints can be solved** if every name has a representative. -/
theorem exists_solution (h : s.partition.Shaped)
    (hrep : ∀ n, (s.partition.index n).isSome → s.partition.repOf n ≠ none) :
    ∃ t, solve s = .ok () t ∧ t.partition = s.partition ∧
      ∃ order, s.partition.Solution order fun n => t.solution[n]? := by
  obtain ⟨_, t, ht, hsol⟩ := ((ends_solve h).mono (fun _ _ ht => ht)
    fun _ _ ⟨_, n, hn, hnone⟩ => hrep n hn hnone).exists_ok
  exact ⟨t, ht, hsol⟩

end Store

/-! ## Solutions without cycles -/

namespace Partition

variable {P : Partition} {order : List String} {θ : String → Option Kind} {n m : String} {r : Kind}

/-- **No class leads back to itself**, but for a class that is represented by one of its names. -/
def Acyclic (P : Partition) : Prop :=
  ∀ n m i, Relation.TransGen P.Mentions n m → P.Names n i → P.Names m i →
    ∃ r, P.repOf n = some r ∧ r.varName? = some m

/-- A name that is represented by itself stands for itself. -/
theorem Solution.eq_self (h : P.Solution order θ) (hr : P.repOf n = some r)
    (hn : r.varName? = some n) : θ n = some r := by
  obtain ⟨pre, post, rfl⟩ := List.append_of_mem (h.mem_order.2 (isSome_of_repOf hr))
  obtain ⟨r', hr', hθ⟩ := h.eq_some rfl
  obtain rfl := Option.some.inj (hr.symm.trans hr')
  rw [hθ, Kind.resolve_of_varName? hn]
  intro u hu
  have hpre : n ∉ pre := fun hm =>
    (List.nodup_append.1 h.nodup).2.2 n hm n List.mem_cons_self rfl
  simp [hpre] at hu

/-- **A name whose class is represented by a variable stands for that variable.** -/
theorem Solution.eq_var (h : P.Solution order θ) (hr : P.repOf n = some r)
    (hm : r.varName? = some m) (hrm : P.repOf m = some r) : θ n = some r := by
  obtain ⟨pre, post, rfl⟩ := List.append_of_mem (h.mem_order.2 (isSome_of_repOf hr))
  obtain ⟨r', hr', hθ⟩ := h.eq_some rfl
  obtain rfl := Option.some.inj (hr.symm.trans hr')
  rw [hθ, Kind.resolve_of_varName? hm]
  intro u hu
  split at hu
  · exact Option.some.inj (hu.symm.trans (h.eq_self hrm hm))
  · simp at hu

/-- **A name stands for its representative with all names replaced.** -/
theorem Solution.eq_resolve (h : P.Solution order θ) (hac : P.Acyclic) (hr : P.repOf n = some r) :
    θ n = some (r.resolve θ) := by
  by_cases hn : r.varName? = some n
  · have hself := h.eq_self hr hn
    rw [Kind.resolve_of_varName? hn fun u hu => Option.some.inj (hu.symm.trans hself), hself]
  obtain ⟨pre, post, rfl⟩ := List.append_of_mem (h.mem_order.2 (isSome_of_repOf hr))
  obtain ⟨r', hr', hθ⟩ := h.eq_some rfl
  obtain rfl := Option.some.inj (hr.symm.trans hr')
  rw [hθ, Kind.resolve_congr]
  intro v hv
  by_cases hv' : v.name ∈ pre
  · exact if_pos hv'
  rw [if_neg hv']
  cases hi : P.index v.name with
  | none => exact (h.eq_none fun hm => by simpa [hi] using h.mem_order.1 hm).symm
  | some i =>
    -- a name that is not solved before leads back to `n`
    have hmen : P.Mentions n v.name := ⟨hi ▸ rfl, r, hr, v, hv, rfl⟩
    have hback := (h.before rfl _ hmen).resolve_left hv'
    obtain ⟨j, hj, -⟩ := Option.bind_eq_some_iff.1 hr
    obtain ⟨r', hr', hrn⟩ := hac n n j (.head' hmen hback) (names_of_index hj) (names_of_index hj)
    rw [hr] at hr'
    exact absurd (Option.some.inj hr' ▸ hrn) hn

end Partition

end StackEffect
