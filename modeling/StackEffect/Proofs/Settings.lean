import Mathlib.Data.String.Basic
import StackEffect.Settings

/-!
# Proofs/Settings — the words of settings are in the order of their names

A table of a document has no two entries of one key, however many tables are merged into it.  So the
words that settings give a signature to have different names, and are listed in the order of these
(`Settings.inOrder_of_parse`).
-/

namespace StackEffect

namespace Document

namespace Decode

variable {α β : Type} {p : Decode α} {f : α → Decode β} {Q : α → Prop} {R : β → Prop} {a : α}

/-- What a reading answers, if it answers something. -/
def Yields (p : Decode α) (Q : α → Prop) : Prop := ∀ t r, p t = .ok r → Q r.1

/-- What is yielded is gone on with. -/
theorem Yields.bind (hp : p.Yields Q) (hf : ∀ a, Q a → (f a).Yields R) : (p >>= f).Yields R := by
  intro t r h
  change (p t >>= fun x => f x.1 x.2) = .ok r at h
  cases hpt : p t with
  | error e =>
    rw [hpt] at h
    cases h
  | ok x =>
    rw [hpt] at h
    exact hf x.1 (hp t x hpt) x.2 r h

theorem Yields.then (hf : ∀ a, (f a).Yields R) : (p >>= f).Yields R :=
  Yields.bind (Q := fun _ => True) (fun _ _ _ => trivial) fun a _ => hf a

theorem yields_pure (h : Q a) : (pure a : Decode α).Yields Q := by
  rintro t r hr
  rw [← Except.ok.inj hr]
  exact h

theorem yields_throw (e : DocumentError) : (throw e : Decode α).Yields Q := by
  intro t r hr
  cases hr

/-- Nothing is read after an error. -/
theorem yields_throw_bind (e : DocumentError) : ((throw e : Decode α) >>= f).Yields R :=
  Yields.bind (Q := fun _ => False) (yields_throw e) fun _ => False.elim

theorem yields_following (hp : p.Yields Q) : (following p).Yields Q :=
  .then fun _ => hp.bind fun _ ha => .then fun _ => yields_pure ha

/-- What a whole document yields. -/
theorem Yields.of_document (hp : p.Yields Q) (h : document p = .ok a) : Q a := by
  change (p ⟨1, 0, 0⟩ >>= fun r => pure r.1) = .ok a at h
  cases hrun : p ⟨1, 0, 0⟩ with
  | error e =>
    rw [hrun] at h
    cases h
  | ok r =>
    rw [hrun] at h
    exact Except.ok.inj h ▸ hp _ r hrun

end Decode

namespace Node

open Decode

variable {σ : Type} {I : σ → Prop} {take : TakeEntry σ} {m : Merging σ}

/-- Taking in an entry keeps an invariant. -/
def TakeEntry.Keeps (take : TakeEntry σ) (I : σ → Prop) : Prop :=
  ∀ s merged key value, I s → (take s merged key value).Yields I

/-- The own entries of a table keep what every entry keeps. -/
theorem yields_readOwn (htake : take.Keeps I) (merged : Bool) (entries : List (Node × Node))
    (hm : I m.result) : (readOwn take merged entries m).Yields fun m => I m.result := by
  induction entries generalizing m with
  | nil => exact yields_pure hm
  | cons e entries ih =>
    rcases e with ⟨k, v⟩
    rw [readOwn]
    split
    · exact ih hm
    refine .then fun key => ?_
    cases key with
    | none => exact ih hm
    | some key =>
      dsimp only
      split
      · exact ih hm
      · exact (htake _ _ _ _ hm).bind fun _ hr => ih hr

mutual
/-- So does what is merged into it. -/
theorem yields_merge (htake : take.Keeps I) (n : Node) (m : Merging σ) (hm : I m.result) :
    (merge take n m).Yields fun m => I m.result := by
  cases n with
  | list items =>
    rw [merge]
    exact yields_mergeAll htake items m hm
  | table entries =>
    rw [merge]
    exact .then fun _ => yields_mergeTable htake entries m hm
  | reference a target =>
    cases target with
    | table entries =>
      rw [merge]
      exact .then fun _ => yields_following (.then fun _ => yields_mergeTable htake entries m hm)
    | _ =>
      rw [merge]
      · exact yields_throw _
      all_goals simp
  | _ =>
    rw [merge]
    · exact yields_throw _
    all_goals simp
termination_by (sizeOf n, 0)
theorem yields_mergeAll (htake : take.Keeps I) (ns : List Node) (m : Merging σ) (hm : I m.result) :
    (mergeAll take ns m).Yields fun m => I m.result := by
  cases ns with
  | nil =>
    rw [mergeAll]
    exact yields_pure hm
  | cons n ns =>
    cases n with
    | list items =>
      rw [mergeAll]
      exact yields_throw _
    | _ =>
      rw [mergeAll]
      · exact (yields_merge htake _ m hm).bind fun m hm => yields_mergeAll htake ns m hm
      all_goals simp
termination_by (sizeOf ns, 0)
/-- **What every entry of a table keeps is kept when the table is merged.** -/
theorem yields_mergeTable (htake : take.Keeps I) (entries : List (Node × Node)) (m : Merging σ)
    (hm : I m.result) : (mergeTable take entries m).Yields fun m => I m.result := by
  rw [mergeTable]
  split
  · exact yields_throw_bind _
  · exact (yields_readOwn htake true entries hm).bind fun m hm => yields_mergeInside htake entries m hm
termination_by (sizeOf entries, 1)
theorem yields_mergeInside (htake : take.Keeps I) (entries : List (Node × Node)) (m : Merging σ)
    (hm : I m.result) : (mergeInside take entries m).Yields fun m => I m.result := by
  cases entries with
  | nil =>
    rw [mergeInside]
    exact yields_pure hm
  | cons e entries =>
    rcases e with ⟨k, v⟩
    rw [mergeInside]
    split
    · exact yields_merge htake v m hm
    · exact yields_mergeInside htake entries m hm
termination_by (sizeOf entries, 0)
end

/-- **What all entries keep, a table keeps**, with the tables that are merged into it. -/
theorem yields_table? (htake : take.Keeps I) {init : σ} (hinit : I init) (n : Node) :
    (table? init take n).Yields fun r => ∀ s ∈ r, I s := by
  have hsome : ∀ m : Merging σ, I m.result →
      (pure (some m.result) : Decode (Option σ)).Yields fun r => ∀ s ∈ r, I s := fun m hm =>
    yields_pure fun s hs => Option.some.inj hs ▸ hm
  cases n with
  | table entries =>
    rw [table?]
    refine .then fun _ => ?_
    by_cases hkeys : (!distinctKeys entries) = true
    · rw [if_pos hkeys]
      exact yields_throw_bind _
    rw [if_neg hkeys]
    refine (yields_readOwn htake false entries (m := ⟨init, []⟩) hinit).bind fun own hown => ?_
    split
    · exact .then fun keys => (yields_mergeInside htake entries ⟨own.result, keys⟩ hown).bind hsome
    · exact hsome own hown
  | reference a target =>
    rw [table?]
    exact .then fun _ => yields_following (yields_table? htake hinit target)
  | _ =>
    rw [table?]
    · refine .then fun o => ?_
      cases o with
      | none => exact yields_pure fun _ hs => by cases hs
      | some _ => exact yields_throw _
    all_goals simp
termination_by sizeOf n

/-- A key is put in a table once. -/
theorem nodup_keys_put {α : Type} {t : Assoc α} (h : (Assoc.keys t).Nodup) (key : String) (v : α) :
    (Assoc.keys (Assoc.put t key v)).Nodup := by
  refine List.nodup_cons.2 ⟨?_, h.sublist (List.Sublist.map _ List.filter_sublist)⟩
  simp [Assoc.drop]

/-- **A table has no two entries of one key.** -/
theorem yields_tableOf {α : Type} (missing : α) (read : Node → Decode (Option α)) (n : Node) :
    (n.tableOf missing read).Yields fun t => (Assoc.keys t).Nodup := by
  refine (yields_table? (I := fun t => (Assoc.keys t).Nodup) (fun t merged key value ht => ?_)
    (show (Assoc.keys []).Nodup from List.nodup_nil) n).bind fun r hr => yields_pure ?_
  · refine .then fun v => ?_
    cases v with
    | some v => exact yields_pure (nodup_keys_put ht key v)
    | none =>
      dsimp only
      split
      · exact yields_pure ht
      · exact yields_pure (nodup_keys_put ht key missing)
  · cases r with
    | none => exact List.nodup_nil
    | some t => exact hr t rfl

/-- What all fields keep, a table with fields keeps. -/
theorem yields_fields {readings : List (String × (σ → Node → Decode σ))} {init : σ}
    (hread : ∀ e ∈ readings, ∀ s n, I s → (e.2 s n).Yields I) (hinit : I init) (n : Node) :
    (n.fields readings init).Yields I := by
  refine (yields_table? (I := fun r : σ × List String => I r.1) (fun r merged key value hr => ?_)
    hinit n).bind fun r hr => yields_pure ?_
  · rcases r with ⟨s, done⟩
    dsimp only
    cases hlookup : readings.lookup key with
    | none => exact yields_pure hr
    | some read =>
      obtain ⟨before, after, hreadings, -⟩ := List.lookup_eq_some_iff.1 hlookup
      have hmem : (key, read) ∈ readings := by simp [hreadings]
      dsimp only
      split
      · exact yields_throw_bind _
      · exact (hread _ hmem s value hr).bind fun _ hs => yields_pure hs
  · cases r with
    | none => exact hinit
    | some r => exact hr r rfl

end Node

end Document

namespace Settings

open Document Decode

/-- **The words are in the order of their names**, each of which occurs once. -/
def InOrder (s : Settings) : Prop := s.words.Pairwise fun a b => a.1 < b.1

/-- A table is sorted by its keys. -/
theorem pairwise_sorted {t : Assoc String} (h : (Assoc.keys t).Nodup) :
    (sorted t).Pairwise fun a b => a.1 < b.1 := by
  have htrans : ∀ a b c : String × String, decide (a.1 ≤ b.1) = true → decide (b.1 ≤ c.1) = true →
      decide (a.1 ≤ c.1) = true := fun _ _ _ hab hbc =>
    decide_eq_true (le_trans (of_decide_eq_true hab) (of_decide_eq_true hbc))
  have htotal : ∀ a b : String × String, (decide (a.1 ≤ b.1) || decide (b.1 ≤ a.1)) = true :=
    fun a b => by simpa using le_total a.1 b.1
  have hle : (sorted t).Pairwise fun a b => decide (a.1 ≤ b.1) = true :=
    List.pairwise_mergeSort htrans htotal t
  have hne : (sorted t).Pairwise fun a b => a.1 ≠ b.1 :=
    List.pairwise_map.1 (((List.mergeSort_perm t _).map Prod.fst).nodup_iff.2 h)
  exact (hle.and hne).imp fun hab => lt_of_le_of_ne (of_decide_eq_true hab.1) hab.2

theorem yields_texts (n : Node) : (texts n).Yields fun t => t.Pairwise fun a b => a.1 < b.1 :=
  (Node.yields_tableOf "" Node.text? n).bind fun _ ht => yields_pure (pairwise_sorted ht)

/-- **Settings that are read are in order.** -/
theorem yields_read (n : Node) : (read n).Yields InOrder := by
  refine Node.yields_fields (I := InOrder) (fun e he s n hs => ?_)
    (show InOrder none from List.Pairwise.nil) n
  simp only [List.mem_cons, List.not_mem_nil, or_false] at he
  rcases he with rfl | rfl | rfl | rfl | rfl
  · exact .then fun _ => yields_pure hs
  · exact .then fun _ => yields_pure hs
  · exact .then fun _ => yields_pure hs
  · exact (yields_texts n).bind fun _ ht => yields_pure ht
  · exact .then fun _ => yields_pure hs

/-- **Settings that are read have their words in order.** -/
theorem inOrder_of_parse {src : String} {s : Settings} (h : parse src = .ok s) : s.InOrder := by
  cases hdoc : Document.parse src with
  | error e => simp [parse, hdoc, bind, Except.bind] at h
  | ok n =>
    refine (yields_read (n.getD .nothing)).of_document ?_
    simpa [parse, hdoc, bind, Except.bind, ofNode] using h

end Settings

end StackEffect
