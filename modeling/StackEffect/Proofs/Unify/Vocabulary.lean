import StackEffect.Proofs.Unify.Alongside

/-!
# Proofs/Unify/Vocabulary — unifying invents nothing

    V.name n        n was given, or is the name of a variable that was
    V.kind k        k is a part of a kind that was given

Whatever is done to a store with kinds and names of a vocabulary, and whatever fails, its members
and names are in the vocabulary (`Vocabulary.Covers`).  Nothing else is asked of the store: not even
that its links end.
-/

namespace StackEffect

namespace Vocabulary

variable {V : Vocabulary} {s : Store} {name : String} {k : Kind}

/-- What a store has is seen in its partition. -/
theorem Covers.congr {t : Store} (h : V.Covers s) (ht : t.partition = s.partition) :
    V.Covers t where
  names n hn := by
    have hnames : t.names.toList = s.names.toList := congrArg Partition.names ht
    exact h.names n (Array.mem_toList_iff.1 (hnames ▸ Array.mem_toList_iff.2 hn))
  members i k hk := by
    have hown : (t.members.getD i #[]).toList = (s.members.getD i #[]).toList :=
      congrFun (congrArg Partition.own ht) i
    exact h.members i k (Array.mem_toList_iff.1 (hown ▸ Array.mem_toList_iff.2 hk))

theorem Covers.register (h : V.Covers s) (hn : V.name name) (id : Nat) :
    V.Covers (s.register name id) where
  names n hn' := by
    rcases Array.mem_push.1 hn' with hn' | rfl
    · exact h.names n hn'
    · exact hn
  members := h.members

/-- A class for a new name is covered. -/
theorem Covers.registerNew (h : V.Covers s) (hn : V.name name) :
    V.Covers (s.registerNew name) where
  names := (h.register hn s.members.size).names
  members i k hk := by
    simp only [Store.registerNew, Store.register, Array.getD_eq_getD_getElem?,
      Array.getElem?_push] at hk
    split at hk
    · simp at hk
    · exact h.members i k (by simpa [Array.getD_eq_getD_getElem?] using hk)

theorem Covers.modify (h : V.Covers s) {f : Array Kind → Array Kind}
    (hf : ∀ ks : Array Kind, (∀ k ∈ ks, V.kind k) → ∀ k ∈ f ks, V.kind k) (id : Nat) :
    V.Covers { s with members := s.members.modify id f } where
  names := h.names
  members i := by
    have hi := h.members i
    simp only [Array.getD_eq_getD_getElem?, Array.getElem?_modify] at hi ⊢
    split
    · cases hget : s.members[i]? with
      | none => simp
      | some ks => exact hf ks (by simpa [hget] using hi)
    · exact hi

/-- A member of the vocabulary is covered. -/
theorem Covers.append (h : V.Covers s) (hk : V.kind k) (id : Nat) : V.Covers (s.append id k) :=
  h.modify (fun _ hks l hl => (Array.mem_push.1 hl).elim (hks l) fun e => e ▸ hk) _

theorem Covers.takeFirst (h : V.Covers s) (id : Nat) : V.Covers (s.takeFirst id) := by
  refine h.modify (fun ks hks l hl => hks l ?_) id
  rw [← Array.mem_toList_iff] at hl ⊢
  rw [show (ks.drop 1).toList = ks.toList.tail by simp [List.take_of_length_le]] at hl
  exact List.mem_of_mem_tail hl

theorem Covers.note (h : V.Covers s) (line : Unit → String) : V.Covers (s.note line) :=
  h.congr (Store.partition_note s line)

/-- **Each single step keeps to the vocabulary.** -/
theorem Covers.change (h : V.Covers s) {ρ : Equiv.Perm String} {f g : Store → Store}
    (hfg : Counterpart ρ V f g) : V.Covers (f s) := by
  cases hfg with
  | register hn id => exact h.register hn id
  | registerNew hn => exact h.registerNew hn
  | append id hk => exact h.append hk id
  | takeFirst id => exact h.takeFirst id
  | absorb => exact ⟨(h.note _).names, (h.note _).members⟩
  | _ => exact ⟨h.names, h.members⟩

/-! ## Unifying keeps to a vocabulary -/

/-- A step that keeps to a vocabulary, whether it succeeds or fails. -/
abbrev Keeps (V : Vocabulary) (p : Pass Unit) : Prop :=
  ∀ s, V.Covers s → Ends p s (fun _ t => V.Covers t) fun _ t => V.Covers t

/-- A store that a vocabulary covers can be called alongside itself. -/
theorem pairing_covers (V : Vocabulary) :
    Pairing (.refl String) V (fun _ (s t : Store) => t = s ∧ V.Covers s)
      fun _ e s f t => f = e ∧ t = s ∧ V.Covers s where
  relabeled h := .of_eq (h.1 ▸ rfl)
  covers h := h.2
  change hfg h := ⟨by rw [hfg.eq, h.1], h.2.change hfg⟩
  late _ := .pure
  clash h m := ⟨by rw [Mismatch.relabel, Kind.relabel_refl, Kind.relabel_refl], h⟩
  refuse h := ⟨rfl, h.1 ▸ rfl, h.2.names, h.2.members⟩
  nested hpq := hpq.nested (fun _ _ h => ⟨h.1 ▸ rfl, h.2.names, h.2.members⟩)
    (fun _ _ h => ⟨h.1 ▸ rfl, h.2.names, h.2.members⟩)
    fun _ _ _ _ h => ⟨h.1, h.2.1 ▸ rfl, h.2.2.names, h.2.2.members⟩

theorem keeps_of_same {p : Pass Unit} (h : Same V.Covers (fun _ => V.Covers) p p) : V.Keeps p :=
  fun s hs => (same_iff.1 h s hs).2

/-- What `constrain`, `join` and `unifyStacks` keep when so many levels are left. -/
structure Kept (V : Vocabulary) (width room : Nat) : Prop where
  constrain : ∀ n k, V.name n → V.kind k → V.Keeps (Unify.constrain width room n k)
  equate : ∀ v w, V.kind (.stack v) → V.kind (.stack w) → V.Keeps (Unify.unifyStacks width room v w)
  effects : ∀ f g, V.kind f → V.kind g →
    V.Keeps (Unify.unifyEffects (Unify.unifyStacks width room) f g)

/-- **Unifying keeps to a vocabulary**, at every level. -/
theorem kept (V : Vocabulary) (width room : Nat) : V.Kept width room where
  constrain n k hn hk := keeps_of_same <| by
    have h := ((pairing_covers V).calls width room).constrain n k hn hk
    rwa [Kind.relabel_refl] at h
  equate v w hv hw := keeps_of_same <| by
    have h := ((pairing_covers V).calls width room).equate v w hv hw
    rwa [Kind.map_relabel_refl, Kind.map_relabel_refl] at h
  effects f g hf hg := keeps_of_same <| by
    have h := Unify.abreast_unifyEffects ((pairing_covers V).calls width room).equate hf hg
    rwa [Kind.relabel_refl, Kind.relabel_refl] at h

end Vocabulary

end StackEffect
