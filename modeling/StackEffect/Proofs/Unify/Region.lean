import StackEffect.Proofs.Kind.WellFormed
import StackEffect.Proofs.Unify.Again

/-!
# Proofs/Unify/Region — what a step leaves alone

    n ⟶ m           a member of the class of n mentions m
    n ⟶ … ⟶ n       the class of n is recursive

A step that starts from some names reaches no further than their region: the names that they lead to.
A class that is not recursive is not in the region of what its own members mention, so that meeting
them leaves the class alone (`Partition.Calms`).
-/

namespace StackEffect

/-- A name that is mentioned in one of the kinds. -/
def Kind.Mentioned (ks : List Kind) (n : String) : Prop := ∃ k ∈ ks, ∃ v ∈ k.vars, v.name = n

/-- Kinds mention what their parts do. -/
theorem Kind.Mentioned.of_parts {k l k' l' : Kind} {n : String} (h : Mentioned [k, l] n)
    (hk : k.vars ⊆ k'.vars) (hl : l.vars ⊆ l'.vars) : Mentioned [k', l'] n := by
  obtain ⟨x, hx, v, hv, rfl⟩ := h
  rcases List.mem_pair.1 hx with rfl | rfl
  · exact ⟨k', List.mem_cons_self, v, hk hv, rfl⟩
  · exact ⟨l', List.mem_cons_of_mem _ List.mem_cons_self, v, hl hv, rfl⟩

theorem Kind.Alike.varName?_eq_none {k l : Kind} (h : k.Alike l) : k.varName? = none := by
  cases k <;> first | rfl | exact h.elim

namespace Partition

variable {P Q R : Partition} {n m : String} {i j id src dst : Nat} {k l : Kind}
  {A B D : String → Prop}

theorem Names.root_eq (h : P.Names n i) (h' : P.Names n j) : P.root i = P.root j := by
  obtain ⟨a, ha, hai⟩ := h
  obtain ⟨b, hb, hbj⟩ := h'
  obtain rfl : a = b := Option.some.inj (ha.symm.trans hb)
  exact hai.symm.trans hbj

/-! ## Regions -/

/-- **`n` leads to `m`**: a member of the class of `n` mentions `m`, or another name of its class.
Names that share a class do not lead to each other by that. -/
def Leads (P : Partition) (n m : String) : Prop :=
  ∃ i k, P.Names n i ∧ k ∈ P.members i ∧ k.varName? = none ∧
    ∃ v ∈ k.vars, v.name = m ∨ ∃ j, P.Names v.name j ∧ P.Names m j

/-- **A class is recursive** if one of its names leads back to itself. -/
def Recursive (P : Partition) (id : Nat) : Prop :=
  ∃ n, P.Names n id ∧ Relation.TransGen P.Leads n n

theorem Recursive.congr (h : P.Recursive i) (hij : P.root i = P.root j) : P.Recursive j :=
  h.imp fun _ hn => ⟨hn.1.congr hij, hn.2⟩

/-- **A region**: it has all names that its names share a class with, or lead to. -/
structure Region (P : Partition) (D : String → Prop) : Prop where
  same : ∀ {n m i}, D n → P.Names n i → P.Names m i → D m
  mention : ∀ {n i k v}, D n → P.Names n i → k ∈ P.members i → v ∈ k.vars → D v.name

/-- What the names of a class lead to. -/
def Below (P : Partition) (id : Nat) (m : String) : Prop :=
  ∃ n, P.Names n id ∧ Relation.TransGen P.Leads n m

theorem Leads.congr (h : P.Leads n m) {m' : String} (hm : P.Names m i) (hm' : P.Names m' i) :
    P.Leads n m' := by
  obtain ⟨a, k, hn, hk, hv, v, hvk, hvm⟩ := h
  refine ⟨a, k, hn, hk, hv, v, hvk, .inr ?_⟩
  rcases hvm with rfl | ⟨j, hj, hmj⟩
  · exact ⟨i, hm, hm'⟩
  · exact ⟨j, hj, hm'.congr (hm.root_eq hmj)⟩

/-- What leads to a name leads to all names of its class. -/
theorem leads_congr (h : Relation.TransGen P.Leads n m) {m' : String} (hm : P.Names m i)
    (hm' : P.Names m' i) : Relation.TransGen P.Leads n m' := by
  cases h with
  | single h => exact .single (h.congr hm hm')
  | tail hlead h => exact .tail hlead (h.congr hm hm')

/-- What lies below a class is a region. -/
theorem Sound.region_below (h : P.Sound) (id : Nat) : P.Region (P.Below id) where
  same hD hn hm := hD.imp fun _ ha => ⟨ha.1, leads_congr ha.2 hn hm⟩
  mention {n i k v} hD hn hk hv := by
    obtain ⟨a, ha, hlead⟩ := hD
    refine ⟨a, ha, ?_⟩
    cases hvar : k.varName? with
    | none => exact hlead.tail ⟨i, k, hn, hk, hvar, v, hv, .inl rfl⟩
    | some m =>
      obtain ⟨u, rfl, rfl⟩ := Kind.eq_varKind_of_varName? hvar
      rw [Kind.vars_varKind, List.mem_singleton] at hv
      exact leads_congr hlead hn (hv ▸ h.member_var hk hvar)

/-- **A class that is not recursive does not lie below itself.** -/
theorem not_below (h : ¬ P.Recursive id) (hn : P.Names n id) : ¬ P.Below id n := by
  rintro ⟨a, ha, hlead⟩
  exact h ⟨a, ha, leads_congr hlead hn ha⟩

/-- If one name of a class leads back to itself, so do all of them. -/
theorem Recursive.leads (h : P.Recursive id) (hn : P.Names n id) :
    Relation.TransGen P.Leads n n := by
  obtain ⟨a, ha, hlead⟩ := h
  obtain ⟨b, ⟨i, k, hai, hk⟩, hrest⟩ := Relation.TransGen.head'_iff.1 (leads_congr hlead ha hn)
  exact Relation.TransGen.head'_iff.2 ⟨b, ⟨i, k, hn.congr (ha.root_eq hai), hk⟩, hrest⟩

/-- What a member mentions lies below its class. -/
theorem Shaped.below_of_mem (h : P.Shaped) (hk : k ∈ P.members id) (hvar : k.varName? = none)
    {v : Var} (hv : v ∈ k.vars) : P.Below id v.name := by
  have hid : id < P.size := by
    by_contra hid
    simp [h.members_of_ge (Nat.le_of_not_lt hid)] at hk
  obtain ⟨n, hn⟩ := h.exists_names hid
  exact ⟨n, hn, .single ⟨id, k, hn, hk, hvar, v, hv, .inl rfl⟩⟩

/-! ## Members in pairs -/

/-- Any two members of a class of `P` agree in `R`, effects with effects and stacks with stacks,
unless the class is recursive there. -/
def PairedIn (P R : Partition) : Prop :=
  ∀ i k l, ¬ R.Recursive i → k ∈ P.members i → l ∈ P.members i → k ≠ l → k.Alike l → R.Agree k l

/-- **What a step from the names of `A` does**, seen from any partition that comes of it: classes
outside a region of `A` keep their members, and members in pairs stay in pairs. -/
structure Calms (A : String → Prop) (P Q : Partition) : Prop where
  names : ∀ {n i}, P.Names n i → Q.Names n i
  spares : ∀ {R D}, R.Sound → Q.Grows R → R.Region D → (∀ n, A n → D n) →
    ∀ {n i}, ¬ D n → P.Names n i → Q.members i = P.members i
  pairs : ∀ {R}, R.Sound → Q.Grows R → P.PairedIn R → Q.PairedIn R

namespace Calms

/-- A step that changes no members. -/
theorem of_members_eq (hnames : ∀ {n i}, P.Names n i → Q.Names n i)
    (hmem : Q.members = P.members) : Calms A P Q where
  names := hnames
  spares _ _ _ _ _ _ _ _ := by rw [hmem]
  pairs _ _ hp i k l hrec hk hl := hp i k l hrec (hmem ▸ hk) (hmem ▸ hl)

theorem refl (A : String → Prop) (P : Partition) : Calms A P P := of_members_eq id rfl

theorem trans (h : Calms A P Q) (h' : Calms A Q R) (hg : Q.Grows R) : Calms A P R where
  names hn := h'.names (h.names hn)
  spares hS hg' hD hA _ _ hn hi := (h'.spares hS hg' hD hA hn (h.names hi)).trans
    (h.spares hS (hg.trans hg') hD hA hn hi)
  pairs hS hg' hp := h'.pairs hS hg' (h.pairs hS (hg.trans hg') hp)

/-- The names that a step starts from need only be in every region of others. -/
theorem weaken (h : Calms A P Q) (hA : ∀ {R D}, R.Sound → Q.Grows R → R.Region D →
    (∀ n, B n → D n) → ∀ n, A n → D n) : Calms B P Q where
  names := h.names
  spares hR hg hD hB := h.spares hR hg hD (hA hR hg hD hB)
  pairs := h.pairs

theorem mono (h : Calms A P Q) (hAB : ∀ n, A n → B n) : Calms B P Q :=
  h.weaken fun _ _ _ hB n hn => hB n (hAB n hn)

theorem register (hnew : P.index n = none) (id : Nat) : Calms A P (P.register n id) :=
  of_members_eq (names_register hnew) rfl

/-- A member that agrees with all others of its sort. -/
theorem append (hn : P.Names n id) (hmet : ∀ {R}, R.Sound → (P.append id k).Grows R →
    ¬ R.Recursive id → ∀ l ∈ P.members id, k.Alike l → R.Agree k l) (hP : P.Shaped) :
    Calms (· = n) P (P.append id k) where
  names hm := hm
  spares {R D} _ hg hD hA m i hm hi := by
    refine if_neg fun hr => hm (hD.same (hA n rfl) (hg.names hn) (hg.names ?_))
    exact Names.congr hi hr
  pairs {R} hR hg hp i a b hrec ha hb hne hab := by
    have hmet' : ∀ l ∈ P.members i, P.root i = P.root id → k.Alike l → R.Agree k l := by
      intro l hl hi
      refine hmet hR hg (fun h => hrec (h.congr (hg.root hi.symm))) l ?_
      exact hP.members_congr hi ▸ hl
    rcases mem_append_iff.1 ha with hPa | ⟨hi, rfl⟩ <;>
      rcases mem_append_iff.1 hb with hPb | ⟨hi', rfl⟩
    · exact hp i a b hrec hPa hPb hne hab
    · exact (hmet' a hPa hi' hab.symm).symm
    · exact hmet' b hPb hi hab
    · exact absurd rfl hne

/-- One class absorbs another: the members of the other are set aside. -/
theorem absorb (hs : P.root src = src) (hd : P.root dst = dst) (hn : P.Names n dst) :
    Calms (· = n) P (P.absorb src dst) where
  names := names_absorb hs hd
  spares {R D} _ hg hD hA m i hm hi := by
    refine if_neg fun hr => hm (hD.same (hA n rfl) (hg.names (names_absorb hs hd hn)) ?_)
    exact (hg.names (names_absorb hs hd hi)).congr
      (hg.root ((root_absorb_src hr).trans (root_absorb_dst hd).symm))
  pairs {R} _ hg hp i a b hrec ha hb := by
    rw [members_absorb] at ha hb
    split at ha
    · next hi =>
      rw [if_pos hi] at hb
      refine hp dst a b (fun h => hrec (h.congr (hg.root ?_))) ha hb
      exact (root_absorb_dst hd).trans (root_absorb_src hi).symm
    · next hi =>
      rw [if_neg hi] at hb
      exact hp i a b hrec ha hb

end Calms

end Partition

end StackEffect
