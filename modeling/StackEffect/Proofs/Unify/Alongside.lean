import StackEffect.Proofs.Kind.Relabel
import StackEffect.Proofs.Together
import StackEffect.Proofs.Unify.Parts

/-!
# Proofs/Unify/Alongside — the same calls on two sites

    c ──constrain n k────▸ c'
    │                      │
    d ──constrain ρn ρk──▸ d'

Calls are written for any site, and look at its store through a few single steps.  So a relation
between two sites that these steps keep is kept by all calls: `Pairing` says what is asked of the
relation, and `Pairing.calls` that calls keep it.  The stores may differ by a permutation `ρ` of
names, and what is handed in may be restricted to a vocabulary `V`.  Relations of this kind say that
unifying looks at no names, reads no log, invents nothing, and does the same when it is recorded.
-/

namespace StackEffect

/-! ## Vocabularies -/

/-- **A vocabulary**: kinds with their parts, and names, among them those of the variables. -/
structure Vocabulary where
  name : String → Prop
  kind : Kind → Prop
  closed : Kind.Closed kind
  var : ∀ {k n}, kind k → k.varName? = some n → name n

namespace Vocabulary

/-- The vocabulary of a closed set of kinds, with all names. -/
def within {L : Kind → Prop} (hL : Kind.Closed L) : Vocabulary :=
  ⟨fun _ => True, L, hL, fun _ _ => trivial⟩

/-- All kinds and all names. -/
def everything : Vocabulary :=
  ⟨fun _ => True, fun _ => True, .univ, fun _ _ => trivial⟩

/-- **A store has nothing but what a vocabulary has.** -/
structure Covers (V : Vocabulary) (s : Store) : Prop where
  names : ∀ n ∈ s.names, V.name n
  members : ∀ i, ∀ k ∈ s.members.getD i #[], V.kind k

theorem everything_covers (s : Store) : everything.Covers s :=
  ⟨fun _ _ => trivial, fun _ _ _ => trivial⟩

end Vocabulary

/-! ## Stores that differ by names -/

/-- **Two stores that differ by a permutation of names**, and perhaps in what they have logged and
solved. -/
structure Store.Relabeled (ρ : Equiv.Perm String) (s t : Store) : Prop where
  subtyping : t.subtyping = s.subtyping
  lenient : t.lenient = s.lenient
  members : t.members = s.members.map (·.map (Kind.relabel ρ))
  parents : t.parents = s.parents
  index : ∀ n, t.index[ρ n]? = s.index[n]?
  names : t.names = s.names.map ρ
  nesting : t.nesting = s.nesting
  mass : t.mass = s.mass

namespace Store.Relabeled

variable {ρ : Equiv.Perm String} {s t : Store}

/-- Stores that differ in nothing differ by no names. -/
theorem of_eq (h : t = { s with logging := t.logging, log := t.log, solution := t.solution }) :
    s.Relabeled (.refl String) t := by
  have hid : Kind.relabel (Equiv.refl String) = id := funext fun _ => Kind.relabel_refl
  have hmap : s.members.map (·.map (Kind.relabel (Equiv.refl String))) = s.members := by
    rw [hid]
    simp only [Array.map_id, id_eq, Array.map_id_fun']
  rw [h]
  exact ⟨rfl, rfl, hmap.symm, rfl, fun _ => rfl, (Array.map_id _).symm, rfl, rfl⟩

theorem parent (h : s.Relabeled ρ t) : t.parent = s.parent := by
  funext i
  rw [Store.parent, Store.parent, h.parents]

/-- Classes have the same roots. -/
theorem root (h : s.Relabeled ρ t) : t.root = s.root := by
  funext id
  rw [Store.root, Store.root, h.parents]

theorem kept (h : s.Relabeled ρ t) (id : Nat) : t.kept id = (s.kept id).map (Kind.relabel ρ) := by
  rw [Store.kept, Store.kept, h.members]
  simp only [Array.getD_eq_getD_getElem?, Array.getElem?_map]
  cases s.members[id]? <;> simp

/-- Members have new names. -/
theorem membersOf (h : s.Relabeled ρ t) (id : Nat) :
    t.membersOf id = (s.membersOf id).map (Kind.relabel ρ) := by
  rw [Store.membersOf, Store.membersOf, h.root, h.kept]

/-- A class has a kind among its members if it has it under its new names. -/
theorem contains_kept (h : s.Relabeled ρ t) (id : Nat) (k : Kind) :
    (t.kept id).contains (k.relabel ρ) = (s.kept id).contains k := by
  rw [h.kept, Bool.eq_iff_iff, Array.contains_iff_mem, Array.contains_iff_mem, Array.mem_map]
  refine ⟨?_, fun hk => ⟨k, hk, rfl⟩⟩
  rintro ⟨l, hl, e⟩
  exact Kind.relabel_injective ρ e ▸ hl

theorem classOf? (h : s.Relabeled ρ t) (n : String) : t.classOf? (ρ n) = s.classOf? n := by
  rw [Store.classOf?, Store.classOf?, h.index, h.root]

theorem size_members (h : s.Relabeled ρ t) : t.members.size = s.members.size := by
  rw [h.members, Array.size_map]

end Store.Relabeled

/-! ## Pairings -/

/-- What two kinds that clash look like with other names. -/
def Mismatch.relabel (ρ : String → String) (m : Mismatch) : Mismatch :=
  ⟨m.left.relabel ρ, m.right.relabel ρ, m.reason⟩

/-- **The single steps that calls take**, on the one side and on the other, where names are replaced
by `ρ`.  Lines for the log may differ if names do. -/
inductive Counterpart (ρ : Equiv.Perm String) (V : Vocabulary) :
    (Store → Store) → (Store → Store) → Prop
  | link (id up : Nat) : Counterpart ρ V (·.link id up) (·.link id up)
  | settle (n : String) (id : Nat) : Counterpart ρ V (·.settle n id) (·.settle (ρ n) id)
  | register {n : String} (hn : V.name n) (id : Nat) :
    Counterpart ρ V (·.register n id) (·.register (ρ n) id)
  | registerNew {n : String} (hn : V.name n) : Counterpart ρ V (·.registerNew n) (·.registerNew (ρ n))
  | append (id : Nat) {k : Kind} (hk : V.kind k) :
    Counterpart ρ V (·.append id k) (·.append id (k.relabel ρ))
  | takeFirst (id : Nat) : Counterpart ρ V (·.takeFirst id) (·.takeFirst id)
  | absorb {line line' : Unit → String} (h : ρ = .refl String → line' = line) (src dst : Nat) :
    Counterpart ρ V (fun s => (s.note line).link src dst) (fun s => (s.note line').link src dst)

/-- Where no names are replaced, both sides take the same step. -/
theorem Counterpart.eq {V : Vocabulary} {f g : Store → Store}
    (h : Counterpart (.refl String) V f g) : g = f := by
  cases h with
  | append => rw [Kind.relabel_refl]
  | absorb hline => rw [hline rfl]
  | _ => rfl

/-- Single steps leave the level of nesting alone. -/
theorem Counterpart.nesting {ρ : Equiv.Perm String} {V : Vocabulary} {f g : Store → Store}
    (h : Counterpart ρ V f g) (s : Store) :
    (f s).nesting = s.nesting ∧ (g s).nesting = s.nesting := by
  have hnote : ∀ line, (s.note line).nesting = s.nesting := by
    intro line
    unfold Store.note
    split <;> rfl
  cases h with
  | absorb => exact ⟨hnote _, hnote _⟩
  | _ => exact ⟨rfl, rfl⟩

/-- How a step on a site has ended for the store that the site holds. -/
def forget {σ α : Type} [Site σ] : EStateM.Result Fault σ α → EStateM.Result Fault Store α
  | .ok a c => .ok a (Site.store c)
  | .error e c => .error e (Site.store c)

/-- A step on a site does to its store what it does to a store by itself. -/
theorem Alike.forget_eq {σ α : Type} [Site σ] {p : EStateM Fault σ α} {c : σ} {q : Pass α} {s : Store}
    (h : Alike p c q s fun c s => s = Site.store c) : forget (p c) = q s := by
  rcases h.ok_or_error with ⟨a, c', _, hp, hq, rfl⟩ | ⟨e, c', _, hp, hq, rfl⟩ <;>
    rw [hp, hq] <;> rfl

/-- **What is asked of a relation between two sites** so that calls keep it.  `I n` relates sites on
which calls with `n` levels left are made, and `E n` what such calls leave when they fail. -/
structure Pairing {σ τ : Type} [Site σ] [Site τ] (ρ : Equiv.Perm String) (V : Vocabulary)
    (I : Nat → σ → τ → Prop) (E : Nat → Fault → σ → Fault → τ → Prop) : Prop where
  relabeled : ∀ {n c d}, I n c d → (Site.store c).Relabeled ρ (Site.store d)
  covers : ∀ {n c d}, I n c d → V.Covers (Site.store c)
  change : ∀ {n c d f g}, Counterpart ρ V f g → I n c d → I n (Site.change f c) (Site.change g d)
  late : ∀ n, Abreast (I n) (E n) Site.late Site.late
  clash : ∀ {n c d}, I n c d → ∀ m : Mismatch, E n (.mismatch m) c (.mismatch (m.relabel ρ)) d
  refuse : ∀ {c d}, I 0 c d →
    E 0 .tooDeep (Site.change Store.deeper c) .tooDeep (Site.change Store.deeper d)
  nested : ∀ {n} {p : EStateM Fault σ Unit} {q : EStateM Fault τ Unit}, Abreast (I n) (E n) p q →
    Abreast (I (n + 1)) (E (n + 1)) (Unify.nested p) (Unify.nested q)

namespace Abreast

variable {σ τ α : Type} [Site σ] [Site τ] {I : σ → τ → Prop} {E : Fault → σ → Fault → τ → Prop}

theorem of_look {f : Store → EStateM Fault σ α} {g : Store → EStateM Fault τ α}
    (h : ∀ c d, I c d → Abreast I E (f (Site.store c)) (g (Site.store d))) :
    Abreast I E (Site.look >>= f) (Site.look >>= g) := fun c d hcd => h c d hcd c d hcd

theorem alter {f g : Store → Store}
    (h : ∀ c d, I c d → I (Site.change f c) (Site.change g d)) :
    Abreast I E (Site.alter f) (Site.alter g) := .modify h

/-- **One level deeper**: `I'` relates the sites there, and `I` again after it. -/
theorem nested {I' : σ → τ → Prop} {E' : Fault → σ → Fault → τ → Prop} {p : EStateM Fault σ α}
    {q : EStateM Fault τ α} (h : Abreast I' E' p q)
    (hin : ∀ c d, I c d → I' (Site.change Store.deeper c) (Site.change Store.deeper d))
    (hout : ∀ c d, I' c d → I (Site.change Store.shallower c) (Site.change Store.shallower d))
    (hfail : ∀ e c f d, E' e c f d →
      E e (Site.change Store.shallower c) f (Site.change Store.shallower d)) :
    Abreast I E (Unify.nested p) (Unify.nested q) := by
  intro c d hcd
  have hpq := h _ _ (hin c d hcd)
  unfold Unify.nested
  cases hp : p (Site.change Store.deeper c) <;> cases hq : q (Site.change Store.deeper d) <;>
    rw [hp, hq] at hpq
  · exact ⟨hpq.1, hout _ _ hpq.2⟩
  · exact hpq
  · exact hpq
  · exact hfail _ _ _ _ hpq

end Abreast

theorem Alike.of_look {σ τ α : Type} [Site σ] [Site τ] {R : σ → τ → Prop} {c : σ} {d : τ}
    {f : Store → EStateM Fault σ α} {g : Store → EStateM Fault τ α}
    (h : Alike (f (Site.store c)) c (g (Site.store d)) d R) :
    Alike (Site.look >>= f) c (Site.look >>= g) d R := h

/-! ## Walking down two stacks -/

namespace Unify

variable {σ τ : Type} {ρ : Equiv.Perm String} {V : Vocabulary} {k l : Kind}

/-- The order of nominal types does not look at names. -/
theorem le_relabel (st : Option Subtyping) (k l : Kind) :
    Subtyping.le st (k.relabel ρ) (l.relabel ρ) = Subtyping.le st k l := by
  have heq : (k.relabel ρ == l.relabel ρ) = (k == l) := by
    rw [Bool.eq_iff_iff, beq_iff_eq, beq_iff_eq]
    exact (Kind.relabel_injective ρ).eq_iff
  have hstand : ∀ st : Subtyping, st.standIn (k.relabel ρ) = st.standIn k := by
    intro st
    cases k <;> simp [Subtyping.standIn]
  unfold Subtyping.le
  rw [heq]
  cases l with
  | simple n => cases st <;> simp [hstand]
  | stack | effect => simp
  | _ => rfl

theorem compatible_relabel (st : Option Subtyping) (k l : Kind) :
    compatible st (k.relabel ρ) (l.relabel ρ) = compatible st k l := by
  rw [compatible, compatible, le_relabel, le_relabel]
  simp

theorem relabel_ne_stackVar (h : ∀ a, k = .stackVar a → False) (b : String)
    (hb : k.relabel ρ = .stackVar b) : False := by
  cases k <;> simp at hb
  exact h _ rfl

section Walk

variable {I : σ → τ → Prop} {E : Fault → σ → Fault → τ → Prop}
  {constrain : String → Kind → EStateM Fault σ Unit}
  {constrain' : String → Kind → EStateM Fault τ Unit}
  {equate : Stack → Stack → EStateM Fault σ Unit} {equate' : Stack → Stack → EStateM Fault τ Unit}

/-- Constraining variables goes alongside, in a vocabulary. -/
abbrev ConstrainsAlongside (ρ : Equiv.Perm String) (V : Vocabulary) (I : σ → τ → Prop)
    (E : Fault → σ → Fault → τ → Prop) (f : String → Kind → EStateM Fault σ Unit)
    (g : String → Kind → EStateM Fault τ Unit) : Prop :=
  ∀ n k, V.name n → V.kind k → Abreast I E (f n k) (g (ρ n) (k.relabel ρ))

/-- Unifying stacks goes alongside, in a vocabulary. -/
abbrev EquatesAlongside (ρ : Equiv.Perm String) (V : Vocabulary) (I : σ → τ → Prop)
    (E : Fault → σ → Fault → τ → Prop) (f : Stack → Stack → EStateM Fault σ Unit)
    (g : Stack → Stack → EStateM Fault τ Unit) : Prop :=
  ∀ v w, V.kind (.stack v) → V.kind (.stack w) →
    Abreast I E (f v w) (g (v.map (Kind.relabel ρ)) (w.map (Kind.relabel ρ)))

/-- Joining classes goes alongside, in a vocabulary. -/
abbrev JoinsAlongside (ρ : Equiv.Perm String) (V : Vocabulary) (I : σ → τ → Prop)
    (E : Fault → σ → Fault → τ → Prop) (f : Nat → Kind → EStateM Fault σ Unit)
    (g : Nat → Kind → EStateM Fault τ Unit) : Prop :=
  ∀ id k, V.kind k → Abreast I E (f id k) (g id (k.relabel ρ))

/-- Functions are unified alongside. -/
theorem abreast_unifyEffects (he : EquatesAlongside ρ V I E equate equate') (hk : V.kind k)
    (hl : V.kind l) :
    Abreast I E (unifyEffects equate k l) (unifyEffects equate' (k.relabel ρ) (l.relabel ρ)) := by
  cases k with
  | effect c p i =>
    rw [Kind.relabel_effect]
    cases l with
    | effect d q j =>
      rw [Kind.relabel_effect]
      exact (he c d (V.closed.consumed hk) (V.closed.consumed hl)).seq
        (he p q (V.closed.produced hk) (V.closed.produced hl))
    | stack => rw [Kind.relabel_stack]; exact .pure
    | _ => exact .pure
  | stack => rw [Kind.relabel_stack]; exact .pure
  | _ => exact .pure

theorem abreast_bindSlot (hc : ConstrainsAlongside ρ V I E constrain constrain') (hk : V.kind k)
    (hl : V.kind l) :
    Abreast I E (bindSlot constrain k l) (bindSlot constrain' (k.relabel ρ) (l.relabel ρ)) := by
  cases k with
  | typeVar a => exact hc a l (V.var hk rfl) hl
  | stack => rw [Kind.relabel_stack]; exact .pure
  | effect => rw [Kind.relabel_effect]; exact .pure
  | _ => exact .pure

/-- Kinds meet alongside. -/
theorem abreast_meet (he : EquatesAlongside ρ V I E equate equate') (hk : V.kind k)
    (hl : V.kind l) : Abreast I E (meet equate k l) (meet equate' (k.relabel ρ) (l.relabel ρ)) := by
  cases k with
  | effect c p i =>
    have h := abreast_unifyEffects he hk hl
    rw [Kind.relabel_effect] at h ⊢
    exact h
  | stack v =>
    rw [Kind.relabel_stack]
    cases l with
    | stack w => rw [Kind.relabel_stack]; exact he v w hk hl
    | effect => rw [Kind.relabel_effect]; exact .pure
    | _ => exact .pure
  | _ => exact .pure

variable [Site σ] [Site τ]

/-- **Walking down two stacks goes alongside** if constraining and unifying do. -/
theorem abreast_walk
    (hlook : ∀ c d, I c d → (Site.store d).subtyping = (Site.store c).subtyping ∧
      (Site.store d).lenient = (Site.store c).lenient)
    (hclash : ∀ c d, I c d → ∀ m : Mismatch, E (.mismatch m) c (.mismatch (m.relabel ρ)) d)
    (hc : ConstrainsAlongside ρ V I E constrain constrain')
    (he : EquatesAlongside ρ V I E equate equate') (v w : Stack) {r r' : Stack}
    (hr : V.kind (.stack r)) (hr' : V.kind (.stack r')) :
    Abreast I E (walk constrain (unifyEffects equate) v w r r')
      (walk constrain' (unifyEffects equate') (v.map (Kind.relabel ρ)) (w.map (Kind.relabel ρ))
        (r.map (Kind.relabel ρ)) (r'.map (Kind.relabel ρ))) := by
  have hstack : ∀ {a : String} {u : Stack}, V.name a → V.kind (.stack u) → Abreast I E
      (constrain a (.stack u)) (constrain' (ρ a) (.stack (u.map (Kind.relabel ρ)))) := by
    intro a u ha hu
    have h := hc a (.stack u) ha hu
    rwa [Kind.relabel_stack] at h
  have hthrow : ∀ {k l : Kind} {reason : String}, Abreast I E
      (clash k l reason : EStateM Fault σ Unit) (clash (k.relabel ρ) (l.relabel ρ) reason) :=
    .throw fun c d h => hclash c d h _
  have hempty : ∀ {a}, V.name a → V.kind (.stack []) → Abreast I E
      (do unless (← Site.look).lenient do constrain a (.stack []))
      (do unless (← Site.look).lenient do constrain' (ρ a) (.stack [])) := by
    refine fun ha hnil => .of_look fun c d h => ?_
    rw [(hlook c d h).2]
    exact .ite .pure (hstack ha hnil)
  have hsize : Abreast I E
      (do unless (← Site.look).lenient do clash (.stack v) (.stack w) Mismatch.size)
      (do unless (← Site.look).lenient do
        clash (.stack (v.map (Kind.relabel ρ))) (.stack (w.map (Kind.relabel ρ))) Mismatch.size) := by
    refine .of_look fun c d h => ?_
    rw [(hlook c d h).2, ← Kind.relabel_stack, ← Kind.relabel_stack]
    exact .ite .pure hthrow
  -- `Aligned` takes two stacks apart as a walk does
  induction r, r' using Aligned.induct with
  | case1 a r b r' =>
    exact (hstack (V.var (V.closed.slot hr) rfl) hr').seq
      (hstack (V.var (V.closed.slot hr') rfl) hr)
  | case2 a r l r' hl =>
    rw [walk.eq_2 _ _ _ _ _ _ _ _ hl, List.map_cons, List.map_cons, Kind.relabel_stackVar,
      walk.eq_2 _ _ _ _ _ _ _ _ (relabel_ne_stackVar hl)]
    exact hstack (V.var (V.closed.slot hr) rfl) hr'
  | case3 k r b r' hk =>
    rw [walk.eq_3 _ _ _ _ _ _ _ _ hk, List.map_cons, List.map_cons, Kind.relabel_stackVar,
      walk.eq_3 _ _ _ _ _ _ _ _ (relabel_ne_stackVar hk)]
    exact hstack (V.var (V.closed.slot hr') rfl) hr
  | case4 k r l r' _ hk hl ih =>
    have hkV := V.closed.slot hr
    have hlV := V.closed.slot hr'
    rw [walk_cons hk hl, List.map_cons, List.map_cons,
      walk_cons (relabel_ne_stackVar hk) (relabel_ne_stackVar hl)]
    refine (abreast_bindSlot hc hkV hlV).seq ((abreast_bindSlot hc hlV hkV).seq
      ((abreast_unifyEffects he hkV hlV).seq (.of_look fun c d h => ?_)))
    rw [(hlook c d h).1, compatible_relabel]
    exact .ite (ih (V.closed.rest hr) (V.closed.rest hr')) hthrow
  | case5 => exact .pure
  | case6 a => exact hempty (V.var (V.closed.slot hr) rfl) hr'
  | case7 a => exact hempty (V.var (V.closed.slot hr') rfl) hr
  | case8 r r' h₁ h₂ h₃ h₄ h₅ h₆ h₇ =>
    rcases r with _ | ⟨k, r⟩ <;> rcases r' with _ | ⟨l, r'⟩
    · exact (h₅ rfl rfl).elim
    · cases l <;> cases r' <;> first | exact hsize | exact (h₇ _ rfl rfl).elim
    · cases k <;> cases r <;> first | exact hsize | exact (h₆ _ rfl rfl).elim
    · exact (h₄ k r l r' rfl rfl).elim

/-- The same where no names are replaced. -/
theorem abreast_walk_self
    (hlook : ∀ c d, I c d → (Site.store d).subtyping = (Site.store c).subtyping ∧
      (Site.store d).lenient = (Site.store c).lenient)
    (hclash : ∀ c d, I c d → ∀ m : Mismatch, E (.mismatch m) c (.mismatch m) d)
    (hc : ∀ n k, V.name n → V.kind k → Abreast I E (constrain n k) (constrain' n k))
    (he : ∀ v w, V.kind (.stack v) → V.kind (.stack w) → Abreast I E (equate v w) (equate' v w))
    (v w : Stack) {r r' : Stack} (hr : V.kind (.stack r)) (hr' : V.kind (.stack r')) :
    Abreast I E (walk constrain (unifyEffects equate) v w r r')
      (walk constrain' (unifyEffects equate') v w r r') := by
  have hc' : ConstrainsAlongside (.refl String) V I E constrain constrain' := by
    intro n k hn hk
    rw [Kind.relabel_refl]
    exact hc n k hn hk
  have he' : EquatesAlongside (.refl String) V I E equate equate' := by
    intro v w hv hw
    rw [Kind.map_relabel_refl, Kind.map_relabel_refl]
    exact he v w hv hw
  have h := abreast_walk hlook (fun c d hcd m => ?_) hc' he' v w hr hr'
  · simpa only [Kind.map_relabel_refl] using h
  · rw [Mismatch.relabel, Kind.relabel_refl, Kind.relabel_refl]
    exact hclash c d hcd m

end Walk

/-- **Walking down two stacks keeps what constraining and unifying keep.** -/
theorem ends_walk {I : Store → Prop} {E : Fault → Store → Prop}
    {constrain : String → Kind → Pass Unit} {equate : Stack → Stack → Pass Unit}
    (hclash : ∀ s m, I s → E (.mismatch m) s)
    (hc : ∀ n k, V.name n → V.kind k → ∀ s, I s → Ends (constrain n k) s (fun _ t => I t) E)
    (he : ∀ v w, V.kind (.stack v) → V.kind (.stack w) → ∀ s, I s →
      Ends (equate v w) s (fun _ t => I t) E) {v w : Stack} (hv : V.kind (.stack v))
    (hw : V.kind (.stack w)) {s : Store} (hs : I s) :
    Ends (walk constrain (unifyEffects equate) v w v w) s (fun _ t => I t) E := by
  have h : Same I E (walk constrain (unifyEffects equate) v w v w)
      (walk constrain (unifyEffects equate) v w v w) :=
    abreast_walk_self (fun c d hcd => hcd.1 ▸ ⟨rfl, rfl⟩)
      (fun c d hcd m => ⟨rfl, hcd.1, hclash c m hcd.2⟩)
      (fun n k hn hk => same_iff.2 fun s hs => ⟨rfl, hc n k hn hk s hs⟩)
      (fun v w hv hw => same_iff.2 fun s hs => ⟨rfl, he v w hv hw s hs⟩) v w hv hw
  exact (same_iff.1 h s hs).2

end Unify

/-! ## Looking up, side by side -/

namespace Pairing

open Site Unify

variable {σ τ : Type} [Site σ] [Site τ] {ρ : Equiv.Perm String} {V : Vocabulary}
  {I : Nat → σ → τ → Prop} {E : Nat → Fault → σ → Fault → τ → Prop} (h : Pairing ρ V I E)
  {n width room id src dst : Nat} {name : String} {k : Kind} {α : Type}

include h

theorem alter {f g : Store → Store} (hfg : Counterpart ρ V f g) :
    Abreast (I n) (E n) (Site.alter f) (Site.alter g) := .alter fun _ _ => h.change hfg

theorem climb (turns id : Nat) : Abreast (I n) (E n) (climb turns id) (climb turns id) := by
  induction turns generalizing id with
  | zero =>
    refine .of_look fun c d hcd => ?_
    rw [(h.relabeled hcd).parent]
    exact .ite .pure ((h.late n).seq .pure)
  | succ turns ih =>
    refine .of_look fun c d hcd => ?_
    rw [(h.relabeled hcd).parent]
    exact .ite .pure (ih _)

theorem shorten (root turns id : Nat) :
    Abreast (I n) (E n) (shorten root turns id) (shorten root turns id) := by
  induction turns generalizing id with
  | zero =>
    refine .of_look fun c d hcd => ?_
    rw [(h.relabeled hcd).parent]
    exact .ite .pure (h.late n)
  | succ turns ih =>
    refine .of_look fun c d hcd => ?_
    rw [(h.relabeled hcd).parent]
    exact .ite .pure ((h.alter (.link _ _)).seq (ih _))

/-- **Roots are found alongside.** -/
theorem find (id : Nat) : Abreast (I n) (E n) (find id) (find id) := by
  refine .of_look fun c d hcd => ?_
  rw [(h.relabeled hcd).parents]
  exact (h.climb _ id).bind fun root => (h.shorten root _ id).seq .pure

theorem classOf (name : String) : Abreast (I n) (E n) (classOf name) (classOf (ρ name)) := by
  refine .of_look fun c d hcd => ?_
  rw [(h.relabeled hcd).index]
  cases (store c).index[name]? with
  | none => exact .pure
  | some id => exact (h.find id).bind fun root => (h.alter (.settle _ _)).seq .pure

theorem holds (id : Nat) (k : Kind) : Abreast (I n) (E n) (holds id k) (holds id (k.relabel ρ)) := by
  refine (h.find id).bind fun root => .of_look fun c d hcd => ?_
  rw [(h.relabeled hcd).contains_kept]
  exact .pure

/-- Where a class has kept a member on the one side, it has kept its counterpart on the other. -/
theorem kept_cases {c : σ} {d : τ} (hcd : I n c d) (root i : Nat) :
    ((store c).kept root)[i]? = none ∧ ((store d).kept root)[i]? = none ∨
      ∃ k, V.kind k ∧ ((store c).kept root)[i]? = some k ∧
        ((store d).kept root)[i]? = some (k.relabel ρ) := by
  rw [(h.relabeled hcd).kept, Array.getElem?_map]
  cases hk : ((store c).kept root)[i]? with
  | none => exact .inl ⟨rfl, rfl⟩
  | some k =>
    exact .inr ⟨k, (h.covers hcd).members root k (Array.mem_of_getElem? hk), rfl, rfl⟩

theorem of_memberAt? (id i : Nat) {f : Option Kind → EStateM Fault σ α}
    {g : Option Kind → EStateM Fault τ α} (hnone : Abreast (I n) (E n) (f none) (g none))
    (hsome : ∀ k, V.kind k → Abreast (I n) (E n) (f (some k)) (g (some (k.relabel ρ)))) :
    Abreast (I n) (E n) (memberAt? id i >>= f) (memberAt? id i >>= g) := by
  rw [memberAt?, memberAt?, bind_assoc, bind_assoc]
  refine (h.find id).bind fun root => ?_
  rw [bind_assoc, bind_assoc]
  refine .of_look fun c d hcd => ?_
  rw [pure_bind, pure_bind]
  rcases h.kept_cases hcd root i with ⟨hc, hd⟩ | ⟨k, hk, hc, hd⟩
  · rw [hc, hd]
    exact hnone
  · rw [hc, hd]
    exact hsome k hk

/-! ## Calls, side by side -/

theorem sweep {meet : Kind → EStateM Fault σ Unit} {meet' : Kind → EStateM Fault τ Unit}
    (hm : ∀ k, V.kind k → Abreast (I n) (E n) (meet k) (meet' (k.relabel ρ))) (id width i : Nat) :
    Abreast (I n) (E n) (sweep id meet width i) (sweep id meet' width i) := by
  induction width generalizing i with
  | zero => exact h.of_memberAt? id i .pure fun _ _ => h.late n
  | succ width ih => exact h.of_memberAt? id i .pure fun k hk => (hm k hk).seq (ih (i + 1))

/-- A kind meets the members of a class alongside. -/
theorem meetAll {equate : Stack → Stack → EStateM Fault σ Unit}
    {equate' : Stack → Stack → EStateM Fault τ Unit}
    (he : EquatesAlongside ρ V (I n) (E n) equate equate') (width id : Nat) (hk : V.kind k) :
    Abreast (I n) (E n) (meetAll equate width id k) (meetAll equate' width id (k.relabel ρ)) := by
  have hsweep := h.sweep (fun l hl => abreast_meet he hk hl) id width 0
  cases k with
  | effect => rw [Kind.relabel_effect] at hsweep ⊢; exact hsweep
  | stack => rw [Kind.relabel_stack] at hsweep ⊢; exact hsweep
  | _ => exact .pure

theorem drain {join : Kind → EStateM Fault σ Unit} {join' : Kind → EStateM Fault τ Unit}
    (hj : ∀ k, V.kind k → Abreast (I n) (E n) (join k) (join' (k.relabel ρ))) (src turns : Nat) :
    Abreast (I n) (E n) (drain src join turns) (drain src join' turns) := by
  induction turns with
  | zero =>
    refine .of_look fun c d hcd => ?_
    rcases h.kept_cases hcd src 0 with ⟨hc, hd⟩ | ⟨k, hk, hc, hd⟩ <;> rw [hc, hd]
    · exact .pure
    · exact h.late n
  | succ turns ih =>
    refine .of_look fun c d hcd => ?_
    rcases h.kept_cases hcd src 0 with ⟨hc, hd⟩ | ⟨k, hk, hc, hd⟩ <;> rw [hc, hd]
    · exact .pure
    · exact (h.alter (.takeFirst src)).seq ((hj k hk).seq ih)

/-- **Classes are merged alongside.** -/
theorem merge {join : Nat → Kind → EStateM Fault σ Unit} {join' : Nat → Kind → EStateM Fault τ Unit}
    (hj : JoinsAlongside ρ V (I n) (E n) join join') (src dst : Nat) :
    Abreast (I n) (E n) (merge join src dst) (merge join' src dst) := by
  refine (h.find src).bind fun src => (h.find dst).bind fun dst => .ite .pure ?_
  refine .of_look fun c d hcd => .of_look fun c' d' hcd' => ?_
  rw [(h.relabeled hcd).kept, (h.relabeled hcd').kept, Array.size_map]
  refine (h.alter (.absorb (fun hρ => ?_) src dst)).seq (h.drain (hj dst) src _)
  have hid : Kind.relabel (Equiv.refl String) = id := funext fun _ => Kind.relabel_refl
  rw [hρ, hid, Array.map_id, Array.map_id]

theorem classFor (hn : V.name name) :
    Abreast (I n) (E n) (classFor name) (classFor (ρ name)) := by
  refine (h.classOf name).bind fun id => ?_
  cases id with
  | some id => exact .pure
  | none =>
    refine .of_look fun c d hcd => ?_
    rw [(h.relabeled hcd).size_members]
    exact (h.alter (.registerNew hn)).seq .pure

theorem bringClass {join : Nat → Kind → EStateM Fault σ Unit}
    {join' : Nat → Kind → EStateM Fault τ Unit}
    (hj : JoinsAlongside ρ V (I n) (E n) join join') (isMember : Bool) (id : Nat) (hk : V.kind k) :
    Abreast (I n) (E n) (bringClass join isMember id k)
      (bringClass join' isMember id (k.relabel ρ)) := by
  unfold Unify.bringClass
  rw [Kind.varName?_relabel]
  cases hname : k.varName? with
  | none => exact .pure
  | some name =>
    refine (h.classOf name).bind fun other => ?_
    cases other with
    | some other => exact h.merge hj other id
    | none => exact .ite (h.alter (.register (V.var hk hname) id)) .pure

end Pairing

/-- Calls with so many levels left go alongside. -/
structure CallsAlongside {σ τ : Type} [Site σ] [Site τ] (ρ : Equiv.Perm String) (V : Vocabulary)
    (I : σ → τ → Prop) (E : Fault → σ → Fault → τ → Prop) (width room : Nat) : Prop where
  constrain : Unify.ConstrainsAlongside ρ V I E (Unify.constrain width room)
    (Unify.constrain width room)
  join : Unify.JoinsAlongside ρ V I E (Unify.join width room) (Unify.join width room)
  equate : Unify.EquatesAlongside ρ V I E (Unify.unifyStacks width room)
    (Unify.unifyStacks width room)

namespace Pairing

open Unify

variable {σ τ : Type} [Site σ] [Site τ] {ρ : Equiv.Perm String} {V : Vocabulary}
  {I : Nat → σ → τ → Prop} {E : Nat → Fault → σ → Fault → τ → Prop} (h : Pairing ρ V I E)
  {width room : Nat}

include h

/-- **Classes are joined alongside**, if what is called goes alongside. -/
theorem join_succ (hin : CallsAlongside ρ V (I room) (E room) width room) :
    JoinsAlongside ρ V (I (room + 1)) (E (room + 1)) (join width (room + 1))
      (join width (room + 1)) := by
  intro id k hk
  rw [Unify.join_succ, Unify.join_succ]
  refine h.nested ((h.holds id k).bind fun _ => .ite .pure ((h.meetAll hin.equate width id hk).seq
    ((h.find id).bind fun id => (h.holds id k).bind fun _ => .ite .pure ?_)))
  exact (h.alter (.append id hk)).seq (h.bringClass hin.join true id hk)

/-- **Names are constrained alongside**, if what is called goes alongside. -/
theorem constrain_succ (hin : CallsAlongside ρ V (I room) (E room) width room) :
    ConstrainsAlongside ρ V (I (room + 1)) (E (room + 1)) (constrain width (room + 1))
      (constrain width (room + 1)) := by
  intro n k hn hk
  by_cases hself : k.varName? = some n
  · rw [constrain_self hself, constrain_self (by rw [Kind.varName?_relabel, hself]; rfl)]
    exact h.nested .pure
  by_cases hslot : ∃ slot, k = .stack [slot]
  · obtain ⟨slot, rfl⟩ := hslot
    rw [Kind.relabel_stack]
    exact h.nested (hin.constrain n slot hn (V.closed.slot hk))
  have hself' : (k.relabel ρ).varName? ≠ some (ρ n) := by
    rw [Kind.varName?_relabel]
    intro he
    obtain ⟨m, hm, hmn⟩ := Option.map_eq_some_iff.1 he
    exact hself (hm.trans (congrArg some (ρ.injective hmn)))
  have hslot' : ∀ slot, k.relabel ρ ≠ .stack [slot] := by
    intro slot he
    cases k <;> simp at he
    obtain ⟨l, rfl, -⟩ := he
    exact hslot ⟨l, rfl⟩
  rw [Unify.constrain_succ hself fun slot he => hslot ⟨slot, he⟩,
    Unify.constrain_succ hself' hslot']
  exact h.nested ((h.classFor hn).bind fun id =>
    (h.bringClass hin.join false id hk).seq (hin.join id k hk))

/-- **Calls go alongside**, to any depth: the induction is on the levels that are left. -/
theorem calls (width room : Nat) : CallsAlongside ρ V (I room) (E room) width room := by
  induction room with
  | zero =>
    have hrefuse : ∀ {p : EStateM Fault σ Unit} {q : EStateM Fault τ Unit}, p = Unify.refuse →
        q = Unify.refuse → Abreast (I 0) (E 0) p q := by
      rintro _ _ rfl rfl
      exact fun c d hcd => h.refuse hcd
    exact ⟨fun _ _ _ _ => hrefuse rfl rfl, fun _ _ _ => hrefuse rfl rfl,
      fun _ _ _ _ => hrefuse rfl rfl⟩
  | succ room ih =>
    refine ⟨h.constrain_succ ih, h.join_succ ih, fun v w hv hw => h.nested ?_⟩
    refine abreast_walk (fun c d hcd => ?_) (fun c d hcd => h.clash hcd) ih.constrain ih.equate v w
      hv hw
    exact ⟨(h.relabeled hcd).subtyping, (h.relabeled hcd).lenient⟩

end Pairing

end StackEffect
