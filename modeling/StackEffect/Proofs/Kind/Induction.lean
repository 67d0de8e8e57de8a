import StackEffect.Kind.Basic

/-!
# Proofs/Kind/Induction — induction on kinds

A kind holds lists of kinds.  In `Kind.slotInduction` a fact about all slots of a stack stands for the
facts about its lists, so that a property of kinds is proved without a second one for lists.
-/

namespace StackEffect.Kind

/-- **Induction on kinds**, with a hypothesis for every slot of a stack. -/
theorem slotInduction {motive : Kind → Prop} (simple : ∀ name, motive (.simple name))
    (typeVar : ∀ name, motive (.typeVar name)) (stackVar : ∀ name, motive (.stackVar name))
    (self : motive .self) (stack : ∀ s, (∀ k ∈ s, motive k) → motive (.stack s))
    (effect : ∀ c p i, (∀ k ∈ c, motive k) → (∀ k ∈ p, motive k) → motive (.effect c p i))
    (foreign : ∀ sort name, motive (.foreign sort name)) (absent : motive .absent) (k : Kind) :
    motive k :=
  @Kind.rec motive (fun s => ∀ k ∈ s, motive k) simple typeVar stackVar self stack effect foreign
    absent (fun _ h => absurd h List.not_mem_nil)
    (fun _ _ hk hs => List.forall_mem_cons.2 ⟨hk, hs⟩) k

end StackEffect.Kind
