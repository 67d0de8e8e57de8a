import StackEffect.Proofs.Signature.Written
import StackEffect.Proofs.Term.Readback

/-!
# Proofs/Term/Reader — the literals of a body that is read

    Plain t        every literal in t is of a nominal type that can be written

The reader gives literals one of five nominal types, all of which signatures can write.
-/

namespace StackEffect

namespace Term

variable {t : Term} {ts : Body}

/-- **The literals in a term are of nominal types** that can be written. -/
def Plain (t : Term) : Prop :=
  ∀ text kind, .literal text kind ∈ t.walk →
    ∃ type, Signature.isTypeName type = true ∧ kind = .simple type

theorem mem_walkBody {u : Term} : u ∈ walkBody ts ↔ ∃ t ∈ ts, u ∈ t.walk := by
  induction ts with
  | nil => simp [walkBody]
  | cons t ts ih => simp [walkBody, ih]

/-- A quotation is plain if the terms in it are. -/
theorem plain_quotation_iff : (quotation ts).Plain ↔ ∀ t ∈ ts, t.Plain := by
  constructor
  · intro h t ht text kind hmem
    exact h text kind (List.mem_cons_of_mem _ (mem_walkBody.2 ⟨t, ht, hmem⟩))
  · intro h text kind hmem
    rcases List.mem_cons.1 hmem with heq | hmem
    · cases heq
    · obtain ⟨t, ht, hmem⟩ := mem_walkBody.1 hmem
      exact h t ht text kind hmem

theorem plain_word (name : String) : (word name).Plain := by
  intro text kind hmem
  simp [walk] at hmem

theorem plain_typed {type : String} (h : Signature.isTypeName type = true) (cs : List Char) :
    (typed type cs).Plain := by
  intro text kind hmem
  obtain ⟨-, rfl⟩ := Term.literal.inj (List.mem_singleton.1 hmem)
  exact ⟨type, h, rfl⟩

theorem plain_ofWord (cs : List Char) : (ofWord cs).Plain := by
  unfold ofWord
  split
  · exact plain_typed (by decide +kernel) cs
  · split
    · exact plain_typed (by decide +kernel) cs
    · split
      · exact plain_typed (by decide +kernel) cs
      · exact plain_word _

/-- **A written term is plain.** -/
theorem Written.plain (h : t.Written) : t.Plain := by
  induction h with
  | word => exact plain_ofWord _
  | quoted =>
    unfold Term.quoted
    split
    · exact plain_typed (by decide +kernel) _
    · exact plain_typed (by decide +kernel) _
  | quotation _ ih => exact plain_quotation_iff.2 ih

end Term

/-- **A body that is read is plain.** -/
theorem Body.plain_of_parse {src : String} {ts : Body} (h : Body.parse src = .ok ts) :
    ∀ t ∈ ts, t.Plain :=
  fun t ht => (written_of_parse h t ht).plain

end StackEffect
