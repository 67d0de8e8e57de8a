/-!
# Assoc — tables as lists of entries

A table lists every key once, with its value.  `put` replaces the entry of a key, `drop` removes it;
both leave all other entries as they are (`get?_put`, `get?_drop`).
-/

namespace StackEffect

/-- A table: keys with their values. -/
abbrev Assoc (α : Type) := List (String × α)

namespace Assoc

variable {α : Type}

/-- The value of a key. -/
def get? (t : Assoc α) (key : String) : Option α := t.lookup key

/-- The table without the entry of a key. -/
def drop (t : Assoc α) (key : String) : Assoc α := t.filter fun e => e.1 != key

/-- The table with a new value for a key. -/
def put (t : Assoc α) (key : String) (value : α) : Assoc α := (key, value) :: drop t key

/-- The keys. -/
def keys (t : Assoc α) : List String := t.map Prod.fst

theorem get?_drop (t : Assoc α) (key k : String) :
    get? (drop t key) k = if k = key then none else get? t k := by
  unfold get? drop
  induction t with
  | nil => simp
  | cons e t ih => grind

theorem get?_put (t : Assoc α) (key : String) (value : α) (k : String) :
    get? (put t key value) k = if k = key then some value else get? t k := by
  have h := get?_drop t key k
  unfold get? put at *
  rw [List.lookup_cons]
  grind

end Assoc

end StackEffect
