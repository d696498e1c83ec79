/-!
# Maps from places

A finite map from natural numbers, kept as an array of optional entries. What `get?` answers after
each operation says all there is to know about it.
-/

namespace NetPrep

/-- A finite map from natural numbers. -/
structure IdMap (α : Type) where
  entries : Array (Option α)
deriving DecidableEq, Repr

namespace IdMap

variable {α : Type}

def empty : IdMap α := ⟨#[]⟩

def get? (m : IdMap α) (i : Nat) : Option α := (m.entries[i]?).join

def contains (m : IdMap α) (i : Nat) : Bool := (m.get? i).isSome

def insert (m : IdMap α) (i : Nat) (a : α) : IdMap α :=
  if i < m.entries.size then ⟨m.entries.setIfInBounds i (some a)⟩
  else ⟨(m.entries ++ Array.replicate (i - m.entries.size) none).push (some a)⟩

def erase (m : IdMap α) (i : Nat) : IdMap α := ⟨m.entries.setIfInBounds i none⟩

@[simp] theorem get?_empty (i : Nat) : (empty : IdMap α).get? i = none := rfl

theorem get?_insert (m : IdMap α) (i j : Nat) (a : α) :
    (m.insert i a).get? j = if i = j then some a else m.get? j := by
  unfold insert get?
  split
  · next h =>
    simp only [Array.getElem?_setIfInBounds]
    by_cases hij : i = j
    · subst hij
      simp [h]
    · simp [hij]
  · next h =>
    simp only [Array.getElem?_push, Array.getElem?_append, Array.size_append, Array.size_replicate,
      Array.getElem?_replicate]
    grind

theorem get?_erase (m : IdMap α) (i j : Nat) :
    (m.erase i).get? j = if i = j then none else m.get? j := by
  unfold erase get?
  simp only [Array.getElem?_setIfInBounds]
  by_cases hij : i = j
  · subst hij
    by_cases h : i < m.entries.size <;> simp [h]
  · simp [hij]

end IdMap

end NetPrep
