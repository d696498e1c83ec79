import NetPrep.Fault

/-!
# The table of interned names

A design keeps each distinct string once and refers to it by its place. The table only grows, so a
name keeps its meaning; a string occurs in it once, so equal names and equal strings are the same
thing (`find?_eq_some_iff`).
-/

namespace NetPrep

/-- The interned strings in the order of their first use, without repetition. -/
structure NameTable where
  strings : Array String
  nodup : strings.toList.Nodup
deriving DecidableEq

namespace NameTable

def empty : NameTable := ⟨#[], by simp⟩

instance : Inhabited NameTable := ⟨empty⟩

def size (t : NameTable) : Nat := t.strings.size

def isEmpty (t : NameTable) : Bool := t.size == 0

/-- The interned strings by place. -/
def toList (t : NameTable) : List String := t.strings.toList

/-- The name of a string that is already interned. -/
def find? (t : NameTable) (s : String) : Option Name :=
  (t.strings.toList.idxOf? s).map Name.mk

/-- The name of a string, which is added to the table if it is new. -/
def intern (t : NameTable) (s : String) : Name × NameTable :=
  if h : s ∈ t.strings.toList then
    (⟨t.strings.toList.idxOf s⟩, t)
  else
    (⟨t.strings.size⟩, {
      strings := t.strings.push s
      nodup := by
        simpa [List.nodup_append, t.nodup] using fun x hx e => h (by simpa [e] using hx) })

/-- The string behind a name. -/
def resolve (t : NameTable) (name : Name) : Except Fault String :=
  match t.strings[name.index]? with
  | some s => .ok s
  | none => .error (.noName name)

/-- The table with further strings interned one after another. A string that is there already is
refused, because it would not come to stand at the next place. -/
def internAll? (t : NameTable) : List String → Option NameTable
  | [] => some t
  | s :: strings =>
    if (t.intern s).1.index = t.size then (t.intern s).2.internAll? strings else none

/-- A table with the given strings, in their order. -/
def ofList? (strings : List String) : Option NameTable := empty.internAll? strings

/-- A one-line summary. -/
def summary (t : NameTable) : String := s!"Interner({t.size} strings)"

@[simp] theorem toList_empty : empty.toList = [] := rfl

theorem resolve_eq_ok_iff {t : NameTable} {name : Name} {s : String} :
    t.resolve name = .ok s ↔ t.toList[name.index]? = some s := by
  unfold resolve toList
  rw [Array.getElem?_toList]
  split <;> simp_all

/-- Names and strings correspond: a string is found under the name that it is behind. -/
theorem find?_eq_some_iff {t : NameTable} {s : String} {name : Name} :
    t.find? s = some name ↔ t.resolve name = .ok s := by
  rw [resolve_eq_ok_iff]
  unfold find? toList
  constructor
  · intro h
    obtain ⟨i, hi, rfl⟩ := Option.map_eq_some_iff.1 h
    obtain ⟨hlt, hs, _⟩ := List.findIdx?_eq_some_iff_getElem.1 hi
    rw [List.getElem?_eq_getElem hlt]
    simpa using hs
  · intro h
    obtain ⟨hlt, hs⟩ := List.getElem?_eq_some_iff.1 h
    refine Option.map_eq_some_iff.2 ⟨name.index, ?_, rfl⟩
    refine List.findIdx?_eq_some_iff_getElem.2 ⟨hlt, by simpa using hs, fun j hj => ?_⟩
    have hne : t.strings.toList[j] ≠ t.strings.toList[name.index] :=
      List.pairwise_iff_getElem.1 t.nodup j name.index (by omega) hlt hj
    simpa [← hs] using hne

theorem toList_intern (t : NameTable) (s : String) :
    (t.intern s).2.toList = if s ∈ t.toList then t.toList else t.toList ++ [s] := by
  unfold intern toList
  split <;> simp_all

/-- The name that a string is interned under has the string behind it. -/
theorem resolve_intern (t : NameTable) (s : String) :
    (t.intern s).2.resolve (t.intern s).1 = .ok s := by
  rw [resolve_eq_ok_iff]
  unfold intern toList
  split
  · next h =>
    have hlt := List.idxOf_lt_length_iff.2 h
    simp [List.getElem?_eq_getElem hlt]
  · simp

/-- Interning leaves the strings behind earlier names alone. -/
theorem resolve_intern_of_resolve {t : NameTable} {name : Name} {a : String}
    (h : t.resolve name = .ok a) (s : String) : (t.intern s).2.resolve name = .ok a := by
  rw [resolve_eq_ok_iff] at h ⊢
  obtain ⟨hlt, hs⟩ := List.getElem?_eq_some_iff.1 h
  rw [toList_intern]
  split
  · exact h
  · rw [List.getElem?_append_left hlt, h]

theorem toList_inj {t t' : NameTable} : t.toList = t'.toList ↔ t = t' := by
  obtain ⟨⟨strings⟩, _⟩ := t
  obtain ⟨⟨strings'⟩, _⟩ := t'
  simp [toList]

theorem index_intern_eq_size_iff {t : NameTable} {s : String} :
    (t.intern s).1.index = t.size ↔ s ∉ t.toList := by
  unfold intern toList size
  split
  · next h =>
    have hlt := List.idxOf_lt_length_iff.2 h
    simp only [Array.length_toList] at hlt
    simp [h, Nat.ne_of_lt hlt]
  · next h => simp [h]

/-- Further strings can be interned if they make a table with those that are there. -/
theorem internAll?_eq_some_iff {t t' : NameTable} {strings : List String} :
    t.internAll? strings = some t' ↔ t'.toList = t.toList ++ strings := by
  induction strings generalizing t with
  | nil => rw [internAll?, List.append_nil, Option.some_inj, eq_comm, toList_inj]
  | cons s strings ih =>
    rw [internAll?]
    by_cases hs : s ∈ t.toList
    · rw [if_neg fun h => index_intern_eq_size_iff.1 h hs]
      refine ⟨fun h => (by cases h), fun h => ?_⟩
      -- The string would stand in the table twice.
      have hnodup : t'.toList.Nodup := t'.nodup
      rw [h, List.nodup_append] at hnodup
      exact absurd rfl (hnodup.2.2 s hs s List.mem_cons_self)
    · rw [if_pos (index_intern_eq_size_iff.2 hs), ih, toList_intern, if_neg hs, List.append_assoc,
        List.singleton_append]

theorem ofList?_eq_some_iff {t : NameTable} {strings : List String} :
    ofList? strings = some t ↔ t.toList = strings := by
  rw [ofList?, internAll?_eq_some_iff, toList_empty, List.nil_append]

end NameTable

end NetPrep
