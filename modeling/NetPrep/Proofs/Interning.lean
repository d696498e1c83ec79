import Mathlib
import NetPrep.Proofs.Orderly
import NetPrep.Proofs.TypeTrees

/-!
# Interning types

A table is built by interning one type after another, each over places that earlier calls returned. A
call compares a type with the entries of the table, which hold places and not trees; still two calls
return one place just if their types are the same when written out, since by then the same trees stand
at the same places (`internAll_exact`). What a place means stays as it is while the table grows.
-/

namespace NetPrep.TypeTable

variable {t : TypeTable} {ty : HwType} {tys before later : List HwType} {ids : List TypeId}

/-- Interning types one after another, bit vectors and storage like any other type: the places that are
returned, and the table afterwards. -/
def internAll (t : TypeTable) : List HwType → List TypeId × TypeTable
  | [] => ([], t)
  | ty :: tys =>
    let (id, t) := t.intern ty
    let (ids, t) := t.internAll tys
    (id :: ids, t)

/-- Types that can be interned one after another from the empty table on: the components of each are
places that were returned for types before it. -/
def Composed (tys : List HwType) : Prop :=
  ∀ i, (h : i < tys.length) → ∀ part ∈ tys[i].parts, part ∈ (empty.internAll (tys.take i)).1

instance (tys : List HwType) : Decidable (Composed tys) := Nat.decidableBallLT _ _

/-- The last one of several calls. -/
theorem internAll_concat (t : TypeTable) (tys : List HwType) (ty : HwType) :
    t.internAll (tys ++ [ty]) = ((t.internAll tys).1 ++ [((t.internAll tys).2.intern ty).1],
      ((t.internAll tys).2.intern ty).2) := by
  induction tys generalizing t with
  | nil => rfl
  | cons ty' tys ih => simp [internAll, ih]

theorem Composed.of_append (h : Composed (tys ++ later)) : Composed tys := by
  intro i hi part hpart
  have hlt : i < (tys ++ later).length := by
    rw [List.length_append]
    omega
  have hmem := h i hlt part (by rwa [List.getElem_append_left hi])
  rwa [List.take_append_of_le_length hi.le] at hmem

theorem Composed.parts_of_concat (h : Composed (tys ++ [ty])) :
    ∀ part ∈ ty.parts, part ∈ (empty.internAll tys).1 := by
  intro part hpart
  have hmem := h tys.length (by simp) part (by simpa using hpart)
  simpa using hmem

/-! ## One call -/

/-- A type is added behind the others, and only if it is not among them. -/
theorem nodup_intern (h : t.entries.toList.Nodup) (ty : HwType) :
    (t.intern ty).2.entries.toList.Nodup := by
  unfold intern
  split
  · exact h
  · next hnone =>
    rw [Array.toList_push, List.nodup_append_comm, List.singleton_append]
    exact List.nodup_cons.2 ⟨List.idxOf?_eq_none_iff.1 hnone, h⟩

theorem size_intern_le (t : TypeTable) (ty : HwType) : (t.intern ty).2.size ≤ t.size + 1 := by
  unfold intern
  split
  · exact Nat.le_succ _
  · simp [size]

theorem index_intern_le (t : TypeTable) (ty : HwType) : (t.intern ty).1.index ≤ t.size := by
  unfold intern
  split
  · next i hi =>
    obtain ⟨hlt, -⟩ := List.findIdx?_eq_some_iff_getElem.1 hi
    exact hlt.le
  · exact Nat.le_refl _

/-- What calls from the empty table on have come to: the table is without repetition, types stand in it
behind their components and at the places that were returned for them, and no place is further back than
the call that returned it. -/
structure Interned (t : TypeTable) (tys : List HwType) (ids : List TypeId) : Prop where
  grounded : t.Grounded
  nodup : t.entries.toList.Nodup
  held : List.Forall₂ (fun id ty => t.get id = .ok ty) ids tys
  size_le : t.size ≤ tys.length
  index_le : ∀ {i} {id : TypeId}, ids[i]? = some id → id.index ≤ i

namespace Interned

theorem start : Interned empty [] [] where
  grounded id ty hid := by simp [empty, entry?] at hid
  nodup := .nil
  held := .nil
  size_le := Nat.le_refl 0
  index_le h := by simp at h

theorem exists_get (h : t.Interned tys ids) {id : TypeId} (hid : id ∈ ids) :
    ∃ ty, t.get id = .ok ty := by
  obtain ⟨i, hi, rfl⟩ := List.getElem_of_mem hid
  exact ⟨_, h.held.get hi (h.held.length_eq ▸ hi)⟩

/-- A call over places that were returned before. -/
theorem intern (h : t.Interned tys ids) (hparts : ∀ part ∈ ty.parts, part ∈ ids) :
    (t.intern ty).2.Interned (tys ++ [ty]) (ids ++ [(t.intern ty).1]) where
  grounded := h.grounded.intern fun part hpart =>
    (h.exists_get (hparts part hpart)).imp fun _ => entry?_eq_some_iff.2
  nodup := nodup_intern h.nodup ty
  held := List.rel_append (h.held.imp fun _ _ hid => get_intern_of_get hid ty)
    (.cons (get_intern t ty) .nil)
  size_le := by
    rw [List.length_append]
    exact (size_intern_le t ty).trans (Nat.succ_le_succ h.size_le)
  index_le {i id} hi := by
    by_cases hlt : i < ids.length
    · exact h.index_le (List.getElem?_append_left hlt ▸ hi)
    · have hlength : i = ids.length := by
        have := (List.getElem?_eq_some_iff.1 hi).1
        simp at this
        omega
      subst hlength
      obtain rfl : (t.intern ty).1 = id := by simpa using hi
      exact (index_intern_le t ty).trans (h.size_le.trans h.held.length_eq.ge)

end Interned

/-! ## Calls from the empty table on -/

theorem Composed.interned (h : Composed tys) :
    (empty.internAll tys).2.Interned tys (empty.internAll tys).1 := by
  induction tys using List.reverseRecOn with
  | nil => exact .start
  | append_singleton tys ty ih =>
    rw [internAll_concat]
    exact (ih h.of_append).intern h.parts_of_concat

/-- Later calls leave the table as it is, but for further types behind it. -/
theorem internAll_extends (tys later : List HwType) :
    (empty.internAll (tys ++ later)).2.Extends (empty.internAll tys).2 := by
  induction later using List.reverseRecOn with
  | nil =>
    rw [List.append_nil]
    exact fun _ _ hid => hid
  | append_singleton later ty ih =>
    rw [← List.append_assoc, internAll_concat]
    exact fun id a hid => get_intern_of_get (ih id a hid) ty

/-- Types are interned by the trees that they are when written out. Each call returns a place of the type
that was asked for, which denotes one tree; two calls return the same place just if the trees are the
same, and a place keeps its tree in every later table. Places are counted no further than calls, so that
they are 32-bit numbers for as many calls as there are such numbers. The packed width of a place is that
of its tree, and is found just if the widths on the way to it are 32-bit numbers. -/
theorem internAll_exact (h : Composed tys) :
    ∃ ids t, empty.internAll tys = (ids, t) ∧
      List.Forall₂ (fun id ty => t.get id = .ok ty) ids tys ∧
      (∀ i (id : TypeId), ids[i]? = some id → id.index ≤ i) ∧
      (∀ id ∈ ids, ∃ s, t.Denotes id s) ∧
      (∀ a ∈ ids, ∀ b ∈ ids, ∀ s s', t.Denotes a s → t.Denotes b s' → (a = b ↔ s = s')) ∧
      (∀ before later, tys = before ++ later → ∀ id ∈ (empty.internAll before).1, ∀ s,
        (empty.internAll before).2.Denotes id s ↔ t.Denotes id s) ∧
      (∀ id ∈ ids, ∀ s, t.Denotes id s → ∀ w, t.bitWidth id = .ok w ↔ s.Fits ∧ w = s.packed?) := by
  have hi := h.interned
  refine ⟨_, _, rfl, hi.held, fun i id => hi.index_le, fun id hid => ?_,
    fun a _ b _ s s' ha hb => ⟨?_, ?_⟩, ?_, fun id _ s hs w => bitWidth_eq_ok_iff hi.grounded hs⟩
  · obtain ⟨ty, hty⟩ := hi.exists_get hid
    exact exists_denotes hi.grounded hty
  · rintro rfl
    exact ha.unique hb
  · rintro rfl
    exact eq_of_denotes hi.nodup ha hb
  · rintro before later rfl id hid s
    have hkeep := internAll_extends before later
    refine ⟨fun hs => hs.extends hkeep, fun hs => ?_⟩
    -- The place denoted a tree before, and denotes that one still.
    have hi := h.of_append.interned
    obtain ⟨ty, hty⟩ := hi.exists_get hid
    obtain ⟨s', hs'⟩ := exists_denotes hi.grounded hty
    rwa [hs.unique (hs'.extends hkeep)]

/-- A struct of an array and a byte, asked for twice, and storage of it. -/
def layered : List HwType :=
  [.int 8, .storage ⟨0⟩, .array ⟨0⟩ 3, .int 8, .record [(⟨0⟩, ⟨2⟩), (⟨1⟩, ⟨0⟩)], .array ⟨0⟩ 3,
    .record [(⟨0⟩, ⟨2⟩), (⟨1⟩, ⟨0⟩)], .storage ⟨3⟩]

theorem internAll_layered : Composed layered ∧
    ∃ t, empty.internAll layered = ([0, 1, 2, 0, 3, 2, 3, 4].map .mk, t) ∧
      (∃ s, t.Denotes ⟨3⟩ s ∧ s.Fits ∧ s.packed? = some 32) ∧
      ∃ s, t.Denotes ⟨4⟩ s ∧ s.Fits ∧ s.packed? = none := by
  have hcomposed : Composed layered := by decide
  obtain ⟨ids, t, hrun, -, -, htree, -, -, hwidth⟩ := internAll_exact hcomposed
  have hrun' : empty.internAll layered = ([0, 1, 2, 0, 3, 2, 3, 4].map .mk,
      ⟨#[.int 8, .storage ⟨0⟩, .array ⟨0⟩ 3, .record [(⟨0⟩, ⟨2⟩), (⟨1⟩, ⟨0⟩)], .storage ⟨3⟩]⟩) := by
    decide
  obtain ⟨rfl, rfl⟩ := Prod.mk.inj (hrun'.symm.trans hrun)
  refine ⟨hcomposed, _, hrun', ?_, ?_⟩
  · obtain ⟨s, hs⟩ := htree ⟨3⟩ (by decide)
    obtain ⟨hfits, hpacked⟩ := (hwidth ⟨3⟩ (by decide) s hs (some 32)).1 (by decide)
    exact ⟨s, hs, hfits, hpacked.symm⟩
  · obtain ⟨s, hs⟩ := htree ⟨4⟩ (by decide)
    obtain ⟨hfits, hpacked⟩ := (hwidth ⟨4⟩ (by decide) s hs none).1 (by decide)
    exact ⟨s, hs, hfits, hpacked.symm⟩

end NetPrep.TypeTable
