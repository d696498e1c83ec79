import Mathlib
import NetPrep.Proofs.WellFormed

/-!
# Use lists

What the edits of use lists do. An edit of this kind changes the use lists of the values and nothing
else (`EditsUses`).
-/

namespace NetPrep

/-- The uses of a value among operands, the first of which has a given position. -/
def usesAmong (id : NodeId) (v : ValueId) : Nat → List ValueId → List Use
  | _, [] => []
  | i, w :: ws => if w = v then ⟨id, i⟩ :: usesAmong id v (i + 1) ws else usesAmong id v (i + 1) ws

theorem mem_usesAmong_iff {id : NodeId} {v : ValueId} {i : Nat} {ws : List ValueId} {u : Use} :
    u ∈ usesAmong id v i ws ↔ u.node = id ∧ i ≤ u.operand ∧ ws[u.operand - i]? = some v := by
  induction ws generalizing i with
  | nil => simp [usesAmong]
  | cons w ws ih =>
    obtain ⟨j, k⟩ := u
    have hrest : (j = id ∧ i + 1 ≤ k ∧ ws[k - (i + 1)]? = some v) ↔
        (j = id ∧ i < k ∧ (w :: ws)[k - i]? = some v) := by
      constructor
      · rintro ⟨hj, hk, hv⟩
        obtain ⟨d, rfl⟩ : ∃ d, k = i + 1 + d := ⟨k - (i + 1), by omega⟩
        refine ⟨hj, by omega, ?_⟩
        rw [show i + 1 + d - i = d + 1 by omega]
        simpa using hv
      · rintro ⟨hj, hk, hv⟩
        obtain ⟨d, rfl⟩ : ∃ d, k = i + 1 + d := ⟨k - (i + 1), by omega⟩
        refine ⟨hj, by omega, ?_⟩
        rw [show i + 1 + d - i = d + 1 by omega] at hv
        simpa using hv
    unfold usesAmong
    split
    · next hw =>
      rw [List.mem_cons, ih, hrest, Use.mk.injEq]
      constructor
      · rintro (⟨rfl, rfl⟩ | ⟨hj, hk, hv⟩)
        · simp [hw]
        · exact ⟨hj, Nat.le_of_lt hk, hv⟩
      · rintro ⟨hj, hk, hv⟩
        rcases Nat.eq_or_lt_of_le hk with rfl | hlt
        · exact Or.inl ⟨hj, rfl⟩
        · exact Or.inr ⟨hj, hlt, hv⟩
    · next hw =>
      rw [ih, hrest]
      constructor
      · rintro ⟨hj, hk, hv⟩
        exact ⟨hj, Nat.le_of_lt hk, hv⟩
      · rintro ⟨hj, hk, hv⟩
        rcases Nat.eq_or_lt_of_le hk with rfl | hlt
        · simp [hw] at hv
        · exact ⟨hj, hlt, hv⟩

theorem nodup_usesAmong (id : NodeId) (v : ValueId) (i : Nat) (ws : List ValueId) :
    (usesAmong id v i ws).Nodup := by
  induction ws generalizing i with
  | nil => simp [usesAmong]
  | cons w ws ih =>
    unfold usesAmong
    split
    · refine List.nodup_cons.2 ⟨fun hm => ?_, ih _⟩
      obtain ⟨-, hi, -⟩ := mem_usesAmong_iff.1 hm
      simp at hi
    · exact ih _

namespace Module

variable {m m' m'' : Module} {id : NodeId} {v : ValueId} {u : Use} {i : Nat} {vs : List ValueId}

/-- Two modules that differ in use lists only. -/
structure EditsUses (m m' : Module) (f : ValueId → List Use → List Use) : Prop where
  rest : ∃ values, m' = { m with values }
  size : m'.values.size = m.values.size
  value : ∀ w, m'.value? w = (m.value? w).map fun x => { x with uses := f w x.uses }

namespace EditsUses

variable {f g : ValueId → List Use → List Use}

theorem refl (m : Module) : EditsUses m m fun _ l => l where
  rest := ⟨m.values, rfl⟩
  size := rfl
  value w := by cases m.value? w <;> rfl

theorem trans (h : EditsUses m m' f) (h' : EditsUses m' m'' g) :
    EditsUses m m'' fun w l => g w (f w l) where
  rest := by
    obtain ⟨values, rfl⟩ := h.rest
    obtain ⟨values', rfl⟩ := h'.rest
    exact ⟨values', rfl⟩
  size := h'.size.trans h.size
  value w := by simp [h'.value, h.value, Function.comp_def]

theorem of_modifyValue {g : List Use → List Use}
    (h : m.modifyValue v (fun x => { x with uses := g x.uses }) = .ok m') :
    EditsUses m m' fun w l => if v = w then g l else l := by
  obtain ⟨values, rfl, hsize, hget⟩ := modifyValue_eq_ok h
  refine ⟨⟨values, rfl⟩, hsize, fun w => ?_⟩
  rw [hget w]
  split
  · rfl
  · cases m.value? w <;> rfl

theorem node? (h : EditsUses m m' f) (j : NodeId) : m'.node? j = m.node? j := by
  obtain ⟨values, rfl⟩ := h.rest
  rfl

theorem type? (h : EditsUses m m' f) (w : ValueId) : m'.type? w = m.type? w := by
  simp [Module.type?, h.value, Function.comp_def]

end EditsUses

theorem addUse_eq_ok (h : m.addUse v u = .ok m') :
    EditsUses m m' fun w l => if v = w then l ++ [u] else l :=
  .of_modifyValue (g := fun l => l ++ [u]) h

theorem removeUse_eq_ok (h : m.removeUse v u = .ok m') :
    EditsUses m m' fun w l => if v = w then l.erase u else l :=
  .of_modifyValue (g := fun l => l.erase u) h

/-- Recording operands appends the uses among them. -/
theorem addUses_eq_ok (h : m.addUses id i vs = .ok m') :
    EditsUses m m' fun w l => l ++ usesAmong id w i vs := by
  induction vs generalizing m i with
  | nil =>
    cases h
    simpa [usesAmong] using EditsUses.refl _
  | cons v vs ih =>
    simp only [addUses, bind_eq_ok_iff] at h
    obtain ⟨m₁, h₁, h₂⟩ := h
    have hall := (addUse_eq_ok h₁).trans (ih h₂)
    refine ⟨hall.rest, hall.size, fun w => ?_⟩
    rw [hall.value w]
    by_cases hv : v = w <;> simp [usesAmong, hv]

/-- Forgetting operands takes the uses among them off a list without repetition. -/
theorem removeUses_eq_ok (h : m.removeUses id i vs = .ok m') :
    ∃ f, EditsUses m m' f ∧ ∀ w l, l.Nodup →
      (f w l).Nodup ∧ ∀ u, u ∈ f w l ↔ u ∈ l ∧ u ∉ usesAmong id w i vs := by
  induction vs generalizing m i with
  | nil =>
    cases h
    exact ⟨_, EditsUses.refl _, fun w l hl => ⟨hl, by simp [usesAmong]⟩⟩
  | cons v vs ih =>
    simp only [removeUses, bind_eq_ok_iff] at h
    obtain ⟨m₁, h₁, h₂⟩ := h
    obtain ⟨f, hf, hmem⟩ := ih h₂
    refine ⟨_, (removeUse_eq_ok h₁).trans hf, fun w l hl => ?_⟩
    by_cases hv : v = w
    · obtain ⟨hnd, hiff⟩ := hmem w (l.erase ⟨id, i⟩) (hl.erase _)
      refine ⟨by simpa [hv] using hnd, fun u => ?_⟩
      simp only [hv, if_true, hiff, usesAmong, List.mem_cons, hl.mem_erase_iff]
      tauto
    · obtain ⟨hnd, hiff⟩ := hmem w l hl
      refine ⟨by simpa [hv] using hnd, fun u => ?_⟩
      simp [hv, hiff, usesAmong]

end Module

end NetPrep
