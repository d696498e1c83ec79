import Mathlib

/-!
# Order in a list

Which of two entries of a list comes first, and how that changes when an entry is put in or taken
out. A block is a list of nodes without repetition, and every statement about the order of a block
comes down to `Precedes`.
-/

namespace NetPrep

variable {α : Type}

/-- `a` comes before `b` in a list. -/
def Precedes (l : List α) (a b : α) : Prop := [a, b].Sublist l

namespace Precedes

variable {l l₁ l₂ : List α} {a b c x : α}

@[simp] theorem nil_iff : Precedes [] a b ↔ False := by
  simp [Precedes]

theorem cons_iff : Precedes (x :: l) a b ↔ (a = x ∧ b ∈ l) ∨ Precedes l a b := by
  unfold Precedes
  constructor
  · intro h
    cases h with
    | cons _ h => exact Or.inr h
    | cons_cons _ h => exact Or.inl ⟨rfl, List.singleton_sublist.1 h⟩
  · rintro (⟨rfl, h⟩ | h)
    · exact (List.singleton_sublist.2 h).cons_cons _
    · exact h.cons _

theorem append_iff :
    Precedes (l₁ ++ l₂) a b ↔ Precedes l₁ a b ∨ Precedes l₂ a b ∨ (a ∈ l₁ ∧ b ∈ l₂) := by
  induction l₁ with
  | nil => simp
  | cons x l₁ ih =>
    simp only [List.cons_append, cons_iff, ih, List.mem_append, List.mem_cons]
    tauto

theorem mem_left (h : Precedes l a b) : a ∈ l := List.Sublist.subset h (by simp)

theorem mem_right (h : Precedes l a b) : b ∈ l := List.Sublist.subset h (by simp)

theorem ne (hl : l.Nodup) (h : Precedes l a b) : a ≠ b := by
  have hab : [a, b].Nodup := hl.sublist h
  simpa using hab

theorem not_symm (hl : l.Nodup) (h : Precedes l a b) : ¬ Precedes l b a := by
  induction l with
  | nil => simp at h
  | cons x l ih =>
    obtain ⟨hx, hl⟩ := List.nodup_cons.1 hl
    rw [cons_iff] at h ⊢
    rintro (⟨rfl, hb⟩ | hb)
    · rcases h with ⟨rfl, ha⟩ | h
      · exact hx ha
      · exact hx h.mem_right
    · rcases h with ⟨rfl, ha⟩ | h
      · exact hx hb.mem_right
      · exact ih hl h hb

theorem trans (hl : l.Nodup) (hab : Precedes l a b) (hbc : Precedes l b c) : Precedes l a c := by
  induction l with
  | nil => simp at hab
  | cons x l ih =>
    obtain ⟨hx, hl⟩ := List.nodup_cons.1 hl
    rw [cons_iff] at hab hbc ⊢
    rcases hab with ⟨rfl, hb⟩ | hab
    · rcases hbc with ⟨rfl, _⟩ | hbc
      · exact absurd hb hx
      · exact Or.inl ⟨rfl, hbc.mem_right⟩
    · rcases hbc with ⟨rfl, _⟩ | hbc
      · exact absurd hab.mem_right hx
      · exact Or.inr (ih hl hab hbc)

/-- In a list without repetition, what comes before an entry is what is listed before it. -/
theorem split_iff (hl : (l₁ ++ x :: l₂).Nodup) : Precedes (l₁ ++ x :: l₂) a x ↔ a ∈ l₁ := by
  obtain ⟨-, hnodup, hdisjoint⟩ := List.nodup_append.1 hl
  have hx₁ : x ∉ l₁ := fun hmem => hdisjoint x hmem x List.mem_cons_self rfl
  have hx₂ : x ∉ l₂ := (List.nodup_cons.1 hnodup).1
  rw [append_iff, cons_iff]
  constructor
  · rintro (h | (⟨-, h⟩ | h) | ⟨ha, -⟩)
    · exact absurd h.mem_right hx₁
    · exact absurd h hx₂
    · exact absurd h.mem_right hx₂
    · exact ha
  · exact fun ha => Or.inr (Or.inr ⟨ha, List.mem_cons_self⟩)

/-- What follows an entry that comes before another one is that one, or comes before it too. -/
theorem exists_next (h : Precedes l a x) :
    ∃ l₁ y r, l = l₁ ++ a :: y :: r ∧ (y = x ∨ Precedes l y x) := by
  induction l with
  | nil => simp at h
  | cons z l ih =>
    rcases cons_iff.1 h with ⟨rfl, hx⟩ | h
    · obtain ⟨y, r, rfl⟩ := List.exists_cons_of_ne_nil (List.ne_nil_of_mem hx)
      refine ⟨[], y, r, rfl, ?_⟩
      rcases List.mem_cons.1 hx with rfl | hx
      · exact Or.inl rfl
      · exact Or.inr (cons_iff.2 (Or.inr (cons_iff.2 (Or.inl ⟨rfl, hx⟩))))
    · obtain ⟨l₁, y, r, rfl, hy⟩ := ih h
      exact ⟨z :: l₁, y, r, rfl, hy.imp_right fun hy => cons_iff.2 (Or.inr hy)⟩

end Precedes

/-! ## Putting an entry in -/

section

variable [DecidableEq α] {l l₁ l₂ : List α} {a p q x : α}

/-- Puts an entry right before another one. -/
def insertBefore (a x : α) : List α → List α
  | [] => []
  | y :: l => if y = a then x :: y :: l else y :: insertBefore a x l

/-- Puts an entry right after another one. -/
def insertAfter (a x : α) : List α → List α
  | [] => []
  | y :: l => if y = a then y :: x :: l else y :: insertAfter a x l

theorem insertBefore_append (h : a ∉ l₁) :
    insertBefore a x (l₁ ++ a :: l₂) = l₁ ++ x :: a :: l₂ := by
  induction l₁ with
  | nil => simp [insertBefore]
  | cons y l₁ ih =>
    obtain ⟨hy, hl⟩ := not_or.1 (mt List.mem_cons.2 h)
    simp [insertBefore, Ne.symm hy, ih hl]

theorem insertAfter_append_right (h : a ∉ l₁) :
    insertAfter a x (l₁ ++ l₂) = l₁ ++ insertAfter a x l₂ := by
  induction l₁ with
  | nil => rfl
  | cons y l₁ ih =>
    obtain ⟨hy, hl⟩ := not_or.1 (mt List.mem_cons.2 h)
    simp [insertAfter, Ne.symm hy, ih hl]

theorem insertAfter_append (h : a ∉ l₁) :
    insertAfter a x (l₁ ++ a :: l₂) = l₁ ++ a :: x :: l₂ := by
  rw [insertAfter_append_right h]
  simp [insertAfter]

/-- Nothing is put next to an entry that is not there. -/
theorem insertBefore_of_not_mem (h : a ∉ l) : insertBefore a x l = l := by
  induction l with
  | nil => rfl
  | cons y l ih =>
    obtain ⟨hy, hl⟩ := not_or.1 (mt List.mem_cons.2 h)
    simp [insertBefore, Ne.symm hy, ih hl]

/-- What comes before what once `x` stands right before `a`. -/
theorem Precedes.insertBefore_iff (hl : l.Nodup) (ha : a ∈ l) (hx : x ∉ l) :
    Precedes (insertBefore a x l) p q ↔
      Precedes l p q ∨ (p = x ∧ (q = a ∨ Precedes l a q)) ∨ (q = x ∧ Precedes l p a) := by
  obtain ⟨l₁, l₂, rfl⟩ := List.append_of_mem ha
  have ha₁ : a ∉ l₁ := fun h => (List.nodup_append.1 hl).2.2 a h a (by simp) rfl
  rw [insertBefore_append ha₁]
  simp only [append_iff, cons_iff, List.mem_cons, List.mem_append] at hx ⊢
  grind [Precedes.mem_left, Precedes.mem_right, List.nodup_append, List.nodup_cons]

/-- What comes before what once `x` stands right after `a`. -/
theorem Precedes.insertAfter_iff (hl : l.Nodup) (ha : a ∈ l) (hx : x ∉ l) :
    Precedes (insertAfter a x l) p q ↔
      Precedes l p q ∨ (p = x ∧ Precedes l a q) ∨ (q = x ∧ (p = a ∨ Precedes l p a)) := by
  obtain ⟨l₁, l₂, rfl⟩ := List.append_of_mem ha
  have ha₁ : a ∉ l₁ := fun h => (List.nodup_append.1 hl).2.2 a h a (by simp) rfl
  rw [insertAfter_append ha₁]
  simp only [append_iff, cons_iff, List.mem_cons, List.mem_append] at hx ⊢
  grind [Precedes.mem_left, Precedes.mem_right, List.nodup_append, List.nodup_cons]

/-- What comes before what once `x` is taken out. -/
theorem Precedes.erase_iff (hl : l.Nodup) :
    Precedes (l.erase x) p q ↔ p ≠ x ∧ q ≠ x ∧ Precedes l p q := by
  rw [hl.erase_eq_filter]
  unfold Precedes
  rw [List.sublist_filter_iff]
  constructor
  · rintro ⟨l', hl', heq⟩
    have hp : p ∈ l'.filter (· != x) := heq ▸ List.mem_cons_self
    have hq : q ∈ l'.filter (· != x) := heq ▸ by simp
    refine ⟨by simpa using (List.mem_filter.1 hp).2, by simpa using (List.mem_filter.1 hq).2, ?_⟩
    exact heq ▸ (List.filter_sublist.trans hl')
  · rintro ⟨hp, hq, h⟩
    exact ⟨[p, q], h, by simp [hp, hq]⟩

theorem mem_insertBefore_iff (ha : a ∈ l) : p ∈ insertBefore a x l ↔ p = x ∨ p ∈ l := by
  induction l with
  | nil => simp at ha
  | cons y l ih =>
    unfold insertBefore
    split
    · simp
    · next hy =>
      rw [List.mem_cons, ih ((List.mem_cons.1 ha).resolve_left (Ne.symm hy)), List.mem_cons]
      tauto

theorem mem_insertAfter_iff (ha : a ∈ l) : p ∈ insertAfter a x l ↔ p = x ∨ p ∈ l := by
  induction l with
  | nil => simp at ha
  | cons y l ih =>
    unfold insertAfter
    split
    · simp only [List.mem_cons]
      tauto
    · next hy =>
      rw [List.mem_cons, ih ((List.mem_cons.1 ha).resolve_left (Ne.symm hy)), List.mem_cons]
      tauto

end

end NetPrep
