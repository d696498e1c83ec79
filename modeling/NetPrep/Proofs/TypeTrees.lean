import Mathlib
import NetPrep.Proofs.GraphLogic
import NetPrep.Proofs.Safety

/-!
# Types written out

A table keeps a type over the places of its components. Written out in full, a type is a tree, and what
holds of places in a table is said of trees here: a place whose type is made of earlier ones denotes one
tree (`exists_denotes`, `Denotes.unique`), a table without repetition has one place for a tree
(`eq_of_denotes`), and the packed width that is looked up in a table is that of the tree
(`bitWidth_eq_ok_iff`).
-/

namespace NetPrep

/-- A hardware type with its components in place. -/
inductive TypeTree where
  | int (width : Nat)
  | storage (element : TypeTree)
  | array (element : TypeTree) (length : Nat)
  | record (fields : List (Name × TypeTree))
deriving Inhabited

/-! ## Packed widths -/

mutual

/-- The number of bits of the values of a type; storage has none of its own. -/
def TypeTree.width : TypeTree → Nat
  | .int width => width
  | .storage _ => 0
  | .array element length => element.width * length
  | .record fields => fieldsWidth fields

/-- The sum of the widths of fields. -/
def fieldsWidth : List (Name × TypeTree) → Nat
  | [] => 0
  | (_, s) :: fields => s.width + fieldsWidth fields

end

mutual

/-- Whether there is storage anywhere in a type. -/
def TypeTree.hasStorage : TypeTree → Bool
  | .int _ => false
  | .storage _ => true
  | .array element _ => element.hasStorage
  | .record fields => fieldsHaveStorage fields

/-- Whether there is storage anywhere in one of the fields. -/
def fieldsHaveStorage : List (Name × TypeTree) → Bool
  | [] => false
  | (_, s) :: fields => s.hasStorage || fieldsHaveStorage fields

end

/-- The widths that packing comes to are 32-bit numbers: those of arrays, and the sums of the widths of
the first fields of structs. Storage has no width, and neither has what stands behind it in a struct. -/
inductive TypeTree.Fits : TypeTree → Prop
  | int (width : Nat) : Fits (.int width)
  | storage (element : TypeTree) : Fits (.storage element)
  | array {element : TypeTree} {length : Nat} (h : Fits element)
      (hwidth : element.hasStorage = false → element.width * length < limit32) :
      Fits (.array element length)
  | record {fields : List (Name × TypeTree)}
      (h : ∀ first f, first ++ [f] <+: fields → fieldsHaveStorage first = false → Fits f.2)
      (hwidth : ∀ first, first <+: fields → fieldsHaveStorage first = false →
        fieldsWidth first < limit32) :
      Fits (.record fields)

/-- The packed width of a type; none if there is storage in it. -/
def TypeTree.packed? (s : TypeTree) : Option Nat :=
  if s.hasStorage then none else some s.width

theorem TypeTree.packed?_of_hasStorage {s : TypeTree} (h : s.hasStorage = true) :
    s.packed? = none := if_pos h

theorem TypeTree.packed?_of_hasStorage_eq_false {s : TypeTree} (h : s.hasStorage = false) :
    s.packed? = some s.width := if_neg (by simp [h])

/-- What `Fits` says of fields that are added to a sum so far. -/
def SumsFit (soFar : Nat) (fields : List (Name × TypeTree)) : Prop :=
  (∀ first f, first ++ [f] <+: fields → fieldsHaveStorage first = false → f.2.Fits) ∧
    ∀ first, first <+: fields → fieldsHaveStorage first = false →
      soFar + fieldsWidth first < limit32

theorem TypeTree.fits_array_iff {element : TypeTree} {length : Nat} :
    (array element length).Fits ↔
      element.Fits ∧ (element.hasStorage = false → element.width * length < limit32) := by
  refine ⟨fun h => ?_, fun h => .array h.1 h.2⟩
  cases h with
  | array h hwidth => exact ⟨h, hwidth⟩

theorem TypeTree.fits_record_iff {fields : List (Name × TypeTree)} :
    (record fields).Fits ↔ SumsFit 0 fields := by
  simp only [SumsFit, Nat.zero_add]
  refine ⟨fun h => ?_, fun h => .record h.1 h.2⟩
  cases h with
  | record h hwidth => exact ⟨h, hwidth⟩

theorem SumsFit.lt {soFar : Nat} {fields : List (Name × TypeTree)} (h : SumsFit soFar fields) :
    soFar < limit32 := h.2 [] List.nil_prefix rfl

theorem sumsFit_nil_iff {soFar : Nat} : SumsFit soFar [] ↔ soFar < limit32 := by
  refine ⟨SumsFit.lt, fun h => ⟨fun first f hfirst => ?_, fun first hfirst _ => ?_⟩⟩
  · simp at hfirst
  · obtain rfl := List.prefix_nil.1 hfirst
    exact h

/-- Behind a field with storage nothing is added any more. -/
theorem sumsFit_cons_iff {soFar : Nat} {f : Name × TypeTree} {fields : List (Name × TypeTree)} :
    SumsFit soFar (f :: fields) ↔ soFar < limit32 ∧ f.2.Fits ∧
      (f.2.hasStorage = false → SumsFit (soFar + f.2.width) fields) := by
  constructor
  · intro h
    refine ⟨h.lt, h.1 [] f (by simp) rfl, fun hf => ⟨fun first g hfirst hno => ?_,
      fun first hfirst hno => ?_⟩⟩
    · exact h.1 (f :: first) g (by simpa using hfirst) (by simp [fieldsHaveStorage, hf, hno])
    · have hlt := h.2 (f :: first) (by simpa using hfirst) (by simp [fieldsHaveStorage, hf, hno])
      rwa [fieldsWidth, ← Nat.add_assoc] at hlt
  · rintro ⟨hlt, hf, hrest⟩
    refine ⟨fun first g hfirst hno => ?_, fun first hfirst hno => ?_⟩
    · cases first with
      | nil =>
        obtain rfl : g = f := by simpa using hfirst
        exact hf
      | cons f' first =>
        obtain ⟨rfl, hinner⟩ : f' = f ∧ first ++ [g] <+: fields := by simpa using hfirst
        obtain ⟨hf', hno⟩ := Bool.or_eq_false_iff.1 hno
        exact (hrest hf').1 first g hinner hno
    · cases first with
      | nil => exact hlt
      | cons f' first =>
        obtain ⟨rfl, hinner⟩ := List.cons_prefix_cons.1 hfirst
        obtain ⟨hf', hno⟩ := Bool.or_eq_false_iff.1 hno
        rw [fieldsWidth, ← Nat.add_assoc]
        exact (hrest hf').2 first hinner hno

namespace TypeTable

variable {t t' : TypeTable} {id a b : TypeId} {ty : HwType} {s s' : TypeTree}

/-! ## The tree of a place -/

/-- A place of a table denotes a tree: the type at that place, with the trees of its components. -/
inductive Denotes (t : TypeTable) : TypeId → TypeTree → Prop
  | int {id : TypeId} {width : Nat} (hid : t.get id = .ok (.int width)) : Denotes t id (.int width)
  | storage {id element : TypeId} {s : TypeTree} (hid : t.get id = .ok (.storage element))
      (h : Denotes t element s) : Denotes t id (.storage s)
  | array {id element : TypeId} {length : Nat} {s : TypeTree}
      (hid : t.get id = .ok (.array element length)) (h : Denotes t element s) :
      Denotes t id (.array s length)
  | record {id : TypeId} {fields : List (Name × TypeId)} {trees : List (Name × TypeTree)}
      (hid : t.get id = .ok (.record fields)) (hnames : fields.map (·.1) = trees.map (·.1))
      (h : ∀ p ∈ fields.zip trees, Denotes t p.1.2 p.2.2) : Denotes t id (.record trees)

/-- Fields of the same names, with what is known of each field and its tree. -/
theorem forall₂_of_zip {α β : Type} {R : α → β → Prop} {l : List (Name × α)} {k : List (Name × β)}
    (hnames : l.map (·.1) = k.map (·.1)) (h : ∀ p ∈ l.zip k, R p.1.2 p.2.2) :
    List.Forall₂ (fun f g => f.1 = g.1 ∧ R f.2 g.2) l k := by
  induction l generalizing k with
  | nil =>
    obtain rfl := List.map_eq_nil_iff.1 hnames.symm
    exact .nil
  | cons f l ih =>
    cases k with
    | nil => cases hnames
    | cons g k =>
      obtain ⟨hname, hnames⟩ := List.cons.inj hnames
      obtain ⟨hfg, hrest⟩ := List.forall_mem_cons.1 h
      exact .cons ⟨hname, hfg⟩ (ih hnames hrest)

/-- Lists that are matched with the same list are the same if each of its entries has one match. -/
theorem eq_of_forall₂ {α β : Type} {R S : α → β → Prop} {l : List α} {k k' : List β}
    (h : List.Forall₂ R l k) (h' : List.Forall₂ S l k')
    (hunique : ∀ x y y', R x y → S x y' → y = y') : k = k' := by
  induction h generalizing k' with
  | nil =>
    cases h'
    rfl
  | cons hxy _ ih =>
    cases h' with
    | cons hxy' hrest => rw [ih hrest, hunique _ _ _ hxy hxy']

/-- A place denotes one tree. -/
theorem Denotes.unique (h : t.Denotes id s) (h' : t.Denotes id s') : s = s' := by
  induction h generalizing s' with
  | int hid =>
    cases h' with
    | int hid' =>
      cases hid.symm.trans hid'
      rfl
    | storage hid' | array hid' | record hid' => cases hid.symm.trans hid'
  | storage hid _ ih =>
    cases h' with
    | storage hid' h' =>
      cases hid.symm.trans hid'
      rw [ih h']
    | int hid' | array hid' | record hid' => cases hid.symm.trans hid'
  | array hid _ ih =>
    cases h' with
    | array hid' h' =>
      cases hid.symm.trans hid'
      rw [ih h']
    | int hid' | storage hid' | record hid' => cases hid.symm.trans hid'
  | record hid hnames _ ih =>
    cases h' with
    | record hid' hnames' h' =>
      cases hid.symm.trans hid'
      have hall := forall₂_of_zip (R := fun ty s => ∀ s', t.Denotes ty s' → s = s') hnames
        fun p hp s' => ih p hp
      rw [eq_of_forall₂ hall (forall₂_of_zip hnames' h') fun f g g' hg hg' =>
        Prod.ext (hg.1.symm.trans hg'.1) (hg.2 _ hg'.2)]
    | int hid' | storage hid' | array hid' => cases hid.symm.trans hid'

theorem Denotes.exists_get (h : t.Denotes id s) : ∃ ty, t.get id = .ok ty := by
  cases h with
  | int hid | storage hid | array hid | record hid => exact ⟨_, hid⟩

theorem lt_size_of_get (h : t.get id = .ok ty) : id.index < t.size :=
  (Array.getElem?_eq_some_iff.1 (get_eq_ok_iff.1 h)).1

/-- A place keeps its tree in a table that holds the same types and further ones. -/
theorem Denotes.extends (h : t.Denotes id s) (ht : t'.Extends t) : t'.Denotes id s := by
  induction h with
  | int hid => exact .int (ht _ _ hid)
  | storage hid _ ih => exact .storage (ht _ _ hid) ih
  | array hid _ ih => exact .array (ht _ _ hid) ih
  | record hid hnames _ ih => exact .record (ht _ _ hid) hnames ih

/-- Where types are made of earlier ones, every place of a type denotes a tree. -/
theorem exists_denotes (ht : t.Grounded) (hid : t.get id = .ok ty) : ∃ s, t.Denotes id s := by
  induction hi : id.index using Nat.strong_induction_on generalizing id ty with
  | _ i ih =>
    subst hi
    have hparts : ∀ part ∈ ty.parts, ∃ s, t.Denotes part s := fun part hpart => by
      have hlt := ht id ty (entry?_eq_some_iff.2 hid) part hpart
      obtain ⟨ty', hty'⟩ := ht.exists_part (entry?_eq_some_iff.2 hid) hpart
      exact ih _ hlt (entry?_eq_some_iff.1 hty') rfl
    cases ty with
    | int width => exact ⟨_, .int hid⟩
    | storage element =>
      obtain ⟨s, hs⟩ := hparts element (by simp [HwType.parts])
      exact ⟨_, .storage hid hs⟩
    | array element length =>
      obtain ⟨s, hs⟩ := hparts element (by simp [HwType.parts])
      exact ⟨_, .array hid hs⟩
    | record fields =>
      choose! tree htree using hparts
      refine ⟨.record (fields.map fun f => (f.1, tree f.2)), .record hid (by simp) fun p hp => ?_⟩
      rw [← List.map_prod_left_eq_zip] at hp
      obtain ⟨f, hf, rfl⟩ := List.mem_map.1 hp
      exact htree f.2 (List.mem_map_of_mem hf)

/-- In a table without repetition there is one place for a type. -/
theorem eq_of_get (ht : t.entries.toList.Nodup) (ha : t.get a = .ok ty) (hb : t.get b = .ok ty) :
    a = b := by
  rw [get_eq_ok_iff, ← Array.getElem?_toList] at ha hb
  obtain ⟨hlt, -⟩ := List.getElem?_eq_some_iff.1 ha
  have hindex := (List.getElem?_inj hlt ht).1 (ha.trans hb.symm)
  cases a
  cases b
  exact congrArg TypeId.mk hindex

/-- In a table without repetition there is one place for a tree. -/
theorem eq_of_denotes (ht : t.entries.toList.Nodup) (h : t.Denotes a s) (h' : t.Denotes b s) :
    a = b := by
  induction h generalizing b with
  | int hid =>
    cases h' with
    | int hid' => exact eq_of_get ht hid hid'
  | storage hid _ ih =>
    cases h' with
    | storage hid' h' =>
      obtain rfl := ih h'
      exact eq_of_get ht hid hid'
  | array hid _ ih =>
    cases h' with
    | array hid' h' =>
      obtain rfl := ih h'
      exact eq_of_get ht hid hid'
  | record hid hnames _ ih =>
    cases h' with
    | record hid' hnames' h' =>
      have hall := forall₂_of_zip (R := fun ty s => ∀ b, t.Denotes b s → ty = b) hnames
        fun p hp b => ih p hp
      obtain rfl := eq_of_forall₂ hall.flip (forall₂_of_zip hnames' h').flip fun g f f' hf hf' =>
        Prod.ext (hf.1.trans hf'.1.symm) (hf.2 _ hf'.2)
      exact eq_of_get ht hid hid'

/-! ## The width of a place -/

/-- Fields are added up to the sum of their widths, unless there is storage in one of them. -/
theorem sumWidths_eq_ok_iff {width : TypeId → Except Fault (Option Nat)}
    {fields : List (Name × TypeId)} {trees : List (Name × TypeTree)}
    (h : List.Forall₂ (fun f g => f.1 = g.1 ∧ ∀ w, width f.2 = .ok w ↔ g.2.Fits ∧ w = g.2.packed?)
      fields trees) {soFar : Nat} (hlt : soFar < limit32) {w : Option Nat} :
    sumWidths width soFar fields = .ok w ↔ SumsFit soFar trees ∧
      w = if fieldsHaveStorage trees then none else some (soFar + fieldsWidth trees) := by
  induction h generalizing soFar w with
  | nil =>
    rw [sumsFit_nil_iff, and_iff_right hlt]
    exact ⟨fun h => (Except.ok.inj h).symm, fun h => congrArg Except.ok h.symm⟩
  | @cons f g fields trees hfg _ ih =>
    rw [sumWidths, bind_eq_ok_iff, sumsFit_cons_iff, and_iff_right hlt]
    simp only [hfg.2, and_assoc, exists_and_left, exists_eq_left]
    refine and_congr_right fun _ => ?_
    cases hstorage : g.2.hasStorage with
    | true =>
      rw [TypeTree.packed?_of_hasStorage hstorage, fieldsHaveStorage, hstorage]
      exact ⟨fun hw => ⟨Bool.noConfusion, (Except.ok.inj hw).symm⟩,
        fun hw => congrArg Except.ok hw.2.symm⟩
    | false =>
      rw [TypeTree.packed?_of_hasStorage_eq_false hstorage, fieldsHaveStorage, hstorage,
        fieldsWidth, ← Nat.add_assoc]
      constructor
      · intro hw
        obtain ⟨sum, hsum, hw⟩ := bind_eq_ok_iff.1 hw
        obtain ⟨hlt', rfl⟩ := below_eq_ok_iff.1 hsum
        obtain ⟨hrest, hw⟩ := (ih hlt').1 hw
        exact ⟨fun _ => hrest, hw⟩
      · rintro ⟨hrest, hw⟩
        have hlt' := (hrest rfl).lt
        exact bind_eq_ok_iff.2 ⟨_, below_eq_ok_iff.2 ⟨hlt', rfl⟩, (ih hlt').2 ⟨hrest rfl, hw⟩⟩

/-- A width is found in so many steps as there are places up to that of the type. -/
theorem widthWithin_eq_ok_iff (ht : t.Grounded) (h : t.Denotes id s) {fuel : Nat}
    (hfuel : id.index < fuel) {w : Option Nat} :
    t.widthWithin fuel id = .ok w ↔ s.Fits ∧ w = s.packed? := by
  induction fuel generalizing id s w with
  | zero => omega
  | succ fuel ih =>
    have hparts : ∀ {ty part}, t.get id = .ok ty → part ∈ ty.parts → part.index < fuel :=
      fun {ty part} hid hpart => by
        have hlt := ht id ty (entry?_eq_some_iff.2 hid) part hpart
        omega
    cases h with
    | @int _ width hid =>
      rw [widthWithin, hid, ok_bind, and_iff_right (.int width)]
      exact ⟨fun h => (Except.ok.inj h).symm, fun h => congrArg Except.ok h.symm⟩
    | @storage _ element s hid =>
      rw [widthWithin, hid, ok_bind, and_iff_right (.storage s)]
      exact ⟨fun h => (Except.ok.inj h).symm, fun h => congrArg Except.ok h.symm⟩
    | @array _ element length s hid h =>
      have hpart : element.index < fuel := hparts hid (by simp [HwType.parts])
      rw [widthWithin, hid, ok_bind, TypeTree.fits_array_iff, bind_eq_ok_iff]
      simp only [ih h hpart, and_assoc, exists_and_left, exists_eq_left]
      refine and_congr_right fun _ => ?_
      cases hstorage : s.hasStorage with
      | true =>
        rw [TypeTree.packed?_of_hasStorage hstorage,
          TypeTree.packed?_of_hasStorage (s := .array s length) hstorage]
        exact ⟨fun hw => ⟨Bool.noConfusion, (Except.ok.inj hw).symm⟩,
          fun hw => congrArg Except.ok hw.2.symm⟩
      | false =>
        rw [TypeTree.packed?_of_hasStorage_eq_false hstorage,
          TypeTree.packed?_of_hasStorage_eq_false (s := .array s length) hstorage, TypeTree.width]
        constructor
        · intro hw
          obtain ⟨product, hproduct, hw⟩ := bind_eq_ok_iff.1 hw
          obtain ⟨hlt, rfl⟩ := below_eq_ok_iff.1 hproduct
          exact ⟨fun _ => hlt, (Except.ok.inj hw).symm⟩
        · rintro ⟨hlt, rfl⟩
          exact bind_eq_ok_iff.2 ⟨_, below_eq_ok_iff.2 ⟨hlt rfl, rfl⟩, rfl⟩
    | @record _ fields trees hid hnames h =>
      have hall := forall₂_of_zip (R := fun ty s => ∀ w, t.widthWithin fuel ty = .ok w ↔
        s.Fits ∧ w = s.packed?) hnames fun p hp w =>
          ih (h p hp) (hparts hid (List.mem_map_of_mem (List.of_mem_zip hp).1))
      rw [widthWithin, hid, ok_bind, TypeTree.fits_record_iff]
      refine (sumWidths_eq_ok_iff hall (by decide)).trans ?_
      rw [Nat.zero_add]
      rfl

/-- The width of a type is that of its tree, and there is an answer just if the widths on the way to it
are 32-bit numbers. -/
theorem bitWidth_eq_ok_iff (ht : t.Grounded) (h : t.Denotes id s) {w : Option Nat} :
    t.bitWidth id = .ok w ↔ s.Fits ∧ w = s.packed? := by
  obtain ⟨ty, hty⟩ := h.exists_get
  exact widthWithin_eq_ok_iff ht h (Nat.lt_succ_of_lt (lt_size_of_get hty))

end TypeTable

end NetPrep
