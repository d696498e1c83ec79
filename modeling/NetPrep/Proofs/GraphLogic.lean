import Mathlib
import NetPrep.Proofs.Checking
import NetPrep.Proofs.Tree
import NetPrep.Proofs.Wired

/-!
# Graph logic

What is asked of a module whose meaning preparation is to preserve: it consists of graph blocks, storage
is accessed as a whole, and the types are finite, so that there are data for them. `isGraphLogic` checks
this for a given module.
-/

namespace NetPrep

/-- The types that a type consists of. -/
def HwType.parts : HwType → List TypeId
  | .int _ => []
  | .storage element => [element]
  | .array element _ => [element]
  | .record fields => fields.map (·.2)

/-- A type is added to a table after the types it consists of. -/
def TypeTable.Grounded (t : TypeTable) : Prop :=
  ∀ id type, t.entry? id = some type → ∀ part ∈ type.parts, part.index < id.index

/-- A module of graph blocks, where values are used in scope, declarations are read and assigned as a
whole, sums fit machine words, and no struct has two fields of one name. -/
structure Module.GraphLogic (m : Module) : Prop extends WellScoped m where
  grounded : m.types.Grounded
  graph : ∀ {id n k}, m.live? id = some n → k ∈ n.op.regionKinds → k = .graph
  whole : ∀ {id n v}, m.live? id = some n → n.op = .read ∨ n.op = .assign →
    n.operands[0]? = some v → m.IsStorage v
  width : ∀ {id n v type w}, m.live? id = some n → n.op = .add → v ∈ n.results →
    m.type? v = some type → m.types.intWidth? type = some w → w ≤ 64
  fields : ∀ {type fields}, m.types.fields? type = some fields → (fields.map (·.1)).Nodup

namespace TypeTable

variable {t : TypeTable} {os rs : List TypeId} {op : Op} {type element : TypeId}

theorem Grounded.elementOf?_lt (ht : t.Grounded) (h : t.elementOf? type = some element) :
    element.index < type.index := by
  rw [elementOf?_eq_some_iff, ← entry?_eq_some_iff] at h
  exact ht _ _ h _ (by simp [HwType.parts])

theorem Grounded.arrayElement?_lt (ht : t.Grounded) (h : t.arrayElement? type = some element) :
    element.index < type.index := by
  unfold arrayElement? at h
  split at h
  · next he =>
    cases h
    exact ht _ _ he _ (by simp [HwType.parts])
  · cases h

theorem Grounded.fields?_lt (ht : t.Grounded) {fields : List (Name × TypeId)}
    (h : t.fields? type = some fields) (hmem : element ∈ fields.map (·.2)) :
    element.index < type.index := by
  rw [fields?_eq_some_iff, ← entry?_eq_some_iff] at h
  exact ht _ _ h _ hmem

theorem Grounded.fieldType?_lt (ht : t.Grounded) {field : Name}
    (h : t.fieldType? field type = some element) : element.index < type.index := by
  obtain ⟨fields, hf, hl⟩ := Option.bind_eq_some_iff.1 h
  refine ht.fields?_lt hf ?_
  obtain ⟨l₁, l₂, rfl, -⟩ := List.lookup_eq_some_iff.1 hl
  simp

/-- The types that a type consists of are in the table. -/
theorem Grounded.exists_part (ht : t.Grounded) {ty : HwType} (h : t.entry? type = some ty)
    (hpart : element ∈ ty.parts) : ∃ part, t.entry? element = some part := by
  obtain ⟨hsize, -⟩ := Array.getElem?_eq_some_iff.1 h
  exact ⟨_, Array.getElem?_eq_getElem ((ht type ty h element hpart).trans hsize)⟩

/-- Storage of a part is not the storage it is selected from. -/
theorem ne_of_selectsStorage {part? : TypeId → Option TypeId} {whole part : TypeId}
    (hlt : ∀ {a b}, part? a = some b → b.index < a.index)
    (h : t.selectsStorage part? whole part = true) : part ≠ whole := by
  rintro rfl
  simp only [selectsStorage, Bool.and_eq_true, beq_iff_eq] at h
  obtain ⟨e, he⟩ := Option.isSome_iff_exists.1 h.1
  have hself : t.elementOf? part = some e := h.2 ▸ he
  rw [hself, Option.bind_some] at he
  exact Nat.lt_irrefl _ (hlt he)

/-- What a path leads to has another type than the values that the path is made of, and so do the
fields of a struct. -/
theorem not_mem_of_fits (ht : t.Grounded) (hop : op.isAlwaysInline = true ∨ op = .structExplode)
    (h : t.fits op os rs = true) : ∀ r ∈ rs, r ∉ os := by
  match op, os, rs, h with
  | .read, [s], [r], h =>
    have hlt := ht.elementOf?_lt (beq_iff_eq.1 h)
    simp only [List.mem_singleton]
    rintro _ rfl rfl
    exact Nat.lt_irrefl _ hlt
  | .elementStorage, [s, i], [r], h =>
    obtain ⟨hi, hsel⟩ := Bool.and_eq_true_iff.1 h
    simp only [List.mem_cons, List.not_mem_nil, or_false]
    rintro _ rfl (rfl | rfl)
    · exact ne_of_selectsStorage ht.arrayElement?_lt hsel rfl
    · have hst := isSome_of_selectsStorage hsel
      rw [elementOf?_of_isInt hi] at hst
      cases hst
  | .fieldStorage field, [s], [r], h =>
    simp only [List.mem_singleton]
    rintro _ rfl rfl
    exact ne_of_selectsStorage ht.fieldType?_lt h rfl
  | .structExplode, [a], rs, h =>
    obtain ⟨-, hf⟩ := Bool.and_eq_true_iff.1 h
    obtain ⟨fields, hfields, rfl⟩ := Option.map_eq_some_iff.1 (beq_iff_eq.1 hf)
    simp only [List.mem_singleton]
    rintro _ hr rfl
    exact Nat.lt_irrefl _ (ht.fields?_lt hfields hr)

end TypeTable

namespace Module

variable {m m' : Module}

theorem GraphLogic.wired (h : m.GraphLogic) : Wired m where
  toSound := h.toSound
  graph := h.graph
  suited {id n} hn := by
    obtain ⟨os, rs, hos, hrs, hfits⟩ := h.typed hn
    refine ⟨os, rs, hos, hrs, TypeTable.suits_of_fits hfits (fun hop r hr w hw => ?_) h.fields⟩
    obtain ⟨i, hi, rfl⟩ := List.getElem_of_mem hr
    have hall := forall₂_of_mapM_type? hrs
    have hlt : i < n.results.length := hall.length_eq ▸ hi
    exact h.width hn hop (List.getElem_mem hlt) (hall.get hlt hi) hw
  inScope {id n v} hn hv d i nd hdef hd _ := by
    obtain ⟨k, hu⟩ := exists_uses_of_mem hn hv
    obtain ⟨nd', a, hd', haround, hmem, -⟩ := h.inScope hu hdef
    obtain rfl := Option.some.inj (hd.symm.trans hd')
    obtain ⟨na, hna, hpa⟩ := h.mem_nodesOf_iff.1 hmem
    exact hpa ▸ haround.inside hna hn
  whole := h.whole
  distinct {id n v} hn hop hres hops := by
    obtain ⟨os, rs, hos, hrs, hfits⟩ := h.typed hn
    obtain ⟨t, ht, htype⟩ := exists_type_of_mem hos hops
    obtain ⟨t', ht', htype'⟩ := exists_type_of_mem hrs hres
    obtain rfl := Option.some.inj (htype.symm.trans htype')
    exact TypeTable.not_mem_of_fits h.grounded hop hfits t ht' ht

/-! ## Checks -/

/-- The types of a table are finite, and no struct has two fields of one name. -/
def hasFiniteTypes (m : Module) : Bool :=
  (List.range m.types.entries.size).all fun i =>
    match m.types.entry? ⟨i⟩ with
    | some type => type.parts.all (·.index < i) &&
      decide (((m.types.fields? ⟨i⟩).getD []).map (·.1)).Nodup
    | none => true

/-- A value is the storage of a declaration. -/
def isDeclared (m : Module) (v : ValueId) : Bool :=
  match m.def? v with
  | some (.result d _) => (m.core d).any (·.op.isDeclaration)
  | _ => false

/-- A node owns graph blocks only, accesses whole declarations, and adds words that fit. -/
def isGraphNode (m : Module) (id : NodeId) : Bool :=
  match m.live? id with
  | some n =>
    n.op.regionKinds.all (· == .graph) &&
      (!(n.op == .read || n.op == .assign) || (n.operands[0]?).all m.isDeclared) &&
      (!(n.op == .add) || n.results.all fun v =>
        ((m.type? v).bind m.types.intWidth?).all (· ≤ 64))
  | none => true

/-- Whether a valid module is graph logic. -/
def isGraphLogic (m : Module) : Bool := m.hasFiniteTypes && m.nodeIds.all m.isGraphNode

theorem types_of_hasFiniteTypes (h : m.hasFiniteTypes = true) {id : TypeId} {type : HwType}
    (hid : m.types.entry? id = some type) : (∀ part ∈ type.parts, part.index < id.index) ∧
      (((m.types.fields? id).getD []).map (·.1)).Nodup := by
  have hlt := (Array.getElem?_eq_some_iff.1 hid).1
  have hentry := List.all_eq_true.1 h id.index (List.mem_range.2 hlt)
  simpa [hid] using hentry

theorem isStorage_of_isDeclared {v : ValueId} (h : m.isDeclared v = true) : m.IsStorage v := by
  unfold isDeclared at h
  split at h
  · next d i hdef =>
    obtain ⟨nd, hnd, hop⟩ := (Option.any_eq_true _ _).1 h
    exact ⟨d, i, nd, hdef, hnd, hop⟩
  · cases h

theorem graphLogic_of_isGraphLogic (hv : m.isValid = true) (h : m.isGraphLogic = true) :
    m.GraphLogic := by
  obtain ⟨htypes, hnodes⟩ := Bool.and_eq_true_iff.1 h
  have hnode : ∀ {id n}, m.live? id = some n → m.isGraphNode id = true := fun hn =>
    List.all_eq_true.1 hnodes _ (mem_nodeIds_iff.2 (lt_of_live? hn))
  refine ⟨(valid_of_isValid hv).toWellScoped, fun id type hid => (types_of_hasFiniteTypes htypes hid).1, ?_, ?_, ?_,
    ?_⟩
  · intro id n k hn hk
    have hid := hnode hn
    simp only [isGraphNode, hn, Bool.and_eq_true] at hid
    exact beq_iff_eq.1 (List.all_eq_true.1 hid.1.1 k hk)
  · intro id n v hn hop hget
    have hid := hnode hn
    simp only [isGraphNode, hn, Bool.and_eq_true] at hid
    have hdecl := hid.1.2
    rw [show (n.op == .read || n.op == .assign) = true by simpa using hop, hget] at hdecl
    exact isStorage_of_isDeclared (by simpa using hdecl)
  · intro id n v type w hn hop hv htype hw
    have hid := hnode hn
    simp only [isGraphNode, hn, Bool.and_eq_true] at hid
    have hwidth := hid.2
    simp only [hop, beq_self_eq_true, Bool.not_true, Bool.false_or, List.all_eq_true] at hwidth
    simpa [htype, hw] using hwidth v hv
  · intro type fields hfields
    have hget := TypeTable.entry?_eq_some_iff.2 (TypeTable.fields?_eq_some_iff.1 hfields)
    simpa [hfields] using (types_of_hasFiniteTypes htypes hget).2

end Module

/-! ## Data for finite types -/

namespace Meaning

variable {t : TypeTable} {id : TypeId} {d : Datum}

/-- The data of a type that is nested less deep than the fuel. What is neither a word nor a struct may
be anything. -/
def hasWithin (t : TypeTable) : Nat → TypeId → Datum → Prop
  | 0, _, _ => True
  | fuel + 1, id, d =>
    match t.entry? id with
    | some (.int w) => ∃ x : BitVec w, d = .ofWord x
    | some (.record fields) =>
      ∃ ds, d = .tuple ds ∧ List.Forall₂ (hasWithin t fuel) (fields.map (·.2)) ds
    | _ => True

/-- More fuel than the place of a type makes no difference. -/
theorem hasWithin_congr (ht : t.Grounded) {j k : Nat} (hj : id.index < j) (hk : id.index < k)
    (h : hasWithin t j id d) : hasWithin t k id d := by
  induction j generalizing k id d with
  | zero => cases hj
  | succ j ih =>
    cases k with
    | zero => cases hk
    | succ k =>
      unfold hasWithin at h ⊢
      split at h
      · exact h
      · next fields hid =>
        obtain ⟨ds, hd, hall⟩ := h
        have hparts := (List.forall₂_and_left _ _).2 ⟨fun _ hp => hp, hall⟩
        refine ⟨ds, hd, hparts.imp fun part _ hpart => ?_⟩
        have hlt : part.index < id.index := ht _ _ hid part hpart.1
        exact ih (by omega) (by omega) hpart.2
      · trivial

/-- The data of a type. -/
def dataOf (t : TypeTable) (id : TypeId) : Datum → Prop := hasWithin t (id.index + 1) id

theorem dataOf_int {w : Nat} (h : t.intWidth? id = some w) :
    dataOf t id d ↔ ∃ x : BitVec w, d = .ofWord x := by
  have hid := TypeTable.entry?_eq_some_iff.2 (TypeTable.intWidth?_eq_some_iff.1 h)
  simp [dataOf, hasWithin, hid]

theorem dataOf_record (ht : t.Grounded) {fields : List (Name × TypeId)}
    (h : t.fields? id = some fields) :
    dataOf t id d ↔ ∃ ds, d = .tuple ds ∧ List.Forall₂ (dataOf t) (fields.map (·.2)) ds := by
  have hid := TypeTable.entry?_eq_some_iff.2 (TypeTable.fields?_eq_some_iff.1 h)
  have hlt : ∀ part ∈ fields.map (·.2), part.index < id.index := ht _ _ hid
  simp only [dataOf, hasWithin, hid]
  refine exists_congr fun ds => and_congr_right fun _ => ⟨fun hall => ?_, fun hall => ?_⟩
  · refine ((List.forall₂_and_left _ _).2 ⟨hlt, hall⟩).imp fun part _ hp => ?_
    exact hasWithin_congr ht hp.1 (Nat.lt_succ_self _) hp.2
  · refine ((List.forall₂_and_left _ _).2 ⟨hlt, hall⟩).imp fun part _ hp => ?_
    exact hasWithin_congr ht (Nat.lt_succ_self _) hp.1 hp.2

theorem exists_dataOf (ht : t.Grounded) (id : TypeId) : ∃ d, dataOf t id d := by
  induction hk : id.index using Nat.strong_induction_on generalizing id with
  | _ k ih =>
    cases hint : t.intWidth? id with
    | some w => exact ⟨.ofWord (0 : BitVec w), (dataOf_int hint).2 ⟨0, rfl⟩⟩
    | none =>
      cases hrecord : t.fields? id with
      | some fields =>
        have hid := TypeTable.entry?_eq_some_iff.2 (TypeTable.fields?_eq_some_iff.1 hrecord)
        have hall : ∀ part ∈ fields.map (·.2), ∃ d, dataOf t part d := fun part hpart =>
          ih part.index (hk ▸ ht _ _ hid part hpart) part rfl
        obtain ⟨ds, hds⟩ : ∃ ds, List.Forall₂ (dataOf t) (fields.map (·.2)) ds := by
          generalize fields.map (·.2) = parts at hall
          induction parts with
          | nil => exact ⟨[], .nil⟩
          | cons part parts ihparts =>
            obtain ⟨d, hd⟩ := hall part List.mem_cons_self
            obtain ⟨ds, hds⟩ := ihparts fun p hp => hall p (List.mem_cons_of_mem _ hp)
            exact ⟨d :: ds, .cons hd hds⟩
        exact ⟨.tuple ds, (dataOf_record ht hrecord).2 ⟨ds, rfl, hds⟩⟩
      | none =>
        refine ⟨default, ?_⟩
        unfold dataOf hasWithin
        split
        · next hid => simp [TypeTable.intWidth?, hid] at hint
        · next hid => simp [TypeTable.fields?, hid] at hrecord
        · trivial

/-- Where types are finite, there is a meaning that agrees with them. -/
theorem exists_fits (ht : t.Grounded) : ∃ I : Meaning, I.Fits t := by
  choose datum hdatum using exists_dataOf ht
  refine ⟨⟨dataOf t, fun _ _ _ rs _ i => datum (rs[i]?.getD ⟨0⟩)⟩, fun hw _ => dataOf_int hw,
    fun hf _ => dataOf_record ht hf, fun {op twoState os rs ds i type} hi => ?_⟩
  change dataOf t type (datum (rs[i]?.getD ⟨0⟩))
  rw [hi]
  exact hdatum type

end Meaning

end NetPrep
