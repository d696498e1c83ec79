import Mathlib
import NetPrep.Proofs.Direct
import NetPrep.Proofs.Valid

/-!
# Plain modules

A module is plain if its storage is reached through declarations only: there are no paths to elements or
fields, and no storage holds storage. In a valid and plain module storage is accessed directly.
-/

namespace NetPrep

/-- A constant or a declaration, which has no operands. -/
def Op.standsAlone (op : Op) : Bool := op.isConstant || op.isDeclaration

namespace TypeTable

variable {t : TypeTable} {os rs : List TypeId} {type : TypeId} {op : Op}

theorem isStorage_of_elementOf? (h : (t.elementOf? type).isSome) : t.isStorage type = .ok true := by
  unfold elementOf? entry? at h
  split at h
  · next element he =>
    simp [isStorage, storedType?, get_eq_ok_iff.2 he, bind, Except.bind, pure, Except.pure]
  all_goals simp at h

theorem elementOf?_of_isStorage (h : t.isStorage type = .ok true) :
    (t.elementOf? type).isSome := by
  simp only [isStorage, storedType?, bind_eq_ok_iff, get_eq_ok_iff] at h
  obtain ⟨element, ⟨ty, hty, h₁⟩, h₂⟩ := h
  cases ty with
  | storage e => simp [elementOf?, entry?, hty]
  | _ =>
    cases h₁
    cases h₂

theorem elementOf?_of_isInt (h : t.isInt type = true) : t.elementOf? type = none := by
  unfold isInt intWidth? at h
  unfold elementOf?
  split at h
  · next hw => simp [hw]
  · simp at h

theorem elementOf?_of_intWidth? {w : Nat} (h : t.intWidth? type = some w) :
    t.elementOf? type = none :=
  elementOf?_of_isInt (by simp [isInt, h])

theorem elementOf?_of_isValue (h : t.isValue type = true) : t.elementOf? type = none := by
  unfold isValue at h
  unfold elementOf?
  split at h <;> simp_all

theorem fits_read (h : t.fits .read os rs = true) :
    ∃ s r, os = [s] ∧ rs = [r] ∧ t.elementOf? s = some r :=
  match os, rs, h with
  | [s], [r], h => ⟨s, r, rfl, rfl, beq_iff_eq.1 h⟩

theorem fits_assign (h : t.fits .assign os rs = true) :
    ∃ d s, os = [d, s] ∧ rs = [] ∧ t.elementOf? d = some s :=
  match os, rs, h with
  | [d, s], [], h => ⟨d, s, rfl, rfl, beq_iff_eq.1 h⟩

theorem fits_connection (hop : op.category = .connection) (h : t.fits op os rs = true) :
    os.length = 2 ∧ rs = [] :=
  match op, os, rs, h with
  | .assign, [_, _], [], _ | .blockingAssign, [_, _], [], _ | .nonblockingAssign, [_, _], [], _ =>
    ⟨rfl, rfl⟩

theorem fits_standsAlone (hop : op.standsAlone = true) (h : t.fits op os rs = true) : os = [] :=
  match op, os, rs, h with
  | .wire, [], [_], _ | .reg, [], [_], _ | .logic, [], [_], _ | .constant _, [], [_], _ => rfl

theorem fits_effect (hop : op.hasSideEffects = true) (h : t.fits op os rs = true) :
    ∃ r, rs = [r] :=
  match op, rs, h with
  | .systemCall .., [r], _ | .verbatim .., [r], _ => ⟨r, rfl⟩

theorem fits_inline (hop : op.isAlwaysInline = true) (h : t.fits op os rs = true) :
    os ≠ [] ∧ ∃ r, rs = [r] :=
  match op, os, rs, h with
  | .read, [_], [r], _ | .elementStorage, [_, _], [r], _ | .fieldStorage _, [_], [r], _ =>
    ⟨List.cons_ne_nil _ _, r, rfl⟩

theorem fits_declaration (hop : op.isDeclaration = true) (h : t.fits op os rs = true) :
    os = [] ∧ ∃ r, rs = [r] ∧ (t.elementOf? r).isSome :=
  match op, os, rs, h with
  | .wire, [], [r], h | .reg, [], [r], h | .logic, [], [r], h => ⟨rfl, r, rfl, h⟩

theorem fits_commutative (hop : op.isCommutative = true) (h : t.fits op os rs = true) :
    ∃ r, rs = [r] :=
  match op, os, rs, h with
  | .add, _ :: _, [r], _ | .mul, _ :: _, [r], _ | .and, _ :: _, [r], _ | .or, _ :: _, [r], _
  | .xor, _ :: _, [r], _ => ⟨r, rfl⟩

theorem isSome_of_selectsStorage {part? : TypeId → Option TypeId} {whole part : TypeId}
    (h : t.selectsStorage part? whole part = true) : (t.elementOf? part).isSome := by
  simp only [selectsStorage, Bool.and_eq_true, beq_iff_eq] at h
  exact h.2 ▸ h.1

/-- A path to storage stands for storage. -/
theorem fits_path (hop : op.isAlwaysInline = true) (hne : op ≠ .read)
    (h : t.fits op os rs = true) : ∃ r, rs = [r] ∧ (t.elementOf? r).isSome :=
  match op, os, rs, h with
  | .read, _, _, _ => absurd rfl hne
  | .elementStorage, [_, _], [r], h =>
    ⟨r, rfl, isSome_of_selectsStorage (Bool.and_eq_true_iff.1 h).2⟩
  | .fieldStorage _, [_], [r], h => ⟨r, rfl, isSome_of_selectsStorage h⟩

/-- Events are single bits. -/
theorem fits_clocked (hop : op.isClocked = true) (h : t.fits op os rs = true) :
    ∀ o ∈ os, t.elementOf? o = none := by
  have hbit : ∀ o, (t.intWidth? o == some 1) = true → t.elementOf? o = none := fun o ho =>
    elementOf?_of_intWidth? (beq_iff_eq.1 ho)
  match op, os, rs, h with
  | .always edges, os, [], h =>
    exact fun o ho => hbit o (List.all_eq_true.1 (Bool.and_eq_true_iff.1 h).2 o ho)
  | .alwaysFF _ none, [c], [], h => simpa using hbit c h
  | .alwaysFF _ (some _), [c, r], [], h =>
    obtain ⟨hc, hr⟩ := Bool.and_eq_true_iff.1 h
    simpa using ⟨hbit c hc, hbit r hr⟩

end TypeTable

/-- A node has the numbers of operands and results that are looked for. -/
structure Node.Fits (n : Node) : Prop where
  alone : n.op.standsAlone = true → n.operands = []
  connection : n.op.category = .connection → n.operands.length = 2 ∧ n.results = []
  operand : n.op = .structExplode ∨ n.op.isAlwaysInline = true → n.operands ≠ []
  result : (n.op.isCommutative || n.op.isAlwaysInline || n.op.hasSideEffects) = true →
    ∃ v, n.results = [v]

namespace Node.Fits

variable {n n' : Node}

theorem of_alone (hop : n.op.standsAlone = true) (hops : n.operands = []) : n.Fits where
  alone _ := hops
  connection h := by cases ho : n.op <;> simp_all [Op.standsAlone, Op.isConstant, Op.category,
    Op.isDeclaration]
  operand h := by cases ho : n.op <;> simp_all [Op.standsAlone, Op.isConstant, Op.category,
    Op.isDeclaration, Op.isAlwaysInline]
  result h := by cases ho : n.op <;> simp_all [Op.standsAlone, Op.isConstant, Op.category,
    Op.isDeclaration, Op.isCommutative, Op.isAlwaysInline, Op.hasSideEffects]

theorem of_connection (hop : n.op.category = .connection) (hops : n.operands.length = 2)
    (hres : n.results = []) : n.Fits where
  alone h := by cases ho : n.op <;> simp_all [Op.standsAlone, Op.isConstant, Op.category,
    Op.isDeclaration]
  connection _ := ⟨hops, hres⟩
  operand h := by cases ho : n.op <;> simp_all [Op.category, Op.isAlwaysInline]
  result h := by cases ho : n.op <;> simp_all [Op.category, Op.isCommutative, Op.isAlwaysInline,
    Op.hasSideEffects]

theorem of_result (halone : n.op.standsAlone = false) (hconn : n.op.category ≠ .connection)
    (hops : n.operands ≠ []) (hres : ∃ v, n.results = [v]) : n.Fits where
  alone h := absurd (halone.symm.trans h) Bool.false_ne_true
  connection h := absurd h hconn
  operand _ := hops
  result _ := hres

theorem inline {v : ValueId} (hop : n.op.isAlwaysInline = true) (hops : n.operands ≠ [])
    (hres : n.results = [v]) : n.Fits := by
  refine of_result ?_ ?_ hops ⟨v, hres⟩ <;> cases ho : n.op <;>
    simp_all [Op.isAlwaysInline, Op.standsAlone, Op.isConstant, Op.isDeclaration, Op.category]

theorem commutative {v : ValueId} (hop : n.op.isCommutative = true) (hops : n.operands ≠ [])
    (hres : n.results = [v]) : n.Fits := by
  refine of_result ?_ ?_ hops ⟨v, hres⟩ <;> cases ho : n.op <;>
    simp_all [Op.isCommutative, Op.standsAlone, Op.isConstant, Op.isDeclaration, Op.category]

theorem congr (h : n.Fits) (hop : n'.op = n.op)
    (hres : n'.results = n.results) (hlen : n'.operands.length = n.operands.length) : n'.Fits where
  alone ht := List.length_eq_zero_iff.1 (hlen.trans (List.length_eq_zero_iff.2 (h.alone (hop ▸ ht))))
  connection ht := ⟨hlen.trans (h.connection (hop ▸ ht)).1, hres.trans (h.connection (hop ▸ ht)).2⟩
  operand ht hnil := h.operand (hop ▸ ht)
    (List.length_eq_zero_iff.1 (hlen.symm.trans (List.length_eq_zero_iff.2 hnil)))
  result ht := hres ▸ h.result (hop ▸ ht)

end Node.Fits

namespace Module

variable {m : Module} {id : NodeId} {n : Node} {v : ValueId}

/-- Storage is reached through declarations: no other node stands for storage. -/
def Plain (m : Module) : Prop := ∀ {id n v type}, m.live? id = some n → v ∈ n.results →
  m.type? v = some type → (m.types.elementOf? type).isSome → n.op.isDeclaration = true

/-- Every node has the numbers of operands and results that are looked for. -/
def Fitted (m : Module) : Prop := ∀ {id n}, m.live? id = some n → n.Fits

end Module

namespace WellTyped

variable {m : Module} {id : NodeId} {n : Node} {v : ValueId}

/-- An operand that is storage is a port or a declaration. -/
theorem isFixed (hm : WellTyped m) (hp : m.Plain) {u : Use} {type : TypeId} (hu : m.Uses u v)
    (htype : m.type? v = some type) (hst : (m.types.elementOf? type).isSome) : m.IsFixed v := by
  obtain ⟨d, hdef, hlive⟩ := hm.operand hu
  cases d with
  | port i => exact Or.inl ⟨i, hdef⟩
  | result d i =>
    obtain ⟨nd, hnd⟩ := hlive rfl
    obtain ⟨nd', hnd', hres⟩ := hm.definition hdef
    obtain rfl := Option.some.inj ((Module.core_of_live? hnd).symm.trans hnd')
    exact Or.inr ⟨d, i, nd, hdef, hnd', hp hnd (List.mem_of_getElem? hres) htype hst⟩

/-- What is printed at its uses reads a declaration; a path would be storage. -/
theorem isFixed_inline (hm : WellTyped m) (hp : m.Plain) (hn : m.live? id = some n)
    (hop : n.op.isAlwaysInline = true) (hmem : v ∈ n.operands) : m.IsFixed v := by
  obtain ⟨os, rs, hos, hrs, hfits⟩ := hm.typed hn
  by_cases hread : n.op = .read
  · rw [hread] at hfits
    obtain ⟨s, r, rfl, -, helement⟩ := TypeTable.fits_read hfits
    obtain ⟨type, hs, htype⟩ := Module.exists_type_of_mem hos hmem
    obtain rfl := List.mem_singleton.1 hs
    obtain ⟨i, hu⟩ := Module.exists_uses_of_mem hn hmem
    exact hm.isFixed hp hu htype (by simp [helement])
  · obtain ⟨r, rfl, hst⟩ := TypeTable.fits_path hop hread hfits
    obtain ⟨w, ws, htype, -, hres⟩ :=
      List.forall₂_cons_right_iff.1 (Module.forall₂_of_mapM_type? hrs)
    have hdecl := hp hn (hres ▸ List.mem_cons_self) htype hst
    rw [Op.isDeclaration_of_isAlwaysInline hop] at hdecl
    cases hdecl

theorem isFixed_assigned (hm : WellTyped m) (hp : m.Plain) (hn : m.live? id = some n)
    (hop : n.op = .assign) (hget : n.operands[0]? = some v) : m.IsFixed v := by
  obtain ⟨os, rs, hos, -, hfits⟩ := hm.typed hn
  rw [hop] at hfits
  obtain ⟨d, s, rfl, -, helement⟩ := TypeTable.fits_assign hfits
  obtain ⟨w, ws, htype, -, hops⟩ :=
    List.forall₂_cons_right_iff.1 (Module.forall₂_of_mapM_type? hos)
  obtain rfl : w = v := by simpa [hops] using hget
  have hu : m.Uses ⟨id, 0⟩ w := ⟨n, hn, hget⟩
  exact hm.isFixed hp hu htype (by simp [helement])

theorem not_isStorage_event (hm : WellTyped m) (hn : m.live? id = some n)
    (hop : n.op.isClocked = true) (hmem : v ∈ n.operands) : ¬ m.IsStorage v := by
  rintro ⟨d, i, nd, hdef, hnd, hopd⟩
  obtain ⟨k, hu⟩ := Module.exists_uses_of_mem hn hmem
  obtain ⟨d', hdef', hlive⟩ := hm.operand hu
  obtain rfl := Option.some.inj (hdef.symm.trans hdef')
  obtain ⟨nd', hnd'⟩ := hlive rfl
  obtain rfl := Option.some.inj ((Module.core_of_live? hnd').symm.trans hnd)
  obtain ⟨k, hk, hres⟩ := hm.definition hdef
  obtain rfl := Option.some.inj (hnd.symm.trans hk)
  obtain ⟨os, rs, hos, -, hfits⟩ := hm.typed hn
  obtain ⟨os', rs', -, hrs', hfits'⟩ := hm.typed hnd'
  obtain ⟨-, r, rfl, hst⟩ := TypeTable.fits_declaration hopd hfits'
  obtain ⟨type, hmem', htype⟩ := Module.exists_type_of_mem hos hmem
  obtain ⟨r', hr', htype'⟩ := Module.exists_type_of_mem hrs' (List.mem_of_getElem? hres)
  obtain rfl := List.mem_singleton.1 hr'
  obtain rfl := Option.some.inj (htype.symm.trans htype')
  rw [TypeTable.fits_clocked hop hfits type hmem'] at hst
  cases hst

/-- A declaration has no operands, and storage for a result. -/
theorem declaration (hm : WellTyped m) (hn : m.live? id = some n) (hop : n.op.isDeclaration = true) :
    n.operands = [] ∧ ∃ v type, n.results = [v] ∧ m.type? v = some type ∧
      m.types.isStorage type = .ok true := by
  obtain ⟨os, rs, hos, hrs, hfits⟩ := hm.typed hn
  obtain ⟨rfl, r, rfl, hst⟩ := TypeTable.fits_declaration hop hfits
  obtain ⟨w, ws, htype, hnil, hres⟩ :=
    List.forall₂_cons_right_iff.1 (Module.forall₂_of_mapM_type? hrs)
  obtain rfl := List.forall₂_nil_right_iff.1 hnil
  exact ⟨List.forall₂_nil_right_iff.1 (Module.forall₂_of_mapM_type? hos), w, r, hres, htype,
    TypeTable.isStorage_of_elementOf? hst⟩

/-- A well-typed module whose storage is reached through declarations accesses it directly. -/
theorem direct (hm : WellTyped m) (hp : m.Plain) : Direct m where
  toSound := hm.toSound
  inline hn hop hmem := hm.isFixed_inline hp hn hop hmem
  assigned hn hop hget := hm.isFixed_assigned hp hn hop hget
  event hn hop hmem := hm.not_isStorage_event hn hop hmem
  declaration hn hop := hm.declaration hn hop

theorem fitted (hm : WellTyped m) : m.Fitted := by
  intro id n hn
  obtain ⟨os, rs, hos, hrs, hfits⟩ := hm.typed hn
  have hlen := (Module.forall₂_of_mapM_type? hos).length_eq
  have hlen' := (Module.forall₂_of_mapM_type? hrs).length_eq
  have hone : (∃ r, rs = [r]) → ∃ v, n.results = [v] := fun ⟨r, hr⟩ =>
    List.length_eq_one_iff.1 (hlen'.trans (by rw [hr]; rfl))
  refine ⟨fun hop => ?_, fun hop => ?_, fun hop hnil => ?_, fun hop => hone ?_⟩
  · exact List.length_eq_zero_iff.1 (hlen.trans (by rw [TypeTable.fits_standsAlone hop hfits]; rfl))
  · obtain ⟨htwo, rfl⟩ := TypeTable.fits_connection hop hfits
    exact ⟨hlen.trans htwo, List.length_eq_zero_iff.1 hlen'⟩
  · rw [hnil] at hlen
    obtain rfl := List.length_eq_zero_iff.1 hlen.symm
    rcases hop with hop | hop
    · rw [hop] at hfits
      cases hfits
    · exact (TypeTable.fits_inline hop hfits).1 rfl
  · simp only [Bool.or_eq_true, or_assoc] at hop
    rcases hop with hop | hop | hop
    · exact TypeTable.fits_commutative hop hfits
    · exact (TypeTable.fits_inline hop hfits).2
    · exact TypeTable.fits_effect hop hfits

end WellTyped

end NetPrep
