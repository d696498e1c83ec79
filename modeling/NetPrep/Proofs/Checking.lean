import Mathlib
import NetPrep.Proofs.Plain

/-!
# Checking that a module is valid

What `Valid` says of all identifiers need be looked at only for those in the stores of a module.
`Module.isValid` does that, and `valid_of_isValid` says that it is enough; so the validity of a given
module can be computed. `Module.sketch` builds small modules to look at.
-/

namespace NetPrep

namespace Module

variable (m : Module)

def nodeIds : List NodeId := (List.range m.nodes.size).map NodeId.mk

def valueIds : List ValueId := (List.range m.values.size).map ValueId.mk

def blockIds : List BlockId := (List.range m.blocks.size).map BlockId.mk

/-! ## The checks -/

/-- The nodes of a list are in a block and linked in this order, the first one behind a given node. -/
def chained (b : BlockId) : Option NodeId → List NodeId → Bool
  | _, [] => true
  | prev, x :: l =>
    (match m.node? x with
      | some nd => !nd.erased && nd.parent == b && nd.prev == prev && nd.next == l.head?
      | none => false) && chained b (some x) l

/-- The links of a block realize the list of its nodes. -/
def linksBlock (b : BlockId) : Bool :=
  match m.block? b with
  | some blk =>
    blk.first == (m.nodesOf b).head? && blk.last == (m.nodesOf b).getLast? &&
      blk.len == (m.nodesOf b).length && decide (m.nodesOf b).Nodup &&
      m.chained b none (m.nodesOf b)
  | none => false

/-- A node that is not erased is in the list of its block. -/
def homed (id : NodeId) : Bool :=
  match m.node? id with
  | some nd => nd.erased || ((m.nodesOf nd.parent).contains id && (m.block? nd.parent).isSome)
  | none => false

/-- A use names an operand that refers to a value. -/
def isUse (u : Use) (v : ValueId) : Bool :=
  match m.live? u.node with
  | some n => n.operands[u.operand]? == some v
  | none => false

/-- A value lists its uses, and its definition has it as a result. -/
def listsUses (v : ValueId) : Bool :=
  match m.value? v with
  | some x =>
    decide x.uses.Nodup && x.uses.all (m.isUse · v) &&
      (match x.definition with
        | .result id i =>
          match m.core id with
          | some n => n.results[i]? == some v
          | none => false
        | .port _ => true)
  | none => false

/-- An operand refers to a value that lists it as a use and is not the result of an erased node. -/
def isListed (id : NodeId) (i : Nat) (v : ValueId) : Bool :=
  match m.value? v with
  | some x =>
    x.uses.contains ⟨id, i⟩ &&
      (match x.definition with
        | .result d _ => (m.live? d).isSome
        | .port _ => true)
  | none => false

/-- The operands and results of a node agree with the values. -/
def wired (id : NodeId) : Bool :=
  (match m.core id with
    | some n => n.results.zipIdx.all fun (v, i) => m.def? v == some (.result id i)
    | none => false) &&
  (match m.live? id with
    | some n => n.operands.zipIdx.all fun (v, i) => m.isListed id i v
    | none => true)

/-- A block is reached from the body in so many steps. -/
def reaches : Nat → BlockId → Bool
  | 0, b => b == m.body
  | fuel + 1, b => b == m.body ||
    match (m.blockCore b).bind (·.parent) with
    | some id =>
      match m.live? id with
      | some n => n.regions.contains b && reaches fuel n.parent
      | none => false
    | none => false

/-- The regions of a node are blocks of the tree, and so is the block that it is in. -/
def nests (id : NodeId) : Bool :=
  match m.live? id with
  | some n =>
    n.regions.map m.blockCore == n.op.regionKinds.map (fun k => some (.empty k (some id))) &&
      decide n.regions.Nodup && m.reaches m.blocks.size n.parent &&
      (n.regions.isEmpty || n.results.isEmpty)
  | none => true

def isTyped (n : Node) : Bool :=
  match n.operands.mapM m.type?, n.results.mapM m.type? with
  | some os, some rs => m.types.fits n.op os rs
  | _, _ => false

/-- A user of a value lies within the reach of the node that defines it. -/
def isScoped (user d : NodeId) : Bool :=
  match m.live? d with
  | some nd =>
    match m.ancestorIn? user nd.parent with
    | .ok (some a) =>
      m.kind? nd.parent != some .procedural || [d, a].isSublist (m.nodesOf nd.parent)
    | _ => false
  | none => false

/-- A node has operands of the right types that are defined where it may use them. -/
def serves (id : NodeId) : Bool :=
  match m.live? id with
  | some n =>
    m.isTyped n && n.operands.all fun v =>
      match m.def? v with
      | some (.result d _) => m.isScoped id d
      | _ => true
  | none => true

def isInput (p : Port) : Bool :=
  match p.value with
  | some v =>
    match m.def? v with
    | some (.port _) => true
    | _ => false
  | none => true

/-- A node is a declaration or stands for no storage. -/
def isPlainNode (id : NodeId) : Bool :=
  match m.live? id with
  | some n => n.op.isDeclaration || n.results.all fun v =>
    match m.type? v with
    | some type => (m.types.elementOf? type).isNone
    | none => true
  | none => true

/-- Whether a module is sound. -/
def isSound : Bool :=
  m.blockIds.all m.linksBlock && m.nodeIds.all m.homed && m.valueIds.all m.listsUses &&
    m.nodeIds.all m.wired && (m.blockCore m.body == some (.empty .graph none)) &&
    m.nodeIds.all m.nests

/-- Whether a module is valid. -/
def isValid : Bool := m.isSound && m.nodeIds.all m.serves && m.ports.all m.isInput

/-- Whether a module is plain. -/
def isPlain : Bool := m.nodeIds.all m.isPlainNode

/-! ## What the checks say -/

variable {m} {b : BlockId} {id : NodeId} {n nd : Node} {v : ValueId} {l : List NodeId}

theorem mem_nodeIds_iff : id ∈ m.nodeIds ↔ id.index < m.nodes.size := by
  obtain ⟨i⟩ := id
  simp [nodeIds]

theorem mem_valueIds_iff : v ∈ m.valueIds ↔ v.index < m.values.size := by
  obtain ⟨i⟩ := v
  simp [valueIds]

theorem mem_blockIds_iff : b ∈ m.blockIds ↔ b.index < m.blocks.size := by
  obtain ⟨i⟩ := b
  simp [blockIds]

/-- There are no nodes in a block that is not there. -/
theorem nodesOf_eq_nil (h : m.block? b = none) : m.nodesOf b = [] := by
  have hb : m.block b = .error (.noBlock b) := by
    unfold Module.block
    rw [show m.blocks[b.index]? = none from h]
  unfold nodesOf blockNodes cursor
  rw [hb]
  rfl

theorem chained_of_mem {prev : Option NodeId} (h : m.chained b prev l = true) {l₁ r : List NodeId}
    {x : NodeId} (hl : l = l₁ ++ x :: r) : ∃ nd, m.node? x = some nd ∧ nd.erased = false ∧
      nd.parent = b ∧ nd.prev = l₁.getLast?.or prev ∧ nd.next = r.head? := by
  induction l generalizing prev l₁ with
  | nil => simp at hl
  | cons y l ih =>
    obtain ⟨hy, hrest⟩ := Bool.and_eq_true_iff.1 h
    cases l₁ with
    | nil =>
      obtain ⟨rfl, rfl⟩ := List.cons.inj hl
      split at hy
      · next nd hnd =>
        simp only [Bool.and_eq_true, Bool.not_eq_true', beq_iff_eq] at hy
        obtain ⟨⟨⟨he, hp⟩, hprev⟩, hnext⟩ := hy
        exact ⟨nd, hnd, he, hp, by simpa using hprev, hnext⟩
      · simp at hy
    | cons z l₁ =>
      obtain ⟨rfl, rfl⟩ := List.cons.inj hl
      obtain ⟨nd, hnd, he, hp, hprev, hnext⟩ := ih hrest rfl
      refine ⟨nd, hnd, he, hp, ?_, hnext⟩
      rw [hprev, List.getLast?_cons]
      cases l₁.getLast? <;> rfl

theorem linked_of_checks (hblocks : m.blockIds.all m.linksBlock = true)
    (hhomes : m.nodeIds.all m.homed = true) : Linked m m.nodesOf none := by
  have hblock : ∀ {b blk}, m.block? b = some blk → blk.first = (m.nodesOf b).head? ∧
      blk.last = (m.nodesOf b).getLast? ∧ blk.len = (m.nodesOf b).length ∧
      (m.nodesOf b).Nodup ∧ m.chained b none (m.nodesOf b) = true := by
    intro b blk hblk
    have h := List.all_eq_true.1 hblocks b (mem_blockIds_iff.2 (lt_of_block? hblk))
    unfold linksBlock at h
    rw [hblk] at h
    simpa only [Bool.and_eq_true, beq_iff_eq, decide_eq_true_eq, and_assoc] using h
  have hhome : ∀ {n nd}, m.node? n = some nd → nd.erased = false →
      n ∈ m.nodesOf nd.parent ∧ ∃ blk, m.block? nd.parent = some blk := by
    intro n nd hnd he
    have h := List.all_eq_true.1 hhomes n (mem_nodeIds_iff.2 (lt_of_node? hnd))
    unfold homed at h
    simpa [hnd, he, Option.isSome_iff_exists] using h
  have hchain : ∀ {b l x r}, m.nodesOf b = l ++ x :: r → ∃ nd, m.node? x = some nd ∧
      nd.erased = false ∧ nd.parent = b ∧ nd.prev = l.getLast? ∧ nd.next = r.head? := by
    intro b l x r hl
    cases hb : m.block? b with
    | none => simp [nodesOf_eq_nil hb] at hl
    | some blk =>
      obtain ⟨nd, hnd, he, hp, hprev, hnext⟩ := chained_of_mem (hblock hb).2.2.2.2 hl
      exact ⟨nd, hnd, he, hp, by simpa using hprev, hnext⟩
  refine ⟨fun h => (hblock h).1, fun h => (hblock h).2.1, fun h => (hblock h).2.2.1, ?_, ?_, ?_,
    fun h he => (hhome h he).2⟩
  · intro b
    cases hb : m.block? b with
    | none => simp [nodesOf_eq_nil hb]
    | some blk => exact (hblock hb).2.2.2.1
  · intro b n
    constructor
    · intro hn
      obtain ⟨l, r, hl⟩ := List.append_of_mem hn
      obtain ⟨nd, hnd, he, hp, -⟩ := hchain hl
      exact ⟨by simp, nd, hnd, he, hp⟩
    · rintro ⟨-, nd, hnd, he, rfl⟩
      exact (hhome hnd he).1
  · intro b l x r nd hl hnd
    obtain ⟨nd', hnd', -, -, hlinks⟩ := hchain hl
    obtain rfl := Option.some.inj (hnd.symm.trans hnd')
    exact hlinks

theorem isUse_iff {u : Use} : m.isUse u v = true ↔ m.Uses u v := by
  unfold isUse Uses
  cases m.live? u.node <;> simp

theorem wellFormed_of_checks (hlinked : Linked m m.nodesOf none)
    (hvalues : m.valueIds.all m.listsUses = true) (hnodes : m.nodeIds.all m.wired = true) :
    WellFormed m := by
  have hvalue : ∀ {v x}, m.value? v = some x → x.uses.Nodup ∧ (∀ u ∈ x.uses, m.Uses u v) ∧
      ∀ {id i}, x.definition = .result id i → ∃ n, m.core id = some n ∧ n.results[i]? = some v := by
    intro v x hx
    have h := List.all_eq_true.1 hvalues v (mem_valueIds_iff.2 (lt_of_value? hx))
    simp only [listsUses, hx, Bool.and_eq_true, decide_eq_true_eq, List.all_eq_true,
      isUse_iff] at h
    refine ⟨h.1.1, h.1.2, fun {id i} hdef => ?_⟩
    have hd := h.2
    rw [hdef] at hd
    cases hn : m.core id with
    | none => simp [hn] at hd
    | some n => exact ⟨n, rfl, by simpa [hn] using hd⟩
  have hoperand : ∀ {u v}, m.Uses u v → ∃ x, m.value? v = some x ∧ u ∈ x.uses ∧
      ∀ {id i}, x.definition = .result id i → ∃ n, m.live? id = some n := by
    rintro ⟨id, i⟩ v ⟨n, hn, hv⟩
    have h := List.all_eq_true.1 hnodes id (mem_nodeIds_iff.2 (lt_of_live? hn))
    simp only [wired, hn, Bool.and_eq_true, List.all_eq_true] at h
    have hlisted : m.isListed id i v = true := h.2 (v, i) (List.mem_zipIdx_iff_getElem?.2 hv)
    unfold isListed at hlisted
    cases hx : m.value? v with
    | none => simp [hx] at hlisted
    | some x =>
      rw [hx] at hlisted
      simp only [Bool.and_eq_true, List.contains_iff_mem] at hlisted
      refine ⟨x, rfl, hlisted.1, fun {d j} hdef => ?_⟩
      have hd := hlisted.2
      rw [hdef] at hd
      exact Option.isSome_iff_exists.1 hd
  refine ⟨hlinked, fun h => (hvalue h).1, fun {v x u} hx => ⟨(hvalue hx).2.1 u, fun hu => ?_⟩, ?_,
    ?_, ?_⟩
  · obtain ⟨x', hx', hmem, -⟩ := hoperand hu
    obtain rfl := Option.some.inj (hx.symm.trans hx')
    exact hmem
  · intro u v hu
    obtain ⟨x, hx, -, hdef⟩ := hoperand hu
    exact ⟨x.definition, by simp [def?, hx], fun h => hdef h⟩
  · intro id n i v hn hv
    obtain ⟨nd, hnd, -⟩ := Option.map_eq_some_iff.1 hn
    have h := List.all_eq_true.1 hnodes id (mem_nodeIds_iff.2 (lt_of_node? hnd))
    simp only [wired, hn, Bool.and_eq_true, List.all_eq_true] at h
    simpa using h.1 (v, i) (List.mem_zipIdx_iff_getElem?.2 hv)
  · intro v id i hdef
    obtain ⟨x, hx, hdef⟩ := Option.map_eq_some_iff.1 hdef
    exact (hvalue hx).2.2 hdef

theorem placed_of_reaches {fuel : Nat} (h : m.reaches fuel b = true) : m.Placed b := by
  induction fuel generalizing b with
  | zero =>
    obtain rfl := beq_iff_eq.1 h
    exact .body
  | succ fuel ih =>
    rcases Bool.or_eq_true_iff.1 h with h | h
    · obtain rfl := beq_iff_eq.1 h
      exact .body
    · split at h
      · next id _ =>
        cases hn : m.live? id with
        | none => simp [hn] at h
        | some n =>
          simp only [hn, Bool.and_eq_true, List.contains_iff_mem] at h
          exact .region hn h.1 (ih h.2)
      · simp at h

theorem nested_of_checks (hbody : (m.blockCore m.body == some (.empty .graph none)) = true)
    (hnodes : m.nodeIds.all m.nests = true) : Nested m := by
  have hnode : ∀ {id n}, m.live? id = some n →
      n.regions.map m.blockCore = n.op.regionKinds.map (fun k => some (.empty k (some id))) ∧
        n.regions.Nodup ∧ m.reaches m.blocks.size n.parent = true ∧
          (n.regions = [] ∨ n.results = []) := by
    intro id n hn
    have h := List.all_eq_true.1 hnodes id (mem_nodeIds_iff.2 (lt_of_live? hn))
    simpa only [nests, hn, Bool.and_eq_true, Bool.or_eq_true, List.isEmpty_iff, beq_iff_eq,
      decide_eq_true_eq, and_assoc] using h
  refine ⟨beq_iff_eq.1 hbody, fun {id n} hn => ?_, fun hn => (hnode hn).2.1,
    fun hn => placed_of_reaches (hnode hn).2.2.1, fun hn => (hnode hn).2.2.2.resolve_left⟩
  have h : List.Forall₂ Eq (n.regions.map m.blockCore)
      (n.op.regionKinds.map fun k => some (.empty k (some id))) := by
    rw [List.forall₂_eq_eq_eq]
    exact (hnode hn).1
  exact List.forall₂_map_right_iff.1 (List.forall₂_map_left_iff.1 h)

theorem typed_of_isTyped (h : m.isTyped n = true) : m.Typed n := by
  unfold isTyped at h
  split at h
  · next os rs hos hrs => exact ⟨os, rs, hos, hrs, h⟩
  · simp at h

theorem scoped_of_isScoped {user d : NodeId} (hs : Sound m) (hn : m.live? user = some n)
    (h : m.isScoped user d = true) : m.Scoped user d := by
  unfold isScoped at h
  cases hd : m.live? d with
  | none => simp [hd] at h
  | some nd =>
    simp only [hd] at h
    split at h
    · next a ha =>
      obtain ⟨haround, hmem⟩ := (hs.ancestorWithin_eq_ok hn ha).1 rfl
      refine ⟨nd, a, hd, haround, hmem, fun hk => ?_⟩
      rw [hk] at h
      exact List.isSublist_iff_sublist.1 (by simpa using h)
    · simp at h

end Module

theorem sound_of_isSound {m : Module} (h : m.isSound = true) : Sound m := by
  simp only [Module.isSound, Bool.and_eq_true] at h
  obtain ⟨⟨⟨⟨⟨hblocks, hhomes⟩, hvalues⟩, hwired⟩, hbody⟩, hnests⟩ := h
  have hlinked := Module.linked_of_checks hblocks hhomes
  exact ⟨Module.wellFormed_of_checks hlinked hvalues hwired, Module.nested_of_checks hbody hnests⟩

/-- A module that passes the checks is valid. -/
theorem valid_of_isValid {m : Module} (h : m.isValid = true) : Valid m := by
  simp only [Module.isValid, Bool.and_eq_true] at h
  obtain ⟨⟨hsound, hserves⟩, hports⟩ := h
  have hs := sound_of_isSound hsound
  have hserve : ∀ {id n}, m.live? id = some n → m.isTyped n = true ∧ ∀ v ∈ n.operands,
      ∀ {d i}, m.def? v = some (.result d i) → m.isScoped id d = true := by
    intro id n hn
    have h := List.all_eq_true.1 hserves id (Module.mem_nodeIds_iff.2 (Module.lt_of_live? hn))
    simp only [Module.serves, hn, Bool.and_eq_true, List.all_eq_true] at h
    refine ⟨h.1, fun v hv {d i} hd => ?_⟩
    have := h.2 v hv
    rwa [hd] at this
  refine ⟨⟨⟨hs, fun hn => Module.typed_of_isTyped (hserve hn).1⟩, ?_⟩, ?_⟩
  · rintro u v d i ⟨n, hn, hv⟩ hd
    exact Module.scoped_of_isScoped hs hn ((hserve hn).2 v (List.mem_of_getElem? hv) hd)
  · intro p v hp hv
    have h := List.all_eq_true.1 hports p hp
    unfold Module.isInput at h
    simp only [hv] at h
    split at h
    · next i hi => exact ⟨i, hi⟩
    · simp at h

theorem plain_of_isPlain {m : Module} (h : m.isPlain = true) : m.Plain := by
  intro id n v type hn hv htype hst
  have hid := List.all_eq_true.1 h id (Module.mem_nodeIds_iff.2 (Module.lt_of_live? hn))
  simp only [Module.isPlainNode, hn, Bool.or_eq_true, List.all_eq_true] at hid
  refine hid.resolve_right fun hall => ?_
  have hnone := hall v hv
  rw [htype] at hnone
  simp only [Option.isNone_iff_eq_none] at hnone
  rw [hnone] at hst
  cases hst

/-! ## Small modules -/

namespace Module

/-- A node to be added: where, its operation, its operands, and the types of its results. -/
abbrev Sketch := Position × Op × List Nat × List Nat

/-- Adds nodes one after another; the values are numbered in the order in which they are made. -/
def addSketches (m : Module) : List Sketch → Except Fault Module
  | [] => .ok m
  | (pos, op, operands, types) :: rest => do
    let (_, m) ← m.createNode pos op (operands.map .mk) (types.map .mk) .unknown
    m.addSketches rest

/-- Adds ports whose names are numbered from a given one. -/
def addPorts (m : Module) : Nat → List (PortDirection × Nat) → Module
  | _, [] => m
  | i, (.input, type) :: rest => (m.addInput ⟨i⟩ ⟨type⟩).2.addPorts (i + 1) rest
  | i, (.output, type) :: rest => (m.addOutput ⟨i⟩ ⟨type⟩).addPorts (i + 1) rest

/-- A module over given types with ports and nodes; empty if the nodes cannot be added. -/
def sketch (types : List HwType) (ports : List (PortDirection × Nat)) (nodes : List Sketch) :
    Module :=
  let m := addPorts { empty ⟨0⟩ .unknown with types := ⟨types.toArray⟩ } 1 ports
  (m.addSketches nodes).toOption.getD (empty ⟨0⟩ .unknown)

/-- Names for a sketched module and its ports. -/
def sketchNames : NameTable := (NameTable.ofList? ["top", "a", "b", "c", "d", "e"]).getD .empty

end Module

end NetPrep
