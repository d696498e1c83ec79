import Mathlib
import NetPrep.Proofs.Safety

/-!
# Outlines

An outline is what is left of a module when links, order keys and values are forgotten: a plain list of
nodes for each block, and for each node the block it was last put into, the blocks it owns and whether
it is erased. Here the edits of a module are given once more, as edits of outlines: what they do to the
lists is insertion, removal and emptying.
-/

namespace NetPrep

/-- One edit of a module. -/
inductive Edit where
  | create (pos : Position) (op : Op) (operands : List ValueId) (types : List TypeId) (loc : Loc)
  | clone (source : NodeId) (pos : Position)
  | move (id : NodeId) (pos : Position)
  | erase (id : NodeId)
  | setOperand (id : NodeId) (index : Nat) (v : ValueId)
  | replaceUses (old new : ValueId)
deriving DecidableEq, Repr

/-- Carries out an edit. Nodes, values, blocks and operands are numbered with 32 bits. -/
def Edit.apply (m : Module) : Edit → Except Fault Module
  | .create pos op operands types loc => do
    return (← m.createNode pos op operands types loc low32).2
  | .clone source pos => do return (← m.cloneNode source pos low32).2
  | .move id pos => m.moveNode id pos
  | .erase id => m.eraseNode id low32
  | .setOperand id index v => m.setOperand id index v low32
  | .replaceUses old new => m.replaceUses old new

/-- Carries out edits one after the other. -/
def Module.applyAll (m : Module) : List Edit → Except Fault Module
  | [] => return m
  | e :: es => do (← e.apply m).applyAll es

/-- What an outline keeps of a node. -/
structure Outline.Entry where
  home : BlockId
  regions : List BlockId
  erased : Bool
deriving DecidableEq, Repr

@[ext]
structure Outline where
  /-- How many nodes there are, erased ones included. -/
  nodes : Nat
  blocks : Nat
  slot? : NodeId → Option Outline.Entry
  list : BlockId → List NodeId

/-- The outline of a module whose blocks hold given lists. -/
def Module.outlineOf (m : Module) (lists : BlockId → List NodeId) : Outline where
  nodes := m.nodes.size
  blocks := m.blocks.size
  slot? id := (m.core id).map fun n => ⟨n.parent, n.regions, n.erased⟩
  list := lists

/-- The outline of a module, with the lists that are read along the links. -/
def Module.outline (m : Module) : Outline := m.outlineOf m.nodesOf

namespace Outline

variable {o o' : Outline} {id j k : NodeId} {b c : BlockId} {e : Entry}

/-- The block that a position lies in. -/
def block? (o : Outline) : Position → Option BlockId
  | .before anchor | .after anchor => (o.slot? anchor).map (·.home)
  | .front b | .back b => some b

/-- An erased anchor stands for the end of its block. -/
def resolve (o : Outline) (pos : Position) : Position :=
  match pos with
  | .before anchor | .after anchor =>
    match o.slot? anchor with
    | some e => if e.erased then .back e.home else pos
    | none => pos
  | .front _ | .back _ => pos

/-- The node itself, and the nodes nested in its regions. -/
inductive Below (o : Outline) (id : NodeId) : NodeId → Prop
  | self : o.Below id id
  | nested {j k : NodeId} {e : Entry} {b : BlockId} (hj : o.Below id j) (he : o.slot? j = some e)
      (hb : b ∈ e.regions) (hk : k ∈ o.list b) : o.Below id k

/-- A region of a node, or one nested in it. -/
def Under (o : Outline) (id : NodeId) (b : BlockId) : Prop :=
  ∃ j e, o.Below id j ∧ o.slot? j = some e ∧ b ∈ e.regions

theorem Below.trans (h : o.Below id j) (h' : o.Below j k) : o.Below id k := by
  induction h' with
  | self => exact h
  | nested _ he hb hk ih => exact .nested ih he hb hk

theorem Below.under (h : o.Below id j) (h' : o.Under j b) : o.Under id b := by
  obtain ⟨k, e, hk, he, hb⟩ := h'
  exact ⟨k, e, h.trans hk, he, hb⟩

theorem Under.below (h : o.Under id b) (hj : j ∈ o.list b) : o.Below id j := by
  obtain ⟨k, e, hk, he, hb⟩ := h
  exact .nested hk he hb hj

/-- Every node below another one but that one sits in a block under it. -/
theorem Below.eq_or_under (h : o.Below id j) : j = id ∨ ∃ b, o.Under id b ∧ j ∈ o.list b := by
  cases h with
  | self => exact Or.inl rfl
  | nested hj he hb hk => exact Or.inr ⟨_, ⟨_, _, hj, he, hb⟩, hk⟩

/-- With fewer nodes in the lists there are fewer nodes below a node. -/
theorem Below.mono (h : o'.Below id j)
    (hentry : ∀ {k e'}, o'.slot? k = some e' → ∃ e, o.slot? k = some e ∧ e.regions = e'.regions)
    (hlist : ∀ {b k}, k ∈ o'.list b → k ∈ o.list b) : o.Below id j := by
  induction h with
  | self => exact .self
  | nested _ he hb hk ih =>
    obtain ⟨e, he, hr⟩ := hentry he
    exact .nested ih he (hr ▸ hb) (hlist hk)

theorem Under.mono (h : o'.Under id b)
    (hentry : ∀ {k e'}, o'.slot? k = some e' → ∃ e, o.slot? k = some e ∧ e.regions = e'.regions)
    (hlist : ∀ {b k}, k ∈ o'.list b → k ∈ o.list b) : o.Under id b := by
  obtain ⟨j, e', hj, he', hb⟩ := h
  obtain ⟨e, he, hr⟩ := hentry he'
  exact ⟨j, e, hj.mono hentry hlist, he, hr ▸ hb⟩

/-! ## No node lies in its own regions -/

/-- No node sits in a block under it. -/
def Acyclic (o : Outline) : Prop := ∀ ⦃j b⦄, j ∈ o.list b → ¬ o.Under j b

theorem Acyclic.mono (h : o.Acyclic)
    (hentry : ∀ {k e'}, o'.slot? k = some e' → ∃ e, o.slot? k = some e ∧ e.regions = e'.regions)
    (hlist : ∀ {b k}, k ∈ o'.list b → k ∈ o.list b) : o'.Acyclic :=
  fun _ _ hj hu => h (hlist hj) (hu.mono hentry hlist)

/-- A node that is in no list can have any regions. -/
theorem Acyclic.add (h : o.Acyclic) (hid : ∀ b, id ∉ o.list b)
    (hentry : ∀ k, k ≠ id → o'.slot? k = o.slot? k) (hlist : o'.list = o.list) :
    o'.Acyclic := by
  have hbelow : ∀ {j k}, j ≠ id → o'.Below j k → k ≠ id ∧ o.Below j k := by
    intro j k hj hk
    induction hk with
    | self => exact ⟨hj, .self⟩
    | nested _ he hb hk ih =>
      rw [hlist] at hk
      rw [hentry _ ih.1] at he
      exact ⟨ne_of_mem_of_not_mem hk (hid _), .nested ih.2 he hb hk⟩
  rintro j b hj ⟨k, e, hk, he, hb⟩
  rw [hlist] at hj
  obtain ⟨hki, hk⟩ := hbelow (ne_of_mem_of_not_mem hj (hid b)) hk
  exact h hj ⟨k, e, hk, hentry k hki ▸ he, hb⟩

/-- A node can be put into any block that is not under it. -/
theorem Acyclic.put {q : BlockId} (h : o.Acyclic) (hq : ¬ o.Under id q)
    (hentry : ∀ {k e'}, o'.slot? k = some e' → ∃ e, o.slot? k = some e ∧ e.regions = e'.regions)
    (hlist : ∀ {b k}, k ∈ o'.list b → k ∈ o.list b ∨ (k = id ∧ b = q)) : o'.Acyclic := by
  -- What is below a node now was so before, or is below the node that was put below it.
  have hbelow : ∀ {j k}, o'.Below j k → o.Below j k ∨ (o.Below id k ∧ o.Under j q) := by
    intro j k hk
    induction hk with
    | self => exact Or.inl .self
    | nested _ he hb hk ih =>
      obtain ⟨e, he, hr⟩ := hentry he
      rw [← hr] at hb
      rcases ih with hj | ⟨hid, hj⟩
      · rcases hlist hk with hk | ⟨rfl, rfl⟩
        · exact Or.inl (.nested hj he hb hk)
        · exact Or.inr ⟨.self, _, _, hj, he, hb⟩
      · rcases hlist hk with hk | ⟨rfl, rfl⟩
        · exact Or.inr ⟨.nested hid he hb hk, hj⟩
        · exact Or.inr ⟨.self, hj⟩
  have hunder : ∀ {j b}, o'.Under j b → o.Under j b ∨ (o.Under id b ∧ o.Under j q) := by
    rintro j b ⟨k, e', hk, he', hb⟩
    obtain ⟨e, he, hr⟩ := hentry he'
    rw [← hr] at hb
    exact (hbelow hk).imp (fun hk => ⟨k, e, hk, he, hb⟩) fun ⟨hid, hj⟩ => ⟨⟨k, e, hid, he, hb⟩, hj⟩
  intro j b hj hu
  rcases hlist hj with hj | ⟨rfl, rfl⟩
  · rcases hunder hu with hu | ⟨hid, hu⟩
    · exact h hj hu
    · exact hq ((hid.below hj).under hu)
  · exact hq ((hunder hu).elim (fun hu => hu) (fun hu => hu.2))

/-! ## Edits of an outline -/

/-- Puts a node that is in no list to a position. -/
def put (o : Outline) (id : NodeId) (pos : Position) (regions : List BlockId) : Outline :=
  match o.block? pos with
  | none => o
  | some b => { o with
      slot? := Function.update o.slot? id (some ⟨b, regions, false⟩)
      list := Function.update o.list b ((o.resolve pos).insert id (o.list b)) }

theorem put_eq {pos : Position} {regions : List BlockId} (hb : o.block? pos = some b) :
    o.put id pos regions = { o with
      slot? := Function.update o.slot? id (some ⟨b, regions, false⟩)
      list := Function.update o.list b ((o.resolve pos).insert id (o.list b)) } := by
  rw [put, hb]

/-- The blocks that are added next. -/
def nextBlocks (o : Outline) (count : Nat) : List BlockId :=
  (List.range count).map fun i => ⟨o.blocks + i⟩

/-- Adds a node with so many empty regions. -/
def create (o : Outline) (pos : Position) (count : Nat) : Outline :=
  { o.put ⟨o.nodes⟩ pos (o.nextBlocks count) with
    nodes := o.nodes + 1
    blocks := o.blocks + count }

theorem list_create_back {count : Nat} :
    (o.create (.back b) count).list b = o.list b ++ [⟨o.nodes⟩] := by
  simp [create, put, block?, resolve, Position.insert]

/-- Moves a node. Next to itself is where it is. -/
def move (o : Outline) (id : NodeId) (pos : Position) : Outline :=
  if pos = .before id ∨ pos = .after id then o
  else match o.slot? id with
    | none => o
    | some e => { o with list := fun b => (o.list b).erase id }.put id pos e.regions

open Classical in
/-- Erases a node and what is nested in it: the lists of its regions become empty. -/
noncomputable def erase (o : Outline) (id : NodeId) : Outline :=
  if (o.slot? id).any (·.erased) then o
  else { o with
    slot? := fun j => (o.slot? j).map fun e => { e with erased := e.erased || o.Below id j }
    list := fun b => if o.Under id b then [] else (o.list b).erase id }

/-- What an edit does to an outline. -/
noncomputable def apply (o : Outline) : Edit → Outline
  | .create pos op _ _ _ => o.create pos op.regionKinds.length
  | .clone source pos => o.create pos (((o.slot? source).map (·.regions.length)).getD 0)
  | .move id pos => o.move id pos
  | .erase id => o.erase id
  | .setOperand .. | .replaceUses .. => o

/-- What edits do to an outline one after the other. -/
noncomputable def applyAll (o : Outline) : List Edit → Outline
  | [] => o
  | e :: es => (o.apply e).applyAll es

end Outline

/-! ## What edits ask for -/

/-- What callers of an edit promise: that what it names is there, that only nodes that are not erased
are moved and get other operands, that no node is moved into its own regions, and that no node is
erased whose results are used. -/
def Edit.Permitted (m : Module) : Edit → Prop
  | .create pos _ operands _ _ => m.Admits pos ∧ ∀ v ∈ operands, v.index < m.values.size
  | .clone source pos => source.index < m.nodes.size ∧ m.Admits pos
  | .move id pos => (∃ n, m.live? id = some n) ∧ m.Admits pos ∧
    ∀ b, m.outline.block? pos = some b → ¬ m.outline.Under id b
  | .erase id => ∃ n, m.core id = some n ∧
    (n.erased = false → ∀ v ∈ n.results, ∀ u, ¬ m.Uses u v)
  | .setOperand id index v => (∃ n, m.live? id = some n ∧ index < n.operands.length) ∧
    v.index < m.values.size
  | .replaceUses old new => old.index < m.values.size ∧ new.index < m.values.size

/-- There are numbers of 32 bits for one more node, with its operands, results and regions. -/
structure Module.HasNumbers (m : Module) (op : Op) (operands results : Nat) : Prop where
  node : m.nodes.size < limit32
  values : m.values.size + results ≤ limit32
  blocks : m.blocks.size + op.regionKinds.length ≤ limit32
  operands : operands ≤ limit32

/-- The numbers of 32 bits suffice for an edit. -/
def Edit.Numbered (m : Module) : Edit → Prop
  | .create _ op operands types _ => m.HasNumbers op operands.length types.length
  | .clone source _ =>
    ∀ n, m.core source = some n → m.HasNumbers n.op n.operands.length n.results.length
  | .move .. | .erase _ | .setOperand .. | .replaceUses .. => True

/-- Each edit meets a condition once those before it have been carried out. -/
inductive Module.Along (P : Module → Edit → Prop) : Module → List Edit → Prop
  | nil (m : Module) : Along P m []
  | cons {m : Module} {e : Edit} {es : List Edit} (he : P m e)
      (hes : ∀ m', e.apply m = .ok m' → Along P m' es) : Along P m (e :: es)

theorem Module.Along.step {P : Module → Edit → Prop} {m m₁ : Module} {e : Edit} {es : List Edit}
    (he : P m e) (h₁ : e.apply m = .ok m₁) (hes : m₁.Along P es) : m.Along P (e :: es) :=
  .cons he fun m' hm' => by
    obtain rfl := Except.ok.inj (h₁.symm.trans hm')
    exact hes

/-- Edits one after the other of which callers keep every promise. -/
def Module.Permits (m : Module) (es : List Edit) : Prop := m.Along (fun m e => e.Permitted m) es

/-- Edits one after the other for which the numbers of 32 bits suffice. -/
def Module.Numbers (m : Module) (es : List Edit) : Prop := m.Along (fun m e => e.Numbered m) es

/-- A module without nodes: it was given ports and types, and nothing else. -/
inductive Module.Blank : Module → Prop
  | empty (name : Name) (loc : Loc) : Blank (.empty name loc)
  | addInput {m : Module} (h : Blank m) (name : Name) (type : TypeId) :
      Blank (m.addInput name type low32).2
  | addOutput {m : Module} (h : Blank m) (name : Name) (type : TypeId) :
      Blank (m.addOutput name type)
  | internType {m : Module} (h : Blank m) (ty : HwType) : Blank (m.internType ty).2

end NetPrep
