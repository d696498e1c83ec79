import NetPrep.IdMap
import NetPrep.Netlist.Query

/-!
# The dump of a module

The text of a module: a line for each node, with its results numbered in the order of the lines, and
the nodes of each region indented between braces. A dump is made in three steps: numbering the
results, laying out the lines as pieces, and writing the pieces.
-/

namespace NetPrep

namespace Dump

/-! ## Numbering -/

/-- The numbers of the results met so far. A result that is met again gets a new number, which is
how many results have one. -/
structure Numbering where
  numbers : IdMap Nat
  count : Nat
deriving DecidableEq, Repr

namespace Numbering

def empty : Numbering := ⟨.empty, 0⟩

def number? (n : Numbering) (v : ValueId) : Option Nat := n.numbers.get? v.index

/-- Numbers a result. -/
def add (n : Numbering) (v : ValueId) : Numbering :=
  { numbers := n.numbers.insert v.index n.count
    count := if n.numbers.contains v.index then n.count else n.count + 1 }

end Numbering

/-- Numbers the results of the nodes of a block and of the blocks in it, at most so deep. -/
def numberBlock (m : Module) : Nat → Numbering → BlockId → Except Fault Numbering
  | 0, _, _ => .error .outOfFuel
  | fuel + 1, numbering, block => do
    (← m.blockNodes block).foldlM (fun numbering id => do
      let n ← m.node id
      let numbering ← n.results.foldlM (fun numbering v => do
        -- Only a value of the module can be numbered; its line could not be laid out either.
        let _ ← m.value v
        return numbering.add v) numbering
      n.regions.foldlM (numberBlock m fuel) numbering) numbering

/-- The numbers of all results of a module. -/
def numbering (m : Module) : Except Fault Numbering :=
  numberBlock m (m.blocks.size + 1) .empty m.body

/-! ## Layout -/

/-- How a value is referred to. -/
inductive Label where
  | port (name : String)
  | unnamedPort (index : Nat)
  | result (number : Nat)
  /-- A result of a node that is in no block. -/
  | dead
deriving DecidableEq, Repr

def Label.text : Label → String
  | .port name => "%" ++ name
  | .unnamedPort index => "%arg" ++ toString index
  | .result number => "%" ++ toString number
  | .dead => "%<dead>"

/-- The line of a node, without its regions. -/
structure Line where
  results : List Label
  mnemonic : String
  attributes : Option String
  operands : List Label
  /-- The quoted name and the marks of the node. -/
  marks : List String
  /-- One type for each result. -/
  types : List String
deriving DecidableEq, Repr

/-- A piece of the text below the header of the module. -/
inductive Piece where
  | line (depth : Nat) (line : Line)
  | regionOpen
  | regionClose (depth : Nat)
  | lineEnd
deriving DecidableEq, Repr

/-- How a value is referred to under a numbering. -/
def label (m : Module) (names : NameTable) (numbering : Numbering) (v : ValueId) :
    Except Fault Label := do
  match (← m.value v).definition with
  | .port index =>
    match m.inputName? index with
    | some name => return .port (← names.resolve name)
    | none => return .unnamedPort index
  | .result _ _ =>
    match numbering.number? v with
    | some number => return .result number
    | none => return .dead

/-- The line of a node. -/
def nodeLine (m : Module) (names : NameTable) (numbering : Numbering) (n : Node) :
    Except Fault Line := do
  let results ← n.results.mapM (label m names numbering)
  let attributes ← n.op.attributes names
  let operands ← n.operands.mapM (label m names numbering)
  let name ← match n.name with
    | some name => do pure ["name = " ++ Text.quoted (← names.resolve name)]
    | none => pure []
  let types ← n.results.mapM fun v => do m.types.text names (← m.valueType v)
  return {
    results, attributes, operands, types
    mnemonic := n.op.mnemonic
    marks := name ++ if n.twoState then ["two_state"] else [] }

/-- The pieces of a block and of the blocks in it, at most so deep. -/
def blockPieces (m : Module) (names : NameTable) (numbering : Numbering) :
    Nat → Nat → BlockId → Except Fault (List Piece)
  | 0, _, _ => .error .outOfFuel
  | fuel + 1, depth, block => do
    let pieces ← (← m.blockNodes block).mapM fun id => do
      let n ← m.node id
      let line ← nodeLine m names numbering n
      let regions ← n.regions.mapM fun region => do
        let inner ← blockPieces m names numbering fuel (depth + 1) region
        return Piece.regionOpen :: inner ++ [.regionClose depth]
      return Piece.line depth line :: regions.flatten ++ [.lineEnd]
    return pieces.flatten

/-- The pieces of the body of a module. -/
def bodyPieces (m : Module) (names : NameTable) : Except Fault (List Piece) := do
  blockPieces m names (← numbering m) (m.blocks.size + 1) 1 m.body

/-! ## Writing -/

def indentation (depth : Nat) : String := String.ofList (List.replicate (2 * depth) ' ')

/-- Items with commas between them, after an opening text; nothing if there are none. -/
def listed (opening : String) (items : List String) : String :=
  if items.isEmpty then "" else opening ++ ", ".intercalate items

def Line.text (l : Line) : String :=
  (if l.results.isEmpty then "" else ", ".intercalate (l.results.map Label.text) ++ " = ")
    ++ l.mnemonic
    ++ (match l.attributes with | some a => " " ++ a | none => "")
    ++ listed " " (l.operands.map Label.text)
    ++ (if l.marks.isEmpty then "" else " \x7b" ++ ", ".intercalate l.marks ++ "\x7d")
    ++ listed " : " l.types

def Piece.text : Piece → String
  | .line depth l => indentation depth ++ l.text
  | .regionOpen => " \x7b\n"
  | .regionClose depth => indentation depth ++ "\x7d"
  | .lineEnd => "\n"

/-- A port in the header of a module. -/
def portText (m : Module) (names : NameTable) (p : Port) : Except Fault String := do
  let type ← m.types.text names p.type
  let name ← names.resolve p.name
  return match p.direction with
    | .input => "in %" ++ name ++ ": " ++ type
    | .output => "out " ++ name ++ ": " ++ type

end Dump

/-- The text of a module. -/
def Module.dump (m : Module) (names : NameTable) : Except Fault String := do
  let ports ← m.ports.mapM (Dump.portText m names)
  let name ← names.resolve m.name
  let pieces ← Dump.bodyPieces m names
  return "module @" ++ name ++ "(" ++ ", ".intercalate ports ++ ") \x7b\n"
    ++ String.join (pieces.map Dump.Piece.text) ++ "\x7d\n"

end NetPrep
