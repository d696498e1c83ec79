import NetPrep.NameTable
import NetPrep.Text.Quoted

/-!
# Operations

The closed set of operations that a node can perform, with their fixed properties: what category
they fall in, which regions they own, and how the dump writes them. `Op.foreign` stands for an
operation of a dialect that cannot be emitted.

| operation | operands | regions |
|---|---|---|
| `wire`, `reg`, `logic` | none | none |
| `read` | storage | none |
| `assign`, `blockingAssign`, `nonblockingAssign` | destination, source | none |
| `always` | one trigger for each edge | body |
| `alwaysFF` | clock, then the reset if there is one | body, then the reset body |
| `alwaysComb`, `initial` | none | body |
| `cond` | condition | then, else |
| `ifdef`, `proceduralIfdef` | none | then, else |
-/

namespace NetPrep

/-- How the nodes of a block are executed: declaratively and in no order, or one after another. -/
inductive RegionKind where
  | graph
  | procedural
deriving DecidableEq, Repr

/-- An edge of a clock or a trigger. -/
inductive Edge where
  | posedge
  | negedge
  | either
deriving DecidableEq, Repr

/-- The keyword of an edge. -/
def Edge.keyword : Edge → String
  | .posedge => "posedge"
  | .negedge => "negedge"
  | .either => "edge"

/-- Whether a reset is sampled at the clock edge or triggers the process itself. -/
inductive ResetKind where
  | sync
  | async
deriving DecidableEq, Repr

def ResetKind.keyword : ResetKind → String
  | .sync => "sync"
  | .async => "async"

/-- The reset arm of a flip-flop process. -/
structure Reset where
  kind : ResetKind
  edge : Edge
deriving DecidableEq, Repr

/-- Integer comparisons: equality, then signed, then unsigned order. -/
inductive Comparison where
  | eq
  | ne
  | slt
  | sle
  | sgt
  | sge
  | ult
  | ule
  | ugt
  | uge
deriving DecidableEq, Repr

def Comparison.keyword : Comparison → String
  | .eq => "eq"
  | .ne => "ne"
  | .slt => "slt"
  | .sle => "sle"
  | .sgt => "sgt"
  | .sge => "sge"
  | .ult => "ult"
  | .ule => "ule"
  | .ugt => "ugt"
  | .uge => "uge"

/-- What legalization distinguishes about an operation. -/
inductive OpCategory where
  | declaration
  | read
  | connection
  | instantiation
  | output
  | expression
  | control
  | statement
  | foreign
deriving DecidableEq, Repr

/-- The operation of a node. -/
inductive Op where
  | wire
  | reg
  | logic
  /-- The current value of a storage cell. -/
  | read
  | assign
  | blockingAssign
  | nonblockingAssign
  /-- An instance of a module, with a port name or none for each operand and each result. -/
  | inst (target name : Name) (inputs outputs : List (Option Name))
  /-- The end of a module, whose operands drive the output ports in order. -/
  | output
  /-- A constant, sign-extended to 64 bits. -/
  | constant (value : Int)
  | add
  | mul
  | and
  | or
  | xor
  | sub
  | shl
  | shru
  | compare (comparison : Comparison)
  | mux
  | concat
  | extract (low : Nat)
  | replicate
  | bitcast
  | structCreate
  | structExtract (field : Name)
  /-- One result for each field. -/
  | structExplode
  | arrayGet
  /-- The storage of an array element. -/
  | elementStorage
  /-- The storage of a struct field. -/
  | fieldStorage (field : Name)
  | systemCall (function : Name) (sideEffects : Bool)
  | verbatim (text : String) (sideEffects : Bool)
  | always (edges : List Edge)
  | alwaysFF (clock : Edge) (reset : Option Reset)
  | alwaysComb
  | initial
  | cond
  | ifdef (flag : Name)
  /-- A conditional inside procedural code, which opens no scope of its own. -/
  | proceduralIfdef (flag : Name)
  | fwrite (format : String)
  | foreign (dialect name : String)
deriving DecidableEq, Repr

namespace Op

def category : Op → OpCategory
  | wire | reg | logic => .declaration
  | read => .read
  | assign | blockingAssign | nonblockingAssign => .connection
  | inst .. => .instantiation
  | output => .output
  | constant _ | add | mul | and | or | xor | sub | shl | shru | compare _ | mux | concat
  | extract _ | replicate | bitcast | structCreate | structExtract _ | structExplode | arrayGet
  | elementStorage | fieldStorage _ | systemCall .. | verbatim .. => .expression
  | always _ | alwaysFF .. | alwaysComb | initial | cond | ifdef _ | proceduralIfdef _ => .control
  | fwrite _ => .statement
  | foreign .. => .foreign

/-- A storage declaration. -/
def isDeclaration (op : Op) : Bool := op.category == .declaration

/-- A variadic operator whose operands may be regrouped freely. -/
def isCommutative : Op → Bool
  | add | mul | and | or | xor => true
  | _ => false

/-- An operation whose evaluation has side effects. -/
def hasSideEffects : Op → Bool
  | systemCall _ sideEffects | verbatim _ sideEffects => sideEffects
  | _ => false

/-- A control operation that wraps its body without opening a declaration scope. -/
def isSyntacticWrapper : Op → Bool
  | proceduralIfdef _ => true
  | _ => false

def isInstance : Op → Bool
  | inst .. => true
  | _ => false

def isConstant : Op → Bool
  | constant _ => true
  | _ => false

/-- A process with an event control. -/
def isClocked : Op → Bool
  | always _ | alwaysFF .. => true
  | _ => false

/-- An operation that selects a part of its first operand. -/
def isSelection : Op → Bool
  | extract _ | arrayGet | structExtract _ => true
  | _ => false

/-- An operation whose operand is printed where something else is named: the end of the module and
the assignments. -/
def namesOperand : Op → Bool
  | output | assign | blockingAssign | nonblockingAssign => true
  | _ => false

/-- The kind of each region that the operation owns. -/
def regionKinds : Op → List RegionKind
  | always _ | alwaysComb | initial | alwaysFF _ none => [.procedural]
  | alwaysFF _ (some _) | cond | proceduralIfdef _ => [.procedural, .procedural]
  | ifdef _ => [.graph, .graph]
  | _ => []

/-- The word that the dump uses for the operation. -/
def mnemonic : Op → String
  | wire => "wire"
  | reg => "reg"
  | logic => "logic"
  | read => "read_inout"
  | assign => "assign"
  | blockingAssign => "bpassign"
  | nonblockingAssign => "passign"
  | inst .. => "instance"
  | output => "output"
  | constant _ => "constant"
  | add => "add"
  | mul => "mul"
  | and => "and"
  | or => "or"
  | xor => "xor"
  | sub => "sub"
  | shl => "shl"
  | shru => "shru"
  | compare _ => "icmp"
  | mux => "mux"
  | concat => "concat"
  | extract _ => "extract"
  | replicate => "replicate"
  | bitcast => "bitcast"
  | structCreate => "struct_create"
  | structExtract _ => "struct_extract"
  | structExplode => "struct_explode"
  | arrayGet => "array_get"
  | elementStorage => "array_index_inout"
  | fieldStorage _ => "struct_field_inout"
  | systemCall .. => "system_function"
  | verbatim .. => "verbatim_expr"
  | always _ => "always"
  | alwaysFF .. => "always_ff"
  | alwaysComb => "always_comb"
  | initial => "initial"
  | cond => "if"
  | ifdef _ => "ifdef"
  | proceduralIfdef _ => "ifdef_procedural"
  | fwrite _ => "fwrite"
  | foreign .. => "foreign"

/-- The mark of an operation with side effects. -/
def effectMark (sideEffects : Bool) : String := if sideEffects then " side_effects" else ""

/-- The attributes of the operation as the dump writes them, if it has any. -/
def attributes (names : NameTable) : Op → Except Fault (Option String)
  | inst target name _ _ => do
    let name ← names.resolve name
    let target ← names.resolve target
    return some ("\"" ++ name ++ "\" @" ++ target)
  | constant value => return some (toString value)
  | compare comparison => return some comparison.keyword
  | extract low => return some ("from " ++ toString low)
  | structExtract field | fieldStorage field => do
    return some ("\"" ++ (← names.resolve field) ++ "\"")
  | systemCall function sideEffects => do
    return some ("$" ++ (← names.resolve function) ++ effectMark sideEffects)
  | verbatim text sideEffects => return some (Text.quoted text ++ effectMark sideEffects)
  | always edges => return some (", ".intercalate (edges.map Edge.keyword))
  | alwaysFF clock none => return some clock.keyword
  | alwaysFF clock (some reset) =>
    return some (clock.keyword ++ " " ++ reset.kind.keyword ++ " " ++ reset.edge.keyword)
  | ifdef flag | proceduralIfdef flag => do return some (← names.resolve flag)
  | fwrite format => return some (Text.quoted format)
  | foreign dialect name => return some ("\"" ++ dialect ++ "." ++ name ++ "\"")
  | _ => return none

end Op

/-- The stored form of a constant: its lowest bits, as many as the width, sign-extended. -/
def canonicalConstant (value : Int) (width : Nat) : Int :=
  if width = 0 then 0 else if 64 ≤ width then value else Int.bmod value (Nat.pow 2 width)

end NetPrep
