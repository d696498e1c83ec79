import NetPrep.Json.Decode
import NetPrep.Netlist.Basic

/-!
# The JSON form of modules

Each type of the module graph has an encoder and a decoder. The decoders check the form of a value
and the range of its numbers; whether identifiers name anything is not their business.
-/

namespace NetPrep

open Json (required optional)

/-! ## Identifiers -/

def Name.toJson (n : Name) : Json := .ofNat n.index
def NodeId.toJson (n : NodeId) : Json := .ofNat n.index
def ValueId.toJson (v : ValueId) : Json := .ofNat v.index
def BlockId.toJson (b : BlockId) : Json := .ofNat b.index
def TypeId.toJson (t : TypeId) : Json := .ofNat t.index

def Name.ofJson? (x : Json) : Option Name := x.toNat32?.map Name.mk
def NodeId.ofJson? (x : Json) : Option NodeId := x.toNat32?.map NodeId.mk
def ValueId.ofJson? (x : Json) : Option ValueId := x.toNat32?.map ValueId.mk
def BlockId.ofJson? (x : Json) : Option BlockId := x.toNat32?.map BlockId.mk
def TypeId.ofJson? (x : Json) : Option TypeId := x.toNat32?.map TypeId.mk

/-! ## Names and locations -/

def NameTable.toJson (t : NameTable) : Json := .ofList .str t.toList

def NameTable.ofJson? (x : Json) : Option NameTable := do
  NameTable.ofList? (← x.toList? Json.toString?)

def Loc.toJson (l : Loc) : Json :=
  .obj [("file", .ofOption Name.toJson l.file), ("line", .ofNat l.line), ("col", .ofNat l.col)]

def Loc.ofJson? (x : Json) : Option Loc := do
  match ← x.fields? ["file", "line", "col"] with
  | [file, line, col] =>
    return {
      file := ← optional Name.ofJson? file
      line := ← required Json.toNat32? line
      col := ← required Json.toNat32? col }
  | _ => none

/-! ## Operations -/

def Edge.tags : List (String × Edge) :=
  [("Posedge", .posedge), ("Negedge", .negedge), ("Edge", .either)]

def ResetKind.tags : List (String × ResetKind) := [("Sync", .sync), ("Async", .async)]

def RegionKind.tags : List (String × RegionKind) :=
  [("Graph", .graph), ("Procedural", .procedural)]

def PortDirection.tags : List (String × PortDirection) := [("Input", .input), ("Output", .output)]

def Comparison.tags : List (String × Comparison) :=
  [("Eq", .eq), ("Ne", .ne), ("Slt", .slt), ("Sle", .sle), ("Sgt", .sgt), ("Sge", .sge),
    ("Ult", .ult), ("Ule", .ule), ("Ugt", .ugt), ("Uge", .uge)]

/-- The tag of a value in a table of tags. -/
def tagOf {α : Type} [BEq α] (tags : List (String × α)) (a : α) : String :=
  ((tags.find? (·.2 == a)).map (·.1)).getD ""

def Edge.toJson (e : Edge) : Json := .str (tagOf tags e)
def ResetKind.toJson (k : ResetKind) : Json := .str (tagOf tags k)
def RegionKind.toJson (k : RegionKind) : Json := .str (tagOf tags k)
def PortDirection.toJson (d : PortDirection) : Json := .str (tagOf tags d)
def Comparison.toJson (c : Comparison) : Json := .str (tagOf tags c)

def Edge.ofJson? : Json → Option Edge := Json.toTag? tags
def ResetKind.ofJson? : Json → Option ResetKind := Json.toTag? tags
def RegionKind.ofJson? : Json → Option RegionKind := Json.toTag? tags
def PortDirection.ofJson? : Json → Option PortDirection := Json.toTag? tags
def Comparison.ofJson? : Json → Option Comparison := Json.toTag? tags

def Reset.toJson (r : Reset) : Json := .obj [("kind", r.kind.toJson), ("edge", r.edge.toJson)]

def Reset.ofJson? (x : Json) : Option Reset := do
  match ← x.fields? ["kind", "edge"] with
  | [kind, edge] =>
    return { kind := ← required ResetKind.ofJson? kind, edge := ← required Edge.ofJson? edge }
  | _ => none

namespace Op

/-- The operations without attributes, by tag. -/
def tags : List (String × Op) :=
  [("Wire", .wire), ("Reg", .reg), ("Logic", .logic), ("ReadInOut", .read),
    ("Assign", .assign), ("BPAssign", .blockingAssign), ("PAssign", .nonblockingAssign),
    ("Output", .output), ("Add", .add), ("Mul", .mul), ("And", .and), ("Or", .or),
    ("Xor", .xor), ("Sub", .sub), ("Shl", .shl), ("ShrU", .shru), ("Mux", .mux),
    ("Concat", .concat), ("Replicate", .replicate), ("Bitcast", .bitcast),
    ("StructCreate", .structCreate), ("StructExplode", .structExplode), ("ArrayGet", .arrayGet),
    ("ArrayIndexInOut", .elementStorage), ("AlwaysComb", .alwaysComb), ("Initial", .initial),
    ("If", .cond)]

/-- The names of ports, of which some may be missing. -/
def portNamesToJson (names : List (Option Name)) : Json := .ofList (.ofOption Name.toJson) names

def portNamesOfJson? (x : Json) : Option (List (Option Name)) :=
  x.toList? (Json.toOption? Name.ofJson?)

def toJson : Op → Json
  | inst target name inputs outputs => .tagged "Instance" [
      ("module", target.toJson), ("instance_name", name.toJson),
      ("input_names", portNamesToJson inputs), ("output_names", portNamesToJson outputs)]
  | constant value => .tagged "Constant" [("value", .int value)]
  | compare comparison => .tagged "ICmp" [("pred", comparison.toJson)]
  | extract low => .tagged "Extract" [("low", .ofNat low)]
  | structExtract field => .tagged "StructExtract" [("field", field.toJson)]
  | fieldStorage field => .tagged "StructFieldInOut" [("field", field.toJson)]
  | systemCall function sideEffects => .tagged "SystemFunction" [
      ("name", function.toJson), ("side_effects", .bool sideEffects)]
  | verbatim text sideEffects => .tagged "VerbatimExpr" [
      ("text", .str text), ("side_effects", .bool sideEffects)]
  | always edges => .tagged "Always" [("edges", .ofList Edge.toJson edges)]
  | alwaysFF clock reset => .tagged "AlwaysFF" [
      ("clock_edge", clock.toJson), ("reset", .ofOption Reset.toJson reset)]
  | ifdef flag => .tagged "IfDef" [("macro_name", flag.toJson)]
  | proceduralIfdef flag => .tagged "IfDefProcedural" [("macro_name", flag.toJson)]
  | fwrite format => .tagged "FWrite" [("format", .str format)]
  | foreign dialect name => .tagged "Foreign" [("dialect", .str dialect), ("name", .str name)]
  | plain => .str (tagOf tags plain)

/-- The operation with a tag, from the record beside the tag. -/
def ofRecord? (tag : String) (x : Json) : Option Op := do
  match tag with
  | "Instance" =>
    match ← x.fields? ["module", "instance_name", "input_names", "output_names"] with
    | [target, name, inputs, outputs] =>
      return .inst (← required Name.ofJson? target) (← required Name.ofJson? name)
        (← required portNamesOfJson? inputs) (← required portNamesOfJson? outputs)
    | _ => none
  | "Constant" =>
    match ← x.fields? ["value"] with
    | [value] => return .constant (← required Json.toInt64? value)
    | _ => none
  | "ICmp" =>
    match ← x.fields? ["pred"] with
    | [comparison] => return .compare (← required Comparison.ofJson? comparison)
    | _ => none
  | "Extract" =>
    match ← x.fields? ["low"] with
    | [low] => return .extract (← required Json.toNat32? low)
    | _ => none
  | "StructExtract" =>
    match ← x.fields? ["field"] with
    | [field] => return .structExtract (← required Name.ofJson? field)
    | _ => none
  | "StructFieldInOut" =>
    match ← x.fields? ["field"] with
    | [field] => return .fieldStorage (← required Name.ofJson? field)
    | _ => none
  | "SystemFunction" =>
    match ← x.fields? ["name", "side_effects"] with
    | [function, sideEffects] =>
      return .systemCall (← required Name.ofJson? function) (← required Json.toBool? sideEffects)
    | _ => none
  | "VerbatimExpr" =>
    match ← x.fields? ["text", "side_effects"] with
    | [text, sideEffects] =>
      return .verbatim (← required Json.toString? text) (← required Json.toBool? sideEffects)
    | _ => none
  | "Always" =>
    match ← x.fields? ["edges"] with
    | [edges] => return .always (← required (Json.toList? Edge.ofJson?) edges)
    | _ => none
  | "AlwaysFF" =>
    match ← x.fields? ["clock_edge", "reset"] with
    | [clock, reset] =>
      return .alwaysFF (← required Edge.ofJson? clock) (← optional Reset.ofJson? reset)
    | _ => none
  | "IfDef" =>
    match ← x.fields? ["macro_name"] with
    | [flag] => return .ifdef (← required Name.ofJson? flag)
    | _ => none
  | "IfDefProcedural" =>
    match ← x.fields? ["macro_name"] with
    | [flag] => return .proceduralIfdef (← required Name.ofJson? flag)
    | _ => none
  | "FWrite" =>
    match ← x.fields? ["format"] with
    | [format] => return .fwrite (← required Json.toString? format)
    | _ => none
  | "Foreign" =>
    match ← x.fields? ["dialect", "name"] with
    | [dialect, name] =>
      return .foreign (← required Json.toString? dialect) (← required Json.toString? name)
    | _ => none
  | _ => none

def ofJson? (x : Json) : Option Op := do
  let (tag, payload) ← x.variant?
  match tags.lookup tag with
  | some op => Json.bare op payload
  | none => ofRecord? tag (← payload)

end Op

/-! ## Types -/

namespace HwType

def toJson : HwType → Json
  | int width => .tagged "Int" [("width", .ofNat width)]
  | storage element => .tagged "InOut" [("element", element.toJson)]
  | array element length => .tagged "Array" [("element", element.toJson), ("len", .ofNat length)]
  | record fields => .tagged "Struct" [
      ("fields", .ofList (fun (name, ty) => .arr [name.toJson, ty.toJson]) fields)]

def ofJson? (x : Json) : Option HwType := do
  let (tag, payload) ← x.variant?
  let x ← payload
  match tag with
  | "Int" =>
    match ← x.fields? ["width"] with
    | [width] => return .int (← required Json.toNat32? width)
    | _ => none
  | "InOut" =>
    match ← x.fields? ["element"] with
    | [element] => return .storage (← required TypeId.ofJson? element)
    | _ => none
  | "Array" =>
    match ← x.fields? ["element", "len"] with
    | [element, length] =>
      return .array (← required TypeId.ofJson? element) (← required Json.toNat32? length)
    | _ => none
  | "Struct" =>
    match ← x.fields? ["fields"] with
    | [fields] =>
      return .record
        (← required (Json.toList? (Json.toPair? Name.ofJson? TypeId.ofJson?)) fields)
    | _ => none
  | _ => none

end HwType

def TypeTable.toJson (t : TypeTable) : Json :=
  .obj [("types", .ofList HwType.toJson t.entries.toList)]

def TypeTable.ofJson? (x : Json) : Option TypeTable := do
  match ← x.fields? ["types"] with
  | [types] => return ⟨(← required (Json.toList? HwType.ofJson?) types).toArray⟩
  | _ => none

/-! ## Nodes, values, blocks and ports -/

namespace ValueDef

def toJson : ValueDef → Json
  | port index => .tagged "Port" [("index", .ofNat index)]
  | result node index => .tagged "Result" [("node", node.toJson), ("index", .ofNat index)]

def ofJson? (x : Json) : Option ValueDef := do
  let (tag, payload) ← x.variant?
  let x ← payload
  match tag with
  | "Port" =>
    match ← x.fields? ["index"] with
    | [index] => return .port (← required Json.toNat32? index)
    | _ => none
  | "Result" =>
    match ← x.fields? ["node", "index"] with
    | [node, index] =>
      return .result (← required NodeId.ofJson? node) (← required Json.toNat32? index)
    | _ => none
  | _ => none

end ValueDef

def Use.toJson (u : Use) : Json := .obj [("node", u.node.toJson), ("operand", .ofNat u.operand)]

def Use.ofJson? (x : Json) : Option Use := do
  match ← x.fields? ["node", "operand"] with
  | [node, operand] =>
    return { node := ← required NodeId.ofJson? node, operand := ← required Json.toNat32? operand }
  | _ => none

def Value.toJson (v : Value) : Json :=
  .obj [("ty", v.type.toJson), ("def", v.definition.toJson), ("uses", .ofList Use.toJson v.uses)]

def Value.ofJson? (x : Json) : Option Value := do
  match ← x.fields? ["ty", "def", "uses"] with
  | [type, definition, uses] =>
    return {
      type := ← required TypeId.ofJson? type
      definition := ← required ValueDef.ofJson? definition
      uses := ← required (Json.toList? Use.ofJson?) uses }
  | _ => none

def Node.toJson (n : Node) : Json :=
  .obj [("kind", n.op.toJson), ("operands", .ofList ValueId.toJson n.operands),
    ("results", .ofList ValueId.toJson n.results), ("regions", .ofList BlockId.toJson n.regions),
    ("name", .ofOption Name.toJson n.name), ("two_state", .bool n.twoState),
    ("parent", n.parent.toJson), ("loc", n.loc.toJson), ("erased", .bool n.erased),
    ("prev", .ofOption NodeId.toJson n.prev), ("next", .ofOption NodeId.toJson n.next),
    ("order", .ofNat n.order)]

def Node.ofJson? (x : Json) : Option Node := do
  match ← x.fields? ["kind", "operands", "results", "regions", "name", "two_state", "parent",
    "loc", "erased", "prev", "next", "order"] with
  | [op, operands, results, regions, name, twoState, parent, loc, erased, prev, next, order] =>
    return {
      op := ← required Op.ofJson? op
      operands := ← required (Json.toList? ValueId.ofJson?) operands
      results := ← required (Json.toList? ValueId.ofJson?) results
      regions := ← required (Json.toList? BlockId.ofJson?) regions
      name := ← optional Name.ofJson? name
      twoState := ← required Json.toBool? twoState
      parent := ← required BlockId.ofJson? parent
      loc := ← required Loc.ofJson? loc
      erased := ← required Json.toBool? erased
      prev := ← optional NodeId.ofJson? prev
      next := ← optional NodeId.ofJson? next
      order := ← required Json.toNat64? order }
  | _ => none

def Block.toJson (b : Block) : Json :=
  .obj [("kind", b.kind.toJson), ("parent", .ofOption NodeId.toJson b.parent),
    ("first", .ofOption NodeId.toJson b.first), ("last", .ofOption NodeId.toJson b.last),
    ("len", .ofNat b.len)]

def Block.ofJson? (x : Json) : Option Block := do
  match ← x.fields? ["kind", "parent", "first", "last", "len"] with
  | [kind, parent, first, last, len] =>
    return {
      kind := ← required RegionKind.ofJson? kind
      parent := ← optional NodeId.ofJson? parent
      first := ← optional NodeId.ofJson? first
      last := ← optional NodeId.ofJson? last
      len := ← required Json.toNat64? len }
  | _ => none

def Port.toJson (p : Port) : Json :=
  .obj [("name", p.name.toJson), ("direction", p.direction.toJson), ("ty", p.type.toJson),
    ("value", .ofOption ValueId.toJson p.value)]

def Port.ofJson? (x : Json) : Option Port := do
  match ← x.fields? ["name", "direction", "ty", "value"] with
  | [name, direction, type, value] =>
    return {
      name := ← required Name.ofJson? name
      direction := ← required PortDirection.ofJson? direction
      type := ← required TypeId.ofJson? type
      value := ← optional ValueId.ofJson? value }
  | _ => none

/-! ## Modules -/

/-- A store of entities: a record whose only field is their list. -/
def storeToJson {α : Type} (f : α → Json) (items : Array α) : Json :=
  .obj [("items", .ofList f items.toList)]

def storeOfJson? {α : Type} (f : Json → Option α) (x : Json) : Option (Array α) := do
  match ← x.fields? ["items"] with
  | [items] => return (← required (Json.toList? f) items).toArray
  | _ => none

def Module.toJson (m : Module) : Json :=
  .obj [("name", m.name.toJson), ("loc", m.loc.toJson), ("ports", .ofList Port.toJson m.ports),
    ("types", m.types.toJson), ("nodes", storeToJson Node.toJson m.nodes),
    ("values", storeToJson Value.toJson m.values), ("blocks", storeToJson Block.toJson m.blocks),
    ("body", m.body.toJson)]

def Module.ofJson? (x : Json) : Option Module := do
  match ← x.fields? ["name", "loc", "ports", "types", "nodes", "values", "blocks", "body"] with
  | [name, loc, ports, types, nodes, values, blocks, body] =>
    return {
      name := ← required Name.ofJson? name
      loc := ← required Loc.ofJson? loc
      ports := ← required (Json.toList? Port.ofJson?) ports
      types := ← required TypeTable.ofJson? types
      nodes := ← required (storeOfJson? Node.ofJson?) nodes
      values := ← required (storeOfJson? Value.ofJson?) values
      blocks := ← required (storeOfJson? Block.ofJson?) blocks
      body := ← required BlockId.ofJson? body }
  | _ => none

end NetPrep
