import NetPrep.Prepare.Temporary

/-!
# Instance ports

Each output of an instance flows into a wire of its own at the top of the module, and, where the
target asks for it, each input comes from one. A wire is named after the instance and the port.
-/

namespace NetPrep.Prep

/-- The name of the wire of a port: of the instance and the port, or the position of a port without
a name. -/
def portWireName (inst : String) (port : Option String) (index : Nat) : String :=
  "_" ++ inst ++ "_" ++ port.getD (toString index)

/-- The name of an instance and the names of its ports on one side. -/
structure PortNames where
  inst : String
  ports : List (Option String)

/-- The wire name of the port at a position. -/
def PortNames.wireName (names : PortNames) (index : Nat) : String :=
  portWireName names.inst (names.ports[index]?).join index

/-- The names of an instance and of ports that are chosen among its inputs and outputs; those of
another node are empty. -/
def portNames (choose : List (Option Name) → List (Option Name) → List (Option Name)) :
    Op → Prep PortNames
  | .inst _ name inputs outputs => do
    return ⟨← resolve name, ← (choose inputs outputs).mapM resolve?⟩
  | _ => return ⟨"", []⟩

/-- Whether an output of an instance needs no wire, as its only use ends the module or is an
assignment in the block of the instance, which then moves to right after it. -/
def flowsDirectly (inst : NodeId) (parent : BlockId) : List Use → Prep Bool
  | [u] => do
    let user ← node u.node
    match user.op with
    | .output => return true
    | .assign =>
      if user.parent = parent then
        edit (·.moveNode u.node (.after inst))
        return true
      else return false
    | _ => return false
  | _ => return false

/-- Lets the outputs of an instance from a position on flow into wires. -/
def anchorOutputs (inst : NodeId) (names : PortNames) : Nat → List ValueId → Prep Unit
  | _, [] => pure ()
  | index, result :: rest => do
    let n ← node inst
    let uses := (← query (·.value result)).uses
    -- The uses are taken before the assignment to the wire becomes one of them.
    if !(← flowsDirectly inst n.parent uses) then
      let type ← query (·.valueType result)
      let body ← query fun m => .ok m.body
      let name ← intern (names.wireName index)
      let (_, wire) ← declareFor result (.front body) .wire (some name) n.loc
      uses.forM fun u => do inlineEverywhere (← readFor u wire type n.loc)
      let _ ← createStatement (.after inst) .assign [wire, result] n.loc
      count fun s => { s with temporaries := s.temporaries + 1 }
    anchorOutputs inst names (index + 1) rest

/-- Lets the inputs of an instance from a position on come from wires, except for ports and plain
reads. -/
def anchorInputs (inst : NodeId) (names : PortNames) : Nat → List ValueId → Prep Unit
  | _, [] => pure ()
  | index, source :: rest => do
    if !(← query (·.isSimpleReadOrPort source)) then
      let n ← node inst
      let type ← query (·.valueType source)
      let body ← query fun m => .ok m.body
      let name ← intern (names.wireName index)
      let (_, wire) ← declareFor source (.front body) .wire (some name) n.loc
      let (_, value) ← create (.before inst) .read [wire] type n.loc
      let _ ← createStatement (.before inst) .assign [wire, source] n.loc
      edit (·.setOperand inst index value)
      count fun s => { s with temporaries := s.temporaries + 1 }
    anchorInputs inst names (index + 1) rest

/-- Lets every output of an instance flow into a wire. -/
def anchorInstanceOutputs (inst : NodeId) : Prep Unit := do
  let n ← node inst
  anchorOutputs inst (← portNames (fun _ outputs => outputs) n.op) 0 n.results

/-- Lets every input of an instance come from a wire, a port or a plain read. -/
def anchorInstanceInputs (inst : NodeId) : Prep Unit := do
  let n ← node inst
  anchorInputs inst (← portNames (fun inputs _ => inputs) n.op) 0 n.operands

end NetPrep.Prep
