import NetPrep.Prepare.Inline
import NetPrep.Text.Split

/-!
# Temporaries

Giving a value a declaration of its own. Its uses read the declaration, and a connection right after
its definition stores it there. Where the design already assigns an expression to a declaration, its
other uses can read that one instead.
-/

namespace NetPrep.Prep

/-! ## Names for temporaries -/

/-- The string behind an optional name. -/
def resolve? : Option Name → Prep (Option String)
  | none => return none
  | some name => return some (← resolve name)

/-- The name under which a value appears in the output, if it has an obvious one: that of a port, a
name hint, or that of the declaration that is read. -/
def directName? (v : ValueId) : Prep (Option String) := do
  match (← query (·.value v)).definition with
  | .port index => resolve? (← query fun m => .ok (m.inputName? index))
  | .result id _ =>
    let n ← node id
    match n.name with
    | some hint => return some (← resolve hint)
    | none =>
      if n.op = .read then
        match ← query (·.definingNode? (← query (·.operand id 0))) with
        | some decl => resolve? (← node decl).name
        | none => return none
      else return none

/-- The names of those of the values that have one. -/
def directNames : List ValueId → Prep (List String)
  | [] => return []
  | v :: vs => do
    match ← directName? v with
    | some name => return name :: (← directNames vs)
    | none => directNames vs

/-- The text that a name for the value of a node is made from. -/
def nameBase? (id : NodeId) (v : ValueId) : Prep (Option String) := do
  let n ← node id
  match n.op with
  | .read => directName? v
  | .extract low =>
    match ← directName? (← query (·.operand id 0)) with
    | some name => return some (name ++ "_" ++ toString low)
    | none => return none
  | op =>
    match ← directNames n.operands with
    | [] => return none
    | names => return some (op.mnemonic ++ "_" ++ "_".intercalate names)

/-- A name for the temporary of a value: its hint, or a name made from its operands, which begins
with an underscore. -/
def structuralName? (v : ValueId) : Prep (Option Name) := do
  match ← query (·.definingNode? v) with
  | none => return none
  | some id =>
    match (← node id).name with
    | some hint => return some hint
    | none =>
      match ← nameBase? id v with
      | none => return none
      | some base => return some (← intern (if Text.beginsWith '_' base then base else "_" ++ base))

/-! ## Spilling -/

/-- Lets a use read storage: a read right before the user. -/
def readFor (u : Use) (storage : ValueId) (type : TypeId) (loc : Loc) : Prep NodeId := do
  let (read, value) ← create (.before u.node) .read [storage] type loc
  edit (·.setOperand u.node u.operand value)
  return read

/-- Stores a result of a node into a fresh declaration and lets its uses read that. The declaration
goes right after the node, or to the front of the block. -/
def spillResult (id : NodeId) (result : ValueId) (name : Option Name) (atFront : Bool) :
    Prep Unit := do
  let n ← node id
  let procedural := (← query (·.block n.parent)).isProcedural
  let type ← query (·.valueType result)
  let (decl, storage) ←
    declareFor result (.front n.parent) (if procedural then .logic else .wire) name n.loc
  -- The uses are listed before they are redirected, which takes them off the list.
  (← query (·.value result)).uses.forM fun u => do
    let _ ← readFor u storage type n.loc
  let _ ← createStatement (.after id) (if procedural then .blockingAssign else .assign)
    [storage, result] n.loc
  if !atFront then edit (·.moveNode decl (.after id))
  count fun s => { s with temporaries := s.temporaries + 1 }

/-- Stores every result of a node into a declaration of its own. The declaration of a single result
takes the name of the node, or one made from its operands. -/
def spill (id : NodeId) (atFront : Bool) : Prep Unit := do
  match (← node id).results with
  | [result] =>
    let name ← structuralName? result
    -- The name moves on to the declaration.
    edit (·.setName id none)
    spillResult id result name atFront
  | results => results.forM fun result => spillResult id result none atFront

/-! ## Using an assignment that is there -/

/-- Among the uses of a value, the assignment that stores it and the uses that are none; nothing if
there is more than one assignment, or one in a conditional, or one that stores through the value. -/
def splitAssignment (m : Module) (assignment : Option NodeId) :
    List Use → Except Fault (Option (Option NodeId × List Use))
  | [] => return some (assignment, [])
  | u :: us => do
    if (← m.node u.node).op = .assign then
      if assignment.isSome then return none
      if (← m.parentNode? u.node).isSome then return none
      if u.operand ≠ 1 then return none
      splitAssignment m (some u.node) us
    else
      match ← splitAssignment m assignment us with
      | some (assignment, others) => return some (assignment, u :: others)
      | none => return none

/-- Lets every use of an expression but its only assignment read the declaration that is assigned.
Answers whether a use was redirected. -/
def reuseAssigned (id : NodeId) : Prep Bool := do
  match (← node id).results with
  | [result] =>
    match ← query fun m => do splitAssignment m none (← m.value result).uses with
    | some (some assignment, others) =>
      if others.isEmpty then return false
      -- A constant is printed at each use.
      let source ← query (·.operand assignment 1)
      if (← query (·.definingOp? source)).any (·.isConstant) then return false
      let target ← query (·.operand assignment 0)
      let type ← elementTypeOf target
      let loc := (← node assignment).loc
      others.forM fun u => do inlineEverywhere (← readFor u target type loc)
      match ← query (·.definingNode? target) with
      | some decl => if ← isAlwaysInline decl then inlineEverywhere decl
      | none => pure ()
      count fun s => { s with reused := s.reused + 1 }
      return true
    | _ => return false
  | _ => return false

end NetPrep.Prep
