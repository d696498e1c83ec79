import NetPrep.Netlist.Edit
import NetPrep.Oracle

/-!
# Steps of preparation

The setting in which a module is prepared. A step reads the options and the oracle, changes the
module, the table of names and the counts of what has been done, and may stop for good with a
`Failure`; the module stays as it was changed until then. A `Fault` leaves nothing behind.
-/

namespace NetPrep.Prepare

/-- Counts of the changes made to a module. -/
structure Stats where
  /-- Declarations made for the value of an expression or a port. -/
  temporaries : Nat
  /-- Clones of expressions that are printed at each use. -/
  duplicated : Nat
  /-- Nodes moved out of procedural blocks. -/
  hoisted : Nat
  /-- Variadic operators made into trees. -/
  balanced : Nat
  /-- Expressions whose uses read a declaration that holds them anyway. -/
  reused : Nat
  /-- Uses before definitions that were mended. -/
  forwardRefs : Nat
  /-- Expressions with side effects whose value was captured. -/
  sideEffectsExtracted : Nat
  /-- Dead expressions that were removed. -/
  pruned : Nat
deriving DecidableEq, Repr

namespace Stats

def zero : Stats := ⟨0, 0, 0, 0, 0, 0, 0, 0⟩

def isEmpty (s : Stats) : Bool := s == zero

def add (a b : Stats) : Stats where
  temporaries := a.temporaries + b.temporaries
  duplicated := a.duplicated + b.duplicated
  hoisted := a.hoisted + b.hoisted
  balanced := a.balanced + b.balanced
  reused := a.reused + b.reused
  forwardRefs := a.forwardRefs + b.forwardRefs
  sideEffectsExtracted := a.sideEffectsExtracted + b.sideEffectsExtracted
  pruned := a.pruned + b.pruned

instance : Add Stats := ⟨add⟩

end Stats

/-- Why a module cannot be prepared. -/
inductive Failure where
  /-- An operation that cannot be emitted. -/
  | unsupported (module dialect op : String) (loc : Loc)
  /-- A value that is read but is not storage. -/
  | notStorage (value : ValueId) (module : String)
  /-- A node in a procedural block that belongs to no node. -/
  | ownerless (node : NodeId) (module : String)
deriving DecidableEq, Repr

namespace Failure

def message : Failure → String
  | unsupported module dialect op _ =>
    "module '" ++ module ++ "' contains '" ++ dialect ++ "." ++ op
      ++ "', which cannot be emitted"
  | notStorage value module =>
    "internal compiler error: value#" ++ toString value.index ++ " in module '" ++ module
      ++ "' is read but is not storage"
  | ownerless node module =>
    "internal compiler error: node#" ++ toString node.index ++ " in module '" ++ module
      ++ "' sits in a procedural block with no owner"

/-- The place of the offending node, if the failure has one. -/
def loc : Failure → Loc
  | unsupported _ _ _ loc => loc
  | _ => .unknown

end Failure

/-- What a step may consult. -/
structure Env where
  options : Options
  oracle : Oracle
  moduleName : String
  /-- How many steps each loop may take. -/
  fuel : Nat

/-- What a step changes. -/
structure State where
  module : Module
  names : NameTable
  stats : Stats
deriving DecidableEq

end Prepare

/-- A step of the preparation of a module. -/
abbrev Prep := ReaderT Prepare.Env (ExceptT Prepare.Failure (StateT Prepare.State (Except Fault)))

namespace Prep

open Prepare

/-- Stops with a fault. -/
def fault {α : Type} (f : Fault) : Prep α := fun _ _ => .error f

/-- Stops with a failure. -/
def fail {α : Type} (f : Failure) : Prep α := fun _ s => .ok (.error f, s)

def options : Prep Options := fun env s => .ok (.ok env.options, s)

def fuel : Prep Nat := fun env s => .ok (.ok env.fuel, s)

def moduleName : Prep String := fun env s => .ok (.ok env.moduleName, s)

/-- Asks something about the module. -/
def query {α : Type} (f : Module → Except Fault α) : Prep α := fun _ s =>
  match f s.module with
  | .ok a => .ok (.ok a, s)
  | .error e => .error e

/-- Changes the module. -/
def edit (f : Module → Except Fault Module) : Prep Unit := fun _ ⟨module, names, stats⟩ =>
  match f module with
  | .ok module => .ok (.ok (), ⟨module, names, stats⟩)
  | .error e => .error e

/-- Changes the module, with a result. -/
def editWith {α : Type} (f : Module → Except Fault (α × Module)) : Prep α :=
  fun _ ⟨module, names, stats⟩ =>
    match f module with
    | .ok (a, module) => .ok (.ok a, ⟨module, names, stats⟩)
    | .error e => .error e

/-- Counts what has been done. -/
def count (f : Stats → Stats) : Prep Unit := fun _ s =>
  .ok (.ok (), { s with stats := f s.stats })

/-- The name of a string. -/
def intern (s : String) : Prep Name := fun _ ⟨module, names, stats⟩ =>
  let (name, names) := names.intern s
  .ok (.ok name, ⟨module, names, stats⟩)

/-- The string behind a name. -/
def resolve (name : Name) : Prep String := fun _ s =>
  match s.names.resolve name with
  | .ok a => .ok (.ok a, s)
  | .error e => .error e

/-! ## Questions about nodes -/

def node (id : NodeId) : Prep Node := query (·.node id)

def isExpression (id : NodeId) : Prep Bool := fun env => query (env.oracle.isExpression · id) env

def isInlineable (id : NodeId) : Prep Bool := fun env =>
  query (env.oracle.isInlineableAtUse · id env.options) env

def isAlwaysInline (id : NodeId) : Prep Bool := fun env =>
  query (env.oracle.isAlwaysInline · id) env

def isConstantExpression (id : NodeId) : Prep Bool := fun env =>
  query (env.oracle.isConstantExpression · id) env

def isMemoryEffectFree (id : NodeId) : Prep Bool := fun env =>
  query (env.oracle.isMemoryEffectFree · id) env

/-- The node around a node of a procedural block that sits in a graph block. -/
def enclosingProcess (id : NodeId) : Prep NodeId := do
  match ← query (·.enclosingProcess? id) with
  | some process => return process
  | none => fail (.ownerless id (← moduleName))

/-! ## Making nodes -/

/-- Creates a node without results. -/
def createStatement (pos : Position) (op : Op) (operands : List ValueId) (loc : Loc) :
    Prep NodeId :=
  editWith (·.createNode pos op operands [] loc)

/-- Creates a node with one result: the node and the result. -/
def create (pos : Position) (op : Op) (operands : List ValueId) (type : TypeId) (loc : Loc) :
    Prep (NodeId × ValueId) := do
  let id ← editWith (·.createNode pos op operands [type] loc)
  return (id, ← query (·.result id 0))

/-- The type of storage for a value. -/
def storageTypeOf (v : ValueId) : Prep TypeId := do
  let type ← query (·.valueType v)
  editWith fun m => .ok (m.internType (.storage type))

/-- The type of what storage holds. -/
def elementTypeOf (storage : ValueId) : Prep TypeId := do
  match ← query fun m => do m.types.storedType? (← m.valueType storage) with
  | some type => return type
  | none => fail (.notStorage storage (← moduleName))

/-- Declares storage for a value: the declaration and the storage. -/
def declareFor (v : ValueId) (pos : Position) (op : Op) (name : Option Name) (loc : Loc) :
    Prep (NodeId × ValueId) := do
  let type ← storageTypeOf v
  let (decl, storage) ← create pos op [] type loc
  edit (·.setName decl name)
  return (decl, storage)

end Prep

end NetPrep
