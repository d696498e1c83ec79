import NetPrep.Netlist.Serial

/-!
# Designs

A design is a list of modules over one table of names.
-/

namespace NetPrep

/-- The modules to be emitted, and the names that they refer to. -/
structure Design where
  modules : Array Module
  names : NameTable
deriving DecidableEq

namespace Design

def empty : Design := ⟨#[], .empty⟩

def module (d : Design) (id : ModuleId) : Except Fault Module :=
  match d.modules[id.index]? with
  | some m => .ok m
  | none => .error (.noModule id)

/-- Adds a module at the end. -/
def addModule (d : Design) (m : Module) : ModuleId × Design :=
  (⟨d.modules.size⟩, { d with modules := d.modules.push m })

def moduleName (d : Design) (id : ModuleId) : Except Fault String := do
  d.names.resolve (← d.module id).name

/-- The first module with a name. -/
def findModule? (d : Design) (name : String) : Option ModuleId := do
  let name ← d.names.find? name
  let index ← d.modules.toList.findIdx? (·.name == name)
  return ⟨index⟩

def toJson (d : Design) : Json :=
  .obj [("modules", storeToJson Module.toJson d.modules), ("interner", d.names.toJson)]

def ofJson? (x : Json) : Option Design := do
  match ← x.fields? ["modules", "interner"] with
  | [modules, names] =>
    return {
      modules := ← Json.required (storeOfJson? Module.ofJson?) modules
      names := ← Json.required NameTable.ofJson? names }
  | _ => none

end Design

end NetPrep
