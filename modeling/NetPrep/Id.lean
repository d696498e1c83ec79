/-!
# Identifiers

Nodes, values, blocks and types of a module are kept in stores that only grow, and are named by
their place there. Each kind of entity has an identifier type of its own, so that the place of a
node is never taken for the place of a value.
-/

namespace NetPrep

/-- A module of a design. -/
structure ModuleId where
  index : Nat
deriving DecidableEq, Repr

/-- A node of a module: one operation. -/
structure NodeId where
  index : Nat
deriving DecidableEq, Repr

/-- A value of a module: an input port or a result of a node. -/
structure ValueId where
  index : Nat
deriving DecidableEq, Repr

/-- A block of a module: the ordered node list of a region. -/
structure BlockId where
  index : Nat
deriving DecidableEq, Repr

/-- An interned type of a module. -/
structure TypeId where
  index : Nat
deriving DecidableEq, Repr

/-- An interned name: of a module, a port, a declaration, a field or a file. -/
structure Name where
  index : Nat
deriving DecidableEq, Repr

end NetPrep
