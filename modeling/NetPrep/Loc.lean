import NetPrep.NameTable

/-!
# Source locations
-/

namespace NetPrep

/-- A place in the source that a node came from, for diagnostics. -/
structure Loc where
  file : Option Name
  line : Nat
  col : Nat
deriving DecidableEq, Repr

namespace Loc

/-- The location of what has none. -/
def unknown : Loc := ⟨none, 0, 0⟩

instance : Inhabited Loc := ⟨unknown⟩

end Loc

end NetPrep
