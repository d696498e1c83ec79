import Mathlib
import NetPrep.Proofs.Naming
import NetPrep.Proofs.Orderly
import NetPrep.Proofs.Recast

/-!
# Names that a module came with

`Module.Closed` says that the table that a module came with has a string behind every name in it,
apart from the names of its nodes. Preparation gives nodes new names but takes every other name from
the module, so the table that the module came with keeps knowing them. Since edits do not look at
names, that is a case of `Recast`: a change that replaces the operations and locations with unknown
names leaves a closed module alone, so it leaves alone what comes of it.
-/

namespace NetPrep

namespace NameTable

/-- A name that both tables inherit has the same string behind it in both. -/
theorem Knows.resolve_eq {t s s' : NameTable} {name : Name} (h : t.Knows name) (hs : t.Within s)
    (hs' : t.Within s') : s'.resolve name = s.resolve name := by
  obtain ⟨text, hn⟩ := h
  rw [hs _ _ hn, hs' _ _ hn]

end NameTable

/-- What a module came with: its own name, and a table with a string behind it. -/
structure Origin extends NameTable where
  title : Name
  knows_title : toNameTable.Knows title

/-- The names in an operation. -/
def Op.names : Op → List Name
  | .inst target name inputs outputs => target :: name :: (inputs ++ outputs).reduceOption
  | .structExtract name | .fieldStorage name | .systemCall name _ | .ifdef name
  | .proceduralIfdef name => [name]
  | _ => []

/-- A table knows the names in an operation. -/
def Op.Closed (t : Origin) (op : Op) : Prop := ∀ name ∈ op.names, t.Knows name

/-- A table knows the file of a location. -/
def Loc.Closed (t : Origin) (loc : Loc) : Prop := ∀ file, loc.file = some file → t.Knows file

theorem Loc.closed_unknown (t : Origin) : Loc.unknown.Closed t := nofun

/-- A table knows the names in a module, apart from those of its nodes. -/
structure Module.Closed (t : Origin) (m : Module) : Prop where
  name : m.name = t.title
  port : ∀ p ∈ m.ports, t.Knows p.name
  field : ∀ fields, .record fields ∈ m.types.entries.toList → ∀ f ∈ fields, t.Knows f.1
  node : ∀ n ∈ m.nodes.toList, n.op.Closed t ∧ n.loc.Closed t

/-- A change that leaves operations and locations alone if the table knows what is in them. -/
structure Recast.Fixes (t : Origin) (r : Recast) : Prop where
  op : ∀ {op : Op}, op.Closed t → r.op op = op
  loc : ∀ {loc : Loc}, loc.Closed t → r.loc loc = loc

/-- The operation without names, or with a given one where there must be one. -/
def Op.blank (name : Name) : Op → Op
  | .inst .. | .structExtract _ | .fieldStorage _ | .systemCall .. => .wire
  | .ifdef _ => .ifdef name
  | .proceduralIfdef _ => .proceduralIfdef name
  | op => op

theorem Op.regionKinds_blank (name : Name) (op : Op) :
    (op.blank name).regionKinds = op.regionKinds := by
  cases op <;> rfl

theorem Op.closed_blank {t : Origin} {name : Name} (h : t.Knows name) (op : Op) :
    (op.blank name).Closed t := by
  intro x hx
  cases op <;> first | exact absurd hx List.not_mem_nil | exact List.mem_singleton.1 hx ▸ h

open Classical in
/-- The change that replaces the operations and locations of which a table does not know all names,
and gives every module the header of a certain one. -/
noncomputable def Recast.blank (t : Origin) (m : Module) : Recast where
  name name := name
  op op := if op.Closed t then op else op.blank m.name
  loc loc := if loc.Closed t then loc else .unknown
  title _ := m.name
  ports _ := m.ports
  types _ := m.types
  name_none := rfl
  regionKinds op := by
    split
    · rfl
    · exact Op.regionKinds_blank _ op

theorem Recast.fixes_blank (t : Origin) (m : Module) : (Recast.blank t m).Fixes t :=
  ⟨fun h => if_pos h, fun h => if_pos h⟩

namespace Module.Closed

variable {t : Origin} {m m' : Module}

theorem recast_blank (h : m.Closed t) : m.recast (.blank t m) = m := by
  have hnodes : m.nodes.map (Node.recast (.blank t m)) = m.nodes := by
    refine Array.ext (by simp) fun i hi _ => ?_
    have hn := h.node _ (Array.mem_toList_iff.2 (Array.getElem_mem (by simpa using hi)))
    rw [Array.getElem_map]
    unfold Node.recast
    rw [(Recast.fixes_blank t m).op hn.1, (Recast.fixes_blank t m).loc hn.2]
    rfl
  unfold recast
  rw [hnodes]
  rfl

/-- The table knows the fields of every type in the module. -/
theorem knows_field (h : m.Closed t) {type : TypeId} {fields : List (Name × TypeId)}
    (hf : m.types.fields type = .ok fields) : ∀ f ∈ fields, t.Knows f.1 := by
  obtain ⟨ty, hty, hf⟩ := bind_eq_ok_iff.1 hf
  cases ty with
  | record fields =>
    cases hf
    exact h.field fields (Array.mem_toList_iff.2
      (Array.mem_of_getElem? (TypeTable.get_eq_ok_iff.1 hty)))
  | _ =>
    cases hf
    exact fun _ hf => absurd hf List.not_mem_nil

/-- A module that the change leaves alone is closed if the one with the header is. -/
theorem of_recast_blank (h : m.Closed t) (hm : m'.recast (.blank t m) = m') : m'.Closed t where
  name := by
    rw [← hm]
    exact h.name
  port := by
    rw [← hm]
    exact h.port
  field := by
    rw [← hm]
    exact h.field
  node := by
    rw [← hm]
    intro n hn
    simp only [recast, Array.toList_map, List.mem_map] at hn
    obtain ⟨n, -, rfl⟩ := hn
    unfold Node.recast Recast.blank
    dsimp only
    constructor
    · split
      · next hop => exact hop
      · exact Op.closed_blank (h.name ▸ t.knows_title) n.op
    · split
      · next hloc => exact hloc
      · exact Loc.closed_unknown t

/-- An edit that commutes with the change keeps a module closed. -/
theorem edit {α : Type} {f : Module → Except Fault (α × Module)} {a : α} (h : m.Closed t)
    (hf : f (m.recast (.blank t m)) = (f m).map fun (a, m') => (a, m'.recast (.blank t m)))
    (hm : f m = .ok (a, m')) : m'.Closed t := by
  rw [h.recast_blank, hm] at hf
  exact h.of_recast_blank (congrArg Prod.snd (Except.ok.inj hf)).symm

/-- Adding a type of storage keeps a module closed. -/
theorem internType (h : m.Closed t) (type : TypeId) : (m.internType (.storage type)).2.Closed t where
  name := h.name
  port := h.port
  field fields hf := by
    refine h.field fields ?_
    change .record fields ∈ (m.types.intern (.storage type)).2.entries.toList at hf
    unfold TypeTable.intern at hf
    split at hf
    · exact hf
    · simpa using hf
  node := h.node

end Module.Closed

end NetPrep
