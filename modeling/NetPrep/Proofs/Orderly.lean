import Mathlib
import NetPrep.Proofs.GraphLogic

/-!
# Orderly modules

What the steps of preparation rely on, and what every edit of theirs keeps. `Module.Orderly` says that
a module is sound, that each operation has the operands and results that are looked for in it, that
every type is in the table after its parts, and that every name that is read has a string behind it.
Each relation that describes an edit comes with the condition under which it keeps a module orderly.
-/

namespace NetPrep

/-! ## What is relied on -/

namespace NameTable

/-- A name has a string behind it. -/
def Knows (t : NameTable) (name : Name) : Prop := ∃ text, t.resolve name = .ok text

theorem Knows.intern {t : NameTable} {name : Name} (h : t.Knows name) (text : String) :
    (t.intern text).2.Knows name := by
  obtain ⟨a, ha⟩ := h
  exact ⟨a, resolve_intern_of_resolve ha text⟩

theorem knows_intern (t : NameTable) (text : String) :
    (t.intern text).2.Knows (t.intern text).1 := ⟨text, resolve_intern t text⟩

end NameTable

/-- The names that are read off an operation: those of an instance and of its ports. -/
def Op.portNames : Op → List Name
  | .inst _ name inputs outputs => name :: (inputs ++ outputs).reduceOption
  | _ => []

namespace TypeTable

/-- What steps look for among the operands and results of an operation. -/
def Shapes (t : TypeTable) : Op → List TypeId → List TypeId → Prop
  | .read, os, _ | .extract _, os, _ | .blockingAssign, os, _ => os ≠ []
  | .assign, os, _ => ∃ d s, os = [d, s] ∧ t.elementOf? d = some s
  | .arrayGet, os, _ => 2 ≤ os.length
  | .add, os, rs => os.length = 2 → ∃ r, rs = [r]
  | .structExplode, os, rs =>
    ∃ a fields, os = [a] ∧ t.fields? a = some fields ∧ rs = fields.map (·.2)
  | _, _, _ => True

theorem Shapes.extends {t t' : TypeTable} {op : Op} {os rs : List TypeId} (h : t.Shapes op os rs)
    (ht : t'.Extends t) : t'.Shapes op os rs := by
  cases op with
  | assign =>
    obtain ⟨d, s, hos, he⟩ := h
    exact ⟨d, s, hos, ht.elementOf? he⟩
  | structExplode =>
    obtain ⟨a, fields, hos, hf, hrs⟩ := h
    exact ⟨a, fields, hos, ht.fields? hf, hrs⟩
  | _ => exact h

/-- What callers promise of the types includes what is looked for. -/
theorem shapes_of_fits {t : TypeTable} {op : Op} {os rs : List TypeId}
    (h : t.fits op os rs = true) : t.Shapes op os rs := by
  match op, os, rs, h with
  | .read, [s], [r], _ => exact List.cons_ne_nil s []
  | .extract _, [a], [r], _ => exact List.cons_ne_nil a []
  | .blockingAssign, [d, s], [], _ => exact List.cons_ne_nil d [s]
  | .assign, [d, s], [], h => exact ⟨d, s, rfl, by simpa [fits] using h⟩
  | .arrayGet, [a, i], [r], _ => exact Nat.le_refl 2
  | .add, o :: os, [r], _ => exact fun _ => ⟨r, rfl⟩
  | .structExplode, [a], rs, h =>
    obtain ⟨fields, hf, hrs⟩ := Option.map_eq_some_iff.1 (beq_iff_eq.1 (Bool.and_eq_true_iff.1 h).2)
    exact ⟨a, fields, rfl, hf, hrs.symm⟩
  | .wire, _, _, _ | .reg, _, _, _ | .logic, _, _, _ | .nonblockingAssign, _, _, _
  | .inst .., _, _, _ | .output, _, _, _ | .constant _, _, _, _ | .mul, _, _, _ | .and, _, _, _
  | .or, _, _, _ | .xor, _, _, _ | .sub, _, _, _ | .shl, _, _, _ | .shru, _, _, _
  | .compare _, _, _, _ | .mux, _, _, _ | .concat, _, _, _ | .replicate, _, _, _
  | .bitcast, _, _, _ | .structCreate, _, _, _ | .structExtract _, _, _, _
  | .elementStorage, _, _, _ | .fieldStorage _, _, _, _ | .systemCall .., _, _, _
  | .verbatim .., _, _, _ | .always _, _, _, _ | .alwaysFF .., _, _, _ | .alwaysComb, _, _, _
  | .initial, _, _, _ | .cond, _, _, _ | .ifdef _, _, _, _ | .proceduralIfdef _, _, _, _
  | .fwrite _, _, _, _ | .foreign .., _, _, _ => trivial

/-- A type whose parts are in the table comes after them. -/
theorem Grounded.intern {t : TypeTable} (h : t.Grounded) {ty : HwType}
    (hparts : ∀ part ∈ ty.parts, ∃ entry, t.entry? part = some entry) : (t.intern ty).2.Grounded := by
  unfold TypeTable.intern
  split
  · exact h
  · intro id type hid part hpart
    by_cases hlt : id.index < t.entries.size
    · unfold entry? at hid
      rw [Array.getElem?_push_lt hlt, ← Array.getElem?_eq_getElem hlt] at hid
      exact h id type hid part hpart
    · -- The new type is the last one.
      have heq : id.index = t.entries.size ∧ type = ty := by
        simp only [Array.getElem?_push, entry?] at hid
        split at hid
        · next heq => exact ⟨heq, (Option.some.inj hid).symm⟩
        · next hne =>
          obtain ⟨hlt', -⟩ := Array.getElem?_eq_some_iff.1 hid
          exact absurd hlt' hlt
      obtain ⟨heq, rfl⟩ := heq
      obtain ⟨entry, hentry⟩ := hparts part hpart
      obtain ⟨hlt', -⟩ := Array.getElem?_eq_some_iff.1 hentry
      exact heq ▸ hlt'

end TypeTable

namespace Module

variable {m m' : Module} {names : NameTable} {id : NodeId} {n : Node} {b : BlockId}
  {pos : Position} {types : List TypeId} {v old new : ValueId}

/-- A node has the operands and results that are looked for in it. -/
def Shaped (m : Module) (n : Node) : Prop :=
  ∃ os rs, n.operands.mapM m.type? = some os ∧ n.results.mapM m.type? = some rs ∧
    m.types.Shapes n.op os rs

theorem Typed.shaped (h : m.Typed n) : m.Shaped n := by
  obtain ⟨os, rs, hos, hrs, hfits⟩ := h
  exact ⟨os, rs, hos, hrs, TypeTable.shapes_of_fits hfits⟩

theorem Shaped.kept (h : m.Shaped n) (hk : m.Kept m') : m'.Shaped n := by
  obtain ⟨os, rs, hos, hrs, hshape⟩ := h
  exact ⟨os, rs, mapM_type?_kept hk hos, mapM_type?_kept hk hrs, hshape.extends hk.extends⟩

theorem Usable.exists_type (h : m.Usable v) : ∃ t, m.type? v = some t := by
  obtain ⟨d, hd, -⟩ := h
  obtain ⟨x, hx, -⟩ := Option.map_eq_some_iff.1 hd
  exact ⟨x.type, by rw [type?, hx, Option.map_some]⟩

theorem exists_mapM_type? {vs : List ValueId} (h : ∀ v ∈ vs, ∃ t, m.type? v = some t) :
    ∃ ts, vs.mapM m.type? = some ts := by
  induction vs with
  | nil => exact ⟨[], rfl⟩
  | cons v vs ih =>
    obtain ⟨t, ht⟩ := h v (by simp)
    obtain ⟨ts, hts⟩ := ih fun w hw => h w (List.mem_cons_of_mem _ hw)
    exact ⟨t :: ts, by simp [List.mapM_cons, ht, hts]⟩

/-- Every type of a value is in the table, and the table is built from the parts up. -/
structure HasTypes (m : Module) : Prop where
  entry : ∀ {v t}, m.type? v = some t → ∃ ty, m.types.entry? t = some ty
  grounded : m.types.Grounded

/-- Every name that is read has a string behind it. -/
structure Named (m : Module) (names : NameTable) : Prop where
  self : names.Knows m.name
  port : ∀ p ∈ m.ports, names.Knows p.name
  hint : ∀ {id n name}, m.live? id = some n → n.name = some name → names.Knows name
  inst : ∀ {id n name}, m.live? id = some n → name ∈ n.op.portNames → names.Knows name

/-- A sound module in which every step finds what it looks for. -/
structure Orderly (m : Module) (names : NameTable) : Prop extends Sound m, HasTypes m, Named m names where
  shaped : ∀ {id n}, m.live? id = some n → m.Shaped n

namespace Orderly

theorem intern (h : m.Orderly names) (text : String) : m.Orderly (names.intern text).2 where
  toSound := h.toSound
  toHasTypes := h.toHasTypes
  self := h.self.intern text
  port p hp := (h.port p hp).intern text
  hint hn hname := (h.hint hn hname).intern text
  inst hn hname := (h.inst hn hname).intern text
  shaped := h.shaped

/-- An edit keeps a module orderly if each node afterwards was there before, but for its operands, or
is as it should be. -/
theorem of_kept (h : m.Orderly names) (hs' : Sound m') (hk : m.Kept m') (ht : m'.HasTypes)
    (hnodes : ∀ {j n'}, m'.live? j = some n' → m'.Shaped n' ∧
      ((∃ n, m.live? j = some n ∧ n'.op = n.op ∧ n'.name = n.name) ∨
        ((∀ name, n'.name = some name → names.Knows name) ∧
          ∀ name ∈ n'.op.portNames, names.Knows name))) : m'.Orderly names where
  toSound := hs'
  toHasTypes := ht
  self := hk.name ▸ h.self
  port := hk.ports ▸ h.port
  hint hj hname := by
    obtain ⟨-, ⟨n, hn, -, hsame⟩ | ⟨hknown, -⟩⟩ := hnodes hj
    · exact h.hint hn (hsame ▸ hname)
    · exact hknown _ hname
  inst hj hname := by
    obtain ⟨-, ⟨n, hn, hop, -⟩ | ⟨-, hknown⟩⟩ := hnodes hj
    · exact h.inst hn (hop ▸ hname)
    · exact hknown _ hname
  shaped hj := (hnodes hj).1

/-! ## Edits -/

theorem creates (h : m.Orderly names) (hc : m.Creates m' b pos id n types) (hs' : Sound m')
    (htable : m'.types = m.types) (hshape : m'.Shaped n)
    (htypes : ∀ t ∈ types, ∃ ty, m.types.entry? t = some ty)
    (hname : ∀ name, n.name = some name → names.Knows name)
    (hports : ∀ name ∈ n.op.portNames, names.Knows name) : m'.Orderly names := by
  refine h.of_kept hs' hc.kept ⟨fun {v t} ht => ?_, htable ▸ h.grounded⟩ fun {j nj} hj => ?_
  · rw [htable]
    by_cases hlt : v.index < m.values.size
    · exact h.entry (hc.type?_of_lt hlt ▸ ht)
    · -- The value is a result of the new node.
      have hres : ∃ i : Nat, n.results[i]? = some v := by
        have hlt' := lt_of_type? ht
        rw [hc.values_size] at hlt'
        refine ⟨v.index - m.values.size, ?_⟩
        rw [hc.results, getElem?_nextValues]
        refine ⟨by omega, ?_⟩
        cases v
        simp only [ValueId.mk.injEq]
        simp only at hlt
        omega
      obtain ⟨i, hi⟩ := hres
      exact htypes t (List.mem_of_getElem? ((hc.type?_result hi).symm.trans ht))
  · obtain ⟨-, rfl⟩ | ⟨-, hj⟩ := hc.live_cases hj
    · exact ⟨hshape, Or.inr ⟨hname, hports⟩⟩
    · exact ⟨(h.shaped hj).kept hc.kept, Or.inl ⟨nj, hj, rfl, rfl⟩⟩

theorem moves (h : m.Orderly names) (hm : m.Moves m' b pos id) (hs' : Sound m') :
    m'.Orderly names := by
  refine h.of_kept hs' hm.kept ⟨fun ht => ?_, hm.types ▸ h.grounded⟩ fun {j nj} hj => ?_
  · rw [hm.type?] at ht
    exact hm.types ▸ h.entry ht
  · obtain ⟨n, hn, rfl⟩ := hm.live_cases hj
    have hshape : m'.Shaped n := (h.shaped hn).kept hm.kept
    exact ⟨hshape, Or.inl ⟨n, hn, rfl, rfl⟩⟩

theorem erases (h : m.Orderly names) (he : m.Erases m' id) (hs' : Sound m') :
    m'.Orderly names := by
  refine h.of_kept hs' he.kept ⟨fun ht => ?_, he.types ▸ h.grounded⟩ fun {j nj} hj => ?_
  · rw [he.type?] at ht
    exact he.types ▸ h.entry ht
  · obtain ⟨-, hj⟩ := he.live_cases hj
    exact ⟨(h.shaped hj).kept he.kept, Or.inl ⟨nj, hj, rfl, rfl⟩⟩

/-- Naming a node keeps a module orderly if the name is known. -/
theorem relabels (h : m.Orderly names) {name : Option Name → Option Name} {twoState : Bool → Bool}
    (hl : m.Relabels m' id name twoState) (hs' : Sound m')
    (hname : ∀ n x, m.live? id = some n → name n.name = some x → names.Knows x) :
    m'.Orderly names := by
  refine h.of_kept hs' hl.kept ⟨fun ht => ?_, hl.types ▸ h.grounded⟩ fun {j nj} hj => ?_
  · rw [hl.type?] at ht
    exact hl.types ▸ h.entry ht
  · obtain ⟨n, hn, rfl⟩ := hl.live_cases hj
    have hshape : m'.Shaped n := (h.shaped hn).kept hl.kept
    refine ⟨hshape, ?_⟩
    by_cases hji : j = id
    · subst hji
      exact Or.inr ⟨fun x hx => hname n x hn (by simpa using hx), fun x hx => h.inst hn hx⟩
    · exact Or.inl ⟨n, hn, rfl, by simp [hji]⟩

theorem mapM_congr_map {α β : Type} {f : α → Option β} {l l' : List α} (h : l'.map f = l.map f) :
    l'.mapM f = l.mapM f := by
  have hid : ∀ l : List α, l.mapM f = (l.map f).mapM id := fun l => by simp [List.mapM_map]
  rw [hid, h, ← hid]

/-- Redirecting operands keeps a module orderly if their types stay. -/
theorem redirects (h : m.Orderly names) {f : NodeId → List ValueId → List ValueId}
    (hr : m.Redirects m' f) (hs' : Sound m')
    (htypes : ∀ j n, m.live? j = some n → (f j n.operands).map m.type? = n.operands.map m.type?) :
    m'.Orderly names := by
  refine h.of_kept hs' hr.kept ⟨fun ht => ?_, hr.types ▸ h.grounded⟩ fun {j nj} hj => ?_
  · rw [hr.type?] at ht
    exact hr.types ▸ h.entry ht
  · obtain ⟨n, hn, rfl⟩ := hr.live_cases hj
    refine ⟨?_, Or.inl ⟨n, hn, rfl, rfl⟩⟩
    obtain ⟨os, rs, hos, hrs, hshape⟩ := (h.shaped hn).kept hr.kept
    refine ⟨os, rs, ?_, hrs, hshape⟩
    have htype : m'.type? = m.type? := funext hr.type?
    rw [htype] at hos ⊢
    exact (mapM_congr_map (htypes j n hn)).trans hos

/-- Pointing an operand at a value of its type. -/
theorem pointsAt (h : m.Orderly names) {u : Use} {w x : ValueId} (hr : m.Redirects m' (pointAt u x))
    (hs' : Sound m') (hu : m.Uses u w) (htype : m.type? x = m.type? w) : m'.Orderly names := by
  refine h.redirects hr hs' fun j n hn => ?_
  unfold pointAt
  split
  · next hj =>
    subst hj
    obtain ⟨n', hn', hw⟩ := hu
    obtain rfl := Option.some.inj (hn.symm.trans hn')
    refine List.ext_getElem? fun k => ?_
    by_cases hk : u.operand = k
    · subst hk
      obtain ⟨hlt, -⟩ := List.getElem?_eq_some_iff.1 hw
      rw [List.getElem?_map, List.getElem?_set_self hlt, List.getElem?_map, hw]
      exact congrArg some htype
    · simp [List.getElem?_set_ne hk]
  · rfl

/-- Pointing all operands that are a value at another one of its type. -/
theorem substitutes (h : m.Orderly names) (hr : m.Redirects m' (substitute old new))
    (hs' : Sound m') (htype : m.type? new = m.type? old) : m'.Orderly names := by
  refine h.redirects hr hs' fun j n hn => ?_
  unfold substitute
  rw [List.map_map]
  refine List.map_congr_left fun w _ => ?_
  by_cases hw : w = old
  · simp [hw, htype]
  · simp [hw]

/-- Adding a type whose parts are in the table. -/
theorem addsType (h : m.Orderly names) {ty : HwType}
    (hparts : ∀ part ∈ ty.parts, ∃ entry, m.types.entry? part = some entry) :
    (m.internType ty).2.Orderly names := by
  obtain ⟨ha, hs'⟩ := h.toSound.internType ty
  refine h.of_kept hs' ha.kept ⟨fun {v t} ht => ?_, ?_⟩ fun {j nj} hj => ?_
  · obtain ⟨entry, hentry⟩ := h.entry (v := v) (t := t) (by rwa [type?, ha.value?] at ht)
    exact ⟨entry, TypeTable.entry?_eq_some_iff.2 (ha.kept.types (TypeTable.entry?_eq_some_iff.1 hentry))⟩
  · exact h.grounded.intern hparts
  · rw [ha.live?] at hj
    exact ⟨(h.shaped hj).kept ha.kept, Or.inl ⟨nj, hj, rfl, rfl⟩⟩

end Orderly

end Module

end NetPrep
