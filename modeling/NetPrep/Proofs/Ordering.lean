import Mathlib
import NetPrep.Prepare.Order
import NetPrep.Proofs.Spilling

/-!
# Declarations before statements, definitions before uses

Moving declarations to the front of their scope, and the nodes of a graph block that are used too
early to its front, as edits of a sound module.
-/

namespace NetPrep

open Prepare Prep

namespace Module

variable {m m' : Module} {id : NodeId} {scope block : BlockId}

/-- The place of the next declaration of a scope. -/
def declarationPlace (scope : BlockId) : Option NodeId → Position
  | some placed => .after placed
  | none => .front scope

/-- The declarations among nodes move to the front of a scope, one after another. -/
inductive PlacesDeclarations (scope : BlockId) :
    Option NodeId → List NodeId → Module → Module → Prop
  | nil (placed : Option NodeId) (m : Module) : PlacesDeclarations scope placed [] m m
  | skip {placed : Option NodeId} {id : NodeId} {rest : List NodeId} {n : Node} {m m' : Module}
      (hn : m.live? id = some n) (hop : n.op ≠ .logic)
      (hrest : PlacesDeclarations scope placed rest m m') :
      PlacesDeclarations scope placed (id :: rest) m m'
  | stay {placed : Option NodeId} {id : NodeId} {rest : List NodeId} {n : Node} {m m' : Module}
      (hn : m.live? id = some n) (hop : n.op = .logic) (hparent : n.parent = scope)
      (hprev : ∃ l r, m.nodesOf scope = l ++ id :: r ∧ l.getLast? = placed)
      (hrest : PlacesDeclarations scope (some id) rest m m') :
      PlacesDeclarations scope placed (id :: rest) m m'
  | move {placed : Option NodeId} {id : NodeId} {rest : List NodeId} {n : Node} {m m₁ m' : Module}
      (hn : m.live? id = some n) (hop : n.op = .logic)
      (hm : m.Moves m₁ scope (declarationPlace scope placed) id) (hs₁ : Sound m₁)
      (hrest : PlacesDeclarations scope (some id) rest m₁ m') :
      PlacesDeclarations scope placed (id :: rest) m m'

/-- A node can stand anywhere: it is a constant, or has no operands and declares storage. -/
def Placeable (m : Module) (n : Node) : Prop :=
  n.op.isConstant = true ∨ (n.operands = [] ∧
    ∃ v type, n.results = [v] ∧ m.type? v = some type ∧ m.types.isStorage type = .ok true)

/-- A node of a graph block is made to come before the nodes that use it. -/
inductive Resolves (block : BlockId) (id : NodeId) (m m' : Module) : Prop
  | front {n : Node} (hn : m.live? id = some n) (hplace : m.Placeable n)
      (hm : m.Moves m' block (.front block) id) (hs : Sound m')
  | read {n nd : Node} {decl : NodeId} {storage : ValueId} {i : Nat} {m₁ : Module}
      (hn : m.live? id = some n) (hop : n.op = .read) (hstorage : n.operands[0]? = some storage)
      (hdef : m.def? storage = some (.result decl i)) (hd : m.live? decl = some nd)
      (hplace : m.Placeable nd) (hm₁ : m.Moves m₁ block (.front block) id) (hs₁ : Sound m₁)
      (hm : m₁.Moves m' block (.front block) decl) (hs : Sound m')
  | spill (hnot : ∀ n, m.live? id = some n → ¬ m.Placeable n) (h : m.Spills id true m')

/-- The nodes of a graph block are resolved one after another. -/
inductive ResolvesAll (block : BlockId) : List NodeId → Module → Module → Prop
  | nil (m : Module) : ResolvesAll block [] m m
  | cons {id : NodeId} {ids : List NodeId} {m m₁ m' : Module} (h : m.Resolves block id m₁)
      (hrest : ResolvesAll block ids m₁ m') : ResolvesAll block (id :: ids) m m'

/-- A node of a block is used by a node of the block that comes before it, or inside such a node. -/
def UsedEarly (m : Module) (block : BlockId) (id : NodeId) : Prop :=
  ∃ n v u a, m.live? id = some n ∧ v ∈ n.results ∧ m.Uses u v ∧ m.Around a u.node ∧
    Precedes (m.nodesOf block) a id

end Module

/-- What can stand anywhere has no regions. -/
theorem Sound.regionKinds_of_placeable {m : Module} {id : NodeId} {n : Node} (hs : Sound m)
    (hn : m.live? id = some n) (h : m.Placeable n) : n.op.regionKinds = [] := by
  rcases h with hconst | ⟨-, v, type, hres, -⟩
  · cases hop : n.op <;> simp_all [Op.isConstant, Op.regionKinds]
  · refine hs.toNested.regionKinds_eq_nil hn ?_
    by_contra hne
    have hnil := hs.owner hn hne
    rw [hres] at hnil
    cases hnil

theorem Sound.regions_of_placeable {m : Module} {id : NodeId} {n : Node} (hs : Sound m)
    (hn : m.live? id = some n) (h : m.Placeable n) : n.regions = [] :=
  hs.toNested.regions_eq_nil hn (hs.regionKinds_of_placeable hn h)

namespace Module

variable {m m' : Module} {id : NodeId} {scope block : BlockId}

theorem PlacesDeclarations.edits {placed : Option NodeId} {ids : List NodeId}
    (h : PlacesDeclarations scope placed ids m m') (hs : Sound m) : Edits m m' := by
  induction h with
  | nil => exact .refl hs
  | skip _ _ _ ih => exact ih hs
  | stay _ _ _ _ _ ih => exact ih hs
  | move hn hop hm hs₁ _ ih =>
    exact (hm.edits hs hs₁ hn (by rw [hop]; rfl)).trans (ih hs₁)

theorem Resolves.edits (h : m.Resolves block id m') (hs : Sound m) : Edits m m' := by
  cases h with
  | front hn hplace hm hs' => exact hm.edits hs hs' hn (hs.regionKinds_of_placeable hn hplace)
  | read hn hop _ _ hd hplace hm₁ hs₁ hm hs' =>
    have hkinds := hs.regionKinds_of_placeable hd hplace
    exact (hm₁.edits hs hs₁ hn (by rw [hop]; rfl)).trans (hm.edits hs₁ hs' (hm₁.live hd) hkinds)
  | spill _ h => exact h.edits hs

/-- When a node is resolved, none is erased, and one that moves comes into the block. -/
theorem Resolves.live {j : NodeId} {n : Node} (h : m.Resolves block id m')
    (hj : m.live? j = some n) : ∃ n', m'.live? j = some n' ∧ n'.op = n.op ∧
      n'.results = n.results ∧ (n'.parent = n.parent ∨ n'.parent = block) := by
  cases h with
  | front _ _ hm =>
    refine ⟨_, hm.live hj, rfl, rfl, ?_⟩
    by_cases hji : j = id <;> simp [hji]
  | @read _ _ decl _ _ m₁ _ _ _ _ _ _ hm₁ _ hm _ =>
    refine ⟨_, hm.live (hm₁.live hj), rfl, rfl, ?_⟩
    by_cases hjd : j = decl <;> by_cases hji : j = id <;> simp [hjd, hji]
  | spill _ h =>
    obtain ⟨n', hn', hop, hres, hp⟩ := h.live hj
    exact ⟨n', hn', hop, hres, Or.inl hp⟩

theorem ResolvesAll.edits {ids : List NodeId} (h : ResolvesAll block ids m m') (hs : Sound m) :
    Edits m m' := by
  induction h with
  | nil => exact .refl hs
  | cons h _ ih =>
    have h₁ := h.edits hs
    exact h₁.trans (ih h₁.sound)

end Module

namespace Prep

variable {env : Env} {s s' : State} {id : NodeId} {n : Node} {scope block : BlockId} {r : Unit}

theorem placeDeclarations_runs {placed : Option NodeId} {ids : List NodeId} (hs : Sound s.module)
    (hscope : s.module.Placed scope) (hids : ∀ j ∈ ids, ∃ n, s.module.live? j = some n)
    (hnodup : ids.Nodup)
    (hplaced : ∀ p, placed = some p → p ∉ ids ∧ p ∈ s.module.nodesOf scope)
    (h : (placeDeclarations scope placed ids).Runs env s r s') :
    s.module.PlacesDeclarations scope placed ids s'.module := by
  induction ids generalizing s placed with
  | nil =>
    obtain ⟨-, rfl⟩ := runs_pure.1 h
    exact .nil _ _
  | cons id ids ih =>
    obtain ⟨n, hn⟩ := hids id (by simp)
    obtain ⟨nd, hnd, he, rfl⟩ := Module.exists_of_live? hn
    obtain ⟨hnot, hnodup⟩ := List.nodup_cons.1 hnodup
    simp only [placeDeclarations, runs_bind, runs_node] at h
    obtain ⟨nd', _, ⟨hnd', rfl⟩, h⟩ := h
    obtain rfl : nd = nd' := by simpa using hnd.symm.trans hnd'
    split at h
    · next hop =>
      split at h
      · simp only [runs_bind, runs_edit] at h
        obtain ⟨_, _, ⟨m₁, hm₁, rfl⟩, h⟩ := h
        have hregions : nd.regions = [] := hs.toNested.regions_eq_nil (n := nd.core) hn (by
          change nd.op.regionKinds = []
          rw [hop]
          rfl)
        have hpos : (Module.declarationPlace scope placed).In s.module.nodesOf scope := by
          cases placed with
          | none => rfl
          | some p => exact (hplaced p rfl).2
        obtain ⟨hm, hs₁⟩ := hs.moveNode (p := Module.declarationPlace scope placed) hn hregions hpos
          hscope (by cases placed <;> simp [Module.declarationPlace])
          (by
            cases placed with
            | none => simp [Module.declarationPlace]
            | some p =>
              have hne : p ≠ id := fun he => (hplaced p rfl).1 (by simp [he])
              simpa [Module.declarationPlace] using hne) hm₁
        have hself : id ∈ m₁.nodesOf scope :=
          hs₁.toWellFormed.mem_nodesOf_iff.2 ⟨_, hm.live hn, if_pos rfl⟩
        refine .move hn hop hm hs₁ (ih (s := { s with module := m₁ }) hs₁ ?_ ?_ hnodup ?_ h)
        · exact Nested.placed_of_kept hm.kept (fun {j n} hj hne => by
            have hji : j ≠ id := by
              rintro rfl
              rw [hn] at hj
              cases hj
              exact hne hregions
            exact ⟨_, hm.live hj, rfl, if_neg hji⟩) hscope
        · intro j hj
          obtain ⟨nj, hnj⟩ := hids j (List.mem_cons_of_mem _ hj)
          exact ⟨_, hm.live hnj⟩
        · rintro p ⟨⟩
          exact ⟨hnot, hself⟩
      · next hstay =>
        obtain ⟨hparent, hprev⟩ := not_or.1 hstay
        rw [not_not] at hparent hprev
        have hmem : id ∈ s.module.nodesOf scope :=
          hs.toWellFormed.mem_nodesOf_iff.2 ⟨_, hn, hparent⟩
        obtain ⟨l, r, hl⟩ := List.append_of_mem hmem
        refine .stay hn hop hparent ⟨l, r, hl, ?_⟩ (ih hs hscope
          (fun j hj => hids j (List.mem_cons_of_mem _ hj)) hnodup ?_ h)
        · rw [← hprev]
          exact (hs.linked.link hl hnd).1.symm
        · rintro p ⟨⟩
          exact ⟨hnot, hmem⟩
    · next hop =>
      exact .skip hn hop (ih hs hscope (fun j hj => hids j (List.mem_cons_of_mem _ hj)) hnodup
        (fun p hp => ⟨fun hm => (hplaced p hp).1 (List.mem_cons_of_mem _ hm), (hplaced p hp).2⟩) h)

/-! ## Definitions before uses -/

theorem anyUserSeen_eq_ok {m : Module} {seen : IdMap Unit} {users : List NodeId} {b : Bool}
    (hs : Sound m) (husers : ∀ j ∈ users, ∃ n, m.live? j = some n)
    (h : anyUserSeen m block seen users = .ok b) :
    b = true ↔ ∃ j ∈ users, ∃ a, (m.Around a j ∧ a ∈ m.nodesOf block) ∧
      seen.contains a.index = true := by
  induction users with
  | nil =>
    cases h
    simp
  | cons user users ih =>
    obtain ⟨n, hn⟩ := husers user (by simp)
    obtain ⟨ancestor, hancestor, h⟩ := bind_eq_ok_iff.1 h
    have hfound : ∀ a, ancestor = some a ↔ m.Around a user ∧ a ∈ m.nodesOf block :=
      fun a => hs.ancestorWithin_eq_ok hn hancestor
    have hrest := ih fun j hj => husers j (List.mem_cons_of_mem _ hj)
    simp only [List.mem_cons, exists_eq_or_imp, ← hfound]
    cases ancestor with
    | none => simpa only [reduceCtorEq, false_and, exists_false, false_or] using hrest h
    | some a =>
      simp only at h
      split at h
      · next hseen =>
        cases h
        exact iff_of_true rfl (Or.inl ⟨a, rfl, hseen⟩)
      · next hseen =>
        have hnot : ¬ ∃ a', some a = some a' ∧ seen.contains a'.index = true := by
          rintro ⟨a', ⟨⟩, ha'⟩
          exact hseen ha'
        rw [hrest h, or_iff_right hnot]

/-- The marks on the nodes before one become those on the nodes up to it. -/
theorem contains_insert_iff {seen : IdMap Unit} {pre : List NodeId} {a x : NodeId}
    (hseen : seen.contains a.index = true ↔ a ∈ pre) :
    (seen.insert x.index ()).contains a.index = true ↔ a ∈ pre ++ [x] := by
  unfold IdMap.contains at hseen ⊢
  rw [IdMap.get?_insert, List.mem_append, List.mem_singleton]
  split
  · next hi =>
    obtain rfl : a = x := by
      cases a
      cases x
      simpa using hi.symm
    exact iff_of_true rfl (Or.inr rfl)
  · next hi =>
    have hne : a ≠ x := fun he => hi (he ▸ rfl)
    rw [or_iff_left hne, hseen]

/-- A node is used early if a user of it is marked, or sits in a node that is, as long as the marks
are on the nodes before it. -/
theorem anyUserSeen_users_eq_ok {m : Module} {seen : IdMap Unit} {pre rest : List NodeId}
    {x : NodeId} {nd : Node} {uses : List Use} {early : Bool} (hs : Sound m)
    (hlist : m.nodesOf block = pre ++ x :: rest)
    (hseen : ∀ a ∈ m.nodesOf block, seen.contains a.index = true ↔ a ∈ pre)
    (hnd : m.node? x = some nd) (huses : m.nodeUses x = .ok uses)
    (h : anyUserSeen m block seen (uses.map (·.node)) = .ok early) :
    early = true ↔ m.UsedEarly block x := by
  have hmem : ∀ u, u ∈ uses ↔ ∃ v ∈ nd.results, m.Uses u v := fun u =>
    hs.recorded.mem_nodeUses_iff hnd huses
  have hlive : ∀ j ∈ uses.map (·.node), ∃ n, m.live? j = some n := by
    intro j hj
    obtain ⟨u, hu, rfl⟩ := List.mem_map.1 hj
    obtain ⟨v, -, n, hn, -⟩ := (hmem u).1 hu
    exact ⟨n, hn⟩
  have hbefore : ∀ {a}, Precedes (m.nodesOf block) a x ↔ a ∈ pre := by
    intro a
    rw [hlist]
    exact Precedes.split_iff (hlist ▸ hs.nodup block)
  have hx : x ∈ m.nodesOf block := by simp [hlist]
  obtain ⟨n, hn, -⟩ := hs.mem_nodesOf_iff.1 hx
  obtain ⟨nd', hnd', -, rfl⟩ := Module.exists_of_live? hn
  obtain rfl : nd = nd' := by simpa using hnd.symm.trans hnd'
  rw [anyUserSeen_eq_ok hs hlive h]
  constructor
  · rintro ⟨j, hj, a, ⟨haround, ha⟩, hcontains⟩
    obtain ⟨u, hu, rfl⟩ := List.mem_map.1 hj
    obtain ⟨v, hv, huse⟩ := (hmem u).1 hu
    exact ⟨_, v, u, a, hn, hv, huse, haround, hbefore.2 ((hseen a ha).1 hcontains)⟩
  · rintro ⟨n', v, u, a, hn', hv, huse, haround, hprec⟩
    obtain rfl := Option.some.inj (hn.symm.trans hn')
    exact ⟨u.node, List.mem_map.2 ⟨u, (hmem u).2 ⟨v, hv, huse⟩, rfl⟩, a,
      ⟨haround, hprec.mem_left⟩, (hseen a hprec.mem_left).2 (hbefore.1 hprec)⟩

/-- The nodes that are used early are found, in order. -/
theorem usedBefore_eq_ok {m : Module} {seen : IdMap Unit} {pre rest ids : List NodeId}
    (hs : Sound m) (hlist : m.nodesOf block = pre ++ rest)
    (hseen : ∀ a ∈ m.nodesOf block, seen.contains a.index = true ↔ a ∈ pre)
    (h : usedBefore m block seen rest = .ok ids) :
    ids.Sublist rest ∧ ∀ id, id ∈ ids ↔ id ∈ rest ∧ m.UsedEarly block id := by
  induction rest generalizing pre seen ids with
  | nil =>
    cases h
    simp
  | cons x rest ih =>
    obtain ⟨n, hn, -⟩ := hs.mem_nodesOf_iff.1 (show x ∈ m.nodesOf block by simp [hlist])
    obtain ⟨nd, hnd, -, rfl⟩ := Module.exists_of_live? hn
    simp only [usedBefore, Module.users, bind_eq_ok_iff] at h
    obtain ⟨users, ⟨uses, huses, husers⟩, early, hearly, later, hlater, h⟩ := h
    cases husers
    have hxearly := anyUserSeen_users_eq_ok hs hlist hseen hnd huses hearly
    obtain ⟨hsub, hids⟩ := @ih _ (pre ++ [x]) _ (by simp [hlist])
      (fun a ha => contains_insert_iff (hseen a ha)) hlater
    cases early with
    | true =>
      cases h
      refine ⟨hsub.cons_cons x, fun id => ?_⟩
      have hx := hxearly.1 rfl
      simp only [if_true, List.mem_cons, hids, or_and_right]
      exact or_congr_left ⟨fun he => ⟨he, he ▸ hx⟩, And.left⟩
    | false =>
      cases h
      refine ⟨hsub.cons x, fun id => ?_⟩
      have hx : ¬ m.UsedEarly block x := fun he => by cases hxearly.2 he
      simp only [Bool.false_eq_true, if_false, List.mem_cons, hids, or_and_right]
      exact (or_iff_right fun ⟨he, huse⟩ => hx (he ▸ huse)).symm

theorem outOfOrder_eq_ok {m : Module} {ids : List NodeId} (hs : Sound m)
    (h : outOfOrder m block = .ok ids) :
    ids.Sublist (m.nodesOf block) ∧ ∀ id, id ∈ ids ↔ m.UsedEarly block id := by
  simp only [outOfOrder, bind_eq_ok_iff] at h
  obtain ⟨nodes, hnodes, h⟩ := h
  have hlist : m.nodesOf block = nodes := by simp [Module.nodesOf, hnodes, Except.toOption]
  obtain ⟨hsub, hids⟩ := @usedBefore_eq_ok _ _ _ [] _ _ hs (by simpa using hlist)
    (by simp [IdMap.contains]) h
  refine ⟨hlist ▸ hsub, fun id => ?_⟩
  rw [hids, and_iff_right_iff_imp]
  rintro ⟨_, _, _, _, -, -, -, -, hprec⟩
  exact hlist ▸ hprec.mem_right

/-- A declaration that can stand anywhere. -/
theorem isMovableDeclaration_eq_ok {m : Module} {nd : Node} {b : Bool} (hn : m.node? id = some nd)
    (h : isMovableDeclaration m id = .ok b) : b = true ↔ nd.operands = [] ∧
      ∃ v type, nd.results = [v] ∧ m.type? v = some type ∧ m.types.isStorage type = .ok true := by
  simp only [isMovableDeclaration, bind_eq_ok_iff, Module.node_eq_ok_iff] at h
  obtain ⟨nd', hnd', h⟩ := h
  obtain rfl : nd = nd' := by simpa using hn.symm.trans hnd'
  split at h
  · next v hops hres =>
    simp only [bind_eq_ok_iff, valueType_eq_ok_iff] at h
    obtain ⟨type, htype, h⟩ := h
    constructor
    · rintro rfl
      exact ⟨hops, v, type, hres, htype, h⟩
    · rintro ⟨-, w, type', hres', htype', h'⟩
      obtain rfl : v = w := by simpa [hres] using hres'
      obtain rfl := Option.some.inj (htype.symm.trans htype')
      rw [h] at h'
      exact Except.ok.inj h'
  · next hcase =>
    cases h
    simp only [Bool.false_eq_true, false_iff]
    rintro ⟨hops, v, type, hres, -, -⟩
    exact hcase v hops hres

/-- The declaration that a read is found to read. -/
theorem readDeclaration?_eq_some {m : Module} {decl : NodeId} (hs : Sound m)
    (hn : m.live? id = some n) (h : readDeclaration? m id = .ok (some decl)) :
    ∃ storage i nd, n.op = .read ∧ n.operands[0]? = some storage ∧
      m.def? storage = some (.result decl i) ∧ m.live? decl = some nd ∧ m.Placeable nd := by
  obtain ⟨x, hx, -, rfl⟩ := Module.exists_of_live? hn
  simp only [readDeclaration?, bind_eq_ok_iff, Module.node_eq_ok_iff] at h
  obtain ⟨x', hx', h⟩ := h
  obtain rfl : x = x' := by simpa using hx.symm.trans hx'
  split at h
  · next hop =>
    simp only [bind_eq_ok_iff] at h
    obtain ⟨storage, hstorage, d, hdef, h⟩ := h
    obtain ⟨x', hx', hslot⟩ := operand_eq_ok_iff.1 hstorage
    obtain rfl : x = x' := by simpa using hx.symm.trans hx'
    cases d with
    | none => cases h
    | some d =>
      simp only [bind_eq_ok_iff] at h
      obtain ⟨movable, hmovable, h⟩ := h
      cases movable with
      | false => cases h
      | true =>
        cases h
        obtain ⟨i, hi⟩ := Module.definingNode?_eq_some_iff.1 hdef
        obtain ⟨d, hd, hlive⟩ := hs.operand (u := ⟨id, 0⟩) ⟨_, hn, hslot⟩
        rw [hi] at hd
        cases hd
        obtain ⟨nd, hnd⟩ := hlive rfl
        obtain ⟨y, hy, -, rfl⟩ := Module.exists_of_live? hnd
        exact ⟨storage, i, _, hop, hslot, hi, hnd,
          Or.inr ((isMovableDeclaration_eq_ok hy hmovable).1 rfl)⟩
  · cases h

theorem resolveForwardReference_runs (ho : env.oracle = .systemVerilog) (hs : Sound s.module)
    (hblock : s.module.Placed block) (hn : s.module.live? id = some n)
    (h : (resolveForwardReference block id).Runs env s r s') :
    s.module.Resolves block id s'.module := by
  obtain ⟨nd, hnd, he, rfl⟩ := Module.exists_of_live? hn
  have hrest : ∀ (t : State) (placeable : Bool),
      (placeable = true ↔ s.module.Placeable nd.core) →
      (if placeable then
          edit (·.moveNode id (.front block))
        else do
          match ← query (readDeclaration? · id) with
          | some decl => do
            edit (·.moveNode id (.front block))
            edit (·.moveNode decl (.front block))
          | none => spill id true : Prep Unit).Runs env t r s' → t.module = s.module →
      s.module.Resolves block id s'.module := by
    intro t placeable hplace h hmodule
    rw [← hmodule] at hs hn hnd hplace hblock ⊢
    split at h
    · next hp =>
      obtain ⟨m₁, hm₁, rfl⟩ := runs_edit.1 h
      have hpl := hplace.1 hp
      obtain ⟨hm, hs'⟩ := hs.moveNode hn (p := .front block) (b := block)
        (hs.regions_of_placeable hn hpl) rfl hblock (by simp) (by simp) hm₁
      exact .front hn hpl hm hs'
    · next hp =>
      have hnot : ∀ n, t.module.live? id = some n → ¬ t.module.Placeable n := fun n' hn' hpl => by
        obtain rfl := Option.some.inj (hn.symm.trans hn')
        exact hp (hplace.2 hpl)
      obtain ⟨decl, s₁, hquery, h⟩ := runs_bind.1 h
      obtain ⟨hfound, rfl⟩ := runs_query.1 hquery
      cases decl with
      | none => exact .spill hnot (spill_runs hs hn h)
      | some decl =>
        simp only [runs_bind, runs_edit] at h
        obtain ⟨_, _, ⟨m₁, hm₁, rfl⟩, m₂, hm₂, rfl⟩ := h
        obtain ⟨storage, i, ndecl, hop, hslot, hdef, hdecl', hpl⟩ :=
          readDeclaration?_eq_some hs hn hfound
        have hread : nd.core.op.regionKinds = [] := by
          rw [hop]
          rfl
        have hreg := hs.toNested.regions_eq_nil hn hread
        obtain ⟨hm, hs₁⟩ := hs.moveNode hn hreg (p := .front block) (b := block) rfl hblock
          (by simp) (by simp) hm₁
        have hblock₁ : m₁.Placed block := Nested.placed_of_kept hm.kept (fun {j n} hj hne => by
          have hji : j ≠ id := by
            rintro rfl
            rw [hn] at hj
            cases hj
            exact hne hreg
          exact ⟨_, hm.live hj, rfl, if_neg hji⟩) hblock
        have hreg' : ndecl.regions = [] := hs.regions_of_placeable hdecl' hpl
        obtain ⟨hm', hs'⟩ := hs₁.moveNode (hm.live hdecl') hreg' (p := .front block) (b := block) rfl
          hblock₁ (by simp) (by simp) hm₂
        exact .read hn hop hslot hdef hdecl' hpl hm hs₁ hm' hs'
  simp only [resolveForwardReference, runs_bind, runs_count, runs_query] at h
  obtain ⟨_, _, rfl, movable, _, ⟨hmovable, rfl⟩, h⟩ := h
  have hmov := isMovableDeclaration_eq_ok hnd hmovable
  cases movable with
  | true =>
    simp only [if_true, runs_bind, runs_pure] at h
    obtain ⟨_, _, ⟨rfl, rfl⟩, h⟩ := h
    exact hrest _ true (iff_of_true rfl (Or.inr (hmov.1 rfl))) h rfl
  | false =>
    simp only [Bool.false_eq_true, if_false, runs_bind, runs_isConstantExpression, ho] at h
    obtain ⟨placeable, _, ⟨hconst, rfl⟩, h⟩ := h
    refine hrest _ placeable ?_ h rfl
    simp only [Oracle.systemVerilog, bind_eq_ok_iff, Module.node_eq_ok_iff] at hconst
    obtain ⟨nd', hnd', hconst⟩ := hconst
    obtain rfl : nd = nd' := by simpa using hnd.symm.trans hnd'
    rw [← Except.ok.inj hconst]
    exact ⟨Or.inl, fun h => h.resolve_right fun h => by
      have := hmov.2 h
      cases this⟩

end Prep

end NetPrep
