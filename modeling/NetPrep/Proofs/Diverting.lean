import Mathlib
import NetPrep.Proofs.Integrity
import NetPrep.Proofs.Temporaries

/-!
# What a temporary leaves

A node with a temporary has one use: the connection that stores its value into the declaration. Each use
that it had reads the declaration, through a read of its own right before the user. All else stays, and
each block is what it was but for the new nodes, whose places `weave` gives.
-/

namespace NetPrep

open Prepare Prep

/-! ## Lists with entries put in -/

section

variable {before before' after after' : NodeId → List NodeId} {l r : List NodeId} {a x : NodeId}
  {p : NodeId → Bool}

/-- A list with more entries before and after each of its own. -/
def weave (before after : NodeId → List NodeId) (l : List NodeId) : List NodeId :=
  l.flatMap fun j => before j ++ j :: after j

theorem weave_cons : weave before after (a :: l) =
    (before a ++ a :: after a) ++ weave before after l := List.flatMap_cons

theorem weave_append : weave before after (l ++ r) = weave before after l ++ weave before after r :=
  List.flatMap_append

theorem weave_nothing : weave (fun _ => []) (fun _ => []) l = l := List.flatMap_singleton' l

theorem weave_congr (hb : ∀ j ∈ l, before j = before' j) (ha : ∀ j ∈ l, after j = after' j) :
    weave before after l = weave before' after' l := by
  induction l with
  | nil => rfl
  | cons y l ih =>
    rw [weave_cons, weave_cons, hb y List.mem_cons_self, ha y List.mem_cons_self,
      ih (fun j hj => hb j (List.mem_cons_of_mem _ hj)) fun j hj => ha j (List.mem_cons_of_mem _ hj)]

/-- An entry that is put in before another one is one of those before it. -/
theorem insertBefore_eq_weave (hl : l.Nodup) :
    insertBefore a x l = weave (fun j => if j = a then [x] else []) (fun _ => []) l := by
  induction l with
  | nil => rfl
  | cons y l ih =>
    obtain ⟨hy, hl⟩ := List.nodup_cons.1 hl
    rw [insertBefore, weave_cons]
    split
    · next he =>
      subst he
      have hrest : weave (fun j => if j = y then [x] else []) (fun _ => []) l =
          weave (fun _ => []) (fun _ => []) l :=
        weave_congr (fun j hj => if_neg fun hjy : j = y => hy (hjy ▸ hj)) fun _ _ => rfl
      rw [hrest, weave_nothing]
      rfl
    · rw [← ih hl]
      rfl

/-- What is put in before the entries comes behind what was put in there first. -/
theorem weave_weave (hb : ∀ j ∈ l, ∀ y ∈ before' j, before y = []) :
    weave before (fun _ => []) (weave before' (fun _ => []) l) =
      weave (fun j => before' j ++ before j) (fun _ => []) l := by
  induction l with
  | nil => rfl
  | cons y l ih =>
    have hsame : weave before (fun _ => []) (before' y) = before' y :=
      (weave_congr (hb y List.mem_cons_self) fun _ _ => rfl).trans weave_nothing
    rw [weave_cons, weave_append, weave_append, ih fun j hj => hb j (List.mem_cons_of_mem _ hj), hsame,
      weave_cons, weave_cons]
    simp [weave]

/-- An entry that is put in after another one is one of those after it. -/
theorem insertAfter_weave (hl : l.Nodup) (hb : ∀ j ∈ l, a ∉ before j) (ha : ∀ j ∈ l, a ∉ after j) :
    insertAfter a x (weave before after l) =
      weave before (fun j => if j = a then x :: after j else after j) l := by
  induction l with
  | nil => rfl
  | cons y l ih =>
    obtain ⟨hy, hl⟩ := List.nodup_cons.1 hl
    have hby := hb y List.mem_cons_self
    have hay := ha y List.mem_cons_self
    rw [weave_cons, weave_cons]
    split
    · next he =>
      subst he
      have hrest : weave before (fun j => if j = y then x :: after j else after j) l =
          weave before after l :=
        weave_congr (fun _ _ => rfl) fun j hj => if_neg fun hjy : j = y => hy (hjy ▸ hj)
      rw [List.append_assoc, List.cons_append, insertAfter_append hby, hrest, List.append_assoc,
        List.cons_append, List.cons_append]
    · next he =>
      have hnot : a ∉ before y ++ y :: after y := by simp [hby, hay, Ne.symm he]
      rw [insertAfter_append_right hnot, ih hl (fun j hj => hb j (List.mem_cons_of_mem _ hj))
        fun j hj => ha j (List.mem_cons_of_mem _ hj)]

/-- What stands next to an entry of a list. -/
theorem exists_weave (before after : NodeId → List NodeId) (ha : a ∈ l) :
    ∃ l₁ l₂, weave before after l = l₁ ++ (before a ++ a :: after a) ++ l₂ := by
  obtain ⟨l₁, l₂, rfl⟩ := List.append_of_mem ha
  refine ⟨weave before after l₁, weave before after l₂, ?_⟩
  rw [weave_append, weave_cons]
  exact (List.append_assoc ..).symm

/-- The entries of a list are found again by a property that those put in lack. -/
theorem filter_weave (hl : ∀ j ∈ l, p j = true) (hb : ∀ j ∈ l, ∀ y ∈ before j, p y = false)
    (ha : ∀ j ∈ l, ∀ y ∈ after j, p y = false) : (weave before after l).filter p = l := by
  induction l with
  | nil => rfl
  | cons y l ih =>
    have hnone : ∀ {ys : List NodeId}, (∀ z ∈ ys, p z = false) → ys.filter p = [] := fun h =>
      List.filter_eq_nil_iff.2 fun z hz => by simp [h z hz]
    rw [weave_cons, List.filter_append, List.filter_append,
      ih (fun j hj => hl j (List.mem_cons_of_mem _ hj)) (fun j hj => hb j (List.mem_cons_of_mem _ hj))
        fun j hj => ha j (List.mem_cons_of_mem _ hj),
      hnone (hb y List.mem_cons_self), List.filter_cons_of_pos (hl y List.mem_cons_self),
      hnone (ha y List.mem_cons_self)]
    rfl

end

namespace Module

/-! ## Reads for the uses -/

section

variable {m m' m₁ : Module} {j : NodeId} {old storage : ValueId} {u : Use} {type : TypeId} {loc : Loc}
  {us : List Use} {read : Use → NodeId} {value : Use → ValueId}

/-- The operands of a node once some uses refer to values of their own. -/
def rewire (us : List Use) (value : Use → ValueId) (j : NodeId) (ops : List ValueId) : List ValueId :=
  ops.mapIdx fun i w => if ⟨j, i⟩ ∈ us then value ⟨j, i⟩ else w

theorem rewire_of_not_mem {ops : List ValueId} (h : ∀ i, ⟨j, i⟩ ∉ us) :
    rewire us value j ops = ops :=
  List.ext_getElem? fun i => by simp [rewire, h]

/-- One use is pointed at its value before the others are. -/
theorem rewire_rewire {ops : List ValueId} {x : ValueId} (hu : u ∉ us) :
    rewire us value j (rewire [u] (fun _ => x) j ops) =
      rewire (u :: us) (fun w => if w = u then x else value w) j ops := by
  refine List.ext_getElem? fun i => ?_
  simp only [rewire, List.getElem?_mapIdx, Option.map_map]
  congr 1
  funext w
  by_cases he : (⟨j, i⟩ : Use) = u
  · simp [he, hu]
  · simp [he]

theorem rewire_singleton {ops : List ValueId} {x : ValueId} :
    rewire [u] (fun _ => x) j ops = pointAt u x j ops := by
  refine List.ext_getElem? fun i => ?_
  obtain ⟨k, o⟩ := u
  rw [rewire, List.getElem?_mapIdx, pointAt]
  by_cases hj : j = k
  · by_cases hi : o = i
    · by_cases hlt : i < ops.length <;> simp [hj, hi, hlt]
    · simp [hj, hi, Ne.symm hi]
  · simp [hj]

/-- The reads that are made for the operands of a node, in the order of the uses. -/
def readsAt (us : List Use) (read : Use → NodeId) (j : NodeId) : List NodeId :=
  (us.filter fun u => u.node = j).map read

theorem readsAt_eq_nil (h : ∀ u ∈ us, u.node ≠ j) : readsAt us read j = [] := by
  rw [readsAt, List.filter_eq_nil_iff.2 fun u hu => by simpa using h u hu, List.map_nil]

theorem mem_readsAt {k : NodeId} : k ∈ readsAt us read j ↔ ∃ u ∈ us, u.node = j ∧ read u = k := by
  simp [readsAt, and_assoc]

theorem readsAt_cons {r : NodeId} (hu : u ∉ us) :
    readsAt (u :: us) (fun w => if w = u then r else read w) j =
      (if j = u.node then [r] else []) ++ readsAt us read j := by
  have hlater : (us.filter fun w => w.node = j).map (fun w => if w = u then r else read w) =
      readsAt us read j := by
    refine List.map_congr_left fun w hw => if_neg ?_
    rintro rfl
    exact hu (List.mem_of_mem_filter hw)
  rw [readsAt]
  by_cases hj : u.node = j
  · rw [List.filter_cons_of_pos (by simpa using hj), List.map_cons, hlater, if_pos rfl, if_pos hj.symm]
    rfl
  · rw [List.filter_cons_of_neg (by simpa using hj), hlater, if_neg (Ne.symm hj)]
    rfl

/-- What it comes to that some uses read storage, each through a read of its own before the user. -/
structure Rereads (m m' : Module) (storage : ValueId) (type : TypeId) (loc : Loc) (us : List Use)
    (read : Use → NodeId) (value : Use → ValueId) : Prop where
  kept : m.Kept m'
  live : ∀ {j nj}, m.live? j = some nj →
    m'.live? j = some { nj with operands := rewire us value j nj.operands }
  back : ∀ {j nj}, m'.live? j = some nj → (∃ n, m.live? j = some n) ∨ ∃ u ∈ us, read u = j
  made : ∀ {u nu}, u ∈ us → m.live? u.node = some nu →
    m'.live? (read u) = some (.fresh .read [storage] [value u] nu.parent loc)
  typed : ∀ u ∈ us, m'.type? (value u) = some type
  alone : ∀ u ∈ us, m'.OnlyUse (value u) u
  fresh : ∀ u ∈ us, m.nodes.size ≤ (read u).index ∧ m.values.size ≤ (value u).index
  nodesOf : ∀ c, m'.nodesOf c = weave (readsAt us read) (fun _ => []) (m.nodesOf c)

/-- One use reads storage. -/
theorem ReadFor.exists_rereads {r : NodeId} (h : ReadFor old storage type loc u r m m') (hs : Sound m)
    (hst : m.Usable storage) : ∃ x, m.Rereads m' storage type loc [u] (fun _ => r) (fun _ => x) := by
  have hkept := h.kept
  obtain ⟨huse, hnu, hc, hs₁, hr, -⟩ := h
  rename_i nu x m₁
  have hne : u.node ≠ r := hc.ne hnu
  have hindex : m.values.size ≤ x.index := hc.index_result (List.mem_singleton_self x)
  refine ⟨x, ?_⟩
  constructor
  case kept => exact hkept
  case live =>
    intro j nj hj
    rw [hr.live (hc.live hj), rewire_singleton]
  case back =>
    intro j nj hj
    obtain ⟨n₁, hn₁, -⟩ := hr.live_cases hj
    obtain ⟨rfl, -⟩ | ⟨-, hn⟩ := hc.live_cases hn₁
    · exact Or.inr ⟨u, List.mem_singleton_self u, rfl⟩
    · exact Or.inl ⟨_, hn⟩
  case made =>
    intro w nw hw hnw
    obtain rfl := List.mem_singleton.1 hw
    obtain rfl := Option.some.inj (hnu.symm.trans hnw)
    rw [hr.live hc.live?_self, pointAt, if_neg hne.symm]
  case typed => exact fun _ _ => hr.kept.type? (hc.type?_result (i := 0) rfl)
  case alone =>
    -- The value is new, so before the use is pointed at it nothing uses it.
    intro w hw q
    obtain rfl := List.mem_singleton.1 hw
    rw [hr.uses_pointAt_iff (hc.uses_iff.2 (Or.inl huse))]
    have hunused : ¬ m₁.Uses q x := fun hq => by
      obtain hq | ⟨-, hq⟩ := hc.uses_iff.1 hq
      · exact absurd (WellFormed.lt_of_usable (hs.usable hq)) (Nat.not_lt.2 hindex)
      · obtain rfl := List.mem_singleton.1 (List.mem_of_getElem? hq)
        exact absurd (WellFormed.lt_of_usable hst) (Nat.not_lt.2 hindex)
    by_cases he : q = w
    · simp [he]
    · simp [he, hunused]
  case fresh => exact fun _ _ => ⟨by rw [hc.fresh], hindex⟩
  case nodesOf =>
    intro c
    have hlist : m'.nodesOf c = insertBefore u.node r (m.nodesOf c) := by
      rw [hr.nodesOf, hc.nodesOf]
      split
      · next hcp =>
        rw [hcp]
        rfl
      · next hcp => exact (insertBefore_of_not_mem (hs.toWellFormed.not_mem_nodesOf hnu hcp)).symm
    rw [hlist, insertBefore_eq_weave (hs.toWellFormed.nodup c)]
    refine weave_congr (fun j _ => ?_) fun _ _ => rfl
    by_cases hj : j = u.node
    · simp [readsAt, hj]
    · simp [readsAt, hj, Ne.symm hj]

/-- One use reads storage, and then others do. -/
theorem Rereads.cons {r : NodeId} {x : ValueId}
    (h : m.Rereads m₁ storage type loc [u] (fun _ => r) (fun _ => x))
    (hrest : m₁.Rereads m' storage type loc us read value) (hu : u ∉ us)
    (hus : ∀ w ∈ us, ∃ n, m.live? w.node = some n) (halone : m'.OnlyUse x u) :
    m.Rereads m' storage type loc (u :: us) (fun w => if w = u then r else read w)
      fun w => if w = u then x else value w := by
  have hself := List.mem_singleton_self u
  have hne : ∀ w ∈ us, w ≠ u := fun w hw he => hu (he ▸ hw)
  have hnode : ∀ w ∈ us, w.node ≠ r := fun w hw he => by
    obtain ⟨nw, hnw⟩ := hus w hw
    exact absurd (lt_of_live? hnw) (Nat.not_lt.2 (he ▸ (h.fresh u hself).1))
  constructor
  case kept => exact h.kept.trans hrest.kept
  case live =>
    intro j nj hj
    rw [hrest.live (h.live hj), rewire_rewire hu]
  case back =>
    intro j nj hj
    obtain ⟨n₁, hn₁⟩ | ⟨w, hw, rfl⟩ := hrest.back hj
    · obtain hn | ⟨-, -, rfl⟩ := h.back hn₁
      · exact Or.inl hn
      · exact Or.inr ⟨u, List.mem_cons_self, if_pos rfl⟩
    · exact Or.inr ⟨w, List.mem_cons_of_mem _ hw, if_neg (hne w hw)⟩
  case made =>
    intro w nw hw hnw
    obtain rfl | hw := List.mem_cons.1 hw
    · have hnot : ∀ i, ⟨r, i⟩ ∉ us := fun i hi => hnode _ hi rfl
      rw [if_pos rfl, if_pos rfl, hrest.live (h.made hself hnw), rewire_of_not_mem hnot]
    · have hmade := hrest.made hw (h.live hnw)
      rw [if_neg (hne w hw), if_neg (hne w hw), hmade]
  case typed =>
    intro w hw
    obtain rfl | hw := List.mem_cons.1 hw
    · rw [if_pos rfl]
      exact hrest.kept.type? (h.typed w hself)
    · rw [if_neg (hne w hw)]
      exact hrest.typed w hw
  case alone =>
    intro w hw
    obtain rfl | hw := List.mem_cons.1 hw
    · rw [if_pos rfl]
      exact halone
    · rw [if_neg (hne w hw)]
      exact hrest.alone w hw
  case fresh =>
    intro w hw
    obtain rfl | hw := List.mem_cons.1 hw
    · rw [if_pos rfl, if_pos rfl]
      exact h.fresh w hself
    · rw [if_neg (hne w hw), if_neg (hne w hw)]
      obtain ⟨hread, hvalue⟩ := hrest.fresh w hw
      exact ⟨h.kept.nodes_size.trans hread, h.kept.values_size.trans hvalue⟩
  case nodesOf =>
    intro c
    have hone : ∀ j, readsAt [u] (fun _ => r) j = if j = u.node then [r] else [] := fun j => by
      by_cases hj : j = u.node
      · simp [readsAt, hj]
      · simp [readsAt, hj, Ne.symm hj]
    rw [hrest.nodesOf, h.nodesOf, weave_weave fun j _ y hy => ?_]
    · exact weave_congr (fun j _ => by rw [hone, readsAt_cons hu]) fun _ _ => rfl
    · obtain ⟨-, -, -, rfl⟩ := mem_readsAt.1 hy
      exact readsAt_eq_nil hnode

theorem ReadsFor.exists_rereads (h : ReadsFor old storage type loc us m m') (hs : Sound m)
    (hus : ∀ u ∈ us, m.Uses u old) (hnd : us.Nodup) (hst : m.Usable storage) :
    ∃ read value, m.Rereads m' storage type loc us read value := by
  induction h with
  | nil m =>
    refine ⟨fun _ => ⟨0⟩, fun _ => ⟨0⟩, ?_⟩
    constructor
    case kept => exact .refl m
    case live => exact fun hj => by rw [rewire_of_not_mem fun _ => List.not_mem_nil, hj]
    case back => exact fun hj => Or.inl ⟨_, hj⟩
    case made => exact fun hu => absurd hu List.not_mem_nil
    case nodesOf => exact fun c => weave_nothing.symm
    all_goals exact fun _ hu => absurd hu List.not_mem_nil
  | @cons u us r m m₁ m' h hrest ih =>
    obtain ⟨hu, hnd⟩ := List.nodup_cons.1 hnd
    obtain ⟨x, hread⟩ := h.exists_rereads hs hst
    have hself := List.mem_singleton_self u
    have hx : m₁.Usable x := h.sound.usable ((hread.alone u hself u).2 rfl)
    have hxs : x ≠ storage := fun he =>
      absurd (WellFormed.lt_of_usable hst) (Nat.not_lt.2 (he ▸ (hread.fresh u hself).2))
    obtain ⟨read, value, hreads⟩ := ih h.sound (fun w hw => h.uses (hus w (List.mem_cons_of_mem _ hw))
      fun he => hu (he ▸ hw)) hnd (h.usable hst)
    refine ⟨_, _, hread.cons hreads hu (fun w hw => ?_) ?_⟩
    · obtain ⟨nw, hnw, -⟩ := hus w (List.mem_cons_of_mem _ hw)
      exact ⟨nw, hnw⟩
    · -- The later reads leave the value of this one.
      intro q
      rw [hrest.uses_iff hx hxs, hread.alone u hself q]
      exact and_iff_right_of_imp fun he => he ▸ hu

end

/-! ## A temporary -/

/-- What is made for the temporary of a value: the declaration and its storage, the connection, and a read
for each use. -/
structure Temporary where
  decl : NodeId
  storage : ValueId
  conn : NodeId
  uses : List Use
  read : Use → NodeId
  value : Use → ValueId

/-- What stands right behind a node that has a temporary, and nothing behind the others. -/
def Temporary.behind (T : Temporary) (id : NodeId) (atFront : Bool) (j : NodeId) : List NodeId :=
  if j = id then if atFront then [T.conn] else [T.decl, T.conn] else []

/-- The nodes after a value is given a temporary. -/
structure Diverts (m m' : Module) (id : NodeId) (n : Node) (v : ValueId) (T : Temporary) : Prop where
  sound : Sound m'
  kept : m.Kept m'
  /-- The nodes that were there only have their operands redirected, and the node loses its name. -/
  live : ∀ {j nj}, m.live? j = some nj → m'.live? j = some { nj with
    operands := rewire T.uses T.value j nj.operands, name := if j = id then none else nj.name }
  uses_iff : ∀ {u}, u ∈ T.uses ↔ m.Uses u v
  nodup : T.uses.Nodup
  back : ∀ {j nj}, m'.live? j = some nj →
    (∃ n, m.live? j = some n) ∨ j = T.decl ∨ j = T.conn ∨ ∃ u ∈ T.uses, T.read u = j
  fresh : m.nodes.size ≤ T.decl.index ∧ m.nodes.size ≤ T.conn.index ∧ m.values.size ≤ T.storage.index ∧
    ∀ u ∈ T.uses, m.nodes.size ≤ (T.read u).index ∧ m.values.size ≤ (T.value u).index
  /-- The declaration takes over the name. -/
  decl : ∃ name, (∀ hint, n.name = some hint → name = some hint) ∧ m'.live? T.decl =
    some { Node.fresh (m.temporaryOps n.parent).1 [] [T.storage] n.parent n.loc with name }
  storage : ∃ type stype, m.type? v = some type ∧ m'.type? T.storage = some stype ∧
    m'.types.get stype = .ok (.storage type)
  conn : m'.live? T.conn =
    some (.fresh (m.temporaryOps n.parent).2 [T.storage, v] [] n.parent n.loc)
  only : m'.OnlyUse v ⟨T.conn, 1⟩
  read : ∀ {u nu}, m.Uses u v → m.live? u.node = some nu →
    m'.live? (T.read u) = some (.fresh .read [T.storage] [T.value u] nu.parent n.loc) ∧
      m'.type? (T.value u) = m.type? v ∧ m'.OnlyUse (T.value u) u

/-- The blocks after a value is given a temporary. -/
structure Arranges (m m' : Module) (id : NodeId) (b : BlockId) (atFront : Bool) (T : Temporary) :
    Prop where
  nodesOf : ∀ c, m'.nodesOf c = (if atFront = true ∧ c = b then [T.decl] else []) ++
    weave (readsAt T.uses T.read) (T.behind id atFront) (m.nodesOf c)
  /-- The nodes that were there stay in their order. -/
  order : ∀ c, (m'.nodesOf c).filter (fun j => j.index < m.nodes.size) = m.nodesOf c
  front : atFront = true → (m'.nodesOf b).head? = some T.decl
  behind : ∃ l r, m'.nodesOf b = l ++ id :: T.behind id atFront id ++ r
  /-- A read stands before its user, with no more than reads for the same user between them. -/
  before : ∀ {u nu}, u ∈ T.uses → m.live? u.node = some nu → ∃ l rs r,
    m'.nodesOf nu.parent = l ++ T.read u :: rs ++ u.node :: r ∧
      ∀ j ∈ rs, ∃ w ∈ T.uses, w.node = u.node ∧ T.read w = j

/-- The edits by which a value is given a temporary. -/
structure Installs (m m₀ m₁ m₂ m₃ m' : Module) (id : NodeId) (n : Node) (v : ValueId)
    (name : Option Name) (atFront : Bool) (type stype : TypeId) (T : Temporary) : Prop where
  sound : Sound m
  node : m.live? id = some n
  result : v ∈ n.results
  typed : m.type? v = some type
  uses_iff : ∀ {u}, u ∈ T.uses ↔ m.Uses u v
  nodup : T.uses.Nodup
  relabels : m.Relabels m₀ id (fun _ => none) (fun t => t)
  declares : m₀.Creates m₁ n.parent (.front n.parent) T.decl
    { Node.fresh (m.temporaryOps n.parent).1 [] [T.storage] n.parent n.loc with name } [stype]
  stores : m₁.types.get stype = .ok (.storage type)
  reads : ReadsFor v T.storage type n.loc T.uses m₁ m₂
  rereads : m₁.Rereads m₂ T.storage type n.loc T.uses T.read T.value
  connects : m₂.Creates m₃ n.parent (.after id) T.conn
    (.fresh (m.temporaryOps n.parent).2 [T.storage, v] [] n.parent n.loc) []
  sound₃ : Sound m₃
  moves : if atFront then m' = m₃ else m₃.Moves m' n.parent (.after id) T.decl ∧ Sound m'

namespace Installs

variable {m m' m₀ m₁ m₂ m₃ : Module} {id j : NodeId} {n nj : Node} {v w : ValueId} {u : Use}
  {type stype : TypeId} {name : Option Name} {atFront : Bool} {T : Temporary}
  (h : Installs m m₀ m₁ m₂ m₃ m' id n v name atFront type stype T)

include h

theorem live₁ (hj : m.live? j = some nj) :
    m₁.live? j = some { nj with name := if j = id then none else nj.name } := by
  have h₀ := h.relabels.live hj
  rw [ite_self] at h₀
  exact h.declares.live h₀

/-- Moving the declaration leaves it in its block. -/
theorem last (j : NodeId) : m'.live? j = m₃.live? j := by
  have hmoves := h.moves
  cases atFront with
  | true => rw [hmoves]
  | false =>
    have hdecl := h.connects.live (h.rereads.live h.declares.live?_self)
    by_cases hj : j = T.decl
    · subst hj
      rw [hmoves.1.live hdecl, hdecl, if_pos rfl]
      rfl
    · rw [hmoves.1.live?]
      cases hn : m₃.live? j with
      | none => rfl
      | some nj => rw [Option.map_some, if_neg hj]

theorem uses_last {u : Use} : m'.Uses u w ↔ m₃.Uses u w := by
  unfold Uses
  rw [h.last]

theorem sound' : Sound m' := by
  have hmoves := h.moves
  cases atFront with
  | true => exact hmoves ▸ h.sound₃
  | false => exact hmoves.2

theorem kept₂ : m₂.Kept m' := by
  have hmoves := h.moves
  cases atFront with
  | true => exact hmoves ▸ h.connects.kept
  | false => exact h.connects.kept.trans hmoves.1.kept

theorem kept₁ : m.Kept m₁ := h.relabels.kept.trans h.declares.kept

theorem kept : m.Kept m' := (h.kept₁.trans h.rereads.kept).trans h.kept₂

/-- A use of the value is no use by the declaration. -/
theorem node_ne_decl (hu : u ∈ T.uses) : u.node ≠ T.decl := by
  obtain ⟨nu, hnu, -⟩ := h.uses_iff.1 hu
  exact h.declares.ne (h.relabels.live hnu)

theorem live (hj : m.live? j = some nj) : m'.live? j = some { nj with
    operands := rewire T.uses T.value j nj.operands, name := if j = id then none else nj.name } := by
  rw [h.last, h.connects.live (h.rereads.live (h.live₁ hj))]

theorem back (hj : m'.live? j = some nj) : (∃ n, m.live? j = some n) ∨ j = T.decl ∨ j = T.conn ∨
    ∃ u ∈ T.uses, T.read u = j := by
  rw [h.last] at hj
  obtain ⟨rfl, -⟩ | ⟨-, hj⟩ := h.connects.live_cases hj
  · exact Or.inr (Or.inr (Or.inl rfl))
  obtain ⟨n₁, hn₁⟩ | hread := h.rereads.back hj
  · obtain ⟨rfl, -⟩ | ⟨-, hj⟩ := h.declares.live_cases hn₁
    · exact Or.inr (Or.inl rfl)
    · obtain ⟨nj, hnj, -⟩ := h.relabels.live_cases hj
      exact Or.inl ⟨nj, hnj⟩
  · exact Or.inr (Or.inr (Or.inr hread))

theorem fresh : m.nodes.size ≤ T.decl.index ∧ m.nodes.size ≤ T.conn.index ∧
    m.values.size ≤ T.storage.index ∧
    ∀ u ∈ T.uses, m.nodes.size ≤ (T.read u).index ∧ m.values.size ≤ (T.value u).index := by
  have hk₁ := h.kept₁
  refine ⟨?_, ?_, ?_, fun u hu => ?_⟩
  · rw [h.declares.fresh]
    exact h.relabels.kept.nodes_size
  · rw [h.connects.fresh]
    exact hk₁.nodes_size.trans h.rereads.kept.nodes_size
  · exact h.relabels.kept.values_size.trans (h.declares.index_result (List.mem_singleton_self _))
  · obtain ⟨hread, hvalue⟩ := h.rereads.fresh u hu
    exact ⟨hk₁.nodes_size.trans hread, hk₁.values_size.trans hvalue⟩

theorem decl : m'.live? T.decl =
    some { Node.fresh (m.temporaryOps n.parent).1 [] [T.storage] n.parent n.loc with name } := by
  have hnot : ∀ i, ⟨T.decl, i⟩ ∉ T.uses := fun i hi => h.node_ne_decl hi rfl
  rw [h.last, h.connects.live (h.rereads.live h.declares.live?_self), rewire_of_not_mem hnot]

theorem conn : m'.live? T.conn =
    some (.fresh (m.temporaryOps n.parent).2 [T.storage, v] [] n.parent n.loc) := by
  rw [h.last, h.connects.live?_self]

theorem storage : m'.type? T.storage = some stype ∧ m'.types.get stype = .ok (.storage type) := by
  have hk := h.rereads.kept.trans h.kept₂
  exact ⟨hk.type? (h.declares.type?_result (i := 0) rfl), hk.types h.stores⟩

/-- The storage is a new value. -/
theorem ne_storage (hw : m.Usable w) : w ≠ T.storage := fun he =>
  absurd (WellFormed.lt_of_usable hw) (Nat.not_lt.2 (he ▸ h.fresh.2.2.1))

theorem usable_result : m.Usable v := h.sound.usable_of_mem_results h.node h.result

/-- Before the connection is made, nothing uses the value. -/
theorem unused : ¬ m₂.Uses u v := by
  have husable := h.usable_result
  intro hu
  obtain ⟨hnot, hu⟩ := (h.reads.uses_iff (h.declares.usable (h.relabels.usable husable))
    (h.ne_storage husable)).1 hu
  obtain hu | ⟨-, hget⟩ := h.declares.uses_iff.1 hu
  · exact hnot (h.uses_iff.2 (h.relabels.uses_iff.1 hu))
  · cases hget

theorem only : m'.OnlyUse v ⟨T.conn, 1⟩ := by
  intro u
  rw [h.uses_last, h.connects.uses_iff, or_iff_right h.unused]
  obtain ⟨j, _ | _ | i⟩ := u
  · simp [Node.fresh, (h.ne_storage h.usable_result).symm]
  · simp [Node.fresh]
  · simp [Node.fresh]

theorem read {nu : Node} (hu : m.Uses u v) (hnu : m.live? u.node = some nu) :
    m'.live? (T.read u) = some (.fresh .read [T.storage] [T.value u] nu.parent n.loc) ∧
      m'.type? (T.value u) = m.type? v ∧ m'.OnlyUse (T.value u) u := by
  have hmem := h.uses_iff.2 hu
  refine ⟨?_, ?_, fun q => ?_⟩
  · have hmade := h.rereads.made hmem (h.live₁ hnu)
    rw [h.last, h.connects.live hmade]
  · rw [h.typed, h.kept₂.type? (h.rereads.typed u hmem)]
  · have hindex := (h.rereads.fresh u hmem).2
    have hnot : T.value u ∉ [T.storage, v] := by
      have hstorage := WellFormed.lt_of_usable (h.declares.usable_result (i := 0) rfl)
      have hresult := WellFormed.lt_of_usable (h.declares.usable (h.relabels.usable h.usable_result))
      rw [List.mem_pair]
      rintro (he | he)
      · exact absurd hstorage (Nat.not_lt.2 (he ▸ hindex))
      · exact absurd hresult (Nat.not_lt.2 (he ▸ hindex))
    rw [h.uses_last, h.connects.uses_iff, h.rereads.alone u hmem q]
    exact or_iff_left fun hq => hnot (List.mem_of_getElem? hq.2)

theorem diverts (hname : ∀ hint, n.name = some hint → name = some hint) : m.Diverts m' id n v T where
  sound := h.sound'
  kept := h.kept
  live := h.live
  uses_iff := h.uses_iff
  nodup := h.nodup
  back := h.back
  fresh := h.fresh
  decl := ⟨name, hname, h.decl⟩
  storage := ⟨type, stype, h.typed, h.storage⟩
  conn := h.conn
  only := h.only
  read := h.read

/-- No node that was there is one of the reads. -/
theorem not_mem_readsAt {k : NodeId} (hj : m.live? j = some nj) : j ∉ readsAt T.uses T.read k := by
  intro hmem
  obtain ⟨u, hu, -, rfl⟩ := mem_readsAt.1 hmem
  exact absurd (lt_of_live? hj) (Nat.not_lt.2 (h.fresh.2.2.2 u hu).1)

theorem nodup_nodesOf (c : BlockId) : (m.nodesOf c).Nodup := h.sound.toWellFormed.nodup c

/-- The blocks before the declaration is moved. -/
theorem nodesOf₃ (c : BlockId) : m₃.nodesOf c = (if c = n.parent then [T.decl] else []) ++
    weave (readsAt T.uses T.read) (T.behind id true) (m.nodesOf c) := by
  have hdecl : readsAt T.uses T.read T.decl = [] := readsAt_eq_nil fun _ => h.node_ne_decl
  have hid : id ≠ T.decl := h.declares.ne (h.relabels.live h.node)
  have h₁ : ∀ c, m₂.nodesOf c = (if c = n.parent then [T.decl] else []) ++
      weave (readsAt T.uses T.read) (fun _ => []) (m.nodesOf c) := fun c => by
    rw [h.rereads.nodesOf, h.declares.nodesOf]
    split
    · next hc =>
      rw [hc, h.relabels.nodesOf, Position.insert, weave_cons, hdecl]
      rfl
    · rw [h.relabels.nodesOf]
      rfl
  rw [h.connects.nodesOf]
  by_cases hc : c = n.parent
  · subst hc
    have hnot : id ∉ [T.decl] := by simpa using hid
    rw [if_pos rfl, if_pos rfl, h₁, if_pos rfl, Position.insert, insertAfter_append_right hnot,
      insertAfter_weave (h.nodup_nodesOf _) (fun _ _ => h.not_mem_readsAt h.node)
        fun _ _ => List.not_mem_nil]
    rfl
  · rw [if_neg hc, if_neg hc, h₁, if_neg hc]
    have hother : ∀ j ∈ m.nodesOf c, j ≠ id := fun j hj he =>
      h.sound.toWellFormed.not_mem_nodesOf h.node hc (he ▸ hj)
    exact congrArg _ (weave_congr (fun _ _ => rfl) fun j hj => (if_neg (hother j hj)).symm)

theorem nodesOf (c : BlockId) : m'.nodesOf c =
    (if atFront = true ∧ c = n.parent then [T.decl] else []) ++
      weave (readsAt T.uses T.read) (T.behind id atFront) (m.nodesOf c) := by
  have hmoves := h.moves
  cases atFront with
  | true =>
    rw [show m' = m₃ from hmoves, h.nodesOf₃]
    simp only [true_and]
  | false =>
    have hother : ∀ {c}, c ≠ n.parent → ∀ j ∈ m.nodesOf c, j ≠ id := fun hc j hj he =>
      h.sound.toWellFormed.not_mem_nodesOf h.node hc (he ▸ hj)
    rw [hmoves.1.nodesOf]
    by_cases hc : c = n.parent
    · -- The declaration leaves the front, and then it goes between the node and the connection.
      subst hc
      have hnot : ∀ j ∈ m.nodesOf n.parent, id ∉ T.behind id true j := by
        intro j _
        unfold Temporary.behind
        split
        · simpa using h.connects.ne (h.rereads.live (h.live₁ h.node))
        · exact List.not_mem_nil
      rw [if_pos rfl, h.nodesOf₃, if_pos rfl, List.singleton_append, List.erase_cons_head,
        Position.insert, insertAfter_weave (h.nodup_nodesOf _) (fun _ _ => h.not_mem_readsAt h.node) hnot]
      refine weave_congr (fun _ _ => rfl) fun j _ => ?_
      by_cases hj : j = id <;> simp [Temporary.behind, hj]
    · have hmem : T.decl ∉ m₃.nodesOf c :=
        h.sound₃.toWellFormed.not_mem_nodesOf
          (h.connects.live (h.rereads.live h.declares.live?_self)) hc
      rw [if_neg hc, List.erase_of_not_mem hmem, h.nodesOf₃, if_neg hc]
      refine congrArg _ (weave_congr (fun _ _ => rfl) fun j hj => ?_)
      rw [Temporary.behind, Temporary.behind, if_neg (hother hc j hj), if_neg (hother hc j hj)]

theorem arranges : m.Arranges m' id n.parent atFront T := by
  have hw := h.sound.toWellFormed
  obtain ⟨hdecl, hconn, -, hreads⟩ := h.fresh
  have hnew : ∀ {k : NodeId}, m.nodes.size ≤ k.index → decide (k.index < m.nodes.size) = false :=
    fun hk => decide_eq_false (Nat.not_lt.2 hk)
  constructor
  case nodesOf => exact h.nodesOf
  case order =>
    intro c
    have hnone : (if atFront = true ∧ c = n.parent then [T.decl] else []).filter
        (fun j => decide (j.index < m.nodes.size)) = [] := by
      split
      · exact List.filter_eq_nil_iff.2 (by simpa using hdecl)
      · rfl
    rw [h.nodesOf, List.filter_append, hnone, List.nil_append]
    refine filter_weave (fun j hj => ?_) (fun j _ y hy => ?_) fun j _ y hy => ?_
    · obtain ⟨nj, hnj⟩ := h.sound.live_of_mem hj
      exact decide_eq_true (lt_of_live? hnj)
    · obtain ⟨u, hu, -, rfl⟩ := mem_readsAt.1 hy
      exact hnew (hreads u hu).1
    · unfold Temporary.behind at hy
      split at hy
      · cases atFront with
        | true =>
          obtain rfl := List.mem_singleton.1 hy
          exact hnew hconn
        | false =>
          obtain rfl | rfl := List.mem_pair.1 hy
          · exact hnew hdecl
          · exact hnew hconn
      · cases hy
  case front =>
    intro hfront
    rw [h.nodesOf, if_pos ⟨hfront, rfl⟩]
    rfl
  case behind =>
    obtain ⟨l, r, hl⟩ :=
      exists_weave (readsAt T.uses T.read) (T.behind id atFront) (hw.mem_nodesOf h.node)
    refine ⟨(if atFront = true ∧ n.parent = n.parent then [T.decl] else []) ++ l ++
      readsAt T.uses T.read id, r, ?_⟩
    rw [h.nodesOf, hl]
    simp only [List.append_assoc]
  case before =>
    intro u nu hu hnu
    obtain ⟨l, r, hl⟩ :=
      exists_weave (readsAt T.uses T.read) (T.behind id atFront) (hw.mem_nodesOf hnu)
    obtain ⟨l₁, rs, hrs⟩ := List.append_of_mem (mem_readsAt.2 ⟨u, hu, rfl, rfl⟩ :
      T.read u ∈ readsAt T.uses T.read u.node)
    refine ⟨(if atFront = true ∧ nu.parent = n.parent then [T.decl] else []) ++ l ++ l₁, rs,
      T.behind id atFront u.node ++ r, ?_, fun j hj => mem_readsAt.1 ?_⟩
    · rw [h.nodesOf, hl, hrs]
      simp only [List.append_assoc, List.cons_append]
    · rw [hrs]
      exact List.mem_append_right _ (List.mem_cons_of_mem _ hj)

end Installs

section

variable {m m' : Module} {id : NodeId} {n : Node} {v : ValueId} {atFront : Bool}

/-- A node with one result is given its temporary by these edits. -/
theorem Spills.exists_temporary (h : m.Spills id atFront m') (hs : Sound m) (hn : m.live? id = some n)
    (hv : n.results = [v]) :
    ∃ T, m.Diverts m' id n v T ∧ m.Arranges m' id n.parent atFront T := by
  cases h with
  | all hn' _ hmany =>
    obtain rfl := Option.some.inj (hn.symm.trans hn')
    exact absurd hv (hmany v)
  | single hn' hv' hl _ h hname =>
    obtain rfl := Option.some.inj (hn.symm.trans hn')
    obtain rfl := List.singleton_inj.1 (hv.symm.trans hv')
    rename_i name m₀ _
    obtain ⟨hn₀, hres, htype, hdecl, hstype, hs₁, huses, hnd, hreads, hconn, hs₃, hmove⟩ := h
    rename_i n₀ type stype decl conn storage uses m₁ m₂ m₃
    obtain rfl := Option.some.inj ((hl.live hn).symm.trans hn₀)
    have hops : m₀.temporaryOps n.parent = m.temporaryOps n.parent := by
      rw [temporaryOps, hl.kept.kind?, temporaryOps]
    have hu : ∀ {u}, u ∈ uses ↔ m.Uses u v := fun {u} => by
      rw [huses, hdecl.uses_iff, hl.uses_iff]
      exact or_iff_left fun hq => List.not_mem_nil (List.mem_of_getElem? hq.2)
    obtain ⟨read, value, hrereads⟩ := hreads.exists_rereads hs₁ (fun u => (huses u).1) hnd
      (hdecl.usable_result (i := 0) rfl)
    have hinstalls : m.Installs m₀ m₁ m₂ m₃ m' id n v name atFront type stype
        ⟨decl, storage, conn, uses, read, value⟩ := by
      constructor
      case sound => exact hs
      case node => exact hn
      case result => exact hres
      case typed => rw [← hl.type?, htype]
      case uses_iff => exact hu
      case nodup => exact hnd
      case relabels => exact hl
      case declares => exact hops ▸ hdecl
      case stores => exact hstype
      case reads => exact hreads
      case rereads => exact hrereads
      case connects => exact hops ▸ hconn
      case sound₃ => exact hs₃
      case moves => exact hmove
    exact ⟨_, hinstalls.diverts hname, hinstalls.arranges⟩

end

end Module

namespace Prep

variable {s : State} {id : NodeId} {n : Node} {v : ValueId}

/-- A node with one result has a temporary afterwards, and nothing else changes. Where there is room for
the new nodes it always gets one. -/
theorem spill_exact (atFront : Bool) (hs : Sound s.module) (hn : s.module.live? id = some n)
    (hv : n.results = [v]) :
    (∀ {env r s'}, (spill id atFront).Runs env s r s' → ∃ T,
      s.module.Diverts s'.module id n v T ∧ s.module.Arranges s'.module id n.parent atFront T) ∧
    (s.Orderly → s.module.Roomy ((s.module.usesOf v).length + 3) →
      ∀ env, ∃ s', (spill id atFront).Runs env s () s') := by
  constructor
  · intro env r s' h
    exact (spill_runs hs hn h).exists_temporary hs hn hv
  · intro horderly hroom env
    have hsucceeds : (spill id atFront).Succeeds env s fun _ _ => True :=
      spill_succeeds horderly hn hv hroom
    obtain ⟨_, s', hruns, -⟩ := hsucceeds
    exact ⟨s', hruns⟩

end Prep

/-- A product with a name; a node uses it twice, and a port once. -/
def Module.tapped : Module :=
  let m := sketch [.int 8, .storage ⟨0⟩] [(.input, 0), (.output, 0), (.output, 0)]
    [(.back ⟨0⟩, .mul, [0, 0], [0]), (.back ⟨0⟩, .xor, [1, 1], [0]), (.back ⟨0⟩, .output, [1, 2], [])]
  (m.setName ⟨0⟩ (some ⟨4⟩)).toOption.getD m

/-- The product. -/
def Node.tapped : Node := { fresh .mul [⟨0⟩, ⟨0⟩] [⟨1⟩] ⟨0⟩ .unknown with name := some ⟨4⟩ }

/-- The three uses of the product read a declaration, which takes over its name. -/
theorem spill_exact_tapped : Sound Module.tapped ∧ Module.tapped.live? ⟨0⟩ = some Node.tapped ∧
    Node.tapped.results = [⟨1⟩] ∧ State.Orderly ⟨Module.tapped, Module.sketchNames, .zero⟩ ∧
      Module.tapped.Roomy 6 ∧ ∃ s' T,
        (spill ⟨0⟩ false).Runs ⟨.default, .systemVerilog, "top", 0⟩
          ⟨Module.tapped, Module.sketchNames, .zero⟩ () s' ∧
        Module.tapped.Diverts s'.module ⟨0⟩ Node.tapped ⟨1⟩ T ∧
        Module.tapped.Arranges s'.module ⟨0⟩ ⟨0⟩ false T ∧ T.uses.length = 3 ∧
        (s'.module.live? T.decl).map (·.name) = some (some ⟨4⟩) := by
  have hv : Valid Module.tapped := valid_of_isValid (by decide +kernel)
  have ht : Module.tapped.HasTypes := Module.hasTypes_of_check (by decide +kernel)
  have hnames : Module.tapped.Named Module.sketchNames := Module.named_of_isNamed (by decide +kernel)
  have hn : Module.tapped.live? ⟨0⟩ = some Node.tapped := by decide +kernel
  have horderly := Module.orderly_of_wellTyped hv.toWellTyped ht hnames
  have hroomy : Module.tapped.Roomy 6 := .of_nodes (by decide +kernel) (by decide +kernel)
  have huses : Module.tapped.usesOf ⟨1⟩ = [⟨⟨1⟩, 0⟩, ⟨⟨1⟩, 1⟩, ⟨⟨2⟩, 0⟩] := by decide +kernel
  obtain ⟨hexact, hruns⟩ := Prep.spill_exact (s := ⟨Module.tapped, Module.sketchNames, .zero⟩)
    false hv.toSound hn rfl
  obtain ⟨s', hrun⟩ := hruns horderly (huses ▸ hroomy) ⟨.default, .systemVerilog, "top", 0⟩
  obtain ⟨T, hdiverts, harranges⟩ := hexact hrun
  have hperm : T.uses.Perm (Module.tapped.usesOf ⟨1⟩) := by
    refine (List.perm_ext_iff_of_nodup hdiverts.nodup (by rw [huses]; decide)).2 fun u => ?_
    rw [hdiverts.uses_iff, Module.mem_usesOf_iff hv.toWellFormed]
  obtain ⟨name, hname, hdecl⟩ := hdiverts.decl
  refine ⟨hv.toSound, hn, rfl, horderly, hroomy, s', T, hrun, hdiverts, harranges, ?_, ?_⟩
  · rw [hperm.length_eq, huses]
    rfl
  · rw [hdecl, hname ⟨4⟩ rfl]
    rfl

end NetPrep
