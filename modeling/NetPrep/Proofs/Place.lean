import Mathlib
import NetPrep.Proofs.UseLists

/-!
# Creating, moving and erasing nodes

What the edits of nodes do to a well-formed module: which node is at which place afterwards, and that
the module stays well-formed. Only operations without regions are created, moved and erased here, so
the tree of blocks stays as it is.
-/

namespace NetPrep

/-- A position lies in a block. -/
def Position.In (lists : BlockId → List NodeId) (b : BlockId) : Position → Prop
  | .before anchor | .after anchor => anchor ∈ lists b
  | .front c | .back c => c = b

/-- The list of a block with a node put into it at a position. -/
def Position.insert (pos : Position) (id : NodeId) (l : List NodeId) : List NodeId :=
  match pos with
  | .before anchor => insertBefore anchor id l
  | .after anchor => insertAfter anchor id l
  | .front _ => id :: l
  | .back _ => l ++ [id]

/-- The gap of a position cuts the list of the block in two. -/
theorem Linked.gapAt_eq_ok {m : Module} {lists : BlockId → List NodeId} {loose : Option NodeId}
    (h : Linked m lists loose) {pos : Position} {b : BlockId} (hpos : pos.In lists b) {gap : Gap}
    (hgap : m.gapAt pos = .ok gap) (id : NodeId) :
    gap.block = b ∧ ∃ l r, lists b = l ++ r ∧ gap.prev = l.getLast? ∧ gap.next = r.head? ∧
      pos.insert id (lists b) = l ++ id :: r := by
  cases pos with
  | before anchor =>
    obtain ⟨-, n, hn, he, rfl⟩ := h.mem_iff.1 hpos
    obtain ⟨l, r, hl⟩ := List.append_of_mem hpos
    have hnotin : anchor ∉ l := by
      have hnd := hl ▸ h.nodup n.parent
      exact fun hm => (List.nodup_append.1 hnd).2.2 anchor hm anchor (by simp) rfl
    obtain ⟨hprev, -⟩ := h.link hl hn
    have hnode : m.node anchor = .ok n := by simpa using hn
    simp only [Module.gapAt, hnode, bind, Except.bind, he] at hgap
    cases hgap
    exact ⟨rfl, l, anchor :: r, hl, hprev, rfl, by
      rw [hl]
      exact insertBefore_append hnotin⟩
  | after anchor =>
    obtain ⟨-, n, hn, he, rfl⟩ := h.mem_iff.1 hpos
    obtain ⟨l, r, hl⟩ := List.append_of_mem hpos
    have hnotin : anchor ∉ l := by
      have hnd := hl ▸ h.nodup n.parent
      exact fun hm => (List.nodup_append.1 hnd).2.2 anchor hm anchor (by simp) rfl
    obtain ⟨-, hnext⟩ := h.link hl hn
    have hnode : m.node anchor = .ok n := by simpa using hn
    simp only [Module.gapAt, hnode, bind, Except.bind, he] at hgap
    cases hgap
    refine ⟨rfl, l ++ [anchor], r, by simp [hl], by simp, hnext, ?_⟩
    rw [hl]
    simpa [Position.insert] using insertAfter_append hnotin
  | front c =>
    obtain rfl : c = b := hpos
    simp only [Module.gapAt, bind_eq_ok_iff, Module.block_eq_ok_iff] at hgap
    obtain ⟨blk, hblk, hgap⟩ := hgap
    cases hgap
    exact ⟨rfl, [], lists c, rfl, rfl, h.first hblk, rfl⟩
  | back c =>
    obtain rfl : c = b := hpos
    simp only [Module.gapAt, bind_eq_ok_iff, Module.block_eq_ok_iff] at hgap
    obtain ⟨blk, hblk, hgap⟩ := hgap
    cases hgap
    exact ⟨rfl, lists c, [], by simp, h.last hblk, rfl, rfl⟩

/-- What no edit of preparation changes: the ports, the tree of blocks, the types that are there, and
what defines a value and of what type it is. -/
structure Module.Kept (m m' : Module) : Prop where
  name : m'.name = m.name
  ports : m'.ports = m.ports
  body : m'.body = m.body
  blockCore : ∀ b, m'.blockCore b = m.blockCore b
  blocks_size : m'.blocks.size = m.blocks.size
  nodes_size : m.nodes.size ≤ m'.nodes.size
  values_size : m.values.size ≤ m'.values.size
  types : ∀ {id ty}, m.types.get id = .ok ty → m'.types.get id = .ok ty
  def? : ∀ {v d}, m.def? v = some d → m'.def? v = some d
  type? : ∀ {v t}, m.type? v = some t → m'.type? v = some t
  /-- A node keeps its operation and its results. -/
  node : ∀ {id n}, m.core id = some n → ∃ n', m'.core id = some n' ∧ n'.op = n.op ∧
    n'.results = n.results ∧ n'.regions = n.regions ∧ n'.loc = n.loc

namespace Module.Kept

variable {m m' m'' : Module}

theorem refl (m : Module) : Kept m m where
  name := rfl
  ports := rfl
  body := rfl
  blockCore _ := rfl
  blocks_size := rfl
  nodes_size := le_rfl
  values_size := le_rfl
  types h := h
  def? h := h
  type? h := h
  node h := ⟨_, h, rfl, rfl, rfl, rfl⟩

theorem trans (h : Kept m m') (h' : Kept m' m'') : Kept m m'' where
  name := h'.name.trans h.name
  ports := h'.ports.trans h.ports
  body := h'.body.trans h.body
  blockCore b := (h'.blockCore b).trans (h.blockCore b)
  blocks_size := h'.blocks_size.trans h.blocks_size
  nodes_size := h.nodes_size.trans h'.nodes_size
  values_size := h.values_size.trans h'.values_size
  types ht := h'.types (h.types ht)
  def? hd := h'.def? (h.def? hd)
  type? ht := h'.type? (h.type? ht)
  node hn := by
    obtain ⟨n', hn', hop, hr, hg, hl⟩ := h.node hn
    obtain ⟨n'', hn'', hop', hr', hg', hl'⟩ := h'.node hn'
    exact ⟨n'', hn'', hop'.trans hop, hr'.trans hr, hg'.trans hg, hl'.trans hl⟩

end Module.Kept

/-- A node as it is created. -/
def Node.fresh (op : Op) (operands results : List ValueId) (parent : BlockId) (loc : Loc) : Node where
  op := op
  operands := operands
  results := results
  regions := []
  name := none
  twoState := false
  parent := parent
  loc := loc
  erased := false
  prev := none
  next := none
  order := 0

/-- The values that are added next. -/
def Module.nextValues (m : Module) (k : Nat) : List ValueId :=
  (List.range k).map fun i => ⟨m.values.size + i⟩

theorem Module.getElem?_nextValues {m : Module} {k i : Nat} {v : ValueId} :
    (m.nextValues k)[i]? = some v ↔ i < k ∧ v = ⟨m.values.size + i⟩ := by
  simp only [nextValues, List.getElem?_map, Option.map_eq_some_iff]
  constructor
  · rintro ⟨j, hj, rfl⟩
    obtain ⟨hlt, rfl⟩ := List.getElem?_eq_some_iff.1 hj
    simpa using hlt
  · rintro ⟨hlt, rfl⟩
    exact ⟨i, by simp [hlt], rfl⟩

namespace Module

/-- The values of a module after results of a node are added. -/
theorem addResults_eq (m : Module) (id : NodeId) (i : Nat) (types : List TypeId) :
    (m.addResults id i types).1 = m.nextValues types.length ∧
    (∃ values, (m.addResults id i types).2 = { m with values }) ∧
    (m.addResults id i types).2.values.size = m.values.size + types.length ∧
    ∀ v, (m.addResults id i types).2.value? v = if v.index < m.values.size then m.value? v else
      (types[v.index - m.values.size]?).map fun t =>
        ⟨t, .result id (i + (v.index - m.values.size)), []⟩ := by
  induction types generalizing m i with
  | nil =>
    refine ⟨rfl, ⟨_, rfl⟩, rfl, fun v => ?_⟩
    by_cases hv : v.index < m.values.size
    · simp [addResults, hv]
    · simp [addResults, value?, hv]
  | cons t types ih =>
    obtain ⟨hfst, ⟨values, hm⟩, hsize, hget⟩ :=
      ih { m with values := m.values.push ⟨t, .result id i, []⟩ } (i + 1)
    refine ⟨?_, ⟨values, ?_⟩, ?_, fun v => ?_⟩
    · simp only [addResults, hfst, nextValues, Array.size_push, List.length_cons,
        List.range_succ_eq_map, List.map_cons, List.map_map]
      simp [Function.comp_def, Nat.add_assoc, Nat.add_comm 1]
    · simp [addResults, hm]
    · simp only [addResults, hsize, Array.size_push, List.length_cons]
      omega
    · change (addResults { m with values := m.values.push ⟨t, .result id i, []⟩ } id (i + 1)
        types).2.value? v = _
      rw [hget v]
      simp only [Array.size_push, value?]
      by_cases hlt : v.index < m.values.size
      · rw [if_pos hlt, if_pos (Nat.lt_succ_of_lt hlt), Array.getElem?_push_lt hlt,
          Array.getElem?_eq_getElem hlt]
      · by_cases heq : v.index = m.values.size
        · simp [heq]
        · obtain ⟨d, hd⟩ : ∃ d, v.index = m.values.size + 1 + d :=
            ⟨v.index - (m.values.size + 1), by omega⟩
          have h₁ : v.index - m.values.size = d + 1 := by omega
          have h₂ : v.index - (m.values.size + 1) = d := by omega
          have h₃ : ¬ v.index < m.values.size + 1 := by omega
          rw [if_neg h₃, if_neg hlt, h₁, h₂, List.getElem?_cons_succ]
          simp only [Nat.add_assoc, Nat.add_comm 1]

/-- A value that a new node may use: a port or a result of a node that is not erased. -/
def Usable (m : Module) (v : ValueId) : Prop :=
  ∃ d, m.def? v = some d ∧ ∀ {id i}, d = .result id i → ∃ n, m.live? id = some n

/-- A value stays usable if no node goes. -/
theorem Usable.mono {m m' : Module} {v : ValueId} (h : m.Usable v) (hk : m.Kept m')
    (hlive : ∀ {id n}, m.live? id = some n → ∃ n', m'.live? id = some n') : m'.Usable v := by
  obtain ⟨d, hd, hd'⟩ := h
  refine ⟨d, hk.def? hd, fun he => ?_⟩
  obtain ⟨n, hn⟩ := hd' he
  exact hlive hn

/-- What creating a node leaves. -/
structure Creates (m m' : Module) (b : BlockId) (pos : Position) (id : NodeId) (n : Node)
    (types : List TypeId) : Prop where
  kept : Kept m m'
  fresh : id = ⟨m.nodes.size⟩
  parent : n.parent = b
  regions : n.regions = []
  results : n.results = m.nextValues types.length
  values_size : m'.values.size = m.values.size + types.length
  live?_self : m'.live? id = some n
  live?_of_ne : ∀ {j}, j ≠ id → m'.live? j = m.live? j
  def?_of_lt : ∀ {v : ValueId}, v.index < m.values.size → m'.def? v = m.def? v
  def?_result : ∀ {i : Nat} {v : ValueId}, n.results[i]? = some v → m'.def? v = some (.result id i)
  type?_of_lt : ∀ {v : ValueId}, v.index < m.values.size → m'.type? v = m.type? v
  type?_result : ∀ {i : Nat} {v : ValueId}, n.results[i]? = some v → m'.type? v = types[i]?
  nodesOf : ∀ c, m'.nodesOf c = if c = b then pos.insert id (m.nodesOf b) else m.nodesOf c

namespace Creates

variable {m m' : Module} {b : BlockId} {pos : Position} {id j : NodeId} {n nj : Node}
  {types : List TypeId}

/-- A node that is there is not the new one. -/
theorem ne (h : m.Creates m' b pos id n types) (hj : m.live? j = some nj) : j ≠ id := by
  rintro rfl
  rw [h.fresh] at hj
  exact Nat.lt_irrefl _ (lt_of_live? hj)

theorem live (h : m.Creates m' b pos id n types) (hj : m.live? j = some nj) :
    m'.live? j = some nj := by
  rw [h.live?_of_ne (h.ne hj), hj]

/-- A node is the new one or was there before. -/
theorem live_cases (h : m.Creates m' b pos id n types) (hj : m'.live? j = some nj) :
    (j = id ∧ nj = n) ∨ (j ≠ id ∧ m.live? j = some nj) := by
  by_cases hji : j = id
  · subst hji
    exact Or.inl ⟨rfl, (Option.some.inj (h.live?_self.symm.trans hj)).symm⟩
  · exact Or.inr ⟨hji, by rwa [h.live?_of_ne hji] at hj⟩

theorem usable {v : ValueId} (h : m.Creates m' b pos id n types) (hv : m.Usable v) : m'.Usable v :=
  hv.mono h.kept fun hj => ⟨_, h.live hj⟩

/-- The uses are those that were there and the operands of the new node. -/
theorem uses_iff {u : Use} {v : ValueId} (h : m.Creates m' b pos id n types) :
    m'.Uses u v ↔ m.Uses u v ∨ (u.node = id ∧ n.operands[u.operand]? = some v) := by
  constructor
  · rintro ⟨nu, hnu, hv⟩
    rcases h.live_cases hnu with ⟨hid, rfl⟩ | ⟨-, hnu⟩
    · exact Or.inr ⟨hid, hv⟩
    · exact Or.inl ⟨nu, hnu, hv⟩
  · rintro (⟨nu, hnu, hv⟩ | ⟨hid, hv⟩)
    · exact ⟨nu, h.live hnu, hv⟩
    · exact ⟨n, hid ▸ h.live?_self, hv⟩

/-- The results are new values. -/
theorem index_result {v : ValueId} (h : m.Creates m' b pos id n types) (hv : v ∈ n.results) :
    m.values.size ≤ v.index := by
  obtain ⟨i, hi⟩ := List.mem_iff_getElem?.1 hv
  rw [h.results] at hi
  obtain ⟨-, rfl⟩ := getElem?_nextValues.1 hi
  simp

/-- The results of a new node are usable. -/
theorem usable_result {v : ValueId} {i : Nat} (h : m.Creates m' b pos id n types)
    (hv : n.results[i]? = some v) : m'.Usable v :=
  ⟨_, h.def?_result hv, fun he => by
    cases he
    exact ⟨_, h.live?_self⟩⟩

end Creates

theorem core_of_link {m m' : Module} {id : NodeId} {gap : Gap} (h : m.link id gap = .ok m')
    (j : NodeId) : m'.core j = (m.core j).map fun n =>
      { n with parent := if id = j then gap.block else n.parent } := by
  obtain ⟨-, hnode, -⟩ := link_eq_ok h
  obtain ⟨order, hj⟩ := hnode j
  simp only [core, hj, Option.map_map]
  rfl

theorem core_of_detach {m m' : Module} {id : NodeId} {nd : Node} (hid : m.node? id = some nd)
    (h : m.detach id = .ok m') (j : NodeId) : m'.core j = m.core j := by
  simp only [core, (detach_eq_ok hid h).node j, Option.map_map]
  rfl

end Module

/-- A node that is stored without links is loose. -/
theorem Linked.push {m : Module} {lists : BlockId → List NodeId} {n : Node}
    (h : Linked m lists none) (hblk : ∃ blk, m.block? n.parent = some blk) :
    Linked { m with nodes := m.nodes.push n } lists (some ⟨m.nodes.size⟩) := by
  have hold : ∀ {j : NodeId}, j ≠ ⟨m.nodes.size⟩ →
      ({ m with nodes := m.nodes.push n } : Module).node? j = m.node? j := by
    intro j hj
    have hne : j.index ≠ m.nodes.size := fun he => hj (by cases j; simp_all)
    simp [Module.node?, Array.getElem?_push, hne]
  have hfresh : ∀ {b}, (⟨m.nodes.size⟩ : NodeId) ∉ lists b := fun hm => by
    obtain ⟨nd, hnd, -, -⟩ := h.exists_node hm
    exact absurd (Module.lt_of_node? hnd) (Nat.lt_irrefl _)
  refine ⟨h.first, h.last, h.len, h.nodup, ?_, ?_, ?_⟩
  · intro b j
    by_cases hj : j = ⟨m.nodes.size⟩
    · subst hj
      simp [hfresh]
    · rw [hold hj, h.mem_iff]
      simp [Ne.symm hj]
  · intro b l x r nd hl hx
    have hxne : x ≠ ⟨m.nodes.size⟩ := by
      rintro rfl
      exact hfresh (b := b) (by simp [hl])
    exact h.link hl (hold hxne ▸ hx)
  · intro j nd hj he
    by_cases hjne : j = ⟨m.nodes.size⟩
    · subst hjne
      obtain rfl : n = nd := by simpa [Module.node?] using hj
      exact hblk
    · exact h.home (hold hjne ▸ hj) he

namespace Linked

variable {m m' : Module} {lists : BlockId → List NodeId} {loose : Option NodeId}

/-- The values of a module have no part in its links. -/
theorem of_values {a : Array Value} (h : Linked m lists loose) :
    Linked { m with values := a } lists loose :=
  ⟨h.first, h.last, h.len, h.nodup, h.mem_iff, h.link, h.home⟩

end Linked

/-- Recording the operands of a new node with new results. -/
theorem Recorded.create {m m' : Module} {n : Node} {types : List TypeId} (hr : Recorded m)
    (hlt : ∀ {u v}, m.Uses u v → v.index < m.values.size)
    (hself : m'.live? ⟨m.nodes.size⟩ = some n)
    (hother : ∀ {j : NodeId}, j ≠ ⟨m.nodes.size⟩ → m'.live? j = m.live? j)
    (hvalue : ∀ v, m'.value? v = (if v.index < m.values.size then m.value? v else
      (types[v.index - m.values.size]?).map fun t =>
        ⟨t, .result ⟨m.nodes.size⟩ (v.index - m.values.size), []⟩).map fun x =>
          { x with uses := x.uses ++ usesAmong ⟨m.nodes.size⟩ v 0 n.operands }) :
    Recorded m' ∧ ∀ {u v}, m'.Uses u v ↔
      m.Uses u v ∨ u ∈ usesAmong ⟨m.nodes.size⟩ v 0 n.operands := by
  have huses : ∀ {u v}, m'.Uses u v ↔ m.Uses u v ∨ u ∈ usesAmong ⟨m.nodes.size⟩ v 0 n.operands := by
    intro u v
    unfold Module.Uses
    rw [mem_usesAmong_iff]
    by_cases hu : u.node = ⟨m.nodes.size⟩
    · rw [hu, hself, Module.live?_eq_none_of_fresh
        (show m.nodes.size ≤ (⟨m.nodes.size⟩ : NodeId).index from le_rfl)]
      simp
    · rw [hother hu]
      simp [hu]
  have hdisjoint : ∀ {u v}, u ∈ usesAmong ⟨m.nodes.size⟩ v 0 n.operands → ¬ m.Uses u v := by
    rintro u v hu ⟨nu, hnu, -⟩
    rw [(mem_usesAmong_iff.1 hu).1] at hnu
    exact Nat.lt_irrefl _ (Module.lt_of_live? hnu)
  refine ⟨⟨?_, ?_⟩, huses⟩
  · intro v x hx
    rw [hvalue] at hx
    obtain ⟨y, hy, rfl⟩ := Option.map_eq_some_iff.1 hx
    split at hy
    · refine List.nodup_append.2 ⟨hr.uses_nodup hy, nodup_usesAmong _ _ _ _, ?_⟩
      rintro u hu _ hu' rfl
      exact hdisjoint hu' ((hr.mem_uses hy).1 hu)
    · obtain ⟨t, -, rfl⟩ := Option.map_eq_some_iff.1 hy
      simpa using nodup_usesAmong _ _ _ _
  · intro v x u hx
    rw [hvalue] at hx
    obtain ⟨y, hy, rfl⟩ := Option.map_eq_some_iff.1 hx
    rw [huses, List.mem_append]
    split at hy
    · rw [hr.mem_uses hy]
    · next hge =>
      obtain ⟨t, -, rfl⟩ := Option.map_eq_some_iff.1 hy
      have hno : ¬ m.Uses u v := fun hu => hge (hlt hu)
      simp [hno]

namespace WellFormed

variable {m m' : Module} {id : NodeId} {n : Node} {b : BlockId} {pos : Position} {op : Op}
  {operands : List ValueId} {types : List TypeId} {loc : Loc}

theorem usable (h : WellFormed m) {u : Use} {v : ValueId} (hu : m.Uses u v) : m.Usable v := by
  obtain ⟨d, hd, hlive⟩ := h.operand hu
  exact ⟨d, hd, hlive⟩

theorem lt_of_def? {v : ValueId} {d : ValueDef} (h : m.def? v = some d) :
    v.index < m.values.size := by
  obtain ⟨x, hx, -⟩ := Option.map_eq_some_iff.1 h
  exact Module.lt_of_value? hx

end WellFormed

/-- What a new node adds: itself, its results, and itself as the user of its operands. -/
structure Module.Appends (m m' : Module) (n : Node) (types : List TypeId) : Prop where
  rest : Module.Relinks { m with nodes := m'.nodes, values := m'.values } m'
  nodes_size : m'.nodes.size = m.nodes.size + 1
  values_size : m'.values.size = m.values.size + types.length
  core_self : m'.core ⟨m.nodes.size⟩ = some n
  core : ∀ {j : NodeId}, j ≠ ⟨m.nodes.size⟩ → m'.core j = m.core j
  value? : ∀ v, m'.value? v = (if v.index < m.values.size then m.value? v else
    (types[v.index - m.values.size]?).map fun t =>
      ⟨t, .result ⟨m.nodes.size⟩ (v.index - m.values.size), []⟩).map fun x =>
        { x with uses := x.uses ++ usesAmong ⟨m.nodes.size⟩ v 0 n.operands }

namespace Module.Appends

variable {m m' : Module} {n nj : Node} {types : List TypeId} {j : NodeId} {v : ValueId} {b : BlockId}
  {pos : Position}

theorem def? (h : m.Appends m' n types) (v : ValueId) : m'.def? v =
    if v.index < m.values.size then m.def? v else
      (types[v.index - m.values.size]?).map fun _ =>
        .result ⟨m.nodes.size⟩ (v.index - m.values.size) := by
  simp only [Module.def?, h.value? v]
  split
  · simp [Function.comp_def]
  · cases types[v.index - m.values.size]? <;> rfl

theorem type? (h : m.Appends m' n types) (v : ValueId) : m'.type? v =
    if v.index < m.values.size then m.type? v else types[v.index - m.values.size]? := by
  simp only [Module.type?, h.value? v]
  split
  · simp [Function.comp_def]
  · cases types[v.index - m.values.size]? <;> rfl

theorem live? (h : m.Appends m' n types) (hj : j ≠ ⟨m.nodes.size⟩) : m'.live? j = m.live? j := by
  rw [Module.live?, h.core hj, Module.live?]

/-- A node that was there before is not the new one. -/
theorem ne (hj : m.core j = some nj) : j ≠ ⟨m.nodes.size⟩ := by
  rintro rfl
  obtain ⟨nd, hnd, -⟩ := Option.map_eq_some_iff.1 hj
  exact Nat.lt_irrefl _ (Module.lt_of_node? hnd)

theorem kept (h : m.Appends m' n types) : m.Kept m' where
  name := h.rest.name
  ports := h.rest.ports
  body := h.rest.body
  blockCore := h.rest.blockCore
  blocks_size := h.rest.blocks_size
  nodes_size := h.nodes_size ▸ Nat.le_succ _
  values_size := h.values_size ▸ Nat.le_add_right _ _
  types hty := h.rest.types.symm ▸ hty
  def? hd := by rwa [h.def?, if_pos (WellFormed.lt_of_def? hd)]
  type? ht := by
    obtain ⟨x, hx, -⟩ := Option.map_eq_some_iff.1 ht
    rwa [h.type?, if_pos (Module.lt_of_value? hx)]
  node hj := ⟨_, by rw [h.core (ne hj), hj], rfl, rfl, rfl, rfl⟩

theorem creates (h : m.Appends m' n types) (hp : n.parent = b) (hreg : n.regions = [])
    (he : n.erased = false) (hres : n.results = m.nextValues types.length)
    (hlist : ∀ c, m'.nodesOf c =
      if c = b then pos.insert ⟨m.nodes.size⟩ (m.nodesOf b) else m.nodesOf c) :
    m.Creates m' b pos ⟨m.nodes.size⟩ n types where
  kept := h.kept
  fresh := rfl
  parent := hp
  regions := hreg
  results := hres
  values_size := h.values_size
  live?_self := by simp [Module.live?, h.core_self, Option.filter, he]
  live?_of_ne hj := h.live? hj
  def?_of_lt hv := by rw [h.def?, if_pos hv]
  def?_result hv := by
    obtain ⟨hi, rfl⟩ := Module.getElem?_nextValues.1 (hres ▸ hv)
    rw [h.def?, if_neg (by simp)]
    simp [hi]
  type?_of_lt hv := by rw [h.type?, if_pos hv]
  type?_result hv := by
    obtain ⟨hi, rfl⟩ := Module.getElem?_nextValues.1 (hres ▸ hv)
    rw [h.type?, if_neg (by simp)]
    simp
  nodesOf := hlist

/-- A module stays well-formed with one more node that uses what can be used. -/
theorem wellFormed (h : m.Appends m' n types) (hw : WellFormed m) (he : n.erased = false)
    (hres : n.results = m.nextValues types.length) (huse : ∀ v ∈ n.operands, m.Usable v)
    (hlinked : Linked m' m'.nodesOf none) : WellFormed m' := by
  have hself : m'.live? ⟨m.nodes.size⟩ = some n := by
    simp [Module.live?, h.core_self, Option.filter, he]
  obtain ⟨hrecorded, huses⟩ := hw.recorded.create (fun hu => by
    obtain ⟨d, hd, -⟩ := hw.operand hu
    exact WellFormed.lt_of_def? hd) hself h.live? h.value?
  refine ⟨hlinked, hrecorded.uses_nodup, hrecorded.mem_uses, ?_, ?_, ?_⟩
  · intro u v hu
    obtain ⟨d, hd, hdl⟩ : m.Usable v := by
      rcases huses.1 hu with hu | hu
      · exact hw.usable hu
      · obtain ⟨-, -, hv⟩ := mem_usesAmong_iff.1 hu
        exact huse v (List.mem_of_getElem? hv)
    refine ⟨d, h.kept.def? hd, fun he => ?_⟩
    obtain ⟨n, hn⟩ := hdl he
    exact ⟨n, by rwa [h.live? (ne (Module.core_of_live? hn))]⟩
  · intro j n' i v hn hv
    by_cases hj : j = ⟨m.nodes.size⟩
    · subst hj
      obtain rfl := Option.some.inj (h.core_self.symm.trans hn)
      obtain ⟨hi, rfl⟩ := Module.getElem?_nextValues.1 (hres ▸ hv)
      rw [h.def?, if_neg (by simp)]
      simp [hi]
    · exact h.kept.def? (hw.result (h.core hj ▸ hn) hv)
  · intro v j i hd
    rw [h.def?] at hd
    split at hd
    · obtain ⟨n', hn, hv⟩ := hw.definition hd
      exact ⟨n', by rw [h.core (ne hn), hn], hv⟩
    · next hlt =>
      obtain ⟨t, ht, hd⟩ := Option.map_eq_some_iff.1 hd
      cases hd
      refine ⟨n, h.core_self, hres ▸ Module.getElem?_nextValues.2
        ⟨(List.getElem?_eq_some_iff.1 ht).1, ?_⟩⟩
      cases v
      simp only [ValueId.mk.injEq] at hlt ⊢
      omega

end Module.Appends

namespace WellFormed

variable {m m' : Module} {id : NodeId} {n : Node} {b : BlockId} {pos : Position} {op : Op}
  {operands : List ValueId} {types : List TypeId} {loc : Loc}

/-- What creating a node of an operation without regions adds, and what it does to the blocks. -/
theorem appends_of_createNode (hw : WellFormed m) (hpos : pos.In m.nodesOf b)
    (hb : ∃ blk, m.block? b = some blk) (hop : op.regionKinds = [])
    (h : m.createNode pos op operands types loc = .ok (id, m')) : id = ⟨m.nodes.size⟩ ∧
    m.Appends m' (.fresh op operands (m.nextValues types.length) b loc) types ∧
      Linked m' (Function.update m.nodesOf b (pos.insert id (m.nodesOf b))) none := by
  simp only [Module.createNode, bind_eq_ok_iff] at h
  obtain ⟨gap, hgap, m₂, h₂, m₄, h₄, hret⟩ := h
  cases hret
  obtain ⟨rfl, l, r, hl, hp, hn, hins⟩ := hw.linked.gapAt_eq_ok hpos hgap ⟨m.nodes.size⟩
  obtain ⟨hfst, ⟨values, hm₁⟩, hsize, hvalue⟩ := m.addResults_eq ⟨m.nodes.size⟩ 0 types
  rw [hop] at h₂ h₄
  simp only [Module.addRegions, hfst] at h₂ h₄
  rw [hm₁] at h₂ hvalue hsize
  have huses := Module.addUses_eq_ok h₂
  obtain ⟨values', rfl⟩ := huses.rest
  have hlinked := (hw.linked.push
    (n := .fresh op operands (m.nextValues types.length) gap.block loc) hb).of_values
    (a := values')
  have hnode : ({ m with
      values := values'
      nodes := m.nodes.push (.fresh op operands (m.nextValues types.length) gap.block loc) } :
      Module).node? ⟨m.nodes.size⟩ =
      some (.fresh op operands (m.nextValues types.length) gap.block loc) := by
    simp [Module.node?]
  replace h₄ : ({ m with
      values := values'
      nodes := m.nodes.push (.fresh op operands (m.nextValues types.length) gap.block loc) } :
      Module).link ⟨m.nodes.size⟩ gap = .ok m' := h₄
  have hlinked' := hlinked.insert hnode rfl hl hp hn hb h₄
  rw [← hins] at hlinked'
  obtain ⟨hrelinks, -, -⟩ := Module.link_eq_ok h₄
  refine ⟨rfl, ⟨?_, ?_, ?_, ?_, fun {j} hj => ?_, fun v => ?_⟩, hlinked'⟩
  · exact ⟨hrelinks.name, hrelinks.ports, hrelinks.types, rfl, hrelinks.body, rfl,
      hrelinks.blocks_size, hrelinks.blockCore⟩
  · simpa using hrelinks.nodes_size
  · rw [hrelinks.values, ← hsize, ← huses.size]
  · rw [Module.core_of_link h₄, Module.core, hnode]
    simp [Node.core, Node.fresh]
  · have hne : j.index ≠ m.nodes.size := fun he => hj (by cases j; simp_all)
    rw [Module.core_of_link h₄]
    simp [Module.core, Module.node?, Array.getElem?_push, hne, Ne.symm hj, Option.map_map,
      Function.comp_def]
  · have hv := huses.value v
    rw [hvalue v] at hv
    simp only [Nat.zero_add] at hv
    refine Eq.trans ?_ hv
    simp [Module.value?, hrelinks.values]

/-- Creating a node of an operation without regions. -/
theorem createNode (hw : WellFormed m) (hpos : pos.In m.nodesOf b)
    (hb : ∃ blk, m.block? b = some blk) (hop : op.regionKinds = [])
    (huse : ∀ v ∈ operands, m.Usable v)
    (h : m.createNode pos op operands types loc = .ok (id, m')) :
    m.Creates m' b pos id
      (.fresh op operands (m.nextValues types.length) b loc) types ∧ WellFormed m' := by
  obtain ⟨rfl, happends, hlinked⟩ := hw.appends_of_createNode hpos hb hop h
  refine ⟨happends.creates rfl rfl rfl rfl fun c => ?_,
    happends.wellFormed hw rfl rfl huse (hlinked.nodesOf_eq ▸ hlinked)⟩
  rw [hlinked.nodesOf_eq, Function.update_apply]

end WellFormed

/-! ## Moving -/

/-- What moving a node leaves. -/
structure Module.Moves (m m' : Module) (b : BlockId) (pos : Position) (id : NodeId) : Prop where
  kept : Kept m m'
  live? : ∀ j, m'.live? j = (m.live? j).map fun n =>
    { n with parent := if j = id then b else n.parent }
  value? : ∀ v, m'.value? v = m.value? v
  nodesOf : ∀ c, m'.nodesOf c =
    if c = b then pos.insert id ((m.nodesOf b).erase id) else (m.nodesOf c).erase id
  types : m'.types = m.types

namespace Module.Moves

variable {m m' : Module} {b : BlockId} {pos : Position} {id j : NodeId} {n n' : Node}

theorem live (h : m.Moves m' b pos id) (hj : m.live? j = some n) :
    m'.live? j = some { n with parent := if j = id then b else n.parent } := by
  rw [h.live?, hj, Option.map_some]

theorem live_cases (h : m.Moves m' b pos id) (hj : m'.live? j = some n') :
    ∃ n, m.live? j = some n ∧ n' = { n with parent := if j = id then b else n.parent } := by
  rw [h.live?] at hj
  obtain ⟨n, hn, rfl⟩ := Option.map_eq_some_iff.1 hj
  exact ⟨n, hn, rfl⟩

theorem uses_iff {u : Use} {v : ValueId} (h : m.Moves m' b pos id) :
    m'.Uses u v ↔ m.Uses u v := by
  constructor
  · rintro ⟨nu, hnu, hv⟩
    obtain ⟨n, hn, rfl⟩ := h.live_cases hnu
    exact ⟨n, hn, hv⟩
  · rintro ⟨nu, hnu, hv⟩
    exact ⟨_, h.live hnu, hv⟩

theorem def? (h : m.Moves m' b pos id) (v : ValueId) : m'.def? v = m.def? v := by
  rw [Module.def?, h.value?, Module.def?]

theorem type? (h : m.Moves m' b pos id) (v : ValueId) : m'.type? v = m.type? v := by
  rw [Module.type?, h.value?, Module.type?]

end Module.Moves

/-- What moving a node changes besides links: its parent. -/
structure Module.Relocates (m m' : Module) (b : BlockId) (id : NodeId) : Prop where
  rest : Module.Relinks m m'
  core : ∀ j, m'.core j =
    (m.core j).map fun n => { n with parent := if id = j then b else n.parent }

namespace Module.Relocates

variable {m m' : Module} {b : BlockId} {pos : Position} {id : NodeId}

theorem core_of (h : m.Relocates m' b id) {j : NodeId} {n : Node} (hj : m.core j = some n) :
    m'.core j = some { n with parent := if id = j then b else n.parent } := by
  rw [h.core, hj, Option.map_some]

theorem live? (h : m.Relocates m' b id) (j : NodeId) : m'.live? j =
    (m.live? j).map fun n => { n with parent := if j = id then b else n.parent } := by
  simp only [Module.live?, h.core, eq_comm (a := id)]
  cases m.core j with
  | none => rfl
  | some n => cases he : n.erased <;> simp [Option.filter, he]

theorem value? (h : m.Relocates m' b id) (v : ValueId) : m'.value? v = m.value? v := by
  simp [Module.value?, h.rest.values]

theorem kept (h : m.Relocates m' b id) : m.Kept m' where
  name := h.rest.name
  ports := h.rest.ports
  body := h.rest.body
  blockCore := h.rest.blockCore
  blocks_size := h.rest.blocks_size
  nodes_size := h.rest.nodes_size.ge
  values_size := by rw [h.rest.values]
  types hty := h.rest.types.symm ▸ hty
  def? hd := by rwa [Module.def?, h.value?]
  type? ht := by rwa [Module.type?, h.value?]
  node hj := ⟨_, h.core_of hj, rfl, rfl, rfl, rfl⟩

theorem moves (h : m.Relocates m' b id) (hlist : ∀ c, m'.nodesOf c =
      if c = b then pos.insert id ((m.nodesOf b).erase id) else (m.nodesOf c).erase id) :
    m.Moves m' b pos id :=
  ⟨h.kept, h.live?, h.value?, hlist, h.rest.types⟩

theorem wellFormed (h : m.Relocates m' b id) (hw : WellFormed m)
    (hlinked : Linked m' m'.nodesOf none) : WellFormed m' := by
  have huses : ∀ {u v}, m'.Uses u v ↔ m.Uses u v := by
    intro u v
    unfold Module.Uses
    rw [h.live?]
    cases m.live? u.node <;> simp
  have hdef : ∀ v, m'.def? v = m.def? v := fun v => by rw [Module.def?, h.value?, Module.def?]
  refine ⟨hlinked, ?_, ?_, ?_, ?_, ?_⟩
  · intro v x hx
    exact hw.uses_nodup (h.value? v ▸ hx)
  · intro v x u hx
    rw [huses]
    exact hw.mem_uses (h.value? v ▸ hx)
  · intro u v hu
    obtain ⟨d, hd, hdl⟩ := hw.operand (huses.1 hu)
    refine ⟨d, by rwa [hdef], fun he => ?_⟩
    obtain ⟨n, hn⟩ := hdl he
    exact ⟨_, by rw [h.live?, hn]; rfl⟩
  · intro j n i v hj hv
    rw [h.core] at hj
    obtain ⟨n₀, hn₀, rfl⟩ := Option.map_eq_some_iff.1 hj
    rw [hdef]
    exact hw.result hn₀ hv
  · intro v j i hd
    rw [hdef] at hd
    obtain ⟨n, hn, hv⟩ := hw.definition hd
    exact ⟨_, h.core_of hn, hv⟩

end Module.Relocates

namespace WellFormed

variable {m m' : Module} {id : NodeId} {n : Node} {b : BlockId} {pos : Position}

theorem not_mem_nodesOf (hw : WellFormed m) (hn : m.live? id = some n) (hb : b ≠ n.parent) :
    id ∉ m.nodesOf b := by
  intro hm
  obtain ⟨n', hn', rfl⟩ := hw.mem_nodesOf_iff.1 hm
  rw [hn] at hn'
  cases hn'
  exact hb rfl

/-- Taking a node out of its list, written for all lists at once. -/
theorem update_erase_eq (hw : WellFormed m) (hn : m.live? id = some n) (c : BlockId) :
    Function.update m.nodesOf n.parent ((m.nodesOf n.parent).erase id) c =
      (m.nodesOf c).erase id := by
  by_cases hc : c = n.parent
  · rw [hc, Function.update_self]
  · rw [Function.update_of_ne hc, List.erase_of_not_mem (hw.not_mem_nodesOf hn hc)]

/-- A position next to another node is still there once a node is taken out of its list. -/
theorem in_update_erase (hw : WellFormed m) (hn : m.live? id = some n) (hpos : pos.In m.nodesOf b)
    (hbefore : pos ≠ .before id) (hafter : pos ≠ .after id) :
    pos.In (Function.update m.nodesOf n.parent ((m.nodesOf n.parent).erase id)) b := by
  cases pos with
  | before anchor =>
    have hne : anchor ≠ id := fun he => hbefore (by rw [he])
    change anchor ∈ _
    rw [hw.update_erase_eq hn]
    exact (List.mem_erase_of_ne hne).2 hpos
  | after anchor =>
    have hne : anchor ≠ id := fun he => hafter (by rw [he])
    change anchor ∈ _
    rw [hw.update_erase_eq hn]
    exact (List.mem_erase_of_ne hne).2 hpos
  | front c => exact hpos
  | back c => exact hpos

/-- Moving a node next to another one, or to an end of a block. -/
theorem moveNode (hw : WellFormed m) (hn : m.live? id = some n) (hpos : pos.In m.nodesOf b)
    (hb : ∃ blk, m.block? b = some blk) (hbefore : pos ≠ .before id) (hafter : pos ≠ .after id)
    (h : m.moveNode id pos = .ok m') : m.Moves m' b pos id ∧ WellFormed m' := by
  obtain ⟨nd, hid, he, rfl⟩ := Module.exists_of_live? hn
  have hnode : m.node id = .ok nd := by simpa using hid
  have hsame : ¬ (pos = .before id ∨ pos = .after id) := by simp [hbefore, hafter]
  simp only [Module.moveNode, hsame, if_false, hnode, he, bind, Except.bind] at h
  replace h : m.detach id >>= (fun m₁ => m₁.gapAt pos >>= fun gap => m₁.link id gap) = .ok m' := h
  simp only [bind_eq_ok_iff] at h
  obtain ⟨m₁, h₁, gap, hgap, h₂⟩ := h
  have hlinked₁ := hw.linked.remove hid he h₁
  have hlists : ∀ c, Function.update m.nodesOf nd.parent ((m.nodesOf nd.parent).erase id) c =
      (m.nodesOf c).erase id := hw.update_erase_eq (n := nd.core) hn
  have hpos₁ := hw.in_update_erase (n := nd.core) hn hpos hbefore hafter
  obtain ⟨rfl, l, r, hl, hp, hx, hins⟩ := hlinked₁.gapAt_eq_ok hpos₁ hgap id
  have hdetach := Module.detach_eq_ok hid h₁
  have hid₁ := hdetach.node id
  rw [hid, Option.map_some] at hid₁
  have hblk₁ : ∃ blk, m₁.block? gap.block = some blk := by
    obtain ⟨blk, hblk⟩ := hb
    exact ⟨_, by rw [hdetach.block, hblk]; rfl⟩
  have hlinked' := hlinked₁.insert hid₁ he hl hp hx hblk₁ h₂
  rw [← hins] at hlinked'
  obtain ⟨hrelinks, -, -⟩ := Module.link_eq_ok h₂
  have hrelocates : m.Relocates m' gap.block id := ⟨hdetach.relinks.trans hrelinks, fun j => by
    rw [Module.core_of_link h₂, Module.core_of_detach hid h₁]⟩
  refine ⟨hrelocates.moves fun c => ?_, hrelocates.wellFormed hw (hlinked'.nodesOf_eq ▸ hlinked')⟩
  rw [hlinked'.nodesOf_eq, Function.update_apply, hlists, hlists]

end WellFormed

/-! ## Erasing -/

theorem forall₂_of_mapM {α β : Type} {f : α → Except Fault β} {l : List α} {r : List β}
    (h : l.mapM f = .ok r) : List.Forall₂ (fun a b => f a = .ok b) l r := by
  induction l generalizing r with
  | nil =>
    cases h
    exact .nil
  | cons a l ih =>
    simp only [List.mapM_cons, bind_eq_ok_iff] at h
    obtain ⟨b, hb, bs, hbs, hr⟩ := h
    cases hr
    exact .cons hb (ih hbs)

/-- The uses of a node are the uses of its results. -/
theorem Recorded.mem_nodeUses_iff {m : Module} {id : NodeId} (hr : Recorded m) {nd : Node}
    (hid : m.node? id = some nd) {uses : List Use} (h : m.nodeUses id = .ok uses) {u : Use} :
    u ∈ uses ↔ ∃ v ∈ nd.results, m.Uses u v := by
  simp only [Module.nodeUses, bind_eq_ok_iff, Module.node_eq_ok_iff] at h
  obtain ⟨nd', hid', lists, hlists, hret⟩ := h
  obtain rfl : nd = nd' := by simpa [hid] using hid'
  cases hret
  have hall := forall₂_of_mapM hlists
  have hval : ∀ {v l}, (do return (← m.value v).uses : Except Fault (List Use)) = .ok l →
      (u ∈ l ↔ m.Uses u v) := by
    intro v l hl
    simp only [bind_eq_ok_iff, Module.value_eq_ok_iff] at hl
    obtain ⟨x, hx, hret⟩ := hl
    cases hret
    exact hr.mem_uses hx
  rw [List.mem_flatten]
  clear hlists
  generalize nd.results = results at hall
  induction hall with
  | nil => simp
  | cons hab _ ih =>
    simp only [List.mem_cons, exists_eq_or_imp, ih, hval hab]

/-- What erasing a node leaves. -/
structure Module.Erases (m m' : Module) (id : NodeId) : Prop where
  kept : Kept m m'
  live? : ∀ j, m'.live? j = if j = id then none else m.live? j
  def? : ∀ v, m'.def? v = m.def? v
  type? : ∀ v, m'.type? v = m.type? v
  nodesOf : ∀ c, m'.nodesOf c = (m.nodesOf c).erase id
  types : m'.types = m.types

namespace Module.Erases

variable {m m' : Module} {id j : NodeId} {n : Node}

theorem live (h : m.Erases m' id) (hj : m.live? j = some n) (hne : j ≠ id) :
    m'.live? j = some n := by
  rw [h.live?, if_neg hne, hj]

theorem live_cases (h : m.Erases m' id) (hj : m'.live? j = some n) :
    j ≠ id ∧ m.live? j = some n := by
  rw [h.live?] at hj
  split at hj
  · cases hj
  · next hne => exact ⟨hne, hj⟩

theorem uses_iff {u : Use} {v : ValueId} (h : m.Erases m' id) :
    m'.Uses u v ↔ m.Uses u v ∧ u.node ≠ id := by
  constructor
  · rintro ⟨nu, hnu, hv⟩
    obtain ⟨hne, hnu⟩ := h.live_cases hnu
    exact ⟨⟨nu, hnu, hv⟩, hne⟩
  · rintro ⟨⟨nu, hnu, hv⟩, hne⟩
    exact ⟨nu, h.live hnu hne, hv⟩

end Module.Erases

/-- Erasing an erased node does nothing. -/
theorem Module.eraseNode_of_erased {m m' : Module} {id : NodeId} {nd : Node}
    (hid : m.node? id = some nd) (he : nd.erased = true) (h : m.eraseNode id = .ok m') : m' = m := by
  have hnode : m.node id = .ok nd := by simpa using hid
  simp only [Module.eraseNode, bind_eq_ok_iff, Module.node_eq_ok_iff] at h
  obtain ⟨nd', hid', h⟩ := h
  obtain rfl : nd = nd' := by simpa [hid] using hid'
  rw [if_pos he] at h
  exact (Except.ok.inj h).symm

/-- Only unused nodes are erased. -/
theorem WellFormed.unused_of_isUnused {m : Module} {id : NodeId} {n : Node} (hw : WellFormed m)
    (hn : m.core id = some n) (h : m.isUnused id = .ok true) {u : Use} {v : ValueId}
    (hv : v ∈ n.results) : ¬ m.Uses u v := by
  obtain ⟨nd, hid, rfl⟩ := Option.map_eq_some_iff.1 hn
  simp only [Module.isUnused, bind_eq_ok_iff] at h
  obtain ⟨uses, huses, hret⟩ := h
  have hnil : uses = [] := by simpa using Except.ok.inj hret
  intro hu
  have hmem := (hw.recorded.mem_nodeUses_iff hid huses).2 ⟨v, hv, hu⟩
  simp [hnil] at hmem

/-- A node that is found used has a result that is used. -/
theorem WellFormed.exists_uses_of_isUnused {m : Module} {id : NodeId} {n : Node} (hw : WellFormed m)
    (hn : m.core id = some n) (h : m.isUnused id = .ok false) : ∃ u, ∃ v ∈ n.results, m.Uses u v := by
  obtain ⟨nd, hid, rfl⟩ := Option.map_eq_some_iff.1 hn
  simp only [Module.isUnused, bind_eq_ok_iff] at h
  obtain ⟨uses, huses, hret⟩ := h
  obtain ⟨u, hu⟩ := List.exists_mem_of_ne_nil uses (by simpa using Except.ok.inj hret)
  obtain ⟨v, hv, huse⟩ := (hw.recorded.mem_nodeUses_iff hid huses).1 hu
  exact ⟨u, v, hv, huse⟩

theorem Module.nestedNodes_of_regions_nil {m : Module} {id : NodeId} {nd : Node} {fuel : Nat}
    (hid : m.node? id = some nd) (hr : nd.regions = []) (hfuel : 0 < fuel) :
    m.nestedNodes fuel [] [id] = .ok [id] := by
  obtain ⟨k, rfl⟩ : ∃ k, fuel = k + 1 := ⟨fuel - 1, by omega⟩
  have hnode : m.node id = .ok nd := by simpa using hid
  simp [Module.nestedNodes, hnode, hr, bind, Except.bind, pure, Except.pure]

theorem Module.walkFuel_pos (m : Module) : 0 < m.walkFuel :=
  Nat.lt_of_lt_of_le (by decide : 0 < limit32) (Nat.le_add_left _ _)

/-- What erasing a node of an operation without regions does. -/
theorem Module.eraseNode_eq_ok {m m' : Module} {id : NodeId} {nd : Node} (hid : m.node? id = some nd)
    (he : nd.erased = false) (hr : nd.regions = []) (h : m.eraseNode id = .ok m') :
    m.isUnused id = .ok true ∧ ∃ m₁ m₂, m.removeUses id 0 nd.operands = .ok m₁ ∧
      m₁.detach id = .ok m₂ ∧ m₂.modifyNode id ({ · with erased := true }) = .ok m' := by
  have hnode : m.node id = .ok nd := by simpa using hid
  simp only [Module.eraseNode, bind_eq_ok_iff, Module.node_eq_ok_iff] at h
  obtain ⟨nd', hid', h⟩ := h
  obtain rfl : nd = nd' := by simpa [hid] using hid'
  rw [if_neg (by simp [he])] at h
  rw [bind_eq_ok_iff] at h
  obtain ⟨unused, hunused, h⟩ := h
  cases unused with
  | false =>
    rw [if_pos (by simp), bind_eq_ok_iff] at h
    obtain ⟨_, h, -⟩ := h
    cases h
  | true =>
    rw [if_neg (by simp)] at h
    simp only [bind_eq_ok_iff] at h
    obtain ⟨doomed, hdoomed, m₁, h₁, m₂, h₂, h₃⟩ := h
    rw [Module.nestedNodes_of_regions_nil hid hr m.walkFuel_pos] at hdoomed
    obtain rfl := Except.ok.inj hdoomed
    simp only [List.foldlM_cons, List.foldlM_nil, bind_eq_ok_iff] at h₁ h₃
    obtain ⟨m₁', hdrop, hret⟩ := h₁
    cases hret
    obtain ⟨m₃, h₃, hret⟩ := h₃
    cases hret
    simp only [Module.dropContents, bind_eq_ok_iff, Module.node_eq_ok_iff] at hdrop
    obtain ⟨nd', hid', m₁', hremove, hregions⟩ := hdrop
    obtain rfl : nd = nd' := by simpa [hid] using hid'
    rw [hr] at hregions
    cases hregions
    exact ⟨hunused, _, m₂, hremove, h₂, h₃⟩

open Classical in
/-- Once the loose node and all nodes of some blocks are marked as erased, and these blocks are emptied,
no node is loose. -/
theorem Linked.clear {m m' : Module} {lists : BlockId → List NodeId} {id : NodeId}
    {D : NodeId → Prop} {C : BlockId → Prop} (h : Linked m lists (some id)) (hid : D id)
    (hC : ∀ {b x}, C b → x ∈ lists b → D x) (hD : ∀ {b x}, D x → x ∈ lists b → C b)
    (hnode : ∀ j, m'.node? j = if D j then (m.node? j).map ({ · with erased := true })
      else m.node? j)
    (hblock : ∀ b, m'.block? b = if C b then (m.block? b).map Block.core else m.block? b) :
    Linked m' (fun b => if C b then [] else lists b) none := by
  refine .of_chained (fun {b blk} hb => ?_) (fun b => ?_) ?_ (fun b => ?_) ?_
  · rw [hblock] at hb
    split at hb
    · next hc =>
      obtain ⟨x, -, rfl⟩ := Option.map_eq_some_iff.1 hb
      rw [if_pos hc]
      exact ⟨rfl, rfl, rfl⟩
    · next hc => exact if_neg hc ▸ h.agrees hb
  · split
    · exact List.nodup_nil
    · exact h.nodup b
  · intro b j
    have hmem : j ∈ lists b ↔ _ := h.mem_iff
    rw [hnode]
    by_cases hj : D j
    · -- A node that is marked was in no list but those of the blocks that are emptied.
      rw [if_pos hj]
      constructor
      · intro hm
        split at hm
        · cases hm
        · next hc => exact absurd (hD hj hm) hc
      · rintro ⟨-, nd, hnd, he, -⟩
        obtain ⟨x, -, rfl⟩ := Option.map_eq_some_iff.1 hnd
        cases he
    · have hji : j ≠ id := fun he => hj (he ▸ hid)
      rw [if_neg hj]
      split
      · next hc =>
        constructor
        · intro hm
          cases hm
        · rintro ⟨-, hnd⟩
          exact absurd (hC hc (hmem.2 ⟨by simp [Ne.symm hji], hnd⟩)) hj
      · rw [hmem]
        simp [Ne.symm hji]
  · split
    · trivial
    · next hc =>
      refine (h.chained b).congr (fun y hy => ?_) fun y hy => ?_ <;>
        have hne : ¬ D y := fun hd => hc (hD hd hy) <;>
        simp [Module.prevOf, Module.nextOf, hnode, hne]
  · intro j nd hj he
    rw [hnode] at hj
    split at hj
    · obtain ⟨x, -, rfl⟩ := Option.map_eq_some_iff.1 hj
      cases he
    · obtain ⟨blk, hblk⟩ := h.home hj he
      rw [hblock, hblk]
      split
      · exact ⟨_, rfl⟩
      · exact ⟨_, rfl⟩

/-- Once the loose node is marked as erased, no node is loose. -/
theorem Linked.mark {m m' : Module} {lists : BlockId → List NodeId} {id : NodeId}
    (h : Linked m lists (some id))
    (hnode : ∀ j, m'.node? j = if id = j then (m.node? j).map ({ · with erased := true })
      else m.node? j)
    (hblock : ∀ b, m'.block? b = m.block? b) : Linked m' lists none := by
  have hloose : ∀ {b}, id ∉ lists b := fun hm => (h.mem_iff.1 hm).1 rfl
  have hclear : Linked m' _ none := h.clear (D := (id = ·)) (C := fun _ => False) rfl (fun hc => hc.elim)
    (fun hd hx => hloose (hd ▸ hx)) (fun j => by rw [hnode]; congr)
    (fun b => by rw [hblock, if_neg not_false])
  simpa using hclear

open Classical in
/-- Erasing nodes takes what they use off the use lists. -/
theorem Recorded.drop {m m' : Module} {D : NodeId → Prop} {f : ValueId → List Use → List Use}
    (hr : Recorded m) (hlive : ∀ j, m'.live? j = if D j then none else m.live? j)
    (hvalue : ∀ w, m'.value? w = (m.value? w).map fun x => { x with uses := f w x.uses })
    (hf : ∀ w l, l.Nodup → (f w l).Nodup ∧ ∀ u, u ∈ f w l ↔ u ∈ l ∧
      ∀ j, D j → ∀ n, m.core j = some n → u ∉ usesAmong j w 0 n.operands) :
    Recorded m' ∧ ∀ {u v}, m'.Uses u v ↔ m.Uses u v ∧ ¬ D u.node := by
  have huses : ∀ {u v}, m'.Uses u v ↔ m.Uses u v ∧ ¬ D u.node := by
    intro u v
    unfold Module.Uses
    rw [hlive]
    by_cases hu : D u.node <;> simp [hu]
  refine ⟨⟨?_, ?_⟩, huses⟩
  · intro v x hx
    rw [hvalue] at hx
    obtain ⟨y, hy, rfl⟩ := Option.map_eq_some_iff.1 hx
    exact (hf v _ (hr.uses_nodup hy)).1
  · intro v x u hx
    rw [hvalue] at hx
    obtain ⟨y, hy, rfl⟩ := Option.map_eq_some_iff.1 hx
    rw [huses, (hf v _ (hr.uses_nodup hy)).2, hr.mem_uses hy]
    refine and_congr_right fun hu => ?_
    obtain ⟨n, hn, hv⟩ := hu
    constructor
    · intro hno hd
      exact hno _ hd n (Module.core_of_live? hn) (mem_usesAmong_iff.2 ⟨rfl, Nat.zero_le _, hv⟩)
    · intro hu j hd _ _ hmem
      exact hu ((mem_usesAmong_iff.1 hmem).1 ▸ hd)

/-- What erasing a node changes: the node is marked, and is no longer recorded as a user. -/
structure Module.Retires (m m' : Module) (id : NodeId) (f : ValueId → List Use → List Use) :
    Prop where
  rest : Module.Relinks { m with values := m'.values } m'
  values_size : m'.values.size = m.values.size
  core : ∀ j, m'.core j = if j = id then (m.core j).map ({ · with erased := true }) else m.core j
  value? : ∀ v, m'.value? v = (m.value? v).map fun x => { x with uses := f v x.uses }

namespace Module.Retires

variable {m m' : Module} {id : NodeId} {f : ValueId → List Use → List Use} {n : Node}

theorem live? (h : m.Retires m' id f) (j : NodeId) :
    m'.live? j = if j = id then none else m.live? j := by
  rw [Module.live?, h.core]
  split
  · cases m.core j <;> simp
  · rfl

theorem def? (h : m.Retires m' id f) (v : ValueId) : m'.def? v = m.def? v := by
  simp [Module.def?, h.value?, Function.comp_def]

theorem type? (h : m.Retires m' id f) (v : ValueId) : m'.type? v = m.type? v := by
  simp [Module.type?, h.value?, Function.comp_def]

theorem kept (h : m.Retires m' id f) : m.Kept m' where
  name := h.rest.name
  ports := h.rest.ports
  body := h.rest.body
  blockCore := h.rest.blockCore
  blocks_size := h.rest.blocks_size
  nodes_size := h.rest.nodes_size.ge
  values_size := h.values_size.ge
  types hty := h.rest.types.symm ▸ hty
  def? {v d} hd := h.def? v ▸ hd
  type? {v t} ht := h.type? v ▸ ht
  node {j n} hj := by
    rw [h.core, hj]
    split
    · exact ⟨_, rfl, rfl, rfl, rfl, rfl⟩
    · exact ⟨n, rfl, rfl, rfl, rfl, rfl⟩

/-- A module stays well-formed without a node that nobody uses. -/
theorem wellFormed (h : m.Retires m' id f) (hw : WellFormed m) (hn : m.live? id = some n)
    (hunused : ∀ u, ∀ v ∈ n.results, ¬ m.Uses u v)
    (hf : ∀ v l, l.Nodup →
      (f v l).Nodup ∧ ∀ u, u ∈ f v l ↔ u ∈ l ∧ u ∉ usesAmong id v 0 n.operands)
    (hlinked : Linked m' m'.nodesOf none) : WellFormed m' := by
  have hcore := Module.core_of_live? hn
  obtain ⟨hrecorded, huses⟩ := hw.recorded.drop (D := (· = id))
    (fun j => show m'.live? j = _ by rw [h.live?]; congr) h.value? fun v l hl => by
      refine ⟨(hf v l hl).1, fun u => ?_⟩
      rw [(hf v l hl).2]
      refine and_congr_right fun _ => ⟨?_, fun hno => hno id rfl n hcore⟩
      rintro hno j rfl n' hn'
      obtain rfl := Option.some.inj (hcore.symm.trans hn')
      exact hno
  refine ⟨hlinked, hrecorded.uses_nodup, hrecorded.mem_uses, ?_, ?_, ?_⟩
  · intro u v hu
    obtain ⟨d, hd, hdl⟩ := hw.operand (huses.1 hu).1
    refine ⟨d, h.kept.def? hd, ?_⟩
    rintro j i rfl
    obtain ⟨nj, hj⟩ := hdl rfl
    have hne : j ≠ id := by
      rintro rfl
      obtain ⟨n', hn', hv⟩ := hw.definition hd
      obtain rfl := Option.some.inj (hn'.symm.trans hcore)
      exact hunused u v (List.mem_of_getElem? hv) (huses.1 hu).1
    exact ⟨nj, by rw [h.live?, if_neg hne, hj]⟩
  · intro j n i v hj hv
    rw [h.core] at hj
    split at hj
    · obtain ⟨n₀, hn₀, rfl⟩ := Option.map_eq_some_iff.1 hj
      exact h.kept.def? (hw.result hn₀ hv)
    · exact h.kept.def? (hw.result hj hv)
  · intro v j i hd
    rw [h.def?] at hd
    obtain ⟨n, hn, hv⟩ := hw.definition hd
    rw [h.core, hn]
    split
    · exact ⟨_, rfl, hv⟩
    · exact ⟨n, rfl, hv⟩

end Module.Retires

/-- What erasing a node of an operation without regions changes, and what it does to the blocks. -/
theorem WellFormed.retires_of_eraseNode {m m' : Module} {id : NodeId} {n : Node} (hw : WellFormed m)
    (hn : m.live? id = some n) (hr : n.regions = []) (h : m.eraseNode id = .ok m') :
    m.isUnused id = .ok true ∧ ∃ f, m.Retires m' id f ∧
      (∀ v l, l.Nodup →
        (f v l).Nodup ∧ ∀ u, u ∈ f v l ↔ u ∈ l ∧ u ∉ usesAmong id v 0 n.operands) ∧
      Linked m' (Function.update m.nodesOf n.parent ((m.nodesOf n.parent).erase id)) none := by
  obtain ⟨nd, hid, he, rfl⟩ := Module.exists_of_live? hn
  obtain ⟨hunused, m₁, m₂, h₁, h₂, h₃⟩ := Module.eraseNode_eq_ok hid he hr h
  obtain ⟨f, hf, hmem⟩ := Module.removeUses_eq_ok h₁
  have hid₁ : m₁.node? id = some nd := by rw [hf.node?, hid]
  have hlinked₁ : Linked m₁ m.nodesOf none := by
    obtain ⟨values, rfl⟩ := hf.rest
    exact hw.linked.of_values
  have hdetach := Module.detach_eq_ok hid₁ h₂
  have hrelinks := hdetach.relinks.trans (Module.Relinks.of_modifyNode h₃)
  obtain ⟨hnode₃, hblock₃⟩ : (∀ j, m'.node? j = if id = j then
      (m₂.node? j).map ({ · with erased := true }) else m₂.node? j) ∧
      ∀ b, m'.block? b = m₂.block? b := by
    obtain ⟨nodes, rfl, -, hnode⟩ := Module.modifyNode_eq_ok h₃
    exact ⟨hnode, fun b => rfl⟩
  refine ⟨hunused, f, ⟨?_, ?_, fun j => ?_, fun v => ?_⟩, hmem,
    (hlinked₁.remove hid₁ he h₂).mark hnode₃ hblock₃⟩
  · obtain ⟨values, rfl⟩ := hf.rest
    exact ⟨hrelinks.name, hrelinks.ports, hrelinks.types, rfl, hrelinks.body, hrelinks.nodes_size,
      hrelinks.blocks_size, hrelinks.blockCore⟩
  · rw [hrelinks.values, hf.size]
  · have hj := Module.core_of_detach hid₁ h₂ j
    have hj₁ : m₁.core j = m.core j := by rw [Module.core, hf.node?, Module.core]
    rw [hj₁] at hj
    rw [Module.core, hnode₃]
    by_cases hji : id = j
    · rw [if_pos hji, if_pos hji.symm, ← hj, Module.core]
      cases m₂.node? j <;> rfl
    · rw [if_neg hji, if_neg (Ne.symm hji), ← hj, Module.core]
  · rw [← hf.value v, Module.value?, hrelinks.values]
    rfl

/-- Erasing a node of an operation without regions. -/
theorem WellFormed.eraseNode {m m' : Module} {id : NodeId} {n : Node} (hw : WellFormed m)
    (hn : m.live? id = some n) (hr : n.regions = []) (h : m.eraseNode id = .ok m') :
    (∀ u, ∀ v ∈ n.results, ¬ m.Uses u v) ∧ m.Erases m' id ∧ WellFormed m' := by
  obtain ⟨hunused, f, hretires, hf, hlinked⟩ := hw.retires_of_eraseNode hn hr h
  have hnone : ∀ u, ∀ v ∈ n.results, ¬ m.Uses u v := fun u v hv =>
    hw.unused_of_isUnused (Module.core_of_live? hn) hunused hv
  refine ⟨hnone, ⟨hretires.kept, hretires.live?, hretires.def?, hretires.type?, fun c => ?_,
    hretires.rest.types⟩, hretires.wellFormed hw hn hnone hf (hlinked.nodesOf_eq ▸ hlinked)⟩
  rw [hlinked.nodesOf_eq]
  exact hw.update_erase_eq hn c

end NetPrep
