import Mathlib
import NetPrep.Proofs.Built
import NetPrep.Proofs.Legalizing
import NetPrep.Proofs.Scope

/-!
# The declarations of a module in stock

`Module.Carries` compares a module with an earlier one: the declarations that were there are there
still, each under its name and with storage of its type, and so many have come in addition. Each edit
of preparation but the creation of a declaration carries the stock over unchanged. Nothing is asked of
the links between nodes or of the lists of uses.
-/

namespace NetPrep

/-- A declaration that is not erased. -/
def Node.isStocked (n : Node) : Bool := n.op.isDeclaration && !n.erased

/-- What a node shows of itself wherever it is moved and whatever it refers to. -/
structure Node.Resembles (n n' : Node) : Prop where
  op : n'.op = n.op
  results : n'.results = n.results
  regions : n'.regions = n.regions
  operands : n'.operands.length = n.operands.length
  erased : n.erased = true → n'.erased = true
  stays : n.isStocked = true → n'.erased = false
  name : n.isStocked = true → n'.name = n.name

theorem Op.not_isDeclaration_of_isExpression {op : Op} (h : op.isExpression = true) :
    op.isDeclaration = false := by
  cases op <;> first | rfl | cases h

namespace Node.Resembles

variable {n n' n'' : Node}

theorem isStocked_iff : n.isStocked = true ↔ n.op.isDeclaration = true ∧ n.erased = false := by
  simp [Node.isStocked]

theorem refl (n : Node) : n.Resembles n :=
  ⟨rfl, rfl, rfl, rfl, id, fun h => (isStocked_iff.1 h).2, fun _ => rfl⟩

/-- Changes of the operands, the place and the rest do not matter. -/
theorem of_eq (hop : n'.op = n.op) (hresults : n'.results = n.results)
    (hregions : n'.regions = n.regions) (hoperands : n'.operands.length = n.operands.length)
    (herased : n'.erased = n.erased) (hname : n.isStocked = true → n'.name = n.name) :
    n.Resembles n' :=
  ⟨hop, hresults, hregions, hoperands, fun h => herased.trans h,
    fun h => herased.trans (isStocked_iff.1 h).2, hname⟩

theorem isStocked_eq (h : n.Resembles n') : n'.isStocked = n.isStocked := by
  cases hn : n.isStocked with
  | true => exact isStocked_iff.2 ⟨h.op.symm ▸ (isStocked_iff.1 hn).1, h.stays hn⟩
  | false =>
    refine Bool.eq_false_iff.2 fun hn' => Bool.eq_false_iff.1 hn (isStocked_iff.2 ?_)
    obtain ⟨hd, he⟩ := isStocked_iff.1 hn'
    exact ⟨h.op ▸ hd, Bool.eq_false_iff.2 fun h' => by simp [h.erased h'] at he⟩

theorem trans (h : n.Resembles n') (h' : n'.Resembles n'') : n.Resembles n'' where
  op := h'.op.trans h.op
  results := h'.results.trans h.results
  regions := h'.regions.trans h.regions
  operands := h'.operands.trans h.operands
  erased he := h'.erased (h.erased he)
  stays hd := h'.stays (h.isStocked_eq.trans hd)
  name hd := (h'.name (h.isStocked_eq.trans hd)).trans (h.name hd)

end Node.Resembles

namespace Module

variable {m m' m'' : Module} {made made' : Nat} {id j : NodeId} {n nd : Node} {v : ValueId}

/-- The number of the declarations of a module. -/
def declarationCount (m : Module) : Nat := m.nodes.countP Node.isStocked

/-- A node of a module is no declaration, or erased. -/
def Unstocked (m : Module) (id : NodeId) : Prop := ∃ n, m.core id = some n ∧ n.isStocked = false

theorem HasOp.unstocked (h : m.HasOp (·.isDeclaration = false) id) : m.Unstocked id := by
  obtain ⟨n, hn, hop⟩ := h
  exact ⟨n, hn, by simp [Node.isStocked, show n.op.isDeclaration = false from hop]⟩

/-- A node without regions of its own has none, and a declaration makes storage out of nothing. -/
structure Shapely (m : Module) (n : Node) : Prop where
  regions : n.op.regionKinds = [] → n.regions = []
  operands : n.op.isDeclaration = true → n.operands = []
  storage : n.op.isDeclaration = true → ∃ v type element, n.results = [v] ∧
    m.type? v = some type ∧ m.types.get type = .ok (.storage element)

/-- All nodes that are not erased have the shape of their operation. -/
def Regular (m : Module) : Prop := ∀ ⦃id n⦄, m.core id = some n → n.erased = false → m.Shapely n

/-- The stock of a module is carried over to another one, with so many declarations added to it. -/
structure Carries (made : Nat) (m m' : Module) : Prop where
  ports : m'.ports = m.ports
  types : m'.types.Extends m.types
  type? : ∀ {v type}, m.type? v = some type → m'.type? v = some type
  node : ∀ {id n}, m.core id = some n → ∃ n', m'.core id = some n' ∧ n.Resembles n'
  regular : m.Regular → m'.Regular
  count : m'.declarationCount = m.declarationCount + made

theorem Shapely.mono (h : m.Shapely n) (htypes : m'.types.Extends m.types)
    (htype : ∀ {v type}, m.type? v = some type → m'.type? v = some type) : m'.Shapely n where
  regions := h.regions
  operands := h.operands
  storage hd := by
    obtain ⟨v, type, element, hv, ht, he⟩ := h.storage hd
    exact ⟨v, type, element, hv, htype ht, htypes _ _ he⟩

theorem Shapely.resembles {n' : Node} (h : m.Shapely n) (hn : n.Resembles n') : m.Shapely n' where
  regions hop := hn.regions.trans (h.regions (hn.op ▸ hop))
  operands hd := by
    have hlen := hn.operands
    rw [h.operands (hn.op ▸ hd)] at hlen
    exact List.length_eq_zero_iff.1 hlen
  storage hd := by
    rw [hn.results]
    exact h.storage (hn.op ▸ hd)

theorem exists_core_of_size (hsize : m'.nodes.size = m.nodes.size) {n' : Node}
    (hn' : m'.core id = some n') : ∃ n, m.core id = some n :=
  exists_core_iff.2 (hsize ▸ exists_core_iff.1 ⟨n', hn'⟩)

theorem isStocked_of_core {i : Nat} (h : m.core ⟨i⟩ = some n) :
    m.nodes[i]?.map Node.isStocked = some n.isStocked := by
  obtain ⟨x, hx, rfl⟩ := Option.map_eq_some_iff.1 h
  exact Option.map_eq_some_iff.2 ⟨x, hx, rfl⟩

/-- Modules whose nodes are declarations at the same places have as many of them. -/
theorem declarationCount_congr {nodes nodes' : Array Node}
    (h : ∀ i : Nat, nodes'[i]?.map Node.isStocked = nodes[i]?.map Node.isStocked) :
    nodes'.countP Node.isStocked = nodes.countP Node.isStocked := by
  have hmap : nodes'.map Node.isStocked = nodes.map Node.isStocked :=
    Array.ext_getElem? fun i => by rw [Array.getElem?_map, Array.getElem?_map, h i]
  have hcount := congrArg (Array.countP id) hmap
  simpa [Array.countP_map] using hcount

namespace Carries

theorem refl (m : Module) : Carries 0 m m :=
  ⟨rfl, fun _ _ h => h, fun h => h, fun h => ⟨_, h, .refl _⟩, fun h => h, rfl⟩

theorem trans (h : Carries made m m') (h' : Carries made' m' m'') :
    Carries (made + made') m m'' where
  ports := h'.ports.trans h.ports
  types t ty ht := h'.types t ty (h.types t ty ht)
  type? ht := h'.type? (h.type? ht)
  node hn := by
    obtain ⟨n', hn', hr⟩ := h.node hn
    obtain ⟨n'', hn'', hr'⟩ := h'.node hn'
    exact ⟨n'', hn'', hr.trans hr'⟩
  regular hm := h'.regular (h.regular hm)
  count := by rw [h'.count, h.count, Nat.add_assoc]

/-- An edit that changes nodes in place. -/
theorem of_core (hports : m'.ports = m.ports) (htypes : m'.types.Extends m.types)
    (htype : ∀ {v type}, m.type? v = some type → m'.type? v = some type)
    (hsize : m'.nodes.size = m.nodes.size)
    (hnode : ∀ {id n}, m.core id = some n → ∃ n', m'.core id = some n' ∧ n.Resembles n') :
    Carries 0 m m' where
  ports := hports
  types := htypes
  type? := htype
  node := hnode
  regular hm id n' hn' he' := by
    obtain ⟨n, hn⟩ := exists_core_of_size hsize hn'
    obtain ⟨x, hx, hr⟩ := hnode hn
    obtain rfl := Option.some.inj (hx.symm.trans hn')
    have he : n.erased = false := Bool.eq_false_iff.2 fun he => by
      rw [hr.erased he] at he'
      cases he'
    exact ((hm hn he).resembles hr).mono htypes htype
  count := by
    refine declarationCount_congr fun i => ?_
    cases hn : m.core ⟨i⟩ with
    | none =>
      have hlt : ¬ i < m.nodes.size := fun hlt => by
        obtain ⟨n, hn'⟩ := exists_core_iff.2 (show (⟨i⟩ : NodeId).index < m.nodes.size from hlt)
        rw [hn] at hn'
        cases hn'
      rw [Array.getElem?_eq_none (by omega), Array.getElem?_eq_none (by omega)]
    | some n =>
      obtain ⟨n', hn', hr⟩ := hnode hn
      rw [isStocked_of_core hn', isStocked_of_core hn, hr.isStocked_eq]

/-- What is known of the operation of a node stays true. -/
theorem hasOp {p : Op → Prop} (h : Carries made m m') (hop : m.HasOp p id) : m'.HasOp p id := by
  obtain ⟨n, hn, hp⟩ := hop
  obtain ⟨n', hn', hr⟩ := h.node hn
  exact ⟨n', hn', hr.op ▸ hp⟩

theorem unstocked (h : Carries made m m') (hid : m.Unstocked id) : m'.Unstocked id := by
  obtain ⟨n, hn, hno⟩ := hid
  obtain ⟨n', hn', hr⟩ := h.node hn
  exact ⟨n', hn', hr.isStocked_eq.trans hno⟩

end Carries

/-! ## Edits in place -/

/-- The links of nodes do not matter. -/
theorem Carries.of_links (h : m.Relinks m')
    (hcore : ∀ j, ∃ f : Node → Node, m'.core j = (m.core j).map f ∧
      ∀ n : Node, n.Resembles (f n)) :
    Carries 0 m m' := by
  refine .of_core h.ports (fun _ _ ht => h.types ▸ ht) (fun {v type} ht => ?_) h.nodes_size
    fun {j n} hn => ?_
  · unfold Module.type? value? at ht ⊢
    rwa [h.values]
  · obtain ⟨f, hf, hr⟩ := hcore j
    exact ⟨f n, by rw [hf, hn, Option.map_some], hr n⟩

theorem carries_of_modifyNode {f : Node → Node} (hok : m.modifyNode id f = .ok m')
    (hf : ∀ n : Node, m.core id = some n.core → n.core.Resembles (f n).core) : Carries 0 m m' := by
  obtain ⟨nodes, rfl, hsize, hnode⟩ := modifyNode_eq_ok hok
  refine .of_core rfl (fun _ _ ht => ht) (fun ht => ht) hsize fun {j n} hn => ?_
  obtain ⟨x, hx, rfl⟩ := Option.map_eq_some_iff.1 hn
  have hj := hnode j
  split at hj
  · next heq =>
    subst heq
    rw [hx] at hj
    exact ⟨_, core_of_node? hj, hf x hn⟩
  · exact ⟨_, core_of_node? (hj.trans hx), .refl _⟩

/-- Neither do the lists of uses. -/
theorem EditsUses.carries {f : ValueId → List Use → List Use} (h : EditsUses m m' f) :
    Carries 0 m m' := by
  have htype : ∀ {v type}, m.type? v = some type → m'.type? v = some type :=
    fun ht => (h.type? _).trans ht
  obtain ⟨values, rfl⟩ := h.rest
  exact .of_core rfl (fun _ _ ht => ht) htype rfl fun hn => ⟨_, hn, .refl _⟩

theorem carries_of_detach (hid : m.node? id = some nd) (hok : m.detach id = .ok m') :
    Carries 0 m m' :=
  .of_links (detach_eq_ok hid hok).relinks fun j =>
    ⟨fun n => n, by rw [core_of_detach hid hok, Option.map_id'], .refl⟩

theorem carries_of_link {gap : Gap} (hok : m.link id gap = .ok m') : Carries 0 m m' :=
  .of_links (link_eq_ok hok).1 fun j => ⟨_, core_of_link hok j, fun _ =>
    .of_eq rfl rfl rfl rfl rfl fun _ => rfl⟩

theorem carries_of_moveNode {pos : Position} (hok : m.moveNode id pos = .ok m') :
    Carries 0 m m' := by
  unfold Module.moveNode at hok
  split at hok
  · cases hok
    exact .refl _
  · simp only [bind_eq_ok_iff, node_eq_ok_iff] at hok
    obtain ⟨nd, hid, hok⟩ := hok
    split at hok
    · cases hok
    obtain ⟨m₁, hdetach, gap, -, hlink⟩ : ∃ m₁, m.detach id = .ok m₁ ∧
        ∃ gap, m₁.gapAt pos = .ok gap ∧ m₁.link id gap = .ok m' := by
      simpa only [bind_eq_ok_iff] using hok
    exact (carries_of_detach hid hdetach).trans (carries_of_link hlink)

theorem carries_of_setOperand {i : Nat} (hok : m.setOperand id i v = .ok m') : Carries 0 m m' := by
  simp only [Module.setOperand, bind_eq_ok_iff] at hok
  obtain ⟨old, -, hok⟩ := hok
  split at hok
  · cases hok
    exact .refl _
  · simp only [bind_eq_ok_iff] at hok
    obtain ⟨m₁, hremove, m₂, hadd, hmodify⟩ := hok
    refine ((removeUse_eq_ok hremove).carries.trans (addUse_eq_ok hadd).carries).trans
      (carries_of_modifyNode hmodify fun n _ => ?_)
    exact .of_eq rfl rfl rfl List.length_set rfl fun _ => rfl

theorem carries_of_replaceUses {old new : ValueId} (hok : m.replaceUses old new = .ok m') :
    Carries 0 m m' := by
  unfold Module.replaceUses at hok
  split at hok
  · cases hok
    exact .refl _
  · simp only [bind_eq_ok_iff] at hok
    obtain ⟨x, -, m₁, h₁, m₂, h₂, h₃⟩ := hok
    have hretarget : Carries 0 m₁ m₂ := by
      obtain ⟨⟨nodes, rfl, hsize⟩, hnode⟩ := retarget_eq_ok h₂
      refine .of_core rfl (fun _ _ ht => ht) (fun ht => ht) hsize fun {j n} hn => ?_
      obtain ⟨y, hy, rfl⟩ := Option.map_eq_some_iff.1 hn
      refine ⟨_, core_of_node? ((hnode j).trans (congrArg _ hy)), ?_⟩
      exact .of_eq rfl rfl rfl length_setUses rfl fun _ => rfl
    exact ((EditsUses.of_modifyValue (g := fun _ => []) h₁).carries.trans hretarget).trans
      (EditsUses.of_modifyValue (g := fun l => l ++ x.uses) h₃).carries

theorem carries_of_setTwoState {b : Bool} (hok : m.setTwoState id b = .ok m') : Carries 0 m m' :=
  carries_of_modifyNode hok fun _ _ => .of_eq rfl rfl rfl rfl rfl fun _ => rfl

/-- Only what is not in stock loses its name or gets another one. -/
theorem carries_of_setName {name : Option Name} (hid : m.Unstocked id)
    (hok : m.setName id name = .ok m') : Carries 0 m m' :=
  carries_of_modifyNode hok fun n hn => .of_eq rfl rfl rfl rfl rfl fun h => by
    obtain ⟨x, hx, hno⟩ := hid
    obtain rfl := Option.some.inj (hx.symm.trans hn)
    rw [hno] at h
    cases h

theorem carries_of_internType (m : Module) (ty : HwType) : Carries 0 m (m.internType ty).2 :=
  .of_core rfl (fun _ _ ht => TypeTable.get_intern_of_get ht ty) (fun ht => ht) rfl
    fun hn => ⟨_, hn, .refl _⟩

/-- Only what is no declaration and owns no regions is erased, and so no declaration goes with it. -/
theorem carries_of_eraseNode (hm : m.Regular)
    (hop : m.HasOp (fun op => op.isDeclaration = false ∧ op.regionKinds = []) id)
    (hok : m.eraseNode id = .ok m') : Carries 0 m m' := by
  obtain ⟨n, hn, hd, hk⟩ := hop
  obtain ⟨nd, hid, rfl⟩ := Option.map_eq_some_iff.1 hn
  cases he : nd.erased with
  | true =>
    obtain rfl := eraseNode_of_erased hid he hok
    exact .refl _
  | false =>
    obtain ⟨-, m₁, m₂, hremove, hdetach, hmark⟩ :=
      eraseNode_eq_ok hid he ((hm hn he).regions hk) hok
    obtain ⟨f, hf, -⟩ := removeUses_eq_ok hremove
    have hid₁ : m₁.node? id = some nd := by rw [hf.node?, hid]
    have hcarries := hf.carries.trans (carries_of_detach hid₁ hdetach)
    obtain ⟨n₂, hn₂, hr₂⟩ := hcarries.node hn
    refine hcarries.trans (carries_of_modifyNode hmark fun x hx => ?_)
    obtain rfl := Option.some.inj (hn₂.symm.trans hx)
    have hnot : x.core.isStocked ≠ true := fun h => by
      rw [Node.Resembles.isStocked_iff, hr₂.op, hd] at h
      cases h.1
    exact ⟨rfl, rfl, rfl, rfl, fun _ => rfl, fun h => absurd h hnot, fun h => absurd h hnot⟩

/-! ## New nodes -/

/-- A module has a node more than another one, the last one in its store. -/
structure Adds (m m' : Module) (id : NodeId) (n : Node) : Prop where
  ports : m'.ports = m.ports
  types : m'.types = m.types
  type? : ∀ {v type}, m.type? v = some type → m'.type? v = some type
  id_eq : id = ⟨m.nodes.size⟩
  size : m'.nodes.size = m.nodes.size + 1
  core : ∀ {j n}, m.core j = some n → m'.core j = some n
  core_self : m'.core id = some n

namespace Adds

/-- A new node that is named or changed otherwise at once is stored as it is changed. -/
theorem modifyNode {f : Node → Node} (h : Adds m m' id n) (hok : m'.modifyNode id f = .ok m'')
    (hf : ∀ x : Node, (f x).core = (f x.core).core) : Adds m m'' id (f n).core := by
  obtain ⟨nodes, rfl, hsize, hnode⟩ := modifyNode_eq_ok hok
  have hcore : ∀ {j}, id ≠ j → Module.core { m' with nodes } j = m'.core j := fun hne => by
    unfold Module.core
    rw [hnode, if_neg hne]
  refine ⟨h.ports, h.types, h.type?, h.id_eq, hsize.trans h.size, fun {j x} hj => ?_, ?_⟩
  · have hlt := exists_core_iff.1 ⟨x, hj⟩
    have hne : id ≠ j := fun heq => by
      rw [← heq, h.id_eq] at hlt
      exact absurd hlt (Nat.lt_irrefl _)
    rw [hcore hne]
    exact h.core hj
  · obtain ⟨x, hx, rfl⟩ := Option.map_eq_some_iff.1 h.core_self
    have hself := hnode id
    rw [if_pos rfl, hx] at hself
    rw [core_of_node? hself, hf]

/-- A new node adds to the stock what it declares. -/
theorem carries (h : Adds m m' id n) (hn : n.erased = false → m'.Shapely n) :
    Carries (if n.isStocked then 1 else 0) m m' where
  ports := h.ports
  types _ _ ht := h.types ▸ ht
  type? := h.type?
  node hn := ⟨_, h.core hn, .refl _⟩
  regular hm j x hx he := by
    by_cases hlt : j.index < m.nodes.size
    · obtain ⟨y, hy⟩ := exists_core_iff.2 hlt
      obtain rfl := Option.some.inj ((h.core hy).symm.trans hx)
      exact (hm hy he).mono (fun _ _ ht => h.types ▸ ht) h.type?
    · have hj := exists_core_iff.1 ⟨x, hx⟩
      rw [h.size] at hj
      obtain rfl : id = j := by
        rw [h.id_eq]
        cases j
        exact congrArg _ (by simp at hj hlt; omega)
      obtain rfl := Option.some.inj (h.core_self.symm.trans hx)
      exact hn he
  count := by
    obtain ⟨x, hx, hcore⟩ := Option.map_eq_some_iff.1 h.core_self
    have hpush : m'.declarationCount = (m.nodes.push x).countP Node.isStocked := by
      refine declarationCount_congr fun i => ?_
      rcases Nat.lt_trichotomy i m.nodes.size with hi | rfl | hi
      · obtain ⟨y, hy⟩ := exists_core_iff.2 (show (⟨i⟩ : NodeId).index < m.nodes.size from hi)
        rw [isStocked_of_core (h.core hy), Array.getElem?_push_lt hi,
          ← Array.getElem?_eq_getElem hi, isStocked_of_core hy]
      · have hself : m'.nodes[m.nodes.size]? = some x := by
          have hid := hx
          rwa [h.id_eq] at hid
        rw [hself, Array.getElem?_push_size]
      · have hsize := h.size
        rw [Array.getElem?_eq_none (by omega), Array.getElem?_eq_none (by simp; omega)]
    have hstock : x.isStocked = n.isStocked := by rw [← hcore]; rfl
    rw [hpush, Array.countP_push, hstock]
    rfl

end Adds

variable {pos : Position} {op : Op} {operands : List ValueId} {types : List TypeId} {loc : Loc}

/-- What creating a node adds. -/
theorem adds_of_createNode (hok : m.createNode pos op operands types loc = .ok (id, m')) :
    ∃ b, Adds m m' id (m.freshNode b op operands types loc).core ∧
      ∀ i, m'.type? ⟨m.values.size + i⟩ = types[i]? ∧
        m'.def? ⟨m.values.size + i⟩ = types[i]?.map fun _ => .result id i := by
  rw [createNode_eq] at hok
  simp only [bind_eq_ok_iff, Except.ok.injEq, Prod.mk.injEq] at hok
  obtain ⟨gap, -, m₁, hstore, m₂, hlink, rfl, rfl⟩ := hok
  have hs := store_eq_ok hstore
  obtain ⟨hrelinks, -, -⟩ := link_eq_ok hlink
  have hvalue : ∀ v, m₂.value? v = m₁.value? v := fun v => by
    unfold value?
    rw [hrelinks.values]
  have hrest : m₁.ports = m.ports ∧ m₁.types = m.types := by
    unfold Module.store at hstore
    simp only [bind_eq_ok_iff] at hstore
    obtain ⟨m₀, huses, hret⟩ := hstore
    cases hret
    obtain ⟨values, rfl⟩ := (addUses_eq_ok huses).rest
    obtain ⟨-, ⟨blocks, hblocks⟩, -⟩ := addRegions_eq (m.addResults ⟨m.nodes.size⟩ 0 types).2
      ⟨m.nodes.size⟩ op.regionKinds
    obtain ⟨-, ⟨values', hvalues⟩, -⟩ := m.addResults_eq ⟨m.nodes.size⟩ 0 types
    rw [hblocks, hvalues]
    exact ⟨rfl, rfl⟩
  refine ⟨gap.block, ⟨hrelinks.ports.trans hrest.1, hrelinks.types.trans hrest.2,
    fun {v type} hv => ?_, rfl, hrelinks.nodes_size.trans hs.nodes_size, fun {j n} hn => ?_, ?_⟩,
    fun i => ?_⟩
  · obtain ⟨x, hx, rfl⟩ := Option.map_eq_some_iff.1 hv
    rw [Module.type?, hvalue, hs.value?, if_pos (lt_of_value? hx), hx]
    rfl
  · have hlt := exists_core_iff.1 ⟨n, hn⟩
    have hne : j ≠ ⟨m.nodes.size⟩ := fun heq => by
      rw [heq] at hlt
      exact absurd hlt (Nat.lt_irrefl _)
    have hcore : m₁.core j = some n := by
      rw [Module.core, hs.node?, if_neg hne]
      exact hn
    rw [core_of_link hlink, hcore, Option.map_some, if_neg hne.symm]
  · rw [core_of_link hlink, core_of_node? hs.node?_self, Option.map_some, if_pos rfl]
    rfl
  · rw [Module.type?, Module.def?, hvalue, hs.value?, if_neg (by simp)]
    simp only [Nat.add_sub_cancel_left, Option.map_map]
    cases types[i]? with
    | none => exact ⟨rfl, rfl⟩
    | some t => exact ⟨rfl, rfl⟩

theorem shapely_freshNode (m' : Module) (hop : op.isDeclaration = false) {b : BlockId} :
    m'.Shapely (m.freshNode b op operands types loc).core where
  regions hk := by
    show m.nextBlocks op.regionKinds.length = []
    rw [show op.regionKinds = [] from hk]
    rfl
  operands hd := absurd (hd.symm.trans hop) Bool.true_eq_false.mp
  storage hd := absurd (hd.symm.trans hop) Bool.true_eq_false.mp

/-- A new node of another kind leaves the stock as it is. -/
theorem carries_of_createNode (hop : op.isDeclaration = false)
    (hok : m.createNode pos op operands types loc = .ok (id, m')) :
    Carries 0 m m' := by
  obtain ⟨b, hadds, -⟩ := adds_of_createNode hok
  have hcarries := hadds.carries fun _ => shapely_freshNode m' hop
  rwa [if_neg (by simp [Node.isStocked, freshNode, Node.fresh, Node.core, hop])] at hcarries

/-- What a new node is, and what defines its result. -/
theorem hasOp_of_createNode (hok : m.createNode pos op operands types loc = .ok (id, m')) :
    m'.HasOp (· = op) id ∧ ∀ v, m'.result id 0 = .ok v → m'.def? v = some (.result id 0) := by
  obtain ⟨b, hadds, hvalue⟩ := adds_of_createNode hok
  refine ⟨⟨_, hadds.core_self, rfl⟩, fun v hv => ?_⟩
  obtain ⟨n, hn, hget⟩ := Prep.result_eq_ok_iff.1 hv
  have hcore := Option.some.inj ((core_of_node? hn).symm.trans hadds.core_self)
  rw [show n.results = m.nextValues types.length from congrArg Node.results hcore] at hget
  obtain ⟨hlt, rfl⟩ := getElem?_nextValues.1 hget
  rw [(hvalue 0).2, List.getElem?_eq_getElem hlt]
  rfl

/-- So does a copy of one. -/
theorem carries_of_cloneNode {source : NodeId} (hop : m.HasOp (·.isDeclaration = false) source)
    (hok : m.cloneNode source pos = .ok (id, m')) : Carries 0 m m' := by
  simp only [Module.cloneNode, bind_eq_ok_iff, node_eq_ok_iff] at hok
  obtain ⟨n, hn, types, -, ⟨cloneId, m₁⟩, hcreate, m₂, hmodify, hret⟩ := hok
  cases hret
  obtain ⟨n', hn', hd⟩ := hop
  obtain rfl := Option.some.inj ((core_of_node? hn).symm.trans hn')
  obtain ⟨b, hadds, -⟩ := adds_of_createNode hcreate
  have hadds' := hadds.modifyNode hmodify fun _ => rfl
  have hfresh : m'.Shapely (m.freshNode b n.op n.operands types n.loc).core :=
    shapely_freshNode m' hd
  have hcarries := hadds'.carries fun _ =>
    ⟨hfresh.regions, hfresh.operands, hfresh.storage⟩
  have hstock : n.op.isDeclaration = false := hd
  rwa [if_neg (by simp [Node.isStocked, freshNode, Node.fresh, Node.core, hstock])] at hcarries

/-- A new declaration comes in addition to the stock, under whatever name it gets. -/
theorem carries_of_declaration {m₁ : Module} {type element : TypeId} {name : Option Name}
    (hop : op.isDeclaration = true) (hget : m.types.get type = .ok (.storage element))
    (hok : m.createNode pos op [] [type] loc = .ok (id, m₁)) (hname : m₁.setName id name = .ok m') :
    Carries 1 m m' := by
  obtain ⟨b, hadds, htype⟩ := adds_of_createNode hok
  have hadds' := hadds.modifyNode hname fun _ => rfl
  have htype' : m'.type? ⟨m.values.size⟩ = some type := by
    obtain ⟨nodes, rfl, -⟩ := modifyNode_eq_ok hname
    exact (htype 0).1
  have hcarries := hadds'.carries fun _ => {
    regions := fun hk => by
      show m.nextBlocks op.regionKinds.length = []
      rw [show op.regionKinds = [] from hk]
      rfl
    operands := fun _ => rfl
    storage := fun _ => ⟨⟨m.values.size⟩, type, element, rfl, htype', hadds'.types ▸ hget⟩ }
  rwa [if_pos (by simp [Node.isStocked, freshNode, Node.fresh, Node.core, hop])] at hcarries

end Module

/-- A well-typed module is regular. -/
theorem WellTyped.regular {m : Module} (hm : WellTyped m) : m.Regular := fun id n hn he => by
  obtain ⟨nd, hid, rfl⟩ := Option.map_eq_some_iff.1 hn
  have hlive := Module.live?_of_node? hid he
  have hevident := (hm.typed hlive).evident
  refine ⟨hm.regions_eq_nil hlive, fun hd => hevident.alone ?_, fun hd => ?_⟩
  · exact Bool.or_eq_true_iff.2 (Or.inr hd)
  · obtain ⟨v, type, hres, ht, hst⟩ := hevident.declaration hd
    obtain ⟨element, helement⟩ := Option.isSome_iff_exists.1 (TypeTable.elementOf?_of_isStorage hst)
    exact ⟨v, type, element, hres, ht, TypeTable.elementOf?_eq_some_iff.1 helement⟩

end NetPrep
