import Mathlib
import NetPrep.Proofs.Checking
import NetPrep.Proofs.Handling
import NetPrep.Proofs.Inventory
import NetPrep.Proofs.Naming
import NetPrep.Proofs.Passes
import NetPrep.Proofs.Tidying

/-!
# Every declaration that is made is counted

Preparation makes a declaration in five places and counts it there. `State.Accounts` compares what was
declared with what was counted between two states, and `Prep.Accounts` says it of a step whatever the
step does: there is one rule for each way in which steps are put together. A step that counts a
declaration made before it is ahead of its own declarations by one, which `declareFor` makes up for.
-/

namespace NetPrep

open Prepare Prep

namespace Prepare

/-- How many declarations have been counted. -/
def Stats.declared (st : Stats) : Nat := st.temporaries + st.sideEffectsExtracted

namespace State

/-- One state has the declarations and names of another, and the counts have risen by the number of
declarations that came in addition and by so many more. -/
structure Accounts (ahead : Nat) (s s' : State) : Prop where
  names : s.names.Within s'.names
  carries : ∃ made, s.module.Carries made s'.module ∧
    s'.stats.declared = s.stats.declared + made + ahead

namespace Accounts

variable {ahead ahead' : Nat} {s s' s'' : State} {id : NodeId}

theorem refl (s : State) : s.Accounts 0 s := ⟨.refl _, 0, .refl _, rfl⟩

theorem trans (h : s.Accounts ahead s') (h' : s'.Accounts ahead' s'') :
    s.Accounts (ahead + ahead') s'' := by
  obtain ⟨made, hm, hcount⟩ := h.carries
  obtain ⟨made', hm', hcount'⟩ := h'.carries
  exact ⟨h.names.trans h'.names, made + made', hm.trans hm', by omega⟩

theorem regular (h : s.Accounts ahead s') (hs : s.module.Regular) : s'.module.Regular := by
  obtain ⟨made, hm, -⟩ := h.carries
  exact hm.regular hs

theorem hasOp {p : Op → Prop} (h : s.Accounts ahead s') (hop : s.module.HasOp p id) :
    s'.module.HasOp p id := by
  obtain ⟨made, hm, -⟩ := h.carries
  exact hm.hasOp hop

theorem unstocked (h : s.Accounts ahead s') (hid : s.module.Unstocked id) :
    s'.module.Unstocked id := by
  obtain ⟨made, hm, -⟩ := h.carries
  exact hm.unstocked hid

theorem of_carries {m : Module} (h : s.module.Carries 0 m) :
    s.Accounts 0 { s with module := m } := ⟨.refl _, 0, h, rfl⟩

end Accounts

end State

end Prepare

namespace Module

variable {m : Module} {id : NodeId}

theorem HasOp.ne_declaration (h : m.HasOp (·.isExpression = true) id) :
    m.HasOp (·.isDeclaration = false) id := h.imp fun _ => Op.not_isDeclaration_of_isExpression

theorem hasOp_of_node? {n : Node} {p : Op → Prop} (hn : m.node? id = some n) (hp : p n.op) :
    m.HasOp p id := ⟨_, core_of_node? hn, hp⟩

end Module

namespace Prep

variable {α β : Type} {k : Nat} {env : Env} {s : State}

/-- Whenever a step on a regular module succeeds, it accounts for its declarations and is ahead by so
many. -/
def Accounts (ahead : Nat) (x : Prep α) (env : Env) (s : State) : Prop :=
  s.module.Regular → ∀ {a s'}, x.Runs env s a s' → s.Accounts ahead s'

namespace Accounts

/-! ## Putting steps together -/

theorem pure (a : α) : Accounts 0 (pure a : Prep α) env s := fun _ _ _ h => by
  obtain ⟨-, rfl⟩ := runs_pure.1 h
  exact .refl _

theorem fail (f : Failure) : Accounts k (fail f : Prep α) env s := fun _ _ _ h =>
  absurd h runs_fail

theorem fault (f : Fault) : Accounts k (fault f : Prep α) env s := fun _ _ _ h =>
  absurd h runs_fault

theorem bind {x : Prep α} {f : α → Prep β} (hx : Accounts 0 x env s)
    (hf : ∀ a s₁, x.Runs env s a s₁ → s.Accounts 0 s₁ → Accounts k (f a) env s₁) :
    Accounts k (x >>= f) env s := fun hs _ _ h => by
  obtain ⟨a, s₁, h₁, h₂⟩ := runs_bind.1 h
  have hacc := hx hs h₁
  have := hacc.trans (hf a s₁ h₁ hacc (hacc.regular hs) h₂)
  rwa [Nat.zero_add] at this

/-- A count of declarations made before. -/
theorem count {g : Stats → Stats} {f : Unit → Prep β} (hg : ∀ st, (g st).declared = st.declared + k)
    (hf : ∀ s₁, s.Accounts k s₁ → Accounts 0 (f ()) env s₁) :
    Accounts k (count g >>= f) env s := fun hs _ _ h => by
  obtain ⟨a, s₁, h₁, h₂⟩ := runs_bind.1 h
  obtain rfl := runs_count.1 h₁
  have hacc : s.Accounts k { s with stats := g s.stats } := ⟨.refl _, 0, .refl _, hg _⟩
  exact hacc.trans (hf _ hacc (hacc.regular hs) h₂)

/-- The module may be taken to be regular. -/
theorem regular {x : Prep α} (h : s.module.Regular → Accounts k x env s) : Accounts k x env s :=
  fun hs => h hs hs

/-- A step that ends the sequence. -/
theorem last {x : Prep α} (h : Accounts k (x >>= Pure.pure) env s) : Accounts k x env s := by
  rwa [bind_pure] at h

theorem counts {g : Stats → Stats} (hg : ∀ st, (g st).declared = st.declared + k) :
    Accounts k (Prep.count g) env s := last (count hg fun _ _ => pure ())

/-- A question is asked, and the answer is used. -/
theorem ask {q : Module → Except Fault α} {f : α → Prep β}
    (hf : ∀ a, q s.module = .ok a → Accounts k (f a) env s) :
    Accounts k (query q >>= f) env s := fun hs _ _ h => by
  obtain ⟨a, s₁, h₁, h₂⟩ := runs_bind.1 h
  obtain ⟨ha, rfl⟩ := runs_query.1 h₁
  exact hf a ha hs h₂

theorem node {id : NodeId} {f : Node → Prep β}
    (hf : ∀ n, s.module.node? id = some n → Accounts k (f n) env s) :
    Accounts k (node id >>= f) env s :=
  ask (q := (·.node id)) fun n hn => hf n (Module.node_eq_ok_iff.1 hn)

theorem options {f : Options → Prep β} (hf : Accounts k (f env.options) env s) :
    Accounts k (options >>= f) env s := fun hs _ _ h => hf hs h

theorem fuel {f : Nat → Prep β} (hf : Accounts k (f env.fuel) env s) :
    Accounts k (fuel >>= f) env s := fun hs _ _ h => hf hs h

theorem moduleName {f : String → Prep β} (hf : Accounts k (f env.moduleName) env s) :
    Accounts k (moduleName >>= f) env s := fun hs _ _ h => hf hs h

/-- The oracle is asked. -/
theorem consult {q : Env → Module → Except Fault α} {f : α → Prep β}
    (hf : ∀ a, q env s.module = .ok a → Accounts k (f a) env s) :
    Accounts k ((fun env => Prep.query (q env) env : Prep α) >>= f) env s :=
  fun hs _ _ h => ask (q := q env) hf hs h

theorem ite {c : Prop} [Decidable c] {x y : Prep α} (hx : c → Accounts k x env s)
    (hy : ¬ c → Accounts k y env s) : Accounts k (if c then x else y) env s := by
  split
  · next hc => exact hx hc
  · next hc => exact hy hc

/-- Steps that leave the module alone. -/
theorem silent {x : Prep α} (h : Silent x) : Accounts 0 x env s := fun _ _ s' hrun => by
  refine ⟨h.within hrun, 0, ?_, ?_⟩
  · rw [h.module_eq hrun]
    exact .refl _
  · rw [h.stats_eq hrun]
    rfl

theorem forM {P : State → Prop} {f : α → Prep Unit} {l : List α} (hP : P s)
    (hkeep : ∀ {s s'}, P s → s.Accounts 0 s' → P s')
    (hf : ∀ a ∈ l, ∀ s, P s → Accounts 0 (f a) env s) : Accounts 0 (l.forM f) env s := by
  induction l generalizing s with
  | nil => exact pure ()
  | cons a l ih =>
    exact bind (hf a (by simp) s hP) fun _ s₁ _ hacc => ih (hkeep hP hacc)
      fun b hb => hf b (List.mem_cons_of_mem _ hb)

theorem forM' {f : α → Prep Unit} {l : List α} (hf : ∀ a s, Accounts 0 (f a) env s) :
    Accounts 0 (l.forM f) env s :=
  forM (P := fun _ => True) trivial (fun _ _ => trivial) fun a _ s _ => hf a s

theorem foldlM {f : β → α → Prep β} {l : List α} {b : β} (hf : ∀ b a s, Accounts 0 (f b a) env s) :
    Accounts 0 (l.foldlM f b) env s := by
  induction l generalizing s b with
  | nil => exact pure b
  | cons a l ih => exact bind (hf b a s) fun b s₁ _ _ => ih

theorem filterM {f : α → Prep Bool} {l : List α} (hf : ∀ a s, Accounts 0 (f a) env s) :
    Accounts 0 (l.filterM f) env s := by
  have haux : ∀ kept s, Accounts 0 (l.filterAuxM f kept) env s := by
    induction l with
    | nil => exact fun kept s => pure kept
    | cons a l ih => exact fun kept s => bind (hf a s) fun _ s₁ _ _ => ih _ s₁
  exact bind (haux [] s) fun _ _ _ _ => pure _

/-! ## Edits -/

variable {p : Position} {op : Op} {operands : List ValueId} {types : List TypeId}
  {type : TypeId} {loc : Loc} {id : NodeId} {v old new : ValueId} {i : Nat}

theorem edit {e : Module → Except Fault Module} (he : s.module.Regular →
    ∀ m, e s.module = .ok m → s.module.Carries 0 m) : Accounts 0 (edit e) env s :=
  fun hs _ _ h => by
    obtain ⟨m, hm, rfl⟩ := runs_edit.1 h
    exact .of_carries (he hs m hm)

theorem moveNode (id : NodeId) (p : Position) :
    Accounts 0 (Prep.edit (·.moveNode id p)) env s :=
  edit fun _ _ hm => Module.carries_of_moveNode hm

theorem setOperand (id : NodeId) (i : Nat) (v : ValueId) :
    Accounts 0 (Prep.edit (·.setOperand id i v)) env s :=
  edit fun _ _ hm => Module.carries_of_setOperand hm

theorem replaceUses (old new : ValueId) : Accounts 0 (Prep.edit (·.replaceUses old new)) env s :=
  edit fun _ _ hm => Module.carries_of_replaceUses hm

theorem setTwoState (id : NodeId) (b : Bool) : Accounts 0 (Prep.edit (·.setTwoState id b)) env s :=
  edit fun _ _ hm => Module.carries_of_setTwoState hm

theorem setName (name : Option Name) (hid : s.module.Unstocked id) :
    Accounts 0 (Prep.edit (·.setName id name)) env s :=
  edit fun _ _ hm => Module.carries_of_setName hid hm

theorem eraseNode (hop : s.module.HasOp (·.isExpression = true) id) :
    Accounts 0 (Prep.edit (·.eraseNode id)) env s :=
  edit fun hs _ hm => Module.carries_of_eraseNode hs (hop.imp fun _ h =>
    ⟨Op.not_isDeclaration_of_isExpression h, Op.regionKinds_of_isExpression h⟩) hm

theorem createNode {f : NodeId → Prep β} (hop : op.isDeclaration = false)
    (hf : ∀ id s₁, s.Accounts 0 s₁ → s₁.module.HasOp (· = op) id →
      (∀ v, s₁.module.result id 0 = .ok v → s₁.module.def? v = some (.result id 0)) →
      Accounts k (f id) env s₁) :
    Accounts k (Prep.editWith (·.createNode p op operands types loc) >>= f) env s := by
  refine bind (fun _ _ _ h => ?_) fun id s₁ h hacc => ?_
  · obtain ⟨m, hm, rfl⟩ := runs_editWith.1 h
    exact .of_carries (Module.carries_of_createNode hop hm)
  · obtain ⟨m, hm, rfl⟩ := runs_editWith.1 h
    obtain ⟨hid, hdef⟩ := Module.hasOp_of_createNode hm
    exact hf id _ hacc hid hdef

theorem createStatement (hop : op.isDeclaration = false) :
    Accounts 0 (createStatement p op operands loc) env s :=
  last (createNode hop fun id _ _ _ _ => pure id)

theorem create {f : NodeId × ValueId → Prep β} (hop : op.isDeclaration = false)
    (hf : ∀ id v s₁, s.Accounts 0 s₁ → s₁.module.HasOp (· = op) id →
      s₁.module.def? v = some (.result id 0) → Accounts k (f (id, v)) env s₁) :
    Accounts k (create p op operands type loc >>= f) env s := by
  unfold Prep.create
  rw [bind_assoc]
  refine createNode hop fun id s₁ hacc hid hdef => ?_
  rw [bind_assoc]
  exact ask fun v hv => hf id v s₁ hacc hid (hdef v hv)

/-- Storage is declared; the count of it comes later. -/
theorem declareFor {name : Option Name} {f : NodeId × ValueId → Prep β}
    (hop : op.isDeclaration = true) (hf : ∀ q s₁, Accounts 1 (f q) env s₁) :
    Accounts 0 (declareFor v p op name loc >>= f) env s := fun hs _ _ h => by
  simp only [Prep.declareFor, Prep.storageTypeOf, Prep.create, runs_bind, runs_query, runs_editWith,
    runs_edit, runs_pure] at h
  obtain ⟨q, s₁, ⟨stype, _, ⟨type, _, ⟨-, rfl⟩, m₀, hm₀, rfl⟩, q', _, ⟨decl, _, ⟨m₁, hcreate, rfl⟩,
    storage, _, ⟨-, rfl⟩, rfl, rfl⟩, _, _, ⟨m₂, hname, rfl⟩, rfl, rfl⟩, h⟩ := h
  obtain ⟨rfl, rfl⟩ : (s.module.internType (.storage type)).1 = stype ∧
      (s.module.internType (.storage type)).2 = m₀ := by simpa [Prod.ext_iff] using hm₀
  have hcarries := (Module.carries_of_internType s.module (.storage type)).trans
    (Module.carries_of_declaration hop (TypeTable.get_intern _ _) hcreate hname)
  obtain ⟨hnames, made, hm, hcount⟩ := hf _ _ (hcarries.regular hs) h
  refine ⟨hnames, _, hcarries.trans hm, ?_⟩
  -- The declaration comes before the steps that are ahead by one.
  change _ = s.stats.declared + made + 1 at hcount
  omega

/-! ## Temporaries -/

theorem readFor {u : Use} {storage : ValueId} {f : NodeId → Prep α}
    (hf : ∀ read s₁, s₁.module.HasOp (·.isAlwaysInline = true) read →
      Accounts k (f read) env s₁) : Accounts k (readFor u storage type loc >>= f) env s := by
  unfold Prep.readFor
  rw [bind_assoc]
  refine create rfl fun read value s₁ _ hread _ => ?_
  rw [bind_assoc]
  refine bind (setOperand _ _ _) fun _ s₂ _ hacc => ?_
  exact hf read s₂ (hacc.hasOp (hread.imp fun _ hop => hop ▸ rfl))

theorem spillResult {result : ValueId} {name : Option Name} {atFront : Bool} :
    Accounts 0 (spillResult id result name atFront) env s := by
  refine node fun n _ => ask fun blk _ => ask fun type _ => declareFor (by split <;> rfl) ?_
  intro (decl, storage) s₁
  refine ask fun x _ => bind ?_ fun _ s₂ _ _ => ?_
  · exact forM' fun _ _ => readFor fun _ _ _ => pure ()
  · refine bind (createStatement (by split <;> rfl)) fun _ s₃ _ _ => ?_
    have hcount : ∀ {s : State}, Accounts 1 (Prep.count fun st =>
        { st with temporaries := st.temporaries + 1 }) env s :=
      counts fun st => Nat.add_right_comm ..
    exact ite (fun _ => bind (moveNode decl _) fun _ _ _ _ => hcount) fun _ => hcount

/-- The node that gets temporaries is no declaration in stock, as it loses its name. -/
theorem spill {atFront : Bool} (hid : s.module.Unstocked id) :
    Accounts 0 (spill id atFront) env s := by
  refine node fun n _ => ?_
  split
  · refine bind (silent (.structuralName? _)) fun name s₁ _ hacc => ?_
    exact bind (setName none (hacc.unstocked hid)) fun _ s₂ _ _ => spillResult
  · exact forM' fun _ _ => spillResult

theorem elementTypeOf {f : TypeId → Prep α} (hf : ∀ type, Accounts k (f type) env s) :
    Accounts k (elementTypeOf v >>= f) env s := by
  unfold Prep.elementTypeOf
  rw [bind_assoc]
  refine ask fun type _ => ?_
  cases type with
  | some type => simpa only [pure_bind] using hf type
  | none =>
    rw [bind_assoc]
    exact moduleName fun _ _ _ h => absurd (runs_bind.1 h) (by simp)

/-! ## Trees -/

theorem isBalanceable {f : Bool → Prep α} (hf : ∀ r, (r = true → ∃ n,
      s.module.node? id = some n ∧ n.op.isCommutative = true ∧ 2 < n.operands.length) →
    Accounts k (f r) env s) : Accounts k (isBalanceable id >>= f) env s := by
  unfold Prep.isBalanceable
  rw [bind_assoc]
  refine node fun n hn => ?_
  split
  · next h =>
    simp only [Bool.and_eq_true, decide_eq_true_eq] at h
    exact consult fun r _ => hf r fun _ => ⟨n, hn, h.2, h.1.1.1⟩
  · rw [pure_bind]
    exact hf false fun h => by cases h

theorem createTreeNode {shape : TreeShape} {lhs rhs : ValueId} {f : NodeId × ValueId → Prep α}
    (hop : shape.op.isDeclaration = false)
    (hf : ∀ id v s₁, s.Accounts 0 s₁ → s₁.module.HasOp (·.isDeclaration = false) id →
      s₁.module.def? v = some (.result id 0) → Accounts k (f (id, v)) env s₁) :
    Accounts k (createTreeNode shape lhs rhs >>= f) env s := by
  unfold Prep.createTreeNode
  rw [bind_assoc]
  refine create hop fun id v s₁ h₁ hid hdef => ?_
  simp only [bind_assoc, pure_bind]
  refine bind (setTwoState _ _) fun _ s₂ h h₂ => ?_
  refine hf id v s₂ (h₁.trans h₂) (h₂.hasOp (hid.imp fun _ h => h ▸ hop)) ?_
  -- The flag leaves the values alone.
  obtain ⟨m, hm, rfl⟩ := runs_edit.1 h
  obtain ⟨nodes, rfl, -⟩ := Module.modifyNode_eq_ok hm
  exact hdef

theorem createTree {shape : TreeShape} (hop : shape.op.isDeclaration = false) (tree : OperandTree) :
    Accounts 0 (createTree shape tree) env s := by
  induction tree generalizing s with
  | leaf v => exact pure _
  | branch left right hleft hright =>
    exact bind hleft fun _ s₁ _ _ => bind hright fun _ s₂ _ _ =>
      createTreeNode hop fun _ _ _ _ _ _ => pure _

/-! ## The oracle -/

variable (ho : env.oracle = .systemVerilog)
include ho

theorem isExpression {f : Bool → Prep β}
    (hf : ∀ r, (r = true → s.module.HasOp (·.isExpression = true) id) → Accounts k (f r) env s) :
    Accounts k (isExpression id >>= f) env s := consult fun r hr => hf r fun h => by
  rw [ho, Oracle.isExpression_eq_ok_iff] at hr
  obtain ⟨n, hn, hop⟩ := hr
  exact Module.hasOp_of_node? hn (hop.trans h)

theorem isAlwaysInline {f : Bool → Prep β}
    (hf : ∀ r, (r = true → s.module.HasOp (·.isAlwaysInline = true) id) →
      Accounts k (f r) env s) : Accounts k (isAlwaysInline id >>= f) env s :=
  consult fun r hr => hf r fun h => by
    rw [ho, Oracle.isAlwaysInline_eq_ok_iff] at hr
    obtain ⟨n, hn, hop⟩ := hr
    exact Module.hasOp_of_node? hn (hop.trans h)

end Accounts

/-! ## Expressions that are printed at each use -/

section

variable {id : NodeId} {s' : State} {v : ValueId}

/-- The nodes of a worklist are printed at their uses. -/
def AllInline (m : Module) (worklist : List NodeId) : Prop :=
  ∀ j ∈ worklist, m.HasOp (·.isAlwaysInline = true) j

variable (ho : env.oracle = .systemVerilog)
include ho

theorem cloneForUses_accounts {fuel : Nat} {worklist worklist' : List NodeId}
    (hs : s.module.Regular) (hid : s.module.HasOp (·.isAlwaysInline = true) id)
    (hw : AllInline s.module worklist)
    (h : (cloneForUses id v fuel worklist).Runs env s worklist' s') :
    s.Accounts 0 s' ∧ AllInline s'.module worklist' := by
  induction fuel generalizing s worklist with
  | zero => exact absurd h runs_fault
  | succ fuel ih =>
    simp only [cloneForUses, runs_bind, runs_query] at h
    obtain ⟨x, _, ⟨-, rfl⟩, h⟩ := h
    split at h
    · next u _ _ _ =>
      simp only [runs_bind, runs_query, runs_edit, runs_editWith, runs_count] at h
      obtain ⟨clone, _, ⟨m₁, hclone, rfl⟩, copy, _, ⟨-, rfl⟩, _, _, ⟨m₂, hset, rfl⟩, _, _, rfl,
        more, s₂, hmore, h⟩ := h
      have hplain := (hid.imp fun _ => Op.isExpression_of_isAlwaysInline).ne_declaration
      have hcarries := (Module.carries_of_cloneNode hplain hclone).trans
        (Module.carries_of_setOperand hset)
      have hacc : s.Accounts 0 ⟨m₂, s.names,
        { s.stats with duplicated := s.stats.duplicated + 1 }⟩ := ⟨.refl _, 0, hcarries, rfl⟩
      obtain ⟨rfl, na, -, hin⟩ := alwaysInlineOperands_runs ho hmore
      have hw₂ : AllInline m₂ (more ++ worklist) := fun j hj => by
        rcases List.mem_append.1 hj with hj | hj
        · exact ((hin j).1 hj).1
        · exact hacc.hasOp (hw j hj)
      obtain ⟨hacc', hw'⟩ := ih (hacc.regular hs) (hacc.hasOp hid) hw₂ h
      exact ⟨hacc.trans hacc', hw'⟩
    · obtain ⟨rfl, rfl⟩ := runs_pure.1 h
      exact ⟨.refl _, hw⟩

theorem settleInline_accounts {worklist worklist' : List NodeId} (hs : s.module.Regular)
    (hw : AllInline s.module (id :: worklist))
    (h : (settleInline id worklist).Runs env s worklist' s') :
    s.Accounts 0 s' ∧ AllInline s'.module worklist' := by
  have hid := hw id List.mem_cons_self
  have hrest : AllInline s.module worklist := fun j hj => hw j (List.mem_cons_of_mem _ hj)
  simp only [settleInline, runs_bind, runs_node] at h
  obtain ⟨n, _, ⟨-, rfl⟩, h⟩ := h
  split at h
  · simp only [runs_bind, runs_fuel, runs_query] at h
    obtain ⟨_, _, ⟨rfl, rfl⟩, w₁, s₁, hclone, x, _, ⟨-, rfl⟩, h⟩ := h
    obtain ⟨hacc, hw₁⟩ := cloneForUses_accounts ho hs hid hrest hclone
    split at h
    · obtain ⟨rfl, rfl⟩ := runs_pure.1 h
      exact ⟨hacc, hw₁⟩
    · simp only [runs_bind, runs_edit, runs_pure] at h
      obtain ⟨_, _, ⟨m₂, hmove, rfl⟩, ops, _, hops, rfl, rfl⟩ := h
      obtain ⟨rfl, no, -, hin⟩ := alwaysInlineOperands_runs ho hops
      have hacc₂ : s₁.Accounts 0 { s₁ with module := m₂ } :=
        .of_carries (Module.carries_of_moveNode hmove)
      refine ⟨hacc.trans hacc₂, fun j hj => ?_⟩
      rcases List.mem_append.1 hj with hj | hj
      · exact ((hin j).1 hj).1
      · exact hacc₂.hasOp (hw₁ j hj)
  · obtain ⟨rfl, rfl⟩ := runs_pure.1 h
    exact ⟨.refl _, hrest⟩

theorem settleAllInline_accounts {fuel : Nat} {worklist : List NodeId} (hs : s.module.Regular)
    (hw : AllInline s.module worklist) (h : (settleAllInline fuel worklist).Runs env s () s') :
    s.Accounts 0 s' := by
  induction fuel generalizing s worklist with
  | zero =>
    cases worklist with
    | nil =>
      obtain ⟨-, rfl⟩ := runs_pure.1 h
      exact .refl _
    | cons id worklist => exact absurd h runs_fault
  | succ fuel ih =>
    cases worklist with
    | nil =>
      obtain ⟨-, rfl⟩ := runs_pure.1 h
      exact .refl _
    | cons id worklist =>
      obtain ⟨worklist', s₁, h₁, h₂⟩ := runs_bind.1 h
      obtain ⟨hacc, hw'⟩ := settleInline_accounts ho hs hw h₁
      exact hacc.trans (ih (hacc.regular hs) hw' h₂)

end

namespace Accounts

variable {p : Position} {op : Op} {type : TypeId} {loc : Loc} {id : NodeId} {v old new : ValueId}

variable (ho : env.oracle = .systemVerilog)
include ho

theorem inlineEverywhere (hid : s.module.HasOp (·.isAlwaysInline = true) id) :
    Accounts 0 (inlineEverywhere id) env s := fun hs _ _ h => by
  obtain ⟨_, _, hfuel, h⟩ := runs_bind.1 h
  obtain ⟨rfl, rfl⟩ := runs_fuel.1 hfuel
  exact settleAllInline_accounts ho hs (fun j hj => List.mem_singleton.1 hj ▸ hid) h

theorem inlineIf (d : NodeId) : Accounts 0 (do
    if ← Prep.isAlwaysInline d then Prep.inlineEverywhere d) env s :=
  isAlwaysInline ho fun _ hr => ite (fun h => inlineEverywhere ho (hr h)) fun _ => pure ()

theorem inlineOperands (id : NodeId) : Accounts 0 (inlineOperands id) env s :=
  node fun n _ => forM' fun v s => ask fun d _ => by
    cases d with
    | none => exact pure ()
    | some operand => exact inlineIf ho operand

/-! ## Dead logic -/

theorem isDead {f : Bool → Prep α}
    (hf : ∀ r, (r = true → s.module.HasOp (·.isExpression = true) id) → Accounts k (f r) env s) :
    Accounts k (isDead id >>= f) env s := fun hs _ _ h => by
  obtain ⟨r, s₁, hdead, h⟩ := runs_bind.1 h
  obtain ⟨rfl, hr⟩ := isDead_runs ho hdead
  refine hf r (fun h => ?_) hs h
  obtain ⟨n, hn, hop⟩ := hr h
  exact ⟨n, Module.core_of_live? hn, hop⟩

theorem pushDeadOperands (vs : List ValueId) (worklist : List NodeId) :
    Accounts 0 (pushDeadOperands vs worklist) env s := by
  induction vs generalizing worklist with
  | nil => exact pure worklist
  | cons v vs ih =>
    refine ask fun d _ => ?_
    cases d with
    | none => exact ih worklist
    | some d => exact isDead ho fun _ _ => ih _

theorem eraseDead (fuel erased : Nat) (worklist : List NodeId) :
    Accounts 0 (eraseDead fuel erased worklist) env s := by
  induction fuel generalizing s erased worklist with
  | zero =>
    cases worklist with
    | nil => exact pure erased
    | cons id worklist => exact fault _
  | succ fuel ih =>
    cases worklist with
    | nil => exact pure erased
    | cons id worklist =>
      refine isDead ho fun dead hdead => ite (fun h => ?_) fun _ => ih erased worklist
      refine node fun n _ => bind (eraseNode (hdead h)) fun _ s₁ _ _ => ?_
      exact bind (pushDeadOperands ho n.operands worklist) fun worklist s₂ _ _ => ih _ worklist

theorem pruneDeadLogic : Accounts 0 pruneDeadLogic env s := by
  refine ask fun ids _ => bind (filterM fun id s => ?_) fun dead s₁ _ _ => fuel ?_
  · exact last (isDead ho fun r _ => pure r)
  · exact bind (eraseDead ho env.fuel 0 dead.reverse) fun erased s₂ _ _ =>
      count (fun _ => rfl) fun s₃ _ => pure erased

/-! ## Using an assignment that is there -/

/-- Each of some uses reads storage, and the reads are settled. -/
theorem readsFor {storage : ValueId} {us : List Use} :
    Accounts 0 (us.forM fun u => do Prep.inlineEverywhere (← Prep.readFor u storage type loc))
      env s :=
  forM' fun _ _ => readFor fun _ _ hread => inlineEverywhere ho hread

theorem reuseAssigned (id : NodeId) : Accounts 0 (reuseAssigned id) env s := by
  refine node fun n _ => ?_
  split
  · refine ask fun split _ => ?_
    split
    · refine ite (fun _ => pure _) fun _ => ask fun source _ => ask fun op _ =>
        ite (fun _ => pure _) fun _ => ask fun target _ => elementTypeOf fun type => ?_
      refine node fun a _ => bind (readsFor ho) fun _ s₁ _ _ => ask fun d _ => ?_
      have hcount : ∀ {s : State}, Accounts 0 (do
          Prep.count fun st => { st with reused := st.reused + 1 }
          return true) env s := count (fun _ => rfl) fun _ _ => pure true
      cases d with
      | none => exact hcount
      | some decl =>
        refine isAlwaysInline ho fun _ hd => ?_
        split
        · next h => exact bind (inlineEverywhere ho (hd h)) fun _ _ _ _ => hcount
        · exact hcount
    · exact pure _
  · exact pure _

/-! ## Expressions in printable form -/

/-- Nodes that were made are settled, the count that follows is of other things. -/
theorem settleMade {ids : List NodeId} : Accounts 0 (ids.forM Prep.inlineOperands) env s :=
  forM' fun j _ => inlineOperands ho j

/-- Neither what a tree replaces nor the root of the tree is a declaration. -/
theorem balance {n : Node} (hn : s.module.node? id = some n) (hop : n.op.isCommutative = true)
    (hlen : 2 < n.operands.length) : Accounts 0 (balance id) env s := by
  have hexpr := Op.isExpression_of_isCommutative hop
  have hid : s.module.HasOp (·.isExpression = true) id := Module.hasOp_of_node? hn hexpr
  have hplain := Op.not_isDeclaration_of_isExpression hexpr
  refine node fun n' hn' => ?_
  obtain rfl := Option.some.inj (hn.symm.trans hn')
  split
  · exact pure none
  · next tree htree =>
    obtain ⟨left, right, rfl⟩ := OperandTree.exists_branch_of_balanced? htree (by omega)
    refine ask fun old _ => ask fun type _ => ?_
    unfold Prep.createTree
    simp only [bind_assoc, pure_bind]
    refine bind (createTree hplain left) fun p s₁ _ h₁ =>
      bind (createTree hplain right) fun q s₂ _ h₂ => ?_
    refine createTreeNode hplain fun rootNode root s₃ h₃ hrootNode hdef => ask fun d hd => ?_
    have hid₃ := h₃.hasOp (h₂.hasOp (h₁.hasOp hid))
    have hrest : ∀ {s : State} {created : List NodeId}, s.module.HasOp (·.isExpression = true) id →
        Accounts 0 (do
          Prep.edit (·.replaceUses old root)
          Prep.edit (·.eraseNode id)
          created.forM Prep.inlineOperands
          Prep.count fun st => { st with balanced := st.balanced + 1 }
          return created.head?) env s := fun hid =>
      bind (replaceUses _ _) fun _ _ _ h => bind (eraseNode (h.hasOp hid)) fun _ _ _ _ =>
        bind (settleMade ho) fun _ _ _ _ => count (fun _ => rfl) fun _ _ => pure _
    cases d with
    | none => exact hrest hid₃
    | some d =>
      obtain ⟨i, hd⟩ := Module.definingNode?_eq_some_iff.1 hd
      obtain ⟨rfl, -⟩ : rootNode = d ∧ 0 = i := by simpa using hdef.symm.trans hd
      exact bind (setName _ hrootNode.unstocked) fun _ _ _ h => hrest (h.hasOp hid₃)

/-- Neither an addition nor a constant is a declaration. -/
theorem subtractInstead {add constant : NodeId} {value : Int}
    (hadd : s.module.HasOp (·.isExpression = true) add)
    (hconst : s.module.HasOp (·.isExpression = true) constant) :
    Accounts 0 (subtractInstead add constant value) env s := by
  refine node fun n _ => ask fun lhs _ => ask fun old _ => ask fun type _ => ask fun width _ => ?_
  refine create rfl fun positive pv s₁ h₁ _ _ => create rfl fun sub difference s₂ h₂ hsub _ => ?_
  refine bind (setTwoState _ _) fun _ s₃ _ h₃ => ?_
  refine bind (setName _ (h₃.hasOp (hsub.imp fun _ h => h ▸ rfl)).unstocked) fun _ s₄ _ h₄ => ?_
  refine bind (replaceUses _ _) fun _ s₅ _ h₅ => ?_
  have hkeep := fun {j} (hj : s.module.HasOp (·.isExpression = true) j) =>
    h₅.hasOp (h₄.hasOp (h₃.hasOp (h₂.hasOp (h₁.hasOp hj))))
  refine bind (eraseNode (hkeep hadd)) fun _ s₆ _ h₆ => ask fun unused _ => ?_
  have hrest : ∀ {s : State}, Accounts 0 (do
      Prep.inlineOperands sub
      return positive) env s := bind (inlineOperands ho sub) fun _ _ _ _ => pure _
  split
  · exact bind (eraseNode (h₆.hasOp (hkeep hconst))) fun _ _ _ _ => hrest
  · exact hrest

omit ho in
theorem extractFields {input : ValueId} {fields : List (ValueId × Name)} :
    Accounts 0 (extractFields id input loc fields) env s := by
  induction fields generalizing s with
  | nil => exact pure []
  | cons p fields ih =>
    refine ask fun type _ => create rfl fun extract value s₁ _ _ _ => ?_
    exact bind (replaceUses _ _) fun _ s₂ _ _ => bind ih fun _ _ _ _ => pure _

theorem explode (hid : s.module.HasOp (·.isExpression = true) id) :
    Accounts 0 (explode id) env s := by
  refine node fun n _ => ?_
  split
  · exact pure none
  · refine ask fun fields _ => bind extractFields fun extracts s₁ _ h₁ => ?_
    exact bind (eraseNode (h₁.hasOp hid)) fun _ _ _ _ => bind (settleMade ho) fun _ _ _ _ => pure _

/-! ## Out of procedural code -/

omit ho in
theorem enclosingProcess {f : NodeId → Prep α} (hf : ∀ process, Accounts k (f process) env s) :
    Accounts k (enclosingProcess id >>= f) env s := by
  unfold Prep.enclosingProcess
  rw [bind_assoc]
  refine ask fun process _ => ?_
  cases process with
  | some process => simpa only [pure_bind] using hf process
  | none =>
    rw [bind_assoc]
    exact moduleName fun _ _ _ h => absurd (runs_bind.1 h) (by simp)

omit ho in
theorem captureSideEffect (id : NodeId) : Accounts 0 (captureSideEffect id) env s := by
  refine ask fun captured _ => ite (fun _ => pure _) fun _ => node fun n _ => ?_
  split
  · refine ask fun type _ => enclosingProcess fun process => declareFor rfl fun (_, storage) s₁ => ?_
    refine create rfl fun _ value s₂ _ _ _ => bind (replaceUses _ _) fun _ s₃ _ _ => ?_
    refine bind (createStatement rfl) fun _ s₄ _ _ => ?_
    exact count (fun _ => rfl) fun _ _ => pure true
  · exact pure false

omit ho in
theorem moveOut (id anchor : NodeId) : Accounts 0 (do
    Prep.edit (·.moveNode id (.before anchor))
    Prep.count fun st => { st with hoisted := st.hoisted + 1 }
    return true) env s :=
  bind (moveNode id _) fun _ _ _ _ => count (fun _ => rfl) fun _ _ => pure true

theorem hoist (id : NodeId) : Accounts 0 (hoist id) env s := by
  refine node fun n _ => isAlwaysInline ho fun inline _ => ?_
  split
  on_goal 1 => refine ask fun _ _ => ite (fun _ => pure false) fun _ => ?_
  all_goals
    refine enclosingProcess fun process => ask fun reach _ => ?_
    cases reach with
    | nowhere => exact pure false
    | oneLevel =>
      refine ask fun owner _ => ?_
      cases owner with
      | none => exact pure false
      | some owner => exact moveOut id owner
    | graph => exact moveOut id process

/-! ## Instance ports -/

omit ho in
theorem flowsDirectly (inst : NodeId) (parent : BlockId) (us : List Use) :
    Accounts 0 (flowsDirectly inst parent us) env s := by
  unfold Prep.flowsDirectly
  split
  · refine node fun n _ => ?_
    split
    · exact pure true
    · exact ite (fun _ => bind (moveNode _ _) fun _ _ _ _ => pure true) fun _ => pure false
    · exact pure false
  · exact pure false

theorem anchorOutputs (inst : NodeId) (names : PortNames) (index : Nat) (results : List ValueId) :
    Accounts 0 (anchorOutputs inst names index results) env s := by
  induction results generalizing s index with
  | nil => exact pure ()
  | cons result rest ih =>
    refine node fun n _ => ask fun x _ => bind (flowsDirectly _ _ _) fun _ s₁ _ _ => ?_
    split
    · refine ask fun type _ => ask fun body _ => bind (silent (.intern _)) fun name s₂ _ _ => ?_
      refine declareFor rfl fun (decl, wire) s₃ => bind (readsFor ho) fun _ s₄ _ _ => ?_
      refine bind (createStatement rfl) fun _ s₅ _ _ => ?_
      exact count (fun st => Nat.add_right_comm ..) fun s₆ _ => ih _
    · exact ih _

omit ho in
theorem anchorInputs (inst : NodeId) (names : PortNames) (index : Nat) (sources : List ValueId) :
    Accounts 0 (anchorInputs inst names index sources) env s := by
  induction sources generalizing s index with
  | nil => exact pure ()
  | cons source rest ih =>
    refine ask fun simple _ => ?_
    dsimp only
    split
    · refine node fun n _ => ask fun type _ => ask fun body _ => ?_
      refine bind (silent (.intern _)) fun name s₁ _ _ => declareFor rfl fun (decl, wire) s₂ => ?_
      refine create rfl fun _ value s₃ _ _ _ => bind (createStatement rfl) fun _ s₄ _ _ => ?_
      refine bind (setOperand _ _ _) fun _ s₅ _ _ => ?_
      exact count (fun st => Nat.add_right_comm ..) fun s₆ _ => ih _
    · exact ih _

theorem anchorInstanceOutputs (inst : NodeId) : Accounts 0 (anchorInstanceOutputs inst) env s :=
  node fun _ _ => bind (silent (.portNames _ _)) fun _ _ _ _ => anchorOutputs ho _ _ _ _

omit ho in
theorem anchorInstanceInputs (inst : NodeId) : Accounts 0 (anchorInstanceInputs inst) env s :=
  node fun _ _ => bind (silent (.portNames _ _)) fun _ _ _ _ => anchorInputs _ _ _ _

/-! ## Order -/

omit ho in
theorem placeDeclarations (scope : BlockId) (placed : Option NodeId) (ids : List NodeId) :
    Accounts 0 (placeDeclarations scope placed ids) env s := by
  induction ids generalizing s placed with
  | nil => exact pure ()
  | cons id ids ih =>
    refine node fun n _ => ite (fun _ => ?_) fun _ => ih _
    dsimp only
    split
    · exact bind (moveNode id _) fun _ _ _ _ => ih _
    · exact ih _

omit ho in
theorem reorderDeclarations (block : BlockId) :
    Accounts 0 (reorderDeclarations block) env s := by
  refine ask fun b _ => ?_
  split
  · exact pure ()
  · exact ask fun scope _ => ask fun ids _ => placeDeclarations scope none ids

omit ho in
/-- A declaration in stock is movable. -/
theorem unstocked_of_not_movable {m : Module} (hm : m.Regular)
    (h : isMovableDeclaration m id = .ok false) : m.Unstocked id := by
  have ⟨n, hn⟩ : ∃ n, m.node? id = some n := by
    obtain ⟨n, hn, -⟩ := bind_eq_ok_iff.1 h
    exact ⟨n, Module.node_eq_ok_iff.1 hn⟩
  refine ⟨_, Module.core_of_node? hn, Bool.eq_false_iff.2 fun hstock => ?_⟩
  obtain ⟨hd, he⟩ := Node.Resembles.isStocked_iff.1 hstock
  have hshape := hm (Module.core_of_node? hn) he
  obtain ⟨v, type, element, hv, htype, hget⟩ := hshape.storage hd
  have hstorage : m.types.isStorage type = .ok true :=
    TypeTable.isStorage_of_elementOf? (by rw [TypeTable.elementOf?_eq_some_iff.2 hget]; rfl)
  have hmovable := (isMovableDeclaration_eq_ok hn h).2 ⟨hshape.operands hd, v, type, hv, htype,
    hstorage⟩
  cases hmovable

omit ho in
/-- What can be moved is moved, and only what is no declaration in stock gets a temporary. -/
theorem bringForward (block : BlockId) (placeable : Bool)
    (hid : placeable = false → s.module.Unstocked id) : Accounts 0 (do
      if placeable then Prep.edit (·.moveNode id (.front block))
      else
        match ← Prep.query (readDeclaration? · id) with
        | some decl =>
          Prep.edit (·.moveNode id (.front block))
          Prep.edit (·.moveNode decl (.front block))
        | none => Prep.spill id true) env s := by
  refine ite (fun _ => moveNode id _) fun h => ask fun decl _ => ?_
  cases decl with
  | some decl => exact bind (moveNode id _) fun _ _ _ _ => moveNode decl _
  | none => exact spill (hid (by simpa using h))

omit ho in
theorem resolveForwardReference (block : BlockId) (id : NodeId) :
    Accounts 0 (resolveForwardReference block id) env s := by
  refine count (fun _ => rfl) fun s₁ _ => regular fun hs => ask fun movable hmovable => ?_
  cases movable with
  | true => exact bringForward block true fun h => by cases h
  | false =>
    exact consult fun _ _ => bringForward block _ fun _ => unstocked_of_not_movable hs hmovable

omit ho in
theorem resolveForwardReferences (block : BlockId) :
    Accounts 0 (resolveForwardReferences block) env s :=
  ask fun _ _ => forM' fun id _ => resolveForwardReference block id

omit ho in
theorem orderBlock (block : BlockId) : Accounts 0 (orderBlock block) env s :=
  ask fun _ _ => ite (fun _ => reorderDeclarations block) fun _ => resolveForwardReferences block

/-! ## Legalization -/

theorem routeEvent (process : NodeId) (event : ValueId) :
    Accounts 0 (routeEvent process event) env s := by
  refine ask fun simple _ => ite (fun _ => pure ()) fun _ => ask fun op _ =>
    ite (fun _ => pure ()) fun _ => ask fun body _ => node fun n _ => ask fun type _ => ?_
  refine declareFor rfl fun (_, wire) s₁ => create rfl fun read value s₂ _ hread _ => ?_
  refine bind (replaceUses _ _) fun _ s₃ _ h₃ => bind (createStatement rfl) fun _ s₄ _ h₄ => ?_
  have hinline : s₄.module.HasOp (·.isAlwaysInline = true) read :=
    (h₃.trans h₄).hasOp (hread.imp fun _ h => h ▸ rfl)
  exact bind (inlineEverywhere ho hinline) fun _ _ _ _ => counts fun st => Nat.add_right_comm ..

theorem spillOrHoist (procedural : Bool) (hid : s.module.Unstocked id) :
    Accounts 0 (spillOrHoist procedural id) env s := by
  have hspill : ∀ {s : State} (outside : Bool), s.module.Unstocked id → Accounts 0 (do
      if outside then
        if !(← Prep.query (·.inProcedural id)) then Prep.spill id false
        return procedural
      else return false) env s := fun outside hid => by
    refine ite (fun _ => ask fun inside _ => ?_) fun _ => pure false
    split
    · exact bind (spill hid) fun _ _ _ _ => pure procedural
    · exact pure procedural
  refine options ?_
  split
  · split
    · exact bind (hoist ho id) fun outside _ _ h => hspill outside (h.unstocked hid)
    · exact hspill true hid
  · exact bind (spill hid) fun _ _ _ _ => pure false

theorem leaveProcedure (id : NodeId) : Accounts 0 (leaveProcedure id) env s :=
  consult fun _ _ => ite (fun _ => hoist ho id) fun _ => captureSideEffect id

theorem needsTemporary (procedural : Bool) (id : NodeId) :
    Accounts 0 (needsTemporary procedural id) env s := by
  refine isExpression ho fun _ _ => ite (fun _ => pure false) fun _ => consult fun _ _ => ?_
  refine ite (fun _ => pure false) fun _ => ite (fun _ => pure true) fun _ => ?_
  exact bind (reuseAssigned ho id) fun _ _ _ _ => pure _

/-- Only an expression is said to need a temporary. -/
theorem isExpression_of_needsTemporary {procedural : Bool} {s' : State}
    (h : (Prep.needsTemporary procedural id).Runs env s true s') :
    s.module.HasOp (·.isExpression = true) id := by
  obtain ⟨expr, s₁, hexpr, h⟩ := runs_bind.1 h
  rw [runs_isExpression, ho, Oracle.isExpression_eq_ok_iff] at hexpr
  obtain ⟨⟨n, hn, hop⟩, rfl⟩ := hexpr
  cases expr with
  | false => simp at h
  | true => exact Module.hasOp_of_node? hn hop

theorem legalizeForm (procedural : Bool) (id : NodeId) : Accounts 0 (do
    if ← Prep.isBalanceable id then return .ofCreated (← Prep.balance id)
    match ← Prep.query (negativeConstant? · id) with
    | some (constant, value) => return .rewind (← Prep.subtractInstead id constant value)
    | none =>
      if (← Prep.node id).op = .structExplode then return .ofCreated (← Prep.explode id)
      if !procedural then
        if ← Prep.isExpression id then
          let _ ← Prep.reuseAssigned id
      return .next : Prep Flow) env s := by
  refine isBalanceable fun r hr => ite (fun h => ?_) fun _ => ask fun constant hconstant => ?_
  · obtain ⟨n, hn, hop, hlen⟩ := hr h
    exact bind (balance ho hn hop hlen) fun _ _ _ _ => pure _
  · split
    · next constant value =>
      obtain ⟨nd, lhs, rhs, nc, hnd, hadd, -, -, hnc, hop, -⟩ := negativeConstant?_eq_some hconstant
      refine bind (subtractInstead ho ?_ ?_) fun _ _ _ _ => pure _
      · exact Module.hasOp_of_node? hnd (by rw [hadd]; rfl)
      · exact Module.hasOp_of_node? hnc (by rw [hop]; rfl)
    · refine node fun n hn => ite (fun h => ?_) fun _ => ?_
      · exact bind (explode ho (Module.hasOp_of_node? hn (by rw [h]; rfl))) fun _ _ _ _ => pure _
      · split
        · refine isExpression ho fun _ _ => ?_
          split
          · exact bind (reuseAssigned ho id) fun _ _ _ _ => pure _
          · exact pure _
        · exact pure _

theorem legalizeExpression (procedural : Bool) (id : NodeId) :
    Accounts 0 (legalizeExpression procedural id) env s := by
  refine bind (needsTemporary ho procedural id) fun wanted s₁ hwanted h₁ => ?_
  cases wanted with
  | true =>
    have hid := h₁.hasOp (isExpression_of_needsTemporary ho hwanted)
    exact bind (spillOrHoist ho procedural hid.ne_declaration.unstocked) fun _ _ _ _ =>
      ite (fun _ => pure _) fun _ => legalizeForm ho procedural id
  | false => exact legalizeForm ho procedural id

theorem legalizeInline (visited : IdMap Unit)
    (hid : s.module.HasOp (·.isAlwaysInline = true) id) :
    Accounts 0 (legalizeInline id visited) env s := by
  refine ask fun unused _ => ?_
  split
  · exact bind (eraseNode (hid.imp fun _ => Op.isExpression_of_isAlwaysInline)) fun _ _ _ _ =>
      pure visited
  · exact ite (fun _ => pure visited) fun _ => bind (inlineEverywhere ho hid) fun _ _ _ _ => pure _

theorem legalizeOperation (procedural : Bool) (id : NodeId) :
    Accounts 0 (legalizeOperation procedural id) env s := by
  refine node fun n _ => options ?_
  have hevents : Accounts 0 (do
      n.operands.forM (Prep.routeEvent id)
      return true) env s := bind (forM' fun event _ => routeEvent ho id event) fun _ _ _ _ => pure true
  split
  · exact moduleName (fail _)
  · refine bind (anchorInstanceOutputs ho id) fun _ s₁ _ _ => ?_
    split
    · exact bind (anchorInstanceInputs id) fun _ _ _ _ => pure false
    · exact pure false
  · refine ite (fun _ => enclosingProcess fun process => ?_) fun _ => pure false
    exact bind (moveNode id _) fun _ _ _ _ => count (fun _ => rfl) fun _ _ => pure true
  · exact ite (fun _ => pure false) fun _ => hevents
  · exact ite (fun _ => pure false) fun _ => hevents
  · exact pure false

theorem legalizeNode (block : BlockId) (id : NodeId) (visited : IdMap Unit) :
    Accounts 0 (legalizeNode block id visited) env s := by
  have hstay : ∀ {s : State} (procedural : Bool), Accounts 0 (do
      if ← Prep.isAlwaysInline id then return (.next, ← Prep.legalizeInline id visited)
      return (← Prep.legalizeExpression procedural id, visited) :
        Prep (Flow × IdMap Unit)) env s := fun procedural => by
    refine isAlwaysInline ho fun inline hid => ite (fun h => ?_) fun _ => ?_
    · exact bind (legalizeInline ho visited (hid h)) fun _ _ _ _ => pure _
    · exact bind (legalizeExpression ho procedural id) fun _ _ _ _ => pure _
  refine ask fun b _ => bind (legalizeOperation ho b.isProcedural id) fun settled s₁ _ _ =>
    ite (fun _ => pure _) fun _ => options ?_
  split
  · refine isExpression ho fun expr _ => ?_
    split
    · exact bind (leaveProcedure ho id) fun _ _ _ _ => ite (fun _ => pure _) fun _ => hstay _
    · exact hstay _
  · exact hstay _

theorem scan (block : BlockId) (fuel : Nat) (visited : IdMap Unit) (cursor : Option NodeId) :
    Accounts 0 (scan block fuel visited cursor) env s := by
  induction fuel generalizing s visited cursor with
  | zero =>
    cases cursor with
    | none => exact pure ()
    | some id => exact fault _
  | succ fuel ih =>
    cases cursor with
    | none => exact pure ()
    | some id =>
      refine node fun n _ => bind (legalizeNode ho block id visited) fun (flow, visited) s₁ _ _ => ?_
      cases flow with
      | rewind target => exact ih visited (some target)
      | next => exact ask fun cursor _ => ih visited cursor

theorem legalizeBlock (depth : Nat) (block : BlockId) :
    Accounts 0 (legalizeBlock depth block) env s := by
  induction depth generalizing s block with
  | zero => exact fault _
  | succ depth ih =>
    refine ask fun ids _ => bind (forM' fun id _ => node fun n _ => forM' fun region _ => ih region)
      fun _ s₁ _ _ => fuel (ask fun b _ => ?_)
    exact bind (scan ho block env.fuel .empty b.first) fun _ _ _ _ => orderBlock block

theorem legalize : Accounts 0 legalize env s :=
  fuel (ask fun body _ => legalizeBlock ho env.fuel body)

/-! ## Readability -/

omit ho in
theorem heuristicSpills (id : NodeId) (cost : Nat) :
    Accounts 0 (heuristicSpills id cost) env s := by
  refine options (ite (fun _ => node fun n _ => ?_) fun _ => pure false)
  split
  · exact bind (silent (.resolve _)) fun _ _ _ _ => ite (fun _ => pure true) fun _ => pure _
  · exact pure false

omit ho in
theorem shouldSpill (memo : CostMemo) (id : NodeId) :
    Accounts 0 (shouldSpill memo id) env s := by
  refine node fun n _ => ?_
  split
  · exact pure _
  · refine ask fun may _ => ite (fun _ => ask fun p _ => options ?_) fun _ => pure _
    exact ite (fun _ => pure _) fun _ => bind (heuristicSpills _ _) fun _ _ _ _ => pure _

theorem prettifyNode (memo : CostMemo) (id : NodeId) :
    Accounts 0 (prettifyNode memo id) env s := by
  refine node fun n _ => ite (fun _ => pure memo) fun _ => isExpression ho fun expr hid => ?_
  cases expr with
  | false => exact pure memo
  | true =>
    refine bind (shouldSpill memo id) fun (wanted, memo) s₁ _ h₁ => ?_
    dsimp only
    split
    · exact bind (spill (h₁.hasOp (hid rfl)).ne_declaration.unstocked) fun _ _ _ _ => pure memo
    · exact pure memo

theorem prettifyBlock (depth : Nat) (memo : CostMemo) (block : BlockId) :
    Accounts 0 (prettifyBlock depth memo block) env s := by
  induction depth generalizing s memo block with
  | zero => exact fault _
  | succ depth ih =>
    refine ask fun b _ => ite (fun _ => pure memo) fun _ => ask fun ids _ => ?_
    refine bind (foldlM fun memo id _ => prettifyNode ho memo id) fun memo s₁ _ _ => ?_
    exact ask fun ids _ => foldlM fun memo id _ => node fun n _ => foldlM fun memo region _ =>
      ih memo region

theorem prettify : Accounts 0 prettify env s :=
  fuel (ask fun body _ => bind (prettifyBlock ho env.fuel .empty body) fun _ _ _ _ => pure ())

/-- Every pass accounts for the declarations that it makes. -/
theorem pass (p : Pass) : Accounts 0 p.action env s := by
  cases p with
  | legalize => exact legalize ho
  | prettify => exact prettify ho
  | prepare =>
    exact bind (pruneDeadLogic ho) fun _ _ _ _ => bind (legalize ho) fun _ _ _ _ => prettify ho

end Accounts

end Prep

namespace Prepare

variable {fuel : Nat} {pass : Pass} {options : Options} {m m' : Module} {names names' : NameTable}
  {stats : Stats}

/-- What a pass that succeeds on a regular module leaves of its declarations: each is still there, of the
same kind and under the same name, and its storage has the same type; the ports are the same; and there
are as many declarations more as temporaries and captured side effects are counted. -/
theorem declarations_of_runWith (hr : m.Regular)
    (h : runWith fuel pass options .systemVerilog m names = .ok ⟨m', names', .ok stats⟩) :
    (∀ id n, m.live? id = some n → n.op.isDeclaration = true → ∃ n', m'.live? id = some n' ∧
      n'.op = n.op ∧ n'.name = n.name ∧ n'.results = n.results) ∧
      (∀ v type, m.type? v = some type → m'.type? v = some type) ∧ m'.types.Extends m.types ∧
        names.Within names' ∧ m'.ports = m.ports ∧ m'.declarationCount =
          m.declarationCount + stats.temporaries + stats.sideEffectsExtracted := by
  simp only [runWith, bind_eq_ok_iff] at h
  obtain ⟨name, -, ⟨result, state⟩, hrun, h⟩ := h
  simp only [pure, Except.pure, Except.ok.injEq, Outcome.mk.injEq] at h
  obtain ⟨rfl, rfl, hresult⟩ := h
  cases result with
  | error => simp [Except.map] at hresult
  | ok u =>
    obtain rfl : state.stats = stats := by simpa [Except.map] using hresult
    obtain ⟨hnames, made, hm, hcount⟩ := Prep.Accounts.pass rfl pass hr hrun
    refine ⟨fun id n hn hd => ?_, fun _ _ => hm.type?, hm.types, hnames, hm.ports, ?_⟩
    · obtain ⟨n', hn', hr⟩ := hm.node (Module.core_of_live? hn)
      have hstock : n.isStocked = true :=
        Node.Resembles.isStocked_iff.2 ⟨hd, Module.erased_of_live? hn⟩
      obtain ⟨nd, hnd, rfl⟩ := Option.map_eq_some_iff.1 hn'
      exact ⟨_, Module.live?_of_node? hnd (hr.stays hstock), hr.op, hr.name hstock, hr.results⟩
    · have hmade : state.stats.temporaries + state.stats.sideEffectsExtracted = 0 + made + 0 := hcount
      rw [Nat.add_assoc, hmade, Nat.zero_add]
      exact hm.count

end Prepare

/-- A register, an expression that is used twice, and one with side effects in a process. -/
def Module.stocked : Module :=
  .sketch [.int 8, .storage ⟨0⟩] [(.input, 0), (.output, 0)]
    [(.back ⟨0⟩, .reg, [], [1]), (.back ⟨0⟩, .xor, [0, 0], [0]), (.back ⟨0⟩, .mul, [2, 2], [0]),
      (.back ⟨0⟩, .initial, [], []), (.back ⟨1⟩, .systemCall ⟨3⟩ true, [], [0]),
      (.back ⟨1⟩, .add, [4, 4], [0]), (.back ⟨1⟩, .blockingAssign, [1, 5], []),
      (.back ⟨0⟩, .output, [3], [])]

/-- Without local variables the register is joined by a wire and another register. -/
theorem declarations_of_runWith_stocked : Valid Module.stocked ∧
    Module.stocked.declarationCount = 1 ∧ ∃ m' names' stats,
      run .prepare { Options.default with disallowLocalVariables := true } .systemVerilog
        .stocked Module.sketchNames = .ok ⟨m', names', .ok stats⟩ ∧ m'.declarationCount = 3 ∧
          stats.temporaries + stats.sideEffectsExtracted = 2 ∧ m'.ports = Module.stocked.ports := by
  have hv : Valid Module.stocked := valid_of_isValid (by decide +kernel)
  have hcount : Module.stocked.declarationCount = 1 := by decide +kernel
  obtain ⟨m', names', stats, hrun, hp⟩ := exists_run_of_leaves
    (p := fun m' _ => m'.declarationCount == 3)
    (show Prepare.leaves .prepare { Options.default with disallowLocalVariables := true } .stocked
      Module.sketchNames _ = true by decide +kernel)
  obtain ⟨-, -, -, -, hports, hmade⟩ := declarations_of_runWith hv.regular hrun
  have hthree : m'.declarationCount = 3 := beq_iff_eq.1 hp
  exact ⟨hv, hcount, m', names', stats, hrun, hthree, by omega, hports⟩

end NetPrep
