import Mathlib
import NetPrep.Proofs.Agreement

/-!
# Preparation does not depend on how nodes are called

Each step of preparation is blind: it may read the text of a name and make a name of a text, but
which name has the text does not come out.
-/

namespace NetPrep.Prep

open Prepare

variable {base : Origin} {env : Env} {s t : State}

namespace Blind

/-! ## Nodes -/

theorem consult {α : Type} {q : Env → Module → Except Fault α}
    (hq : ∀ env, env.oracle = .systemVerilog → ∀ ρ m, q env (m.rename ρ) = q env m) :
    Blind base (fun env => Prep.query (q env) env : Prep α) :=
  ⟨fun {env _ _} ho h => (query (hq env ho)).agrees ho h⟩

theorem isExpression (id : NodeId) : Blind base (isExpression id) := consult fun _ ho ρ m => by
  rw [ho]
  exact Module.node_bind_recast _ m fun _ => rfl

theorem isInlineable (id : NodeId) : Blind base (isInlineable id) := consult fun _ ho ρ m => by
  rw [ho]
  exact Oracle.inlineable_rename ρ m id _

theorem isAlwaysInline (id : NodeId) : Blind base (isAlwaysInline id) := consult fun _ ho ρ m => by
  rw [ho]
  exact Module.node_bind_recast _ m fun _ => rfl

theorem isConstantExpression (id : NodeId) : Blind base (isConstantExpression id) :=
  consult fun _ ho ρ m => by
    rw [ho]
    exact Module.node_bind_recast _ m fun _ => rfl

theorem isMemoryEffectFree (id : NodeId) : Blind base (isMemoryEffectFree id) :=
  consult fun _ ho ρ m => by
    rw [ho]
    exact Module.node_bind_recast _ m fun _ => rfl

theorem enclosingProcess (id : NodeId) : Blind base (enclosingProcess id) := by
  refine (query fun _ m => Module.enclosingProcess?_recast _ m id).bind fun process => ?_
  cases process with
  | some process => exact pure process
  | none => exact moduleName.bind fun _ => fail (Loc.closed_unknown base)

theorem closed_of_names_eq_nil {op : Op} (h : op.names = []) : op.Closed base := by
  intro name hname
  rw [h] at hname
  cases hname

theorem createNode (pos : Position) {op : Op} (operands : List ValueId) (types : List TypeId)
    {loc : Loc} (hop : op.Closed base) (hloc : loc.Closed base) :
    Blind base (Prep.editWith (·.createNode pos op operands types loc)) := by
  refine editWith fun r hr m => ?_
  have h := Module.createNode_recast r m pos op operands types loc
  rwa [hr.op hop, hr.loc hloc] at h

theorem createStatement (pos : Position) {op : Op} (operands : List ValueId) {loc : Loc}
    (hop : op.Closed base) (hloc : loc.Closed base) :
    Blind base (createStatement pos op operands loc) :=
  createNode pos operands [] hop hloc

theorem create (pos : Position) {op : Op} (operands : List ValueId) (type : TypeId) {loc : Loc}
    (hop : op.Closed base) (hloc : loc.Closed base) :
    Blind base (create pos op operands type loc) :=
  (createNode pos operands [type] hop hloc).bind fun id =>
    (query fun _ m => Module.result_recast _ m id 0).bind fun _ => pure _

theorem storageTypeOf (v : ValueId) : Blind base (storageTypeOf v) := by
  refine (query fun _ m => Module.valueType_recast _ m v).bind fun type => ?_
  refine ⟨fun _ h => .editWith h ?_ ?_ fun a m hm => ?_⟩
  · rw [h.right]
    rfl
  · rw [h.left]
    rfl
  · cases hm
    exact h.closed.internType type

theorem elementTypeOf (v : ValueId) : Blind base (elementTypeOf v) := by
  refine (query fun _ _ => rfl).bind fun type => ?_
  cases type with
  | some type => exact pure type
  | none => exact moduleName.bind fun _ => fail (Loc.closed_unknown base)

theorem moveNode (id : NodeId) (pos : Position) : Blind base (Prep.edit (·.moveNode id pos)) :=
  edit fun r _ m => Module.moveNode_recast r m id pos

theorem eraseNode (id : NodeId) : Blind base (Prep.edit (·.eraseNode id)) :=
  edit fun r _ m => Module.eraseNode_recast r m id

theorem setOperand (id : NodeId) (i : Nat) (v : ValueId) :
    Blind base (Prep.edit (·.setOperand id i v)) :=
  edit fun r _ m => Module.setOperand_recast r m id i v

theorem replaceUses (old new : ValueId) : Blind base (Prep.edit (·.replaceUses old new)) :=
  edit fun r _ m => Module.replaceUses_recast r m old new

theorem setTwoState (id : NodeId) (twoState : Bool) :
    Blind base (Prep.edit (·.setTwoState id twoState)) :=
  edit fun r _ m => Module.setTwoState_recast r m id twoState

theorem clearName (id : NodeId) : Blind base (Prep.edit (·.setName id none)) :=
  ⟨fun _ h => .setName h id (.none _ _)⟩

end Blind

/-- Declaring storage under names of the same text. -/
theorem Agrees.declareFor (ho : env.oracle = .systemVerilog) (h : Alike base s t) (v : ValueId)
    (pos : Position) {op : Op} {a b : Option Name} {loc : Loc} (hop : op.names = [])
    (hloc : loc.Closed base) (hab : s.names.SameText t.names a b) :
    Agrees base env s t (fun _ _ a b => b = a) (declareFor v pos op a loc)
      (declareFor v pos op b loc) := by
  refine .after ho h (.storageTypeOf v) fun type s₁ t₁ h₁ => ?_
  refine .after ho h₁.alike (.create pos [] type (Blind.closed_of_names_eq_nil hop) hloc)
    fun (decl, storage) s₂ t₂ h₂ => ?_
  have hl := h₁.trans h₂
  exact (Agrees.setName hl.alike decl (hab.mono hl.grows hl.grows')).bind
    fun _ _ _ _ hl _ => .pure hl.alike rfl

namespace Blind

/-! ## Copies at each use -/

theorem alwaysInlineAmong (vs : List ValueId) : Blind base (alwaysInlineAmong vs) := by
  induction vs with
  | nil => exact pure []
  | cons v vs ih =>
    refine ih.bind fun rest => (query fun _ m => Module.definingNode?_recast _ m v).bind fun d => ?_
    cases d with
    | none => exact pure rest
    | some id => exact (isAlwaysInline id).bind fun _ => ite (pure _) (pure _)

theorem alwaysInlineOperands (id : NodeId) : Blind base (alwaysInlineOperands id) :=
  node id (fun _ _ => rfl) fun n _ _ => alwaysInlineAmong n.operands

theorem cloneNode (id : NodeId) (pos : Position) :
    Blind base (Prep.editWith (·.cloneNode id pos)) :=
  editWith fun r _ m => Module.cloneNode_recast r m id pos

theorem cloneForUses (id : NodeId) (v : ValueId) (fuel : Nat) (worklist : List NodeId) :
    Blind base (cloneForUses id v fuel worklist) := by
  induction fuel generalizing worklist with
  | zero => exact fault _
  | succ fuel ih =>
    refine (query fun _ m => Module.value_recast _ m v).bind fun x => ?_
    split
    · next u _ _ _ =>
      refine (cloneNode id _).bind fun clone => ?_
      refine (query fun _ m => Module.result_recast _ m clone 0).bind fun copy => ?_
      exact (setOperand _ _ _).bind fun _ => (count _).bind fun _ =>
        (alwaysInlineOperands clone).bind fun ops => ih _
    · exact pure worklist

theorem settleInline (id : NodeId) (worklist : List NodeId) :
    Blind base (settleInline id worklist) := by
  refine node id (fun _ _ => rfl) fun n _ _ => ?_
  split
  · next v _ _ =>
    refine fuel.bind fun k => (cloneForUses id v k worklist).bind fun worklist => ?_
    refine (query fun _ m => Module.value_recast _ m v).bind fun x => ?_
    split
    · exact pure worklist
    · exact (moveNode id _).bind fun _ => (alwaysInlineOperands id).bind fun _ => pure _
  · exact pure worklist

theorem settleAllInline (fuel : Nat) (worklist : List NodeId) :
    Blind base (settleAllInline fuel worklist) := by
  induction fuel generalizing worklist with
  | zero => cases worklist with
    | nil => exact pure ()
    | cons id worklist => exact fault _
  | succ fuel ih => cases worklist with
    | nil => exact pure ()
    | cons id worklist => exact (settleInline id worklist).bind fun worklist => ih worklist

theorem inlineEverywhere (id : NodeId) : Blind base (inlineEverywhere id) :=
  fuel.bind fun k => settleAllInline k [id]

theorem inlineOperands (id : NodeId) : Blind base (inlineOperands id) := by
  refine node id (fun _ _ => rfl) fun n _ _ => forM fun v _ => ?_
  refine (query fun _ m => Module.definingNode?_recast _ m v).bind fun d => ?_
  cases d with
  | none => exact pure ()
  | some operand =>
    exact (isAlwaysInline operand).bind fun _ => ite (inlineEverywhere operand) (pure ())

/-! ## Dead logic -/

theorem isDead (id : NodeId) : Blind base (isDead id) := by
  refine node id (fun _ _ => rfl) fun n _ _ => ite (pure false) ?_
  refine (isExpression id).bind fun _ => ite (pure false) ?_
  refine (isMemoryEffectFree id).bind fun _ => ite (pure false) ?_
  exact query fun _ m => Module.isUnused_recast _ m id

theorem pushDeadOperands (vs : List ValueId) (worklist : List NodeId) :
    Blind base (pushDeadOperands vs worklist) := by
  induction vs generalizing worklist with
  | nil => exact pure worklist
  | cons v vs ih =>
    refine (query fun _ m => Module.definingNode?_recast _ m v).bind fun d => ?_
    cases d with
    | none => exact ih worklist
    | some id => exact (isDead id).bind fun _ => ih _

theorem eraseDead (fuel erased : Nat) (worklist : List NodeId) :
    Blind base (eraseDead fuel erased worklist) := by
  induction fuel generalizing erased worklist with
  | zero => cases worklist with
    | nil => exact pure erased
    | cons id worklist => exact fault _
  | succ fuel ih => cases worklist with
    | nil => exact pure erased
    | cons id worklist =>
      refine (isDead id).bind fun dead => ite ?_ (ih erased worklist)
      refine node id (fun _ _ => rfl) fun n _ _ => (eraseNode id).bind fun _ => ?_
      exact (pushDeadOperands n.operands worklist).bind fun worklist => ih _ worklist

theorem pruneDeadLogic : Blind base pruneDeadLogic := by
  refine (query fun _ m => Module.liveNodes_recast _ m).bind fun ids => ?_
  refine (filterM isDead).bind fun dead => fuel.bind fun k => ?_
  exact (eraseDead k 0 dead.reverse).bind fun erased => (count _).bind fun _ => pure erased

/-! ## Names for temporaries -/

theorem resolve? {name : Option Name} (h : ∀ x, name = some x → base.Knows x) :
    Blind base (resolve? name) := by
  cases name with
  | none => exact pure none
  | some x => exact (resolve (h x rfl)).bind fun _ => pure _

end Blind

/-- The text of names that have the same. -/
theorem Agrees.resolve? (h : Alike base s t) {a b : Option Name}
    (hab : s.names.SameText t.names a b) :
    Agrees base env s t (fun _ _ a b => b = a) (resolve? a) (resolve? b) := by
  obtain ⟨rfl, rfl⟩ | ⟨x, y, text, rfl, rfl, hx, hy⟩ := hab.cases
  · exact .pure h rfl
  · refine (Agrees.resolve h hx hy).bind fun a b s t hl hr => ?_
    subst hr
    exact .pure hl.alike rfl

namespace Blind

theorem directName? (v : ValueId) : Blind base (directName? v) := by
  refine (query fun _ m => Module.value_recast _ m v).bind fun x => ?_
  cases x.definition with
  | port index =>
    refine ask (fun _ _ => rfl) fun name m hm hname => resolve? fun x hx => ?_
    cases hname
    obtain ⟨p, hp, rfl⟩ := Option.map_eq_some_iff.1 hx
    exact hm.port p (List.mem_filter.1 (List.mem_of_getElem? hp)).1
  | result id _ =>
    refine ⟨fun ho h => (Agrees.node h id).bind fun n n' s t hl hn => ?_⟩
    obtain ⟨rfl, htext, -, -⟩ := hn
    obtain ⟨hnone, hnone'⟩ | ⟨x, y, text, hx, hy, hx', hy'⟩ := htext.cases
    · rw [hnone, hnone']
      refine Blind.agrees (ite ?_ (pure none)) ho hl.alike
      refine (query fun _ m => Module.operand_recast _ m id 0).bind fun operand => ?_
      refine (query fun _ m => Module.definingNode?_recast _ m operand).bind fun d => ?_
      cases d with
      | none => exact pure none
      | some decl =>
        exact ⟨fun _ h => (Agrees.node h decl).bind fun n n' s t hl hn => .resolve? hl.alike hn.2.1⟩
    · rw [hx, hy]
      refine (Agrees.resolve hl.alike hx' hy').bind fun a b s t hl hr => ?_
      subst hr
      exact .pure hl.alike rfl

theorem directNames (vs : List ValueId) : Blind base (directNames vs) := by
  induction vs with
  | nil => exact pure []
  | cons v vs ih =>
    refine (directName? v).bind fun name => ?_
    cases name with
    | none => exact ih
    | some name => exact ih.bind fun _ => pure _

theorem nameBase? (id : NodeId) (v : ValueId) : Blind base (nameBase? id v) := by
  refine node id (fun _ _ => rfl) fun n _ _ => ?_
  split
  · exact directName? v
  · refine (query fun _ m => Module.operand_recast _ m id 0).bind fun operand => ?_
    refine (directName? operand).bind fun name => ?_
    cases name with
    | none => exact pure none
    | some name => exact pure _
  · refine (directNames n.operands).bind fun names => ?_
    cases names with
    | nil => exact pure none
    | cons name names => exact pure _

end Blind

/-- The names that a temporary gets have the same text. -/
theorem Agrees.structuralName? (ho : env.oracle = .systemVerilog) (h : Alike base s t)
    (v : ValueId) : Agrees base env s t (fun s t a b => s.names.SameText t.names a b)
      (structuralName? v) (structuralName? v) := by
  refine .after ho h (.query fun _ m => Module.definingNode?_recast _ m v) fun d s t hl => ?_
  cases d with
  | none => exact .pure hl.alike (.none _ _)
  | some id =>
    refine (Agrees.node hl.alike id).bind fun n n' s t hl hn => ?_
    obtain ⟨rfl, htext, -, -⟩ := hn
    obtain ⟨hnone, hnone'⟩ | ⟨x, y, text, hx, hy, hx', hy'⟩ := htext.cases
    · rw [hnone, hnone']
      refine .after ho hl.alike (.nameBase? id v) fun name s t hl => ?_
      cases name with
      | none => exact .pure hl.alike (.none _ _)
      | some text => exact (Agrees.intern hl.alike _).bind fun a b s t hl hr => .pure hl.alike hr
    · rw [hx, hy]
      exact .pure hl.alike (.some hx' hy')

namespace Blind

/-! ## Temporaries -/

theorem readFor (u : Use) (storage : ValueId) (type : TypeId) {loc : Loc} (hloc : loc.Closed base) :
    Blind base (readFor u storage type loc) :=
  (create _ [storage] type (closed_of_names_eq_nil rfl) hloc).bind fun _ =>
    (setOperand _ _ _).bind fun _ => pure _

end Blind

theorem Agrees.spillResult (ho : env.oracle = .systemVerilog) (h : Alike base s t) (id : NodeId)
    (result : ValueId) (atFront : Bool) {a b : Option Name}
    (hab : s.names.SameText t.names a b) : Agrees base env s t (fun _ _ a b => b = a)
      (spillResult id result a atFront) (spillResult id result b atFront) := by
  refine (Agrees.node h id).bind fun n n' s t hl hn => ?_
  obtain ⟨rfl, -, -, hloc⟩ := hn
  have hab := hab.mono hl.grows hl.grows'
  refine .after ho hl.alike (.query fun _ m => Module.block_recast _ m _) fun block s t hl => ?_
  have hab := hab.mono hl.grows hl.grows'
  refine .after ho hl.alike (.query fun _ m => Module.valueType_recast _ m result)
    fun type s t hl => ?_
  have hab := hab.mono hl.grows hl.grows'
  refine (Agrees.declareFor ho hl.alike result _ (by split <;> rfl) hloc hab).bind
    fun (decl, storage) p s t hl hr => ?_
  subst hr
  -- From here on nothing depends on the name.
  refine Blind.agrees ?_ ho hl.alike
  refine (Blind.query fun _ m => Module.value_recast _ m result).bind fun x => ?_
  refine (Blind.forM fun u _ => (Blind.readFor u storage type hloc).bind fun _ => .pure ()).bind
    fun _ => ?_
  refine (Blind.createStatement _ _ (Blind.closed_of_names_eq_nil (by split <;> rfl)) hloc).bind
    fun _ => ?_
  split
  · exact (Blind.moveNode decl _).bind fun _ => .count _
  · exact .count _

namespace Blind

theorem spill (id : NodeId) (atFront : Bool) : Blind base (spill id atFront) := by
  refine node id (fun _ _ => rfl) fun n _ _ => ?_
  split
  · next result _ =>
    refine ⟨fun ho h => (Agrees.structuralName? ho h result).bind fun a b s t hl hab => ?_⟩
    refine .after ho hl.alike (clearName id) fun _ s t hl => ?_
    exact .spillResult ho hl.alike id result atFront (hab.mono hl.grows hl.grows')
  · exact forM fun result _ =>
      ⟨fun ho h => .spillResult ho h id result atFront (.none _ _)⟩

theorem reuseAssigned (id : NodeId) : Blind base (reuseAssigned id) := by
  refine node id (fun _ _ => rfl) fun n _ _ => ?_
  split
  · next result _ =>
    refine (query fun ρ m => ?_).bind fun split => ?_
    · exact bind_congr fun x => splitAssignment_rename ρ m none x.uses
    split
    · next assignment others =>
      refine ite (pure false) ?_
      refine (query fun _ m => Module.operand_recast _ m assignment 1).bind fun source => ?_
      refine (query fun ρ m => Module.definingOp?_rename ρ m source).bind fun op => ?_
      refine ite (pure false) ?_
      refine (query fun _ m => Module.operand_recast _ m assignment 0).bind fun target => ?_
      refine (elementTypeOf target).bind fun type => ?_
      refine node assignment (fun _ _ => rfl) fun n _ hloc => ?_
      refine (forM fun u _ => (readFor u target type hloc).bind inlineEverywhere).bind fun _ => ?_
      refine (query fun _ m => Module.definingNode?_recast _ m target).bind fun d => ?_
      cases d with
      | none => exact (count _).bind fun _ => pure true
      | some decl =>
        refine (isAlwaysInline decl).bind fun _ => ?_
        split
        · exact (inlineEverywhere decl).bind fun _ => (count _).bind fun _ => pure true
        · exact (count _).bind fun _ => pure true
    · exact pure false
  · exact pure false

/-! ## Expressions in printable form -/

theorem isBalanceable (id : NodeId) : Blind base (isBalanceable id) :=
  node id (fun _ _ => rfl) fun _ _ _ => ite (isMemoryEffectFree id) (pure false)

theorem createTreeNode {shape : TreeShape} (lhs rhs : ValueId) (hop : shape.op.Closed base)
    (hloc : shape.loc.Closed base) : Blind base (createTreeNode shape lhs rhs) :=
  (create _ [lhs, rhs] shape.type hop hloc).bind fun _ => (setTwoState _ _).bind fun _ => pure _

theorem createTree {shape : TreeShape} (tree : OperandTree) (hop : shape.op.Closed base)
    (hloc : shape.loc.Closed base) : Blind base (createTree shape tree) := by
  induction tree with
  | leaf v => exact pure _
  | branch left right hleft hright =>
    exact hleft.bind fun _ => hright.bind fun _ => (createTreeNode _ _ hop hloc).bind
      fun _ => pure _

theorem balance (id : NodeId) : Blind base (balance id) := by
  refine ⟨fun ho h => (Agrees.node h id).bind fun n n' s t hl hn => ?_⟩
  obtain ⟨rfl, htext, hop, hloc⟩ := hn
  simp only [Node.operands_recast, Node.op_rename]
  split
  · exact .pure hl.alike rfl
  · next tree _ =>
    refine .after ho hl.alike (query fun _ m => Module.result_recast _ m id 0) fun old s t hl => ?_
    have htext := htext.mono hl.grows hl.grows'
    refine .after ho hl.alike (query fun _ m => Module.valueType_recast _ m old)
      fun type s t hl => ?_
    have htext := htext.mono hl.grows hl.grows'
    refine .after ho hl.alike (createTree tree hop hloc) fun (root, created) s t hl => ?_
    have htext := htext.mono hl.grows hl.grows'
    refine .after ho hl.alike (query fun _ m => Module.definingNode?_recast _ m root)
      fun d s t hl => ?_
    have htext := htext.mono hl.grows hl.grows'
    have hrest : Blind base (do
        Prep.edit (·.replaceUses old root)
        Prep.edit (·.eraseNode id)
        created.forM Prep.inlineOperands
        Prep.count fun s => { s with balanced := s.balanced + 1 }
        return created.head?) :=
      (replaceUses old root).bind fun _ => (eraseNode id).bind fun _ =>
        (forM fun j _ => inlineOperands j).bind fun _ => (count _).bind fun _ => pure _
    cases d with
    | none => exact hrest.agrees ho hl.alike
    | some rootNode =>
      exact (Agrees.setName hl.alike rootNode htext).bind fun _ _ _ _ hl _ =>
        hrest.agrees ho hl.alike

theorem subtractInstead (add constant : NodeId) (value : Int) :
    Blind base (subtractInstead add constant value) := by
  refine ⟨fun ho h => (Agrees.node h add).bind fun n n' s t hl hn => ?_⟩
  obtain ⟨rfl, htext, -, hloc⟩ := hn
  refine .after ho hl.alike (query fun _ m => Module.operand_recast _ m add 0) fun lhs s t hl => ?_
  have htext := htext.mono hl.grows hl.grows'
  refine .after ho hl.alike (query fun _ m => Module.result_recast _ m add 0) fun old s t hl => ?_
  have htext := htext.mono hl.grows hl.grows'
  refine .after ho hl.alike (query fun _ m => Module.valueType_recast _ m old)
    fun type s t hl => ?_
  have htext := htext.mono hl.grows hl.grows'
  refine .after ho hl.alike (query fun _ _ => rfl) fun width s t hl => ?_
  have htext := htext.mono hl.grows hl.grows'
  refine .after ho hl.alike (create _ [] type (closed_of_names_eq_nil rfl) hloc)
    fun (positive, positiveValue) s t hl => ?_
  have htext := htext.mono hl.grows hl.grows'
  refine .after ho hl.alike (create _ [lhs, positiveValue] type (closed_of_names_eq_nil rfl) hloc)
    fun (sub, difference) s t hl => ?_
  have htext := htext.mono hl.grows hl.grows'
  refine .after ho hl.alike (setTwoState sub n.twoState) fun _ s t hl => ?_
  have htext := htext.mono hl.grows hl.grows'
  refine (Agrees.setName hl.alike sub htext).bind fun _ _ s t hl _ => ?_
  refine Blind.agrees ?_ ho hl.alike
  refine (replaceUses old difference).bind fun _ => (eraseNode add).bind fun _ => ?_
  refine (query fun _ m => Module.isUnused_recast _ m constant).bind fun _ => ?_
  split
  · exact (eraseNode constant).bind fun _ => (inlineOperands sub).bind fun _ => pure positive
  · exact (inlineOperands sub).bind fun _ => pure positive

theorem extractFields (id : NodeId) (input : ValueId) {loc : Loc} (hloc : loc.Closed base)
    {fields : List (ValueId × Name)} (hfields : ∀ p ∈ fields, base.Knows p.2) :
    Blind base (extractFields id input loc fields) := by
  induction fields with
  | nil => exact pure []
  | cons p fields ih =>
    obtain ⟨result, field⟩ := p
    refine (query fun _ m => Module.valueType_recast _ m result).bind fun type => ?_
    have hop : (Op.structExtract field).Closed base := fun x hx =>
      List.mem_singleton.1 hx ▸ hfields _ List.mem_cons_self
    refine (create _ [input] type hop hloc).bind fun _ => (replaceUses _ _).bind fun _ => ?_
    exact (ih fun p hp => hfields p (List.mem_cons_of_mem _ hp)).bind fun _ => pure _

theorem explode (id : NodeId) : Blind base (explode id) := by
  refine node id (fun _ _ => rfl) fun n _ hloc => ?_
  split
  · exact pure none
  · next input _ _ =>
    refine ask (fun _ _ => rfl) fun fields m hm hfields => ?_
    obtain ⟨type, -, hfields⟩ := bind_eq_ok_iff.1 hfields
    have hknown := hm.knows_field hfields
    refine (extractFields id input hloc fun p hp => ?_).bind fun extracts => ?_
    · obtain ⟨f, hf, hname⟩ := List.mem_map.1 (List.of_mem_zip hp).2
      exact hname ▸ hknown f hf
    · exact (eraseNode id).bind fun _ => (forM fun j _ => inlineOperands j).bind fun _ => pure _

/-! ## Out of procedural code -/

theorem captureSideEffect (id : NodeId) : Blind base (captureSideEffect id) := by
  refine (query fun ρ m => isCaptured_rename ρ m id).bind fun _ => ite (pure false) ?_
  refine node id (fun _ _ => rfl) fun n _ hloc => ?_
  split
  · next result _ =>
    refine (query fun _ m => Module.valueType_recast _ m result).bind fun type => ?_
    refine (enclosingProcess id).bind fun process => ?_
    refine Blind.bind ⟨fun ho h => .declareFor ho h result _ rfl hloc (.none _ _)⟩
      fun (_, storage) => ?_
    refine (create _ [storage] type (closed_of_names_eq_nil rfl) hloc).bind fun (_, value) => ?_
    refine (replaceUses result value).bind fun _ => ?_
    refine (createStatement _ _ (closed_of_names_eq_nil rfl) hloc).bind fun _ => ?_
    exact (count _).bind fun _ => pure true
  · exact pure false

/-- Hoisting a node that needs none of its operands to be moved. -/
theorem hoist_node (id : NodeId) (n : Node) : Blind base (do
    let process ← Prep.enclosingProcess id
    match ← Prep.query (reachOf · n.parent n.operands) with
    | .nowhere => return false
    | .oneLevel =>
      match ← Prep.query (·.parentNode? id) with
      | some owner =>
        Prep.edit (·.moveNode id (.before owner))
        Prep.count fun s => { s with hoisted := s.hoisted + 1 }
        return true
      | none => return false
    | .graph =>
      Prep.edit (·.moveNode id (.before process))
      Prep.count fun s => { s with hoisted := s.hoisted + 1 }
      return true) := by
  have hmove : ∀ anchor, Blind base (do
      Prep.edit (·.moveNode id (.before anchor))
      Prep.count fun s => { s with hoisted := s.hoisted + 1 }
      return true) := fun anchor =>
    (moveNode id _).bind fun _ => (count _).bind fun _ => pure true
  refine (enclosingProcess id).bind fun process => ?_
  refine (query fun ρ m => reachOf_rename ρ m n.parent n.operands).bind fun reach => ?_
  cases reach with
  | nowhere => exact pure false
  | oneLevel =>
    refine (query fun _ m => Module.parentNode?_recast _ m id).bind fun owner => ?_
    cases owner with
    | none => exact pure false
    | some owner => exact hmove owner
  | graph => exact hmove process

theorem hoist (id : NodeId) : Blind base (hoist id) := by
  refine node id (fun _ _ => rfl) fun n _ _ => (isAlwaysInline id).bind fun _ => ?_
  split
  · exact (query fun _ _ => rfl).bind fun _ => ite (pure false) (hoist_node id n)
  · exact hoist_node id n

/-! ## Instance ports -/

theorem portNames (choose : List (Option Name) → List (Option Name) → List (Option Name)) {op : Op}
    (hop : op.Closed base)
    (hchoose : ∀ inputs outputs x, x ∈ choose inputs outputs → x ∈ inputs ++ outputs) :
    Blind base (portNames choose op) := by
  unfold Prep.portNames
  split
  · next target name inputs outputs =>
    refine (resolve (hop name (by simp [Op.names]))).bind fun inst => ?_
    refine (mapM fun port hport => resolve? fun x hx => ?_).bind fun _ => pure _
    refine hop x ?_
    have hmem := hchoose _ _ _ (hx ▸ hport)
    simp only [Op.names, List.mem_cons, List.reduceOption_mem_iff]
    exact Or.inr (Or.inr hmem)
  · exact pure _

theorem flowsDirectly (inst : NodeId) (parent : BlockId) (us : List Use) :
    Blind base (flowsDirectly inst parent us) := by
  unfold Prep.flowsDirectly
  split
  · next u =>
    refine node u.node (fun _ _ => rfl) fun n _ _ => ?_
    split
    · exact pure true
    · split
      · exact (moveNode _ _).bind fun _ => pure true
      · exact pure false
    · exact pure false
  · exact pure false

theorem anchorOutputs (inst : NodeId) (names : PortNames) (index : Nat) (results : List ValueId) :
    Blind base (anchorOutputs inst names index results) := by
  induction results generalizing index with
  | nil => exact pure ()
  | cons result rest ih =>
    refine node inst (fun _ _ => rfl) fun n _ hloc => ?_
    refine (query fun _ m => Module.value_recast _ m result).bind fun x => ?_
    refine (flowsDirectly inst n.parent x.uses).bind fun _ => ?_
    split
    · refine (query fun _ m => Module.valueType_recast _ m result).bind fun type => ?_
      refine (query fun _ _ => rfl).bind fun body => ?_
      -- The wire has a name of its own in each run.
      refine ⟨fun ho h => (Agrees.intern h _).bind fun a b s t hl hab => ?_⟩
      refine (Agrees.declareFor ho hl.alike result _ rfl hloc hab).bind
        fun (decl, wire) p s t hl hr => ?_
      subst hr
      refine Blind.agrees ?_ ho hl.alike
      refine (forM fun u _ => (readFor u wire type hloc).bind inlineEverywhere).bind fun _ => ?_
      refine (createStatement _ _ (closed_of_names_eq_nil rfl) hloc).bind fun _ => ?_
      exact (count _).bind fun _ => ih _
    · exact ih _

theorem anchorInputs (inst : NodeId) (names : PortNames) (index : Nat) (sources : List ValueId) :
    Blind base (anchorInputs inst names index sources) := by
  induction sources generalizing index with
  | nil => exact pure ()
  | cons source rest ih =>
    refine (query fun ρ m => Module.isSimpleReadOrPort_rename ρ m source).bind fun _ => ?_
    split
    · refine node inst (fun _ _ => rfl) fun n _ hloc => ?_
      refine (query fun _ m => Module.valueType_recast _ m source).bind fun type => ?_
      refine (query fun _ _ => rfl).bind fun body => ?_
      refine ⟨fun ho h => (Agrees.intern h _).bind fun a b s t hl hab => ?_⟩
      refine (Agrees.declareFor ho hl.alike source _ rfl hloc hab).bind
        fun (decl, wire) p s t hl hr => ?_
      subst hr
      refine Blind.agrees ?_ ho hl.alike
      refine (create _ [wire] type (closed_of_names_eq_nil rfl) hloc).bind fun (_, value) => ?_
      refine (createStatement _ _ (closed_of_names_eq_nil rfl) hloc).bind fun _ => ?_
      exact (setOperand inst index value).bind fun _ => (count _).bind fun _ => ih _
    · exact ih _

theorem anchorInstanceOutputs (inst : NodeId) : Blind base (anchorInstanceOutputs inst) :=
  node inst (fun _ _ => rfl) fun n hop _ =>
    (portNames _ hop fun _ _ _ => List.mem_append_right _).bind fun names =>
      anchorOutputs inst names 0 n.results

theorem anchorInstanceInputs (inst : NodeId) : Blind base (anchorInstanceInputs inst) :=
  node inst (fun _ _ => rfl) fun n hop _ =>
    (portNames _ hop fun _ _ _ => List.mem_append_left _).bind fun names =>
      anchorInputs inst names 0 n.operands

/-! ## Order -/

theorem placeDeclarations (scope : BlockId) (placed : Option NodeId) (ids : List NodeId) :
    Blind base (placeDeclarations scope placed ids) := by
  induction ids generalizing placed with
  | nil => exact pure ()
  | cons id ids ih =>
    refine node id (fun _ _ => rfl) fun n _ _ => ?_
    split
    · split
      · exact (moveNode id _).bind fun _ => ih _
      · exact ih _
    · exact ih _

theorem reorderDeclarations (block : BlockId) : Blind base (reorderDeclarations block) := by
  refine (query fun _ m => Module.block_recast _ m block).bind fun b => ?_
  split
  · exact pure ()
  · next first _ =>
    refine (query fun ρ m => Module.declarationScope_rename ρ m first).bind fun scope => ?_
    exact (query fun _ m => Module.blockNodes_recast _ m block).bind fun ids =>
      placeDeclarations scope none ids

/-- Mending a node that may be movable as it is. -/
theorem bringForward (block : BlockId) (id : NodeId) (placeable : Bool) : Blind base
    (if placeable then Prep.edit (·.moveNode id (.front block))
    else do
      match ← Prep.query (readDeclaration? · id) with
      | some decl =>
        Prep.edit (·.moveNode id (.front block))
        Prep.edit (·.moveNode decl (.front block))
      | none => Prep.spill id true) := by
  refine ite (moveNode id _) ?_
  refine (query fun ρ m => readDeclaration?_rename ρ m id).bind fun decl => ?_
  cases decl with
  | some decl => exact (moveNode id _).bind fun _ => moveNode decl _
  | none => exact spill id true

theorem resolveForwardReference (block : BlockId) (id : NodeId) :
    Blind base (resolveForwardReference block id) := by
  refine (count _).bind fun _ => ?_
  refine (query fun ρ m => isMovableDeclaration_rename ρ m id).bind fun movable => ?_
  split
  · exact bringForward block id true
  · exact (isConstantExpression id).bind (bringForward block id)

theorem resolveForwardReferences (block : BlockId) : Blind base (resolveForwardReferences block) :=
  (query fun ρ m => outOfOrder_rename ρ m block).bind fun _ =>
    forM fun id _ => resolveForwardReference block id

theorem orderBlock (block : BlockId) : Blind base (orderBlock block) :=
  (query fun _ m => Module.block_recast _ m block).bind fun _ =>
    ite (reorderDeclarations block) (resolveForwardReferences block)

/-! ## Legalization -/

theorem routeEvent (process : NodeId) (event : ValueId) : Blind base (routeEvent process event) := by
  refine (query fun ρ m => Module.isSimpleReadOrPort_rename ρ m event).bind fun _ =>
    ite (pure ()) ?_
  refine (query fun ρ m => Module.definingOp?_rename ρ m event).bind fun _ => ite (pure ()) ?_
  refine (query fun _ _ => rfl).bind fun body => node process (fun _ _ => rfl) fun n _ hloc => ?_
  refine (query fun _ m => Module.valueType_recast _ m event).bind fun type => ?_
  refine Blind.bind ⟨fun ho h => .declareFor ho h event _ rfl hloc (.none _ _)⟩ fun (_, wire) => ?_
  refine (create _ [wire] type (closed_of_names_eq_nil rfl) hloc).bind fun (read, value) => ?_
  refine (replaceUses event value).bind fun _ => ?_
  refine (createStatement _ _ (closed_of_names_eq_nil rfl) hloc).bind fun _ => ?_
  exact (inlineEverywhere read).bind fun _ => count _

theorem spillOrHoist (procedural : Bool) (id : NodeId) : Blind base (spillOrHoist procedural id) := by
  have hspill : ∀ outside : Bool, Blind base (if outside then do
        if !(← Prep.query (·.inProcedural id)) then Prep.spill id false
        return procedural
      else return false) := fun outside => by
    refine ite ?_ (pure false)
    refine (query fun _ m => Module.inProcedural_recast _ m id).bind fun _ => ?_
    split
    · exact (spill id false).bind fun _ => pure procedural
    · exact pure procedural
  refine options.bind fun o => ?_
  split
  · split
    · exact (hoist id).bind hspill
    · exact hspill true
  · exact (spill id false).bind fun _ => pure false

theorem leaveProcedure (id : NodeId) : Blind base (leaveProcedure id) :=
  (isMemoryEffectFree id).bind fun _ => ite (hoist id) (captureSideEffect id)

theorem needsTemporary (procedural : Bool) (id : NodeId) :
    Blind base (needsTemporary procedural id) := by
  refine (isExpression id).bind fun _ => ite (pure false) ?_
  refine (isInlineable id).bind fun _ => ite (pure false) ?_
  exact ite (pure true) ((reuseAssigned id).bind fun _ => pure _)

/-- Giving an expression that stays where it is a form that can be emitted. -/
theorem legalizeForm (procedural : Bool) (id : NodeId) : Blind base (do
    if ← Prep.isBalanceable id then return .ofCreated (← Prep.balance id)
    match ← Prep.query (negativeConstant? · id) with
    | some (constant, value) => return .rewind (← Prep.subtractInstead id constant value)
    | none =>
      if (← Prep.node id).op = .structExplode then return .ofCreated (← Prep.explode id)
      if !procedural then
        if ← Prep.isExpression id then
          let _ ← Prep.reuseAssigned id
      return .next : Prep Flow) := by
  refine (isBalanceable id).bind fun _ => ite ((balance id).bind fun _ => pure _) ?_
  refine (query fun ρ m => negativeConstant?_rename ρ m id).bind fun constant => ?_
  split
  · next constant value => exact (subtractInstead id constant value).bind fun _ => pure _
  · refine node id (fun _ _ => rfl) fun n _ _ => ite ((explode id).bind fun _ => pure _) ?_
    split
    · refine (isExpression id).bind fun _ => ?_
      split
      · exact (reuseAssigned id).bind fun _ => pure _
      · exact pure _
    · exact pure _

theorem legalizeExpression (procedural : Bool) (id : NodeId) :
    Blind base (legalizeExpression procedural id) := by
  refine (needsTemporary procedural id).bind fun _ => ?_
  dsimp only
  split
  · exact (spillOrHoist procedural id).bind fun _ => ite (pure _) (legalizeForm procedural id)
  · exact legalizeForm procedural id

theorem legalizeInline (id : NodeId) (visited : IdMap Unit) :
    Blind base (legalizeInline id visited) := by
  refine (query fun _ m => Module.isUnused_recast _ m id).bind fun _ => ?_
  split
  · exact (eraseNode id).bind fun _ => pure visited
  · exact ite (pure visited) ((inlineEverywhere id).bind fun _ => pure _)

theorem legalizeOperation (procedural : Bool) (id : NodeId) :
    Blind base (legalizeOperation procedural id) := by
  refine node id (fun _ _ => rfl) fun n _ hloc => options.bind fun o => ?_
  split
  · exact moduleName.bind fun _ => fail hloc
  · refine (anchorInstanceOutputs id).bind fun _ => ?_
    split
    · exact (anchorInstanceInputs id).bind fun _ => pure false
    · exact pure false
  · refine ite ?_ (pure false)
    exact (enclosingProcess id).bind fun process => (moveNode id _).bind fun _ =>
      (count _).bind fun _ => pure true
  · exact ite (pure false) ((forM fun event _ => routeEvent id event).bind fun _ => pure true)
  · exact ite (pure false) ((forM fun event _ => routeEvent id event).bind fun _ => pure true)
  · exact pure false

theorem legalizeNode (block : BlockId) (id : NodeId) (visited : IdMap Unit) :
    Blind base (legalizeNode block id visited) := by
  have hstay : ∀ procedural : Bool, Blind base (do
      if ← Prep.isAlwaysInline id then return (.next, ← Prep.legalizeInline id visited)
      return (← Prep.legalizeExpression procedural id, visited) : Prep (Flow × IdMap Unit)) := fun procedural => by
    refine (isAlwaysInline id).bind fun _ => ite ?_ ?_
    · exact (legalizeInline id visited).bind fun _ => pure _
    · exact (legalizeExpression procedural id).bind fun _ => pure _
  refine (query fun _ m => Module.block_recast _ m block).bind fun b => ?_
  refine (legalizeOperation b.isProcedural id).bind fun _ => ite (pure _) ?_
  refine options.bind fun o => ?_
  split
  · refine (isExpression id).bind fun _ => ?_
    split
    · exact (leaveProcedure id).bind fun _ => ite (pure _) (hstay _)
    · exact hstay _
  · exact hstay _

theorem scan (block : BlockId) (fuel : Nat) (visited : IdMap Unit) (cursor : Option NodeId) :
    Blind base (scan block fuel visited cursor) := by
  induction fuel generalizing visited cursor with
  | zero => cases cursor with
    | none => exact pure ()
    | some id => exact fault _
  | succ fuel ih => cases cursor with
    | none => exact pure ()
    | some id =>
      refine node id (fun _ _ => rfl) fun n _ _ => ?_
      refine (legalizeNode block id visited).bind fun (flow, visited) => ?_
      cases flow with
      | rewind target => exact ih visited (some target)
      | next =>
        exact (query fun ρ m => successor?_rename ρ m block id n.prev n.next).bind
          fun cursor => ih visited cursor

theorem legalizeBlock (depth : Nat) (block : BlockId) : Blind base (legalizeBlock depth block) := by
  induction depth generalizing block with
  | zero => exact fault _
  | succ depth ih =>
    refine (query fun _ m => Module.blockNodes_recast _ m block).bind fun ids => ?_
    refine (forM fun id _ => node id (fun _ _ => rfl) fun n _ _ =>
      forM fun region _ => ih region).bind fun _ => ?_
    refine fuel.bind fun k => (query fun _ m => Module.block_recast _ m block).bind fun b => ?_
    exact (scan block k .empty b.first).bind fun _ => orderBlock block

theorem legalize : Blind base legalize :=
  fuel.bind fun k => (query fun _ _ => rfl).bind fun body => legalizeBlock k body

/-! ## Readability -/

theorem heuristicSpills (id : NodeId) (cost : Nat) : Blind base (heuristicSpills id cost) := by
  refine options.bind fun o => ite ?_ (pure false)
  refine ⟨fun ho h => (Agrees.node h id).bind fun n n' s t hl hn => ?_⟩
  obtain ⟨rfl, htext, -, -⟩ := hn
  obtain ⟨hnone, hnone'⟩ | ⟨x, y, text, hx, hy, hx', hy'⟩ := htext.cases
  · rw [hnone, hnone']
    exact .pure hl.alike rfl
  · rw [hx, hy]
    refine (Agrees.resolve hl.alike hx' hy').bind fun a b s t hl hr => ?_
    subst hr
    exact (ite (pure true) (pure _)).agrees ho hl.alike

theorem shouldSpill (memo : CostMemo) (id : NodeId) : Blind base (shouldSpill memo id) := by
  refine node id (fun _ _ => rfl) fun n _ _ => ?_
  split
  · exact pure _
  · next result _ _ =>
    refine (query fun ρ m => maySpill_rename ρ m id result).bind fun _ => ite ?_ (pure _)
    refine (query fun ρ m => CostMemo.cost_rename ρ m memo result).bind fun (cost, memo) => ?_
    refine options.bind fun o => ite (pure _) ?_
    exact (heuristicSpills id cost).bind fun _ => pure _

theorem prettifyNode (memo : CostMemo) (id : NodeId) : Blind base (prettifyNode memo id) := by
  refine node id (fun _ _ => rfl) fun n _ _ => ite (pure memo) ?_
  refine (isExpression id).bind fun _ => ite (pure memo) ?_
  refine (shouldSpill memo id).bind fun (wanted, memo) => ?_
  dsimp only
  split
  · exact (spill id false).bind fun _ => pure memo
  · exact pure memo

theorem prettifyBlock (depth : Nat) (memo : CostMemo) (block : BlockId) :
    Blind base (prettifyBlock depth memo block) := by
  induction depth generalizing memo block with
  | zero => exact fault _
  | succ depth ih =>
    refine (query fun _ m => Module.block_recast _ m block).bind fun b => ite (pure memo) ?_
    refine (query fun _ m => Module.blockNodes_recast _ m block).bind fun ids => ?_
    refine (foldlM prettifyNode memo).bind fun memo => ?_
    refine (query fun _ m => Module.blockNodes_recast _ m block).bind fun ids => ?_
    exact foldlM (fun memo id => node id (fun _ _ => rfl) fun n _ _ =>
      foldlM (fun memo region => ih memo region) memo) memo

theorem prettify : Blind base prettify :=
  fuel.bind fun k => (query fun _ _ => rfl).bind fun body =>
    (prettifyBlock k .empty body).bind fun _ => pure ()

/-- No pass depends on how the nodes of the module are called. -/
theorem pass (p : Pass) : Blind base p.action := by
  cases p with
  | legalize => exact legalize
  | prettify => exact prettify
  | prepare => exact pruneDeadLogic.bind fun _ => legalize.bind fun _ => prettify

end Blind

end NetPrep.Prep
