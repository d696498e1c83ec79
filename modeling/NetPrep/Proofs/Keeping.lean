import Mathlib
import NetPrep.Proofs.Answers
import NetPrep.Proofs.Hoisting
import NetPrep.Proofs.Reusing

/-!
# Steps that keep a module orderly

`Prep.Keeps` says what a step does to an orderly state in every case: if it succeeds or stops with a
failure, it leaves an orderly state with the same tree of blocks, and if it stops with a fault, it lacks
room or fuel. There is one rule for each way in which steps are put together, and one for each edit,
which hands the relation between the modules on to what comes after the edit.
-/

namespace NetPrep

open Prepare Prep

namespace Prepare.State

/-- A state with an orderly module, all of whose names have strings behind them. -/
def Orderly (s : State) : Prop := s.module.Orderly s.names

/-- A state leads to another one by edits that keep the module orderly. -/
structure Leads (s s' : State) : Prop where
  orderly : s'.Orderly
  edits : s.module.Edits s'.module
  names : ∀ {name}, s.names.Knows name → s'.names.Knows name

variable {s s' s'' : State}

theorem Orderly.sound (h : s.Orderly) : Sound s.module := h.toSound

theorem Leads.refl (h : s.Orderly) : s.Leads s := ⟨h, .refl h.toSound, fun hn => hn⟩

theorem Leads.trans (h : s.Leads s') (h' : s'.Leads s'') : s.Leads s'' :=
  ⟨h'.orderly, h.edits.trans h'.edits, fun hn => h'.names (h.names hn)⟩

/-- An edit of the module leaves the names. -/
theorem Leads.edit {m : Module} (hm : m.Orderly s.names) (he : s.module.Edits m) :
    s.Leads { s with module := m } := ⟨hm, he, fun hn => hn⟩

end Prepare.State

namespace Prep

variable {α β : Type} {env : Env} {s s' : State}

/-- A step misuses nothing, and whether it succeeds or fails, it keeps the module orderly. -/
structure Keeps (x : Prep α) (env : Env) (s : State) : Prop where
  leads : ∀ {r s'}, x env s = .ok (r, s') → s.Leads s'
  tame : Tame (x env s)

namespace Keeps

/-! ## Putting steps together -/

theorem pure (hs : s.Orderly) (a : α) : (pure a : Prep α).Keeps env s where
  leads h := by
    cases h
    exact .refl hs
  tame := .ok _

theorem fail (hs : s.Orderly) (f : Failure) : (fail f : Prep α).Keeps env s where
  leads h := by
    cases h
    exact .refl hs
  tame := .ok _

theorem outOfFuel : (fault .outOfFuel : Prep α).Keeps env s where
  leads h := by cases h
  tame := .outOfFuel

/-- What comes after a step may rely on what the step did. -/
theorem bind {x : Prep α} {f : α → Prep β} (hx : x.Keeps env s)
    (hf : ∀ a s₁, x.Runs env s a s₁ → s.Leads s₁ → (f a).Keeps env s₁) :
    (x >>= f).Keeps env s := by
  have hrun : (x >>= f) env s = x env s >>= fun r => ExceptT.bindCont (fun a => f a env) r.1 r.2 :=
    rfl
  constructor
  · intro r s' h
    rw [hrun] at h
    obtain ⟨⟨a | a, s₁⟩, hx₁, h⟩ := bind_eq_ok_iff.1 h
    · cases h
      exact hx.leads hx₁
    · have h₁ := hx.leads hx₁
      exact h₁.trans ((hf a s₁ hx₁ h₁).leads h)
  · rw [hrun]
    refine hx.tame.bind fun ⟨r, s₁⟩ hx₁ => ?_
    cases r with
    | error e => exact .ok _
    | ok a => exact (hf a s₁ hx₁ (hx.leads hx₁)).tame

/-- A step that ends the sequence. -/
theorem last {x : Prep α} (h : (x >>= Pure.pure).Keeps env s) : x.Keeps env s := by
  rwa [bind_pure] at h

/-- A question is asked, and the answer is used. -/
theorem ask {q : Module → Except Fault α} {f : α → Prep β} (hq : Tame (q s.module))
    (hf : ∀ a, q s.module = .ok a → (f a).Keeps env s) : (query q >>= f).Keeps env s := by
  have hrun : (query q >>= f) env s = q s.module >>= fun a => f a env s := by
    change (query q env s >>= fun r => ExceptT.bindCont (fun a => f a env) r.1 r.2) = _
    unfold query
    cases q s.module <;> rfl
  constructor
  · intro r s' h
    rw [hrun] at h
    obtain ⟨a, ha, h⟩ := bind_eq_ok_iff.1 h
    exact (hf a ha).leads h
  · rw [hrun]
    exact hq.bind fun a ha => (hf a ha).tame

/-- The answer to a question is known. -/
theorem tell {q : Module → Except Fault α} {f : α → Prep β} {a : α} (hq : q s.module = .ok a)
    (hf : (f a).Keeps env s) : (query q >>= f).Keeps env s :=
  ask (.of_ok ⟨a, hq⟩) fun a' ha' => by
    obtain rfl := Except.ok.inj (hq.symm.trans ha')
    exact hf

theorem options {f : Options → Prep β} (hf : (f env.options).Keeps env s) :
    (options >>= f).Keeps env s := ⟨fun h => hf.leads h, hf.tame⟩

theorem fuel {f : Nat → Prep β} (hf : (f env.fuel).Keeps env s) : (fuel >>= f).Keeps env s :=
  ⟨fun h => hf.leads h, hf.tame⟩

theorem moduleName {f : String → Prep β} (hf : (f env.moduleName).Keeps env s) :
    (moduleName >>= f).Keeps env s := ⟨fun h => hf.leads h, hf.tame⟩

/-- An edit that gives a module. -/
theorem edit {e : Module → Except Fault Module} {f : Unit → Prep β} (he : Tame (e s.module))
    (hf : ∀ m, e s.module = .ok m → s.Leads { s with module := m } ∧
      (f ()).Keeps env { s with module := m }) : (edit e >>= f).Keeps env s := by
  obtain ⟨m₀, names, stats⟩ := s
  refine bind ⟨?_, ?_⟩ fun _ s₁ h _ => ?_
  · intro r s' h
    unfold Prep.edit at h
    simp only at h
    split at h
    · next m hm =>
      cases h
      exact (hf m hm).1
    · cases h
  · unfold Prep.edit
    simp only
    split
    · exact .ok _
    · next f hf => exact fun e he' => he e (by cases he'; exact hf)
  · obtain ⟨m, hm, rfl⟩ := runs_edit.1 h
    exact (hf m hm).2

/-- An edit that gives a module and something else. -/
theorem editWith {e : Module → Except Fault (α × Module)} {f : α → Prep β}
    (he : Tame (e s.module))
    (hf : ∀ a m, e s.module = .ok (a, m) → s.Leads { s with module := m } ∧
      (f a).Keeps env { s with module := m }) : (editWith e >>= f).Keeps env s := by
  obtain ⟨m₀, names, stats⟩ := s
  refine bind ⟨?_, ?_⟩ fun a s₁ h _ => ?_
  · intro r s' h
    unfold Prep.editWith at h
    simp only at h
    split at h
    · next a m hm =>
      cases h
      exact (hf a m hm).1
    · cases h
  · unfold Prep.editWith
    simp only
    split
    · exact .ok _
    · next f hf => exact fun e he' => he e (by cases he'; exact hf)
  · obtain ⟨m, hm, rfl⟩ := runs_editWith.1 h
    exact (hf a m hm).2

theorem count (hs : s.Orderly) {g : Stats → Stats} {f : Unit → Prep β}
    (hf : State.Orderly { s with stats := g s.stats } →
      (f ()).Keeps env { s with stats := g s.stats }) : (count g >>= f).Keeps env s := by
  refine bind ⟨?_, .ok _⟩ fun _ s₁ h hl => ?_
  · intro r s' h
    cases h
    exact ⟨hs, .refl hs.sound, fun hn => hn⟩
  · obtain rfl := runs_count.1 h
    exact hf hl.orderly

/-- Counting ends a sequence. -/
theorem counts (hs : s.Orderly) (g : Stats → Stats) : (Prep.count g).Keeps env s :=
  last (count hs fun hs => pure hs ())

/-- A string gets a name. -/
theorem intern (hs : s.Orderly) (text : String) : (intern text).Keeps env s where
  leads h := by
    cases h
    exact ⟨Module.Orderly.intern hs text, .refl hs.sound, fun hn => hn.intern text⟩
  tame := .ok _

/-- A name is looked up that has a string behind it. -/
theorem resolve (hs : s.Orderly) {name : Name} (hn : s.names.Knows name) :
    (resolve name).Keeps env s := by
  obtain ⟨text, htext⟩ := hn
  have hrun : Prep.resolve name env s = .ok (.ok text, s) := by
    unfold Prep.resolve
    rw [htext]
  exact ⟨fun h => by
    rw [hrun] at h
    cases h
    exact .refl hs, hrun ▸ .ok _⟩

/-- One step for each member of a list. What the steps rely on is kept by each of them. -/
theorem forM {P : State → Prop} {f : α → Prep Unit} {l : List α} (hs : s.Orderly) (hP : P s)
    (hf : ∀ a ∈ l, ∀ s, s.Orderly → P s →
      (f a).Keeps env s ∧ ∀ s', (f a).Runs env s () s' → s.Leads s' → P s') :
    (l.forM f).Keeps env s := by
  induction l generalizing s with
  | nil => exact pure hs ()
  | cons a l ih =>
    change (f a >>= fun _ => l.forM f).Keeps env s
    obtain ⟨hkeeps, hkept⟩ := hf a (by simp) s hs hP
    exact bind hkeeps fun _ s₁ h₁ hl => ih hl.orderly (hkept s₁ h₁ hl)
      fun b hb => hf b (List.mem_cons_of_mem _ hb)

/-! ## Questions -/

variable {p : Position} {b : BlockId} {op : Op} {operands : List ValueId} {types : List TypeId}
  {type : TypeId} {loc : Loc} {id : NodeId} {n : Node} {v old new : ValueId} {i : Nat}

/-- A node is looked at. -/
theorem node {f : Node → Prep β} (hn : s.module.node? id = some n) (hf : (f n).Keeps env s) :
    (node id >>= f).Keeps env s :=
  tell (q := (·.node id)) (Module.node_eq_ok_iff.2 hn) hf

theorem operand {f : ValueId → Prep β} (hu : s.module.Uses ⟨id, i⟩ v) (hf : (f v).Keeps env s) :
    (query (·.operand id i) >>= f).Keeps env s := by
  obtain ⟨n, hn, hget⟩ := hu
  obtain ⟨nd, hnd, -, rfl⟩ := Module.exists_of_live? hn
  exact tell (operand_eq_ok_iff.2 ⟨nd, hnd, hget⟩) hf

theorem result {f : ValueId → Prep β} (hn : s.module.live? id = some n)
    (hv : n.results[i]? = some v) (hf : (f v).Keeps env s) :
    (query (·.result id i) >>= f).Keeps env s := by
  obtain ⟨nd, hnd, -, rfl⟩ := Module.exists_of_live? hn
  exact tell (result_eq_ok_iff.2 ⟨nd, hnd, hv⟩) hf

theorem valueType {f : TypeId → Prep β} (hv : s.module.type? v = some type)
    (hf : (f type).Keeps env s) : (query (·.valueType v) >>= f).Keeps env s :=
  tell (valueType_eq_ok_iff.2 hv) hf

/-- The uses of a value are listed. -/
theorem value {f : Value → Prep β} (hs : s.Orderly) (hv : s.module.Usable v)
    (hf : ∀ x, s.module.value? v = some x → (∀ u, u ∈ x.uses ↔ s.module.Uses u v) →
      s.module.def? v = some x.definition → (f x).Keeps env s) :
    (query (·.value v) >>= f).Keeps env s := by
  obtain ⟨d, hd, -⟩ := hv
  obtain ⟨x, hx, rfl⟩ := Option.map_eq_some_iff.1 hd
  exact tell (Module.value_eq_ok_iff.2 hx) (hf x hx (fun u => hs.mem_uses hx) hd)

theorem definingNode? {f : Option NodeId → Prep β} (hv : s.module.Usable v)
    (hnone : (f none).Keeps env s)
    (hsome : ∀ d nd i, s.module.def? v = some (.result d i) → s.module.live? d = some nd →
      (f (some d)).Keeps env s) : (query (·.definingNode? v) >>= f).Keeps env s := by
  obtain ⟨d, hd, hlive⟩ := hv
  cases d with
  | port i => exact tell (Module.definingNode?_eq_none_iff.2 ⟨i, hd⟩) hnone
  | result d i =>
    obtain ⟨nd, hnd⟩ := hlive rfl
    exact tell (Module.definingNode?_eq_some_iff.2 ⟨i, hd⟩) (hsome d nd i hd hnd)

theorem definingOp? {f : Option Op → Prep β} (hv : s.module.Usable v)
    (hf : ∀ op, (f op).Keeps env s) : (query (·.definingOp? v) >>= f).Keeps env s :=
  ask (by simpa using Tame.definingOp? (f := Pure.pure) hv fun op => .ok op) fun op _ => hf op

theorem elementTypeOf {stype : TypeId} {f : TypeId → Prep β} (hv : s.module.type? v = some stype)
    (hget : s.module.types.get stype = .ok (.storage type)) (hf : (f type).Keeps env s) :
    (elementTypeOf v >>= f).Keeps env s := by
  unfold Prep.elementTypeOf
  rw [bind_assoc]
  refine tell (a := some type) ?_ hf
  rw [valueType_eq_ok_iff.2 hv, ok_bind]
  exact storedType?_eq_some_iff.2 hget

theorem block {f : Block → Prep β} (hs : s.Orderly) (hb : s.module.Placed b)
    (hf : ∀ blk, s.module.block? b = some blk → (f blk).Keeps env s) :
    (query (·.block b) >>= f).Keeps env s := by
  obtain ⟨blk, hblk⟩ := hs.sound.exists_block_of_placed hb
  exact tell (Module.block_eq_ok_iff.2 hblk) (hf blk hblk)

theorem parentNode? {f : Option NodeId → Prep β} (hs : s.Orderly) (hn : s.module.live? id = some n)
    (hnone : (f none).Keeps env s)
    (hsome : ∀ up, s.module.OwnedBy id up → (f (some up)).Keeps env s) :
    (query (·.parentNode? id) >>= f).Keeps env s := by
  have htame := Tame.parentNode? (f := Pure.pure) hs.sound hn (fun _ => .ok none)
    fun up _ _ _ => .ok (some up)
  rw [bind_pure] at htame
  refine ask htame fun up hup => ?_
  cases up with
  | none => exact hnone
  | some up => exact hsome up (hs.ownedBy_of_parentNode? hn hup)

/-- The process around a node is looked for; without one, preparation stops. -/
theorem enclosingProcess {f : NodeId → Prep β} (hs : s.Orderly) (hn : s.module.live? id = some n)
    (hf : ∀ process np, s.module.ProcessOf id process → s.module.live? process = some np →
      np.regions ≠ [] → (f process).Keeps env s) : (Prep.enclosingProcess id >>= f).Keeps env s := by
  unfold Prep.enclosingProcess
  rw [bind_assoc]
  refine ask (hs.enclosingProcess?_tame hn) fun p hp => ?_
  cases p with
  | none => exact bind (moduleName (fail hs _)) fun _ _ h _ => absurd h (by simp)
  | some p =>
    have hpo := hs.enclosingProcess?_eq_ok hn hp
    obtain ⟨np, hnp, hne⟩ := hpo.regions
    exact hf p np hpo hnp hne

/-- The oracle is asked. -/
theorem consult {q : Env → Module → Except Fault α} {f : α → Prep β}
    (h : (query (q env) >>= f).Keeps env s) :
    ((fun env => query (q env) env : Prep α) >>= f).Keeps env s := ⟨fun hr => h.leads hr, h.tame⟩

theorem isAlwaysInline {f : Bool → Prep β} (ho : env.oracle = .systemVerilog)
    (hn : s.module.node? id = some n) (hf : (f n.op.isAlwaysInline).Keeps env s) :
    (Prep.isAlwaysInline id >>= f).Keeps env s :=
  consult (tell (by rw [ho]; exact Oracle.isAlwaysInline_eq_ok_iff.2 ⟨n, hn, rfl⟩) hf)

theorem isMemoryEffectFree {f : Bool → Prep β} (ho : env.oracle = .systemVerilog)
    (hn : s.module.node? id = some n) (hf : ∀ r, (f r).Keeps env s) :
    (Prep.isMemoryEffectFree id >>= f).Keeps env s := by
  refine consult (ask ?_ fun r _ => hf r)
  rw [ho]
  exact .bind_eq (Module.node_eq_ok_iff.2 hn) (.ok _)

theorem isConstantExpression {f : Bool → Prep β} (ho : env.oracle = .systemVerilog)
    (hn : s.module.node? id = some n) (hf : (f n.op.isConstant).Keeps env s) :
    (Prep.isConstantExpression id >>= f).Keeps env s := by
  refine consult (tell ?_ hf)
  rw [ho]
  show (s.module.node id >>= fun n => Pure.pure n.op.isConstant) = _
  rw [Module.node_eq_ok_iff.2 hn, ok_bind]
  rfl

/-! ## Edits -/

/-- A node is created whose operands have the types that are looked for. -/
theorem createNode {f : NodeId → Prep β} (hs : s.Orderly) (hpos : p.In s.module.nodesOf b)
    (hb : s.module.Placed b) (hop : op.regionKinds = []) (hports : op.portNames = [])
    (huse : ∀ v ∈ operands, s.module.Usable v)
    (htypes : ∀ t ∈ types, ∃ ty, s.module.types.entry? t = some ty)
    (hshape : ∀ os, List.Forall₂ (fun v t => s.module.type? v = some t) operands os →
      s.module.types.Shapes op os types)
    (hf : ∀ id s₁, s.module.Creates s₁.module b p id
      (.fresh op operands (s.module.nextValues types.length) b loc) types → s.Leads s₁ →
      (f id).Keeps env s₁) :
    (Prep.editWith (·.createNode p op operands types loc) >>= f).Keeps env s := by
  have hblk := hs.sound.exists_block_of_placed hb
  refine editWith (hs.createNode_tame hpos hblk huse) fun id m hm => ?_
  obtain ⟨hc, hs'⟩ := hs.sound.createNode hpos hb hop huse hm
  obtain ⟨os, hos⟩ := s.module.exists_mapM_type? fun v hv => (huse v hv).exists_type
  have hshaped : m.Shaped (.fresh op operands (s.module.nextValues types.length) b loc) :=
    ⟨os, types, Module.mapM_type?_kept hc.kept hos, hc.mapM_results,
      (hshape os (Module.forall₂_of_mapM_type? hos)).extends hc.kept.extends⟩
  have hm' : m.Orderly s.names := Module.Orderly.creates hs hc hs' (Module.types_of_createNode hm)
    hshaped htypes (fun _ hname => by cases hname) (by simp [Node.fresh, hports])
  have hl : s.Leads { s with module := m } := .edit hm' (hc.edits hs')
  exact ⟨hl, hf id _ hc hl⟩

theorem createStatement {f : NodeId → Prep β} (hs : s.Orderly) (hpos : p.In s.module.nodesOf b)
    (hb : s.module.Placed b) (hop : op.regionKinds = []) (hports : op.portNames = [])
    (huse : ∀ v ∈ operands, s.module.Usable v)
    (hshape : ∀ os, List.Forall₂ (fun v t => s.module.type? v = some t) operands os →
      s.module.types.Shapes op os [])
    (hf : ∀ id s₁, s.module.Creates s₁.module b p id (.fresh op operands [] b loc) [] →
      s.Leads s₁ → (f id).Keeps env s₁) :
    (createStatement p op operands loc >>= f).Keeps env s :=
  createNode hs hpos hb hop hports huse (by simp) hshape hf

/-- A node with one result is created. -/
theorem create {f : NodeId × ValueId → Prep β} (hs : s.Orderly) (hpos : p.In s.module.nodesOf b)
    (hb : s.module.Placed b) (hop : op.regionKinds = []) (hports : op.portNames = [])
    (huse : ∀ v ∈ operands, s.module.Usable v)
    (htype : ∃ ty, s.module.types.entry? type = some ty)
    (hshape : ∀ os, List.Forall₂ (fun v t => s.module.type? v = some t) operands os →
      s.module.types.Shapes op os [type])
    (hf : ∀ id value s₁, s.module.Creates s₁.module b p id (.fresh op operands [value] b loc) [type] →
      s.Leads s₁ → (f (id, value)).Keeps env s₁) :
    (create p op operands type loc >>= f).Keeps env s := by
  unfold Prep.create
  simp only [bind_assoc, pure_bind]
  refine createNode hs hpos hb hop hports huse (by simpa using htype) hshape fun id s₁ hc hl => ?_
  exact result hc.live?_self (v := ⟨s.module.values.size⟩) rfl (hf _ _ s₁ hc hl)

theorem setName {name : Option Name} {f : Unit → Prep β} (hs : s.Orderly)
    (hid : id.index < s.module.nodes.size) (hname : ∀ x, name = some x → s.names.Knows x)
    (hf : ∀ s₁, s.module.Relabels s₁.module id (fun _ => name) (fun t => t) → s.Leads s₁ →
      (f ()).Keeps env s₁) : (Prep.edit (·.setName id name) >>= f).Keeps env s := by
  refine edit (.of_ok (Module.exists_modifyNode hid)) fun m hm => ?_
  obtain ⟨hr, hs'⟩ := hs.sound.setName hm
  have hl : s.Leads { s with module := m } :=
    .edit (Module.Orderly.relabels hs hr hs' fun _ x _ hx => hname x hx) (hr.edits hs')
  exact ⟨hl, hf _ hr hl⟩

theorem setTwoState {twoState : Bool} {f : Unit → Prep β} (hs : s.Orderly)
    (hid : id.index < s.module.nodes.size)
    (hf : ∀ s₁, s.module.Relabels s₁.module id (fun n => n) (fun _ => twoState) → s.Leads s₁ →
      (f ()).Keeps env s₁) : (Prep.edit (·.setTwoState id twoState) >>= f).Keeps env s := by
  refine edit (.of_ok (Module.exists_modifyNode hid)) fun m hm => ?_
  obtain ⟨hr, hs'⟩ := hs.sound.setTwoState hm
  have hl : s.Leads { s with module := m } :=
    .edit (Module.Orderly.relabels hs hr hs' fun _ x hn hx => hs.hint hn hx) (hr.edits hs')
  exact ⟨hl, hf _ hr hl⟩

/-- An operand is pointed at a value of its type. -/
theorem setOperand {f : Unit → Prep β} (hs : s.Orderly) (hu : s.module.Uses ⟨id, i⟩ old)
    (hv : s.module.Usable v) (htype : s.module.type? v = s.module.type? old)
    (hf : ∀ s₁, s.module.Redirects s₁.module (pointAt ⟨id, i⟩ v) → s.Leads s₁ →
      (f ()).Keeps env s₁) : (Prep.edit (·.setOperand id i v) >>= f).Keeps env s := by
  refine edit (.of_ok (hs.exists_setOperand hu hv)) fun m hm => ?_
  have hu' := hu
  obtain ⟨n, hn, -⟩ := hu'
  obtain ⟨-, hr, hs'⟩ := hs.sound.setOperand hn hv hm
  have hl : s.Leads { s with module := m } :=
    .edit (Module.Orderly.pointsAt hs hr hs' hu htype) (hr.edits hs')
  exact ⟨hl, hf _ hr hl⟩

/-- The uses of a value are redirected to another one of its type. -/
theorem replaceUses {f : Unit → Prep β} (hs : s.Orderly) (hnew : s.module.Usable new)
    (htype : s.module.type? old = some type) (htype' : s.module.type? new = some type)
    (hf : ∀ s₁, s.module.Redirects s₁.module (substitute old new) → s.Leads s₁ →
      (f ()).Keeps env s₁) : (Prep.edit (·.replaceUses old new) >>= f).Keeps env s := by
  refine edit (.of_ok (hs.exists_replaceUses (Module.lt_of_type? htype) hnew)) fun m hm => ?_
  obtain ⟨hr, hs'⟩ := hs.sound.replaceUses hnew hm
  have hl : s.Leads { s with module := m } :=
    .edit (Module.Orderly.substitutes hs hr hs' (htype'.trans htype.symm)) (hr.edits hs')
  exact ⟨hl, hf _ hr hl⟩

/-- A node without regions is moved next to another one, or to an end of a block. -/
theorem moveNode {f : Unit → Prep β} (hs : s.Orderly) (hn : s.module.live? id = some n)
    (hr : n.regions = []) (hpos : p.In s.module.nodesOf b) (hb : s.module.Placed b)
    (hbefore : p ≠ .before id) (hafter : p ≠ .after id)
    (hf : ∀ s₁, s.module.Moves s₁.module b p id → s.Leads s₁ → (f ()).Keeps env s₁) :
    (Prep.edit (·.moveNode id p) >>= f).Keeps env s := by
  have hblk := hs.sound.exists_block_of_placed hb
  refine edit (hs.moveNode_tame hn hpos hblk) fun m hm => ?_
  obtain ⟨hmoves, hs'⟩ := hs.sound.moveNode hn hr hpos hb hbefore hafter hm
  have hl : s.Leads { s with module := m } := .edit (Module.Orderly.moves hs hmoves hs')
    (hmoves.edits hs.sound hs' hn (hs.regionKinds_eq_nil hn hr))
  exact ⟨hl, hf _ hmoves hl⟩

/-- A node that is moved next to itself stays. -/
theorem moveNode_self {f : Unit → Prep β} (hs : s.Orderly) (hpos : p = .before id ∨ p = .after id)
    (hf : (f ()).Keeps env s) : (Prep.edit (·.moveNode id p) >>= f).Keeps env s := by
  refine edit ?_ fun m hm => ?_
  · rw [Module.moveNode, if_pos hpos]
    exact .ok _
  · obtain rfl := Prep.moveNode_self hpos hm
    exact ⟨.refl hs, hf⟩

/-- A node without regions is erased whose results are unused. -/
theorem eraseNode {f : Unit → Prep β} (hs : s.Orderly) (hn : s.module.live? id = some n)
    (hr : n.regions = []) (hunused : ∀ v ∈ n.results, ∀ u, ¬ s.module.Uses u v)
    (hf : ∀ s₁, s.module.Erases s₁.module id → s.Leads s₁ → (f ()).Keeps env s₁) :
    (Prep.edit (·.eraseNode id) >>= f).Keeps env s := by
  refine edit (.of_ok (hs.exists_eraseNode hn hr hunused)) fun m hm => ?_
  obtain ⟨-, he, hs'⟩ := hs.sound.eraseNode hn hr hm
  have hl : s.Leads { s with module := m } := .edit (Module.Orderly.erases hs he hs')
    (he.edits hs.sound hs' hn (hs.regionKinds_eq_nil hn hr))
  exact ⟨hl, hf _ he hl⟩

/-- A node with one result is copied. -/
theorem cloneNode {f : NodeId → Prep β} (hs : s.Orderly) (hn : s.module.live? id = some n)
    (hv : n.results = [v]) (hop : n.op.regionKinds = []) (hpos : p.In s.module.nodesOf b)
    (hb : s.module.Placed b)
    (hf : ∀ copyId copy type s₁, s.module.type? v = some type →
      s.module.Creates s₁.module b p copyId { Node.fresh n.op n.operands [copy] b n.loc with
        name := n.name, twoState := n.twoState } [type] → s.Leads s₁ →
      (f copyId).Keeps env s₁) : (Prep.editWith (·.cloneNode id p) >>= f).Keeps env s := by
  have hblk := hs.sound.exists_block_of_placed hb
  refine editWith (hs.cloneNode_tame hn hpos hblk hop) fun copyId m hm => ?_
  obtain ⟨copy, type, htype, hc, hs'⟩ :=
    hs.sound.cloneNode hn hv (hs.regions_eq_nil hn hop) hpos hb hm
  have hm' : m.Orderly s.names := by
    obtain ⟨os, rs, hos, hrs, hshape⟩ := hs.shaped hn
    obtain rfl : rs = [type] := by simpa [hv, htype] using hrs.symm
    refine Module.Orderly.creates hs hc hs' ?_ ⟨os, [type], Module.mapM_type?_kept hc.kept hos,
      hc.mapM_results, hshape.extends hc.kept.extends⟩ (by simpa using hs.entry htype)
      (fun x hx => hs.hint hn hx) (fun x hx => hs.inst hn hx)
    exact Module.types_of_cloneNode hm
  have hl : s.Leads { s with module := m } := .edit hm' (hc.edits hs')
  exact ⟨hl, hf _ copy type _ htype hc hl⟩

/-! ## Storage -/

/-- Storage is declared for a value. -/
theorem declareFor {name : Option Name} {f : NodeId × ValueId → Prep β} (hs : s.Orderly)
    (hpos : p.In s.module.nodesOf b) (hb : s.module.Placed b) (hop : op.isDeclaration = true)
    (hv : s.module.type? v = some type) (hname : ∀ x, name = some x → s.names.Knows x)
    (hf : ∀ decl storage stype s₁, s₁.module.types.get stype = .ok (.storage type) →
      s.module.Creates s₁.module b p decl { Node.fresh op [] [storage] b loc with name } [stype] →
      s.Leads s₁ → (f (decl, storage)).Keeps env s₁) :
    (declareFor v p op name loc >>= f).Keeps env s := by
  have hregions : op.regionKinds = [] := by cases op <;> first | rfl | cases hop
  refine bind ?_ fun ⟨decl, storage⟩ s₁ hrun hl => ?_
  · unfold Prep.declareFor storageTypeOf
    simp only [bind_assoc]
    refine tell (valueType_eq_ok_iff.2 hv) (editWith (.ok _) fun stype m hm => ?_)
    obtain ⟨rfl, rfl⟩ : (s.module.internType (.storage type)).1 = stype ∧
        (s.module.internType (.storage type)).2 = m := by simpa [Prod.ext_iff] using hm
    obtain ⟨ha, hs₁⟩ := hs.sound.internType (.storage type)
    have hm₁ : (s.module.internType (.storage type)).2.Orderly s.names :=
      Module.Orderly.addsType hs (by simpa [HwType.parts] using hs.entry hv)
    have htree : s.module.SameTree (s.module.internType (.storage type)).2 :=
      ⟨ha.kept.body, fun hn _ => ⟨_, (ha.live? _).trans hn, rfl, rfl, rfl⟩,
        fun hn _ => ⟨_, (ha.live? _).symm.trans hn, rfl, rfl, rfl⟩⟩
    have he : s.module.Edits (s.module.internType (.storage type)).2 := ⟨hs₁, ha.kept, htree⟩
    refine ⟨.edit hm₁ he, ?_⟩
    refine create (b := b) (s := { s with module := _ }) hm₁ ?_ (he.placed hb) hregions ?_ (by simp)
      ⟨_, TypeTable.entry?_eq_some_iff.2 (TypeTable.get_intern _ _)⟩ ?_
      fun decl storage s₂ hc hl => ?_
    · rwa [show (s.module.internType (.storage type)).2.nodesOf = s.module.nodesOf from
        funext ha.nodesOf]
    · cases op <;> first | rfl | cases hop
    · intro os hos
      cases op <;> trivial
    · exact setName hl.orderly (Module.lt_of_live? hc.live?_self)
        (fun x hx => hl.names (hname x hx)) fun s₃ hr hl₃ => pure hl₃.orderly _
  · obtain ⟨vtype, stype, hvtype, hstype, hc, -⟩ := declareFor_runs hs.sound hpos hb hregions hrun
    obtain rfl := Option.some.inj (hv.symm.trans hvtype)
    exact hf decl storage stype s₁ hstype hc hl

/-- Storage is read. -/
theorem createRead {storage : ValueId} {f : NodeId × ValueId → Prep β} (hs : s.Orderly)
    (hpos : p.In s.module.nodesOf b) (hb : s.module.Placed b) (hstorage : s.module.Usable storage)
    (htype : s.module.type? v = some type)
    (hf : ∀ read value s₁, s.module.Creates s₁.module b p read
      (.fresh .read [storage] [value] b loc) [type] → s.Leads s₁ → (f (read, value)).Keeps env s₁) :
    (Prep.create p .read [storage] type loc >>= f).Keeps env s := by
  refine create hs hpos hb rfl rfl (by simpa using hstorage) (hs.entry htype) (fun os hos => ?_) hf
  cases hos
  exact List.cons_ne_nil _ _

/-- Storage is connected to a value of the type that it holds. -/
theorem connect {storage : ValueId} {stype : TypeId} {f : NodeId → Prep β} (hs : s.Orderly)
    (hpos : p.In s.module.nodesOf b) (hb : s.module.Placed b)
    (hop : op = .assign ∨ op = .blockingAssign) (hstorage : s.module.Usable storage)
    (hv : s.module.Usable v) (hstype : s.module.type? storage = some stype)
    (hget : s.module.types.get stype = .ok (.storage type)) (htype : s.module.type? v = some type)
    (hf : ∀ id s₁, s.module.Creates s₁.module b p id (.fresh op [storage, v] [] b loc) [] →
      s.Leads s₁ → (f id).Keeps env s₁) :
    (Prep.createStatement p op [storage, v] loc >>= f).Keeps env s := by
  have huse : ∀ w ∈ [storage, v], s.module.Usable w := by simpa using ⟨hstorage, hv⟩
  have hos : ∀ os, List.Forall₂ (fun w t => s.module.type? w = some t) [storage, v] os →
      os = [stype, type] := fun os hos => by
    rw [List.forall₂_cons_left_iff] at hos
    obtain ⟨t, os, ht, hos, rfl⟩ := hos
    rw [List.forall₂_cons_left_iff] at hos
    obtain ⟨t', os, ht', hos, rfl⟩ := hos
    obtain rfl := List.forall₂_nil_left_iff.1 hos
    rw [Option.some.inj (ht.symm.trans hstype), Option.some.inj (ht'.symm.trans htype)]
  obtain rfl | rfl := hop
  · exact createStatement hs hpos hb rfl rfl huse
      (fun os h => ⟨stype, type, hos os h, TypeTable.elementOf?_eq_some_iff.2 hget⟩) hf
  · exact createStatement hs hpos hb rfl rfl huse (fun os h => by
      rw [hos os h]
      exact List.cons_ne_nil _ _) hf

/-- A use reads storage of its type instead. -/
theorem readFor {storage : ValueId} {u : Use} {f : NodeId → Prep β} (hs : s.Orderly)
    (hu : s.module.Uses u old) (htype : s.module.type? old = some type)
    (hstorage : s.module.Usable storage)
    (hf : ∀ read s₁, s.module.ReadFor old storage type loc u read s₁.module → s.Leads s₁ →
      (f read).Keeps env s₁) : (readFor u storage type loc >>= f).Keeps env s := by
  refine bind ?_ fun read s₁ hrun hl => hf read s₁ (readFor_eq hs.sound hu hstorage hrun) hl
  have hu' := hu
  obtain ⟨nu, hnu, -⟩ := hu'
  refine createRead hs (hs.sound.in_before hnu) (hs.placed hnu) hstorage htype
    fun read value s₁ hc hl => ?_
  refine setOperand hl.orderly (hc.uses_iff.2 (Or.inl hu)) (hc.usable_result (i := 0) rfl) ?_
    fun s₂ hr hl₂ => pure hl₂.orderly read
  rw [hc.type?_result (i := 0) rfl, hc.kept.type? htype]
  rfl

end Keeps

end Prep

end NetPrep
