import Mathlib
import NetPrep.Proofs.Keeping.Temporary
import NetPrep.Proofs.Sparing

/-!
# Room for a temporary

Giving a node a temporary makes a declaration, a read for each use and a connection, and may move the
declaration. Where there is room for as many edits, it succeeds in every setting: nothing but room can
lack, since the names that the temporary is made from have strings behind them.
-/

namespace NetPrep

open Prepare Prep

namespace Module.Roomy

variable {m m' : Module} {id : NodeId} {i k : Nat} {v : ValueId}

theorem modifyNode {f : Node → Node} (h : m.Roomy k) (hm : m.modifyNode id f = .ok m')
    (hf : ∀ n, (f n).order = n.order) : m'.Roomy k := by
  obtain ⟨nodes, rfl, hsize, hnode⟩ := modifyNode_eq_ok hm
  refine h.congr hsize fun j => ?_
  unfold orderOf
  rw [hnode]
  split
  · cases m.node? j <;> simp [hf]
  · rfl

theorem setOperand (h : m.Roomy k) (hm : m.setOperand id i v = .ok m') : m'.Roomy k := by
  simp only [Module.setOperand, bind_eq_ok_iff] at hm
  obtain ⟨old, -, hm⟩ := hm
  split at hm
  · cases hm
    exact h
  · simp only [bind_eq_ok_iff] at hm
    obtain ⟨m₁, h₁, m₂, h₂, h₃⟩ := hm
    obtain ⟨values, rfl⟩ := (removeUse_eq_ok h₁).rest
    obtain ⟨values', rfl⟩ := (addUse_eq_ok h₂).rest
    refine modifyNode ?_ h₃ fun _ => rfl
    exact h.congr rfl fun _ => rfl

end Module.Roomy

namespace Prep

/-! ## Steps that succeed -/

section

variable {α β : Type} {env : Env} {s : State} {good : β → State → Prop} {mid : α → State → Prop}

/-- A step succeeds, and its result and state are of some kind. -/
def Succeeds (x : Prep α) (env : Env) (s : State) (good : α → State → Prop) : Prop :=
  ∃ a s', x.Runs env s a s' ∧ good a s'

namespace Succeeds

theorem pure {a : α} (h : mid a s) : (pure a : Prep α).Succeeds env s mid :=
  ⟨a, s, runs_pure.2 ⟨rfl, rfl⟩, h⟩

theorem bind {x : Prep α} {f : α → Prep β} (hx : x.Succeeds env s mid)
    (hf : ∀ a s₁, x.Runs env s a s₁ → mid a s₁ → (f a).Succeeds env s₁ good) :
    (x >>= f).Succeeds env s good := by
  obtain ⟨a, s₁, hrun, hmid⟩ := hx
  obtain ⟨b, s', hrun', hgood⟩ := hf a s₁ hrun hmid
  exact ⟨b, s', runs_bind.2 ⟨a, s₁, hrun, hrun'⟩, hgood⟩

/-- A step whose result and state are known comes first. -/
theorem step {x : Prep α} {f : α → Prep β} {a : α} {s₁ : State} (hx : x.Runs env s a s₁)
    (hf : (f a).Succeeds env s₁ good) : (x >>= f).Succeeds env s good := by
  obtain ⟨b, s', hrun, hgood⟩ := hf
  exact ⟨b, s', runs_bind.2 ⟨a, s₁, hx, hrun⟩, hgood⟩

theorem query {q : Module → Except Fault α} {f : α → Prep β} {a : α} (hq : q s.module = .ok a)
    (hf : (f a).Succeeds env s good) : (query q >>= f).Succeeds env s good :=
  step (runs_query.2 ⟨hq, rfl⟩) hf

theorem node {id : NodeId} {n : Node} {f : Node → Prep β} (hn : s.module.node? id = some n)
    (hf : (f n).Succeeds env s good) : (node id >>= f).Succeeds env s good :=
  step (runs_node.2 ⟨hn, rfl⟩) hf

theorem edit {e : Module → Except Fault Module} {f : Unit → Prep β} {m : Module}
    (he : e s.module = .ok m) (hf : (f ()).Succeeds env { s with module := m } good) :
    (edit e >>= f).Succeeds env s good :=
  step (runs_edit.2 ⟨m, he, rfl⟩) hf

theorem editWith {e : Module → Except Fault (α × Module)} {f : α → Prep β} {a : α} {m : Module}
    (he : e s.module = .ok (a, m)) (hf : (f a).Succeeds env { s with module := m } good) :
    (editWith e >>= f).Succeeds env s good :=
  step (runs_editWith.2 ⟨m, he, rfl⟩) hf

theorem resolve {name : Name} {f : String → Prep β} (hname : s.names.Knows name)
    (hf : ∀ text, (f text).Succeeds env s good) : (resolve name >>= f).Succeeds env s good := by
  obtain ⟨text, htext⟩ := hname
  exact step (runs_resolve.2 ⟨htext, rfl⟩) (hf text)

theorem counts (g : Stats → Stats) : (count g).Succeeds env s fun _ _ => True :=
  ⟨(), _, runs_count.2 rfl, trivial⟩

/-- A step that comes last. -/
theorem last {x : Prep β} (h : (x >>= fun b => Pure.pure b).Succeeds env s good) :
    x.Succeeds env s good := by rwa [bind_pure] at h

end Succeeds

end

/-! ## Names -/

variable {env : Env} {s : State} {id : NodeId} {n : Node} {v : ValueId}

/-- The state is the same afterwards. -/
def Stays {α : Type} (s : State) (_ : α) (s' : State) : Prop := s' = s

theorem resolve?_succeeds {name : Option Name} (hname : ∀ x, name = some x → s.names.Knows x) :
    (resolve? name).Succeeds env s (Stays s) := by
  cases name with
  | none => exact .pure rfl
  | some name => exact .resolve (hname name rfl) fun _ => .pure rfl

theorem directName?_succeeds (hs : s.Orderly) (hv : s.module.Usable v) :
    (directName? v).Succeeds env s (Stays s) := by
  obtain ⟨d, hd, hlive⟩ := hv
  obtain ⟨x, hx, rfl⟩ := Option.map_eq_some_iff.1 hd
  refine .query (Module.value_eq_ok_iff.2 hx) ?_
  cases hdef : x.definition with
  | port index =>
    refine .query rfl (resolve?_succeeds fun name hname => ?_)
    obtain ⟨p, hp, rfl⟩ := Option.map_eq_some_iff.1 hname
    exact hs.port p (List.mem_of_mem_filter (List.mem_of_getElem? hp))
  | result d i =>
    obtain ⟨n, hn⟩ := hlive hdef
    obtain ⟨nd, hnd, -, rfl⟩ := Module.exists_of_live? hn
    refine .node hnd ?_
    cases hhint : nd.name with
    | some hint => exact .resolve (hs.hint hn hhint) fun _ => .pure rfl
    | none =>
      dsimp only
      split
      · next hop =>
        -- What is read is declared.
        have hpos := hs.operands_pos (n := nd.core) hn hop fun _ _ hshape => hshape
        have hu : s.module.Uses ⟨d, 0⟩ nd.operands[0] :=
          ⟨nd.core, hn, List.getElem?_eq_getElem hpos⟩
        refine .query (Module.exists_operand hnd hpos) ?_
        obtain ⟨d', hd', hlive'⟩ := hs.usable hu
        cases d' with
        | port index => exact .query (Module.definingNode?_eq_none_iff.2 ⟨index, hd'⟩) (.pure rfl)
        | result decl j =>
          obtain ⟨ndecl, hdecl⟩ := hlive' rfl
          obtain ⟨nd', hnd', -, rfl⟩ := Module.exists_of_live? hdecl
          exact .query (Module.definingNode?_eq_some_iff.2 ⟨j, hd'⟩) (.node hnd'
            (resolve?_succeeds fun name hname => hs.hint hdecl hname))
      · exact .pure rfl

theorem directNames_succeeds {vs : List ValueId} (hs : s.Orderly)
    (hvs : ∀ v ∈ vs, s.module.Usable v) : (directNames vs).Succeeds env s (Stays s) := by
  induction vs with
  | nil => exact .pure rfl
  | cons v vs ih =>
    have hrest := ih fun w hw => hvs w (List.mem_cons_of_mem _ hw)
    refine .bind (directName?_succeeds hs (hvs v (by simp))) fun name _ _ he => ?_
    cases he
    cases name with
    | none => exact hrest
    | some name => exact .bind hrest fun _ _ _ he => .pure he

theorem nameBase?_succeeds (hs : s.Orderly) (hn : s.module.live? id = some n)
    (hv : s.module.Usable v) : (nameBase? id v).Succeeds env s (Stays s) := by
  obtain ⟨nd, hnd, -, rfl⟩ := Module.exists_of_live? hn
  refine .node hnd ?_
  split
  · exact directName?_succeeds hs hv
  · next low hop =>
    have hpos := hs.operands_pos (n := nd.core) hn hop fun _ _ hshape => hshape
    have hu : s.module.Uses ⟨id, 0⟩ nd.operands[0] := ⟨nd.core, hn, List.getElem?_eq_getElem hpos⟩
    refine .query (Module.exists_operand hnd hpos) ?_
    refine .bind (directName?_succeeds hs (hs.usable hu)) fun name _ _ he => ?_
    cases he
    cases name <;> exact .pure rfl
  · refine .bind (directNames_succeeds hs fun w hw => hs.usable_operand hn hw) fun names _ _ he => ?_
    cases he
    cases names <;> exact .pure rfl

theorem structuralName?_succeeds (hs : s.Orderly) (hn : s.module.live? id = some n)
    (hv : v ∈ n.results) :
    (structuralName? v).Succeeds env s fun _ s' => s'.module = s.module := by
  have husable := hs.usable_of_mem_results hn hv
  obtain ⟨i, hdef⟩ := hs.exists_def hn hv
  obtain ⟨nd, hnd, -, rfl⟩ := Module.exists_of_live? hn
  refine .query (Module.definingNode?_eq_some_iff.2 ⟨i, hdef⟩) (.node hnd ?_)
  cases nd.name with
  | some hint => exact .pure rfl
  | none =>
    refine .bind (nameBase?_succeeds hs hn husable) fun base _ _ he => ?_
    cases he
    cases base with
    | none => exact .pure rfl
    | some base => exact .step (runs_intern.2 ⟨rfl, rfl⟩) (.pure rfl)

/-! ## Declarations, reads and connections -/

section

variable {p : Position} {b : BlockId} {op : Op} {operands : List ValueId} {type : TypeId} {loc : Loc}
  {u : Use} {old storage : ValueId} {name : Option Name} {k : Nat}

theorem create_succeeds (hs : Sound s.module) (hpos : p.In s.module.nodesOf b)
    (hb : s.module.Placed b) (hop : op.regionKinds = []) (huse : ∀ v ∈ operands, s.module.Usable v)
    (hroom : s.module.Roomy (k + 1)) :
    (create p op operands type loc).Succeeds env s fun _ s' => s'.module.Roomy k := by
  have hblk := hs.exists_block_of_placed hb
  have hmade : ∃ id m, s.module.createNode p op operands [type] loc = .ok (id, m) ∧ m.Roomy k :=
    hs.toWellFormed.exists_createNode hpos hblk huse hroom
  obtain ⟨id, m, hm, hroom'⟩ := hmade
  obtain ⟨hc, -⟩ := hs.createNode hpos hb hop huse hm
  obtain ⟨nd, hnd, -, hcore⟩ := Module.exists_of_live? hc.live?_self
  have hresults : nd.results = s.module.nextValues 1 := congrArg Node.results hcore
  exact .editWith hm (.query (result_eq_ok_iff.2 ⟨nd, hnd, by rw [hresults]; rfl⟩) (.pure hroom'))

theorem createStatement_succeeds (hs : Sound s.module) (hpos : p.In s.module.nodesOf b)
    (hb : s.module.Placed b) (huse : ∀ v ∈ operands, s.module.Usable v)
    (hroom : s.module.Roomy (k + 1)) :
    (createStatement p op operands loc).Succeeds env s fun _ s' => s'.module.Roomy k := by
  have hblk := hs.exists_block_of_placed hb
  obtain ⟨id, m, hm, hroom'⟩ := hs.toWellFormed.exists_createNode hpos hblk huse hroom
  exact .last (.editWith hm (.pure hroom'))

theorem declareFor_succeeds (hs : Sound s.module) (hpos : p.In s.module.nodesOf b)
    (hb : s.module.Placed b) (hop : op.regionKinds = []) (hv : s.module.type? v = some type)
    (hroom : s.module.Roomy (k + 1)) :
    (declareFor v p op name loc).Succeeds env s fun _ s' => s'.module.Roomy k := by
  obtain ⟨ht, hs₁⟩ := hs.internType (.storage type)
  have hpos₁ : p.In (s.module.internType (.storage type)).2.nodesOf b := by
    rwa [show (s.module.internType (.storage type)).2.nodesOf = s.module.nodesOf from
      funext ht.nodesOf]
  have hb₁ : (s.module.internType (.storage type)).2.Placed b :=
    Nested.placed_of_kept ht.kept (fun {j n} hn _ => ⟨n, by rwa [ht.live?], rfl, rfl⟩) hb
  have hroom₁ : (s.module.internType (.storage type)).2.Roomy (k + 1) :=
    hroom.congr rfl fun _ => rfl
  unfold declareFor storageTypeOf
  simp only [bind_assoc]
  refine .query (valueType_eq_ok_iff.2 hv) (.editWith rfl ?_)
  refine .bind (create_succeeds (s := { s with module := _ }) hs₁ hpos₁ hb₁ hop (by simp) hroom₁)
    fun ⟨decl, storage⟩ s₂ hrun hroom₂ => ?_
  obtain ⟨hc, -⟩ := create_runs (s := { s with module := _ }) hs₁ hpos₁ hb₁ hop (by simp) hrun
  obtain ⟨m₃, hm₃⟩ := Module.exists_modifyNode (f := fun n => { n with name })
    (Module.lt_of_live? hc.live?_self)
  exact .edit hm₃ (.pure (hroom₂.modifyNode hm₃ fun _ => rfl))

theorem readFor_succeeds (hs : Sound s.module) (hu : s.module.Uses u old)
    (hstorage : s.module.Usable storage) (hroom : s.module.Roomy (k + 1)) :
    (readFor u storage type loc).Succeeds env s fun _ s' => s'.module.Roomy k := by
  obtain ⟨nu, hnu, hslot⟩ := hu
  have huse : ∀ v ∈ [storage], s.module.Usable v := by simpa using hstorage
  refine .bind (create_succeeds hs (hs.in_before hnu) (hs.placed hnu) rfl huse hroom)
    fun ⟨read, value⟩ s₁ hrun hroom₁ => ?_
  obtain ⟨hc, hs₁⟩ := create_runs hs (hs.in_before hnu) (hs.placed hnu) rfl huse hrun
  obtain ⟨m₂, hm₂⟩ := hs₁.exists_setOperand ⟨nu, hc.live hnu, hslot⟩ (hc.usable_result (i := 0) rfl)
  exact .edit hm₂ (.pure (hroom₁.setOperand hm₂))

theorem readsFor_succeeds {us : List Use} (hs : Sound s.module)
    (hus : ∀ u ∈ us, s.module.Uses u old) (hnd : us.Nodup) (hstorage : s.module.Usable storage)
    (hroom : s.module.Roomy (us.length + k)) :
    (us.forM fun u => do let _ ← readFor u storage type loc).Succeeds env s
      fun _ s' => s'.module.Roomy k := by
  induction us generalizing s with
  | nil => exact .pure (by simpa using hroom)
  | cons u us ih =>
    change ((readFor u storage type loc >>= fun _ => pure ()) >>= fun _ => us.forM _).Succeeds env s _
    rw [bind_assoc]
    obtain ⟨hu, hnd⟩ := List.nodup_cons.1 hnd
    rw [List.length_cons, Nat.add_right_comm] at hroom
    refine .bind (readFor_succeeds hs (hus u (by simp)) hstorage hroom) fun read s₁ hrun hroom₁ => ?_
    have hread := readFor_eq hs (hus u (by simp)) hstorage hrun
    rw [pure_bind]
    refine ih hread.sound (fun w hw => ?_) hnd (hread.usable hstorage) hroom₁
    exact hread.uses (hus w (List.mem_cons_of_mem _ hw)) fun he => hu (he ▸ hw)

end

/-! ## Spilling -/

theorem spillResult_succeeds {name : Option Name} {atFront : Bool} (hs : Sound s.module)
    (hn : s.module.live? id = some n) (hv : v ∈ n.results)
    (hroom : s.module.Roomy ((s.module.usesOf v).length + 3)) :
    (spillResult id v name atFront).Succeeds env s fun _ _ => True := by
  have husable := hs.usable_of_mem_results hn hv
  obtain ⟨type, htype⟩ := husable.exists_type
  have hplaced := hs.placed hn
  obtain ⟨blk, hblk⟩ := hs.exists_block_of_placed hplaced
  obtain ⟨nd, hnd, -, rfl⟩ := Module.exists_of_live? hn
  refine .node hnd (.query (Module.block_eq_ok_iff.2 hblk) (.query (valueType_eq_ok_iff.2 htype) ?_))
  generalize blk.isProcedural = procedural
  have hop : (if procedural then Op.logic else .wire).regionKinds = [] := by cases procedural <;> rfl
  refine .bind (declareFor_succeeds hs rfl hplaced hop htype hroom) fun ⟨decl, storage⟩ s₁ hdecl hroom₁ => ?_
  obtain ⟨_, _, -, -, hc, hs₁⟩ :=
    declareFor_runs hs (p := .front nd.parent) (b := nd.parent) rfl hplaced hop hdecl
  obtain ⟨x, hx⟩ := Module.exists_value?_iff.2 (WellFormed.lt_of_usable (hc.usable husable))
  have hlength : x.uses.length = (s.module.usesOf v).length := by
    have huses : s₁.module.usesOf v = x.uses := by rw [Module.usesOf, hx, Option.elim_some]
    rw [← huses, hc.length_usesOf hs.toWellFormed hs₁.toWellFormed]
    rfl
  have huses : ∀ u ∈ x.uses, s₁.module.Uses u v := fun u hu => (hs₁.mem_uses hx).1 hu
  have hstorage : s₁.module.Usable storage := hc.usable_result (i := 0) rfl
  refine .query (Module.value_eq_ok_iff.2 hx) (.bind (readsFor_succeeds hs₁ huses (hs₁.uses_nodup hx)
    hstorage (hlength ▸ hroom₁)) fun _ s₂ hrun hroom₂ => ?_)
  have hreads := readsFor_runs hs₁ huses (hs₁.uses_nodup hx) hstorage hrun
  have hs₂ := hreads.sound hs₁
  obtain ⟨ops, hid₂⟩ := hreads.live (hc.live hn)
  have hops : ∀ w ∈ [storage, v], s₂.module.Usable w := by
    simpa using ⟨hreads.usable hstorage, hreads.usable (hc.usable husable)⟩
  refine .bind (createStatement_succeeds hs₂ (hs₂.in_after hid₂) (hs₂.placed hid₂) hops hroom₂)
    fun conn s₃ hconn hroom₃ => ?_
  obtain ⟨hc₃, hs₃⟩ := createStatement_runs hs₂ (hs₂.in_after hid₂) (hs₂.placed hid₂)
    (by cases procedural <;> rfl) hops hconn
  cases atFront with
  | true => exact .counts fun s => { s with temporaries := s.temporaries + 1 }
  | false =>
    obtain ⟨ops', hdecl₂⟩ := hreads.live hc.live?_self
    have hid₃ := hc₃.live hid₂
    have hmove : Safe True (s₃.module.moveNode decl (.after id)) :=
      hs₃.toWellFormed.moveNode_safe (hc₃.live hdecl₂) (hs₃.in_after hid₃)
        (hs₃.exists_block_of_placed (hs₃.placed hid₃)) fun _ => hroom₃
    obtain ⟨m₄, hm₄⟩ := hmove.exists_ok trivial
    exact .edit hm₄ (.counts fun s => { s with temporaries := s.temporaries + 1 })

/-- Where there is room for the declaration and its move, the connection and a read for each use, a node
with one result gets its temporary. -/
theorem spill_succeeds {atFront : Bool} (hs : s.Orderly) (hn : s.module.live? id = some n)
    (hv : n.results = [v]) (hroom : s.module.Roomy ((s.module.usesOf v).length + 3)) :
    (spill id atFront).Succeeds env s fun _ _ => True := by
  have hmem : v ∈ n.results := hv ▸ List.mem_singleton_self v
  obtain ⟨nd, hnd, -, rfl⟩ := Module.exists_of_live? hn
  refine .node hnd ?_
  rw [show nd.results = [v] from hv]
  refine .bind (structuralName?_succeeds hs hn hmem) fun name s₁ _ hmodule => ?_
  obtain ⟨m₂, hm₂⟩ := Module.exists_modifyNode (f := fun n => { n with name := none })
    (Module.lt_of_live? hn)
  obtain ⟨hl, hs₂⟩ := hs.sound.setName hm₂
  rw [← hmodule] at hm₂
  refine .edit hm₂ (spillResult_succeeds (s := { s₁ with module := m₂ }) hs₂ (hl.live hn) hmem ?_)
  have huses : m₂.usesOf v = s.module.usesOf v := by rw [Module.usesOf, hl.value?, Module.usesOf]
  rw [huses]
  refine Module.Roomy.modifyNode ?_ hm₂ fun _ => rfl
  exact hmodule ▸ hroom

end Prep

end NetPrep
