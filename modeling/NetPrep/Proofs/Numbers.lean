import Mathlib
import NetPrep.Proofs.Closed
import NetPrep.Proofs.Integrity
import NetPrep.Proofs.JsonText
import NetPrep.Proofs.Preorder
import NetPrep.Proofs.Printing

/-!
# The numbers of a dump

A dump goes through the tree of blocks twice, once to number the results and once to lay out the lines.
Both times a node comes before the nodes of its regions, so the results are numbered in the order of
their lines; and as every node that the body leads to has a line, no operand goes without a number.
-/

namespace NetPrep

variable {m : Module} {names : NameTable} {id : NodeId} {n : Node} {v : ValueId} {b : BlockId}
  {blocks : List BlockId} {depth : Nat}

/-! ## The order of the lines -/

namespace Module

/-- The nodes of a block, each before the nodes of its regions, nested at most so deep. -/
def nodesWithin (m : Module) : Nat → BlockId → List NodeId
  | 0, _ => []
  | depth + 1, b =>
    (m.nodesOf b).flatMap fun id => id :: (m.regionsOf id).flatMap (m.nodesWithin depth)

/-- The results of a node. -/
def resultsOf (m : Module) (id : NodeId) : List ValueId := ((m.core id).map (·.results)).getD []

theorem resultsOf_of_live? (hn : m.live? id = some n) : m.resultsOf id = n.results := by
  simp [resultsOf, core_of_live? hn]

/-- At as many levels as there are blocks, these are the nodes of all the blocks of the row. -/
theorem Preorder.nodesWithin_perm {bs l : List BlockId} (h : m.Preorder bs l)
    (hdepth : l.length ≤ depth) :
    (bs.flatMap (m.nodesWithin depth)).Perm (l.flatMap m.nodesOf) := by
  induction h generalizing depth with
  | nil => exact .refl _
  | @cons b bs inner rest _ _ ihinner ihrest =>
    simp only [List.length_cons, List.length_append] at hdepth
    obtain ⟨depth, rfl⟩ := Nat.exists_eq_add_one_of_ne_zero (by omega : depth ≠ 0)
    have hblock : (m.nodesWithin (depth + 1) b).Perm
        (m.nodesOf b ++ (m.regionsIn b).flatMap (m.nodesWithin depth)) := by
      have hperm := List.flatMap_append_perm (m.nodesOf b) (fun id => [id])
        fun id => (m.regionsOf id).flatMap (m.nodesWithin depth)
      simpa [nodesWithin, regionsIn, List.flatMap_assoc] using hperm.symm
    have hinner : inner.length ≤ depth := by omega
    have hrest : rest.length ≤ depth + 1 := by omega
    have htrees := ((ihinner hinner).append_left (m.nodesOf b)).append (ihrest hrest)
    simpa [List.append_assoc] using (hblock.append_right _).trans htrees

end Module

/-- What is used under the body is a port or made under the body. -/
def Module.Supplied (m : Module) : Prop :=
  ∀ {u v d i}, m.InBody u.node → m.Uses u v → m.def? v = some (.result d i) → m.InBody d

theorem Sound.supplied (hs : Sound m) : m.Supplied := fun _ huse hd => by
  obtain ⟨_, hd', hlive⟩ := hs.operand huse
  exact hs.inBody_iff.2 (hlive (Option.some.inj (hd'.symm.trans hd)))

namespace Module.Rooted

/-- Every node that the body leads to has one place in the order of the lines. -/
theorem exists_order (hr : m.Rooted) (hw : WellFormed m) (hdepth : m.blocks.size ≤ depth) :
    (m.nodesWithin depth m.body).Nodup ∧ ∀ id, id ∈ m.nodesWithin depth m.body ↔ m.InBody id := by
  obtain ⟨blocks, hblocks, hnodup, hplaced⟩ := hr.exists_blocksPreorder hw
  have hlength := hr.length_le hnodup fun b hb => (hplaced b).2 hb
  have hperm := (Module.preorder_of_walkBlocks hw hblocks).nodesWithin_perm (hlength.trans hdepth)
  rw [List.flatMap_singleton] at hperm
  exact ⟨hperm.nodup_iff.2 (Module.nodup_flatMap_nodesOf hw hnodup), fun id =>
    hperm.mem_iff.trans ((hr.exists_liveNodes hw hblocks hplaced).2 id)⟩

/-- What holds of a block one level higher than of all its regions, holds of the body at as many levels
as there are blocks. -/
theorem body_of_regions (hr : m.Rooted) (hw : WellFormed m) {P : Nat → BlockId → Prop}
    (hP : ∀ depth b, m.Placed b → (∀ id ∈ m.nodesOf b, ∀ c ∈ m.regionsOf id, P depth c) →
      P (depth + 1) b)
    (hdepth : m.blocks.size ≤ depth) : P depth m.body := by
  obtain ⟨blocks, hblocks, hnodup, hplaced⟩ := hr.exists_blocksPreorder hw
  have hlength := hr.length_le hnodup fun b hb => (hplaced b).2 hb
  refine (Module.preorder_of_walkBlocks hw hblocks).forall_mem (P := fun depth b =>
    m.Placed b → P depth b) (fun depth b hregions hb => ?_) (hlength.trans hdepth) m.body
    List.mem_cons_self .body
  refine hP depth b hb fun id hid c hc => hregions c (List.mem_flatMap.2 ⟨id, hid, hc⟩) ?_
  obtain ⟨n, hn, rfl⟩ := hw.mem_nodesOf_iff.1 hid
  exact .region hn (Module.regionsOf_of_live? hn ▸ hc) hb

end Module.Rooted

/-- Nodes do not share results. -/
theorem WellFormed.nodup_results (hw : WellFormed m) {ids : List NodeId} (hids : ids.Nodup)
    (hlive : ∀ id ∈ ids, ∃ n, m.live? id = some n) : (ids.flatMap m.resultsOf).Nodup := by
  have hdef : ∀ {id i v}, id ∈ ids → (m.resultsOf id)[i]? = some v →
      m.def? v = some (.result id i) := by
    intro id i v hid hv
    obtain ⟨n, hn⟩ := hlive id hid
    rw [Module.resultsOf_of_live? hn] at hv
    exact hw.result (Module.core_of_live? hn) hv
  refine List.nodup_flatMap.2 ⟨fun id hid => ?_,
    hids.imp_of_mem fun {j k} hj hk hne v hvj hvk => ?_⟩
  · refine List.nodup_iff_getElem?_ne_getElem?.2 fun i j hij hlt heq => ?_
    have hi := hdef hid (List.getElem?_eq_getElem (hij.trans hlt))
    have hj := hdef hid (heq.symm.trans (List.getElem?_eq_getElem (hij.trans hlt)))
    rw [hi] at hj
    cases hj
    exact Nat.lt_irrefl _ hij
  · obtain ⟨i, hi⟩ := List.mem_iff_getElem?.1 hvj
    obtain ⟨i', hi'⟩ := List.mem_iff_getElem?.1 hvk
    have heq := (hdef hj hi).symm.trans (hdef hk hi')
    cases heq
    exact hne rfl

/-! ## Numbers -/

theorem foldlM_eq_ok_foldl {α β : Type} {f : β → α → Except Fault β} {g : β → α → β} {l : List α}
    (h : ∀ a ∈ l, ∀ b, f b a = .ok (g b a)) (b : β) : l.foldlM f b = .ok (l.foldl g b) := by
  induction l generalizing b with
  | nil => rfl
  | cons a l ih =>
    rw [List.foldlM_cons, h a List.mem_cons_self, ok_bind]
    exact ih (fun c hc => h c (List.mem_cons_of_mem _ hc)) (g b a)

namespace Dump

namespace Numbering

/-- Results that have no numbers yet get the next ones in order. -/
theorem number?_foldl_add {vs : List ValueId} (hvs : vs.Nodup) {n : Numbering}
    (hfresh : ∀ v ∈ vs, n.number? v = none) :
    (∀ v ∉ vs, (vs.foldl add n).number? v = n.number? v) ∧
      ∀ i v, vs[i]? = some v → (vs.foldl add n).number? v = some (n.count + i) := by
  induction vs generalizing n with
  | nil => exact ⟨fun _ _ => rfl, fun i v hv => by simp at hv⟩
  | cons w vs ih =>
    obtain ⟨hw, hvs⟩ := List.nodup_cons.1 hvs
    obtain ⟨hnone, hfresh⟩ := List.forall_mem_cons.1 hfresh
    have hcount : (n.add w).count = n.count + 1 := by
      have hnot : n.numbers.contains w.index = false := by
        simpa [IdMap.contains, number?] using hnone
      simp [add, hnot]
    have hother : ∀ {v}, v ≠ w → (n.add w).number? v = n.number? v := by
      intro v hne
      have hindex : w.index ≠ v.index := fun he => hne (congrArg ValueId.mk he.symm)
      exact (IdMap.get?_insert n.numbers w.index v.index n.count).trans (if_neg hindex)
    have hself : (n.add w).number? w = some n.count :=
      (IdMap.get?_insert n.numbers w.index w.index n.count).trans (if_pos rfl)
    obtain ⟨hkept, hnumber⟩ := ih hvs fun v hv =>
      (hother (fun he => hw (he ▸ hv))).trans (hfresh v hv)
    refine ⟨fun v hv => ?_, fun i v hv => ?_⟩
    · rw [List.mem_cons, not_or] at hv
      exact (hkept v hv.2).trans (hother hv.1)
    · cases i with
      | zero =>
        obtain rfl : w = v := by simpa using hv
        exact (hkept w hw).trans hself
      | succ i =>
        rw [List.foldl_cons, hnumber i v hv, hcount]
        congr 1
        omega

end Numbering

/-- The numbering of a block numbers the results of its lines in order. -/
theorem numberBlock_eq (hw : WellFormed m) (hr : m.Rooted) (hdepth : m.blocks.size ≤ depth)
    (numbering : Numbering) : numberBlock m depth numbering m.body =
      .ok (((m.nodesWithin depth m.body).flatMap m.resultsOf).foldl Numbering.add numbering) := by
  refine hr.body_of_regions hw (P := fun depth b => ∀ numbering, numberBlock m depth numbering b =
    .ok (((m.nodesWithin depth b).flatMap m.resultsOf).foldl Numbering.add numbering))
    (fun depth b hb hregions numbering => ?_) hdepth numbering
  rw [numberBlock, hr.blockNodes_eq hw hb, ok_bind]
  -- A node numbers its own results, then its regions number theirs.
  rw [foldlM_eq_ok_foldl (g := fun numbering id =>
    ((id :: (m.regionsOf id).flatMap (m.nodesWithin depth)).flatMap m.resultsOf).foldl Numbering.add
      numbering)]
  · rw [Module.nodesWithin, List.flatMap_assoc, List.foldl_flatMap]
  intro id hid numbering
  obtain ⟨n, hn, -⟩ := hw.mem_nodesOf_iff.1 hid
  obtain ⟨nd, hnd, -, rfl⟩ := Module.exists_of_live? hn
  have hresults : ∀ v ∈ nd.results, ∀ numbering : Numbering, (do
      let _ ← m.value v
      return numbering.add v : Except Fault Numbering) = .ok (numbering.add v) := by
    intro v hv numbering
    obtain ⟨d, hd, -⟩ := hw.usable_of_mem_results hn hv
    obtain ⟨x, hx, -⟩ := Option.map_eq_some_iff.1 hd
    rw [Module.value_eq_ok_iff.2 hx, ok_bind]
    rfl
  rw [Module.node_eq_ok_iff.2 hnd, ok_bind]
  simp only [foldlM_eq_ok_foldl hresults, ok_bind]
  rw [foldlM_eq_ok_foldl (g := fun numbering c =>
    ((m.nodesWithin depth c).flatMap m.resultsOf).foldl Numbering.add numbering)]
  · simp only [List.flatMap_cons, List.foldl_append, Module.resultsOf_of_live? hn,
      Module.regionsOf_of_live? hn, List.flatMap_assoc, List.foldl_flatMap]
    rfl
  · exact fun c hc => hregions id hid c ((Module.regionsOf_of_live? hn).symm ▸ hc)

end Dump

/-! ## What a dump looks up -/

/-- What a dump looks up is there: the texts of names, and the types with the names in them. -/
structure Module.Legible (m : Module) (names : NameTable) : Prop extends HasTypes m where
  self : names.Knows m.name
  port : ∀ p ∈ m.ports, names.Knows p.name ∧ ∃ ty, m.types.entry? p.type = some ty
  field : ∀ {type fields}, m.types.entry? type = some (.record fields) →
    ∀ f ∈ fields, names.Knows f.1
  hint : ∀ {id n name}, m.live? id = some n → n.name = some name → names.Knows name
  op : ∀ {id n name}, m.live? id = some n → name ∈ n.op.names → names.Knows name

namespace Module

/-- Whether what a dump looks up is there. -/
def isLegible (m : Module) (names : NameTable) : Bool :=
  m.hasTypes && m.isNamed names && m.ports.all (fun p => (m.types.entry? p.type).isSome) &&
    m.types.entries.toList.all (fun
      | .record fields => fields.all fun f => (names.resolve f.1).isOk
      | _ => true) &&
    m.nodeIds.all fun id => (m.live? id).all fun n => n.op.names.all fun name =>
      (names.resolve name).isOk

theorem legible_of_isLegible (h : m.isLegible names = true) : m.Legible names := by
  have hknown : ∀ {name}, (names.resolve name).isOk = true → names.Knows name := by
    intro name hok
    cases hr : names.resolve name with
    | ok text => exact ⟨text, hr⟩
    | error e => simp [hr, Except.isOk, Except.toBool] at hok
  simp only [isLegible, Bool.and_eq_true, List.all_eq_true] at h
  obtain ⟨⟨⟨⟨htypes, hnamed⟩, hports⟩, hfields⟩, hops⟩ := h
  have hn := named_of_isNamed hnamed
  refine ⟨hasTypes_of_check htypes, hn.self, fun p hp => ⟨hn.port p hp, ?_⟩,
    fun {type fields} hty f hf => ?_, hn.hint, fun {id n name} hlive hname => ?_⟩
  · exact Option.isSome_iff_exists.1 (hports p hp)
  · have hrecord := hfields _ (Array.mem_toList_iff.2 (Array.mem_of_getElem? hty))
    exact hknown (List.all_eq_true.1 hrecord f hf)
  · have hop := hops id (mem_nodeIds_iff.2 (lt_of_live? hlive))
    rw [hlive] at hop
    exact hknown (List.all_eq_true.1 hop name hname)

end Module

/-- What stands in the one list has a partner in the other. -/
theorem exists_left_of_forall₂ {α β : Type} {R : α → β → Prop} {l : List α} {r : List β}
    (h : List.Forall₂ R l r) {b : β} (hb : b ∈ r) : ∃ a, (a, b) ∈ l.zip r ∧ R a b := by
  induction h with
  | nil => exact absurd hb List.not_mem_nil
  | @cons a b' l r hR _ ih =>
    obtain rfl | hb := List.mem_cons.1 hb
    · exact ⟨a, List.mem_cons_self, hR⟩
    · obtain ⟨a', hmem, hR'⟩ := ih hb
      exact ⟨a', List.mem_cons_of_mem _ hmem, hR'⟩

theorem exists_mapM_forall₂ {α β : Type} {f : α → Except Fault β} {G : α → β → Prop} {l : List α}
    (h : ∀ a ∈ l, ∃ b, f a = .ok b ∧ G a b) : ∃ bs, l.mapM f = .ok bs ∧ List.Forall₂ G l bs := by
  induction l with
  | nil => exact ⟨[], rfl, .nil⟩
  | cons a l ih =>
    obtain ⟨⟨b, hb, hG⟩, hl⟩ := List.forall_mem_cons.1 h
    obtain ⟨bs, hbs, hall⟩ := ih hl
    refine ⟨b :: bs, ?_, .cons hG hall⟩
    rw [List.mapM_cons, hb, ok_bind, hbs, ok_bind]
    rfl

/-- An operation is written with the names that it holds. -/
theorem Op.exists_attributes {op : Op} (h : ∀ name ∈ op.names, names.Knows name) :
    ∃ text, op.attributes names = .ok text := by
  have hop : ∀ {α : Type} {name : Name} {f : String → Except Fault α}, name ∈ op.names →
      (∀ text, ∃ a, f text = .ok a) → ∃ a, names.resolve name >>= f = .ok a :=
    fun hmem hf => exists_bind_ok (h _ hmem) fun text _ => hf text
  cases op with
  | inst target name inputs outputs =>
    exact hop (by simp [Op.names]) fun _ => hop (by simp [Op.names]) fun _ => ⟨_, rfl⟩
  | structExtract field | fieldStorage field | systemCall field | ifdef field
  | proceduralIfdef field => exact hop (by simp [Op.names]) fun _ => ⟨_, rfl⟩
  | alwaysFF clock reset => cases reset <;> exact ⟨_, rfl⟩
  | _ => exact ⟨_, rfl⟩

/-- A type is written part by part; the parts stand before it in the table. -/
theorem TypeTable.exists_textWithin {t : TypeTable} (ht : t.Grounded)
    (hfield : ∀ {type fields}, t.entry? type = some (.record fields) →
      ∀ f ∈ fields, names.Knows f.1) {type : TypeId} (h : ∃ ty, t.entry? type = some ty) {fuel : Nat}
    (hfuel : type.index < fuel) : ∃ text, t.textWithin names fuel type = .ok text := by
  induction fuel generalizing type with
  | zero => omega
  | succ fuel ih =>
    obtain ⟨ty, hty⟩ := h
    have hparts : ∀ part ∈ ty.parts, ∃ text, t.textWithin names fuel part = .ok text := by
      intro part hpart
      have hlt := ht type ty hty part hpart
      exact ih (ht.exists_part hty hpart) (by omega)
    rw [textWithin, get_eq_ok_iff.2 hty, ok_bind]
    cases ty with
    | int width => exact ⟨_, rfl⟩
    | storage element =>
      exact exists_bind_ok (hparts element (by simp [HwType.parts])) fun _ _ => ⟨_, rfl⟩
    | array element length =>
      exact exists_bind_ok (hparts element (by simp [HwType.parts])) fun _ _ => ⟨_, rfl⟩
    | record fields =>
      refine exists_bind_ok (exists_mapM fun f hf => ?_) fun _ _ => ⟨_, rfl⟩
      have htext := hparts f.2 (List.mem_map_of_mem hf)
      exact exists_bind_ok (hfield hty f hf) fun _ _ => exists_bind_ok htext fun _ _ => ⟨_, rfl⟩

theorem Module.Legible.exists_text (hl : m.Legible names) {type : TypeId}
    (h : ∃ ty, m.types.entry? type = some ty) : ∃ text, m.types.text names type = .ok text := by
  obtain ⟨ty, hty⟩ := h
  obtain ⟨hlt, -⟩ := Array.getElem?_eq_some_iff.1 hty
  exact TypeTable.exists_textWithin hl.grounded hl.field ⟨ty, hty⟩
    (show type.index < m.types.size + 1 from Nat.lt_succ_of_lt hlt)

namespace Dump

/-- How a value is referred to; as dead if it is not there. -/
def labelOf (m : Module) (names : NameTable) (numbering : Numbering) (v : ValueId) : Label :=
  (label m names numbering v).toOption.getD .dead

variable {numbering : Numbering}

theorem label_of_port {i : Nat} (hd : m.def? v = some (.port i)) :
    label m names numbering v = (m.inputName? i).elim (.ok (.unnamedPort i)) fun name => do
      return .port (← names.resolve name) := by
  obtain ⟨x, hx, hdef⟩ := Option.map_eq_some_iff.1 hd
  rw [label, Module.value_eq_ok_iff.2 hx, ok_bind]
  simp only [hdef]
  cases m.inputName? i <;> rfl

theorem label_of_result {d : NodeId} {i : Nat} (hd : m.def? v = some (.result d i)) :
    label m names numbering v = .ok ((numbering.number? v).elim .dead .result) := by
  obtain ⟨x, hx, hdef⟩ := Option.map_eq_some_iff.1 hd
  rw [label, Module.value_eq_ok_iff.2 hx, ok_bind]
  simp only [hdef]
  cases numbering.number? v <;> rfl

/-- The text for an input port: its name, or its position if it is none of the inputs. -/
def PrintsPort (m : Module) (names : NameTable) (i : Nat) (text : String) : Prop :=
  match m.inputName? i with
  | some name => ∃ s, names.resolve name = .ok s ∧ text = "%" ++ s
  | none => text = "%arg" ++ toString i

theorem exists_label_of_port {i : Nat} (hl : m.Legible names) (hd : m.def? v = some (.port i)) :
    ∃ l, label m names numbering v = .ok l ∧ PrintsPort m names i l.text := by
  rw [label_of_port hd]
  unfold PrintsPort
  cases hname : m.inputName? i with
  | none => exact ⟨.unnamedPort i, rfl, rfl⟩
  | some name =>
    obtain ⟨p, hp, rfl⟩ := Option.map_eq_some_iff.1 hname
    have hmem : p ∈ m.ports := (List.mem_filter.1 (List.mem_of_getElem? hp)).1
    obtain ⟨text, htext⟩ := (hl.port p hmem).1
    refine ⟨.port text, ?_, text, htext, rfl⟩
    rw [Option.elim_some, htext]
    rfl

theorem label_eq (hl : m.Legible names) (hv : m.Usable v) :
    label m names numbering v = .ok (labelOf m names numbering v) := by
  have hex : ∃ l, label m names numbering v = .ok l := by
    obtain ⟨d, hd, -⟩ := hv
    cases d with
    | port i => exact (exists_label_of_port hl hd).imp fun _ => And.left
    | result d i => exact ⟨_, label_of_result hd⟩
  obtain ⟨l, hl⟩ := hex
  rw [labelOf, hl]
  rfl

theorem text_labelOf_of_port {i : Nat} (hl : m.Legible names) (hd : m.def? v = some (.port i)) :
    PrintsPort m names i (labelOf m names numbering v).text := by
  obtain ⟨l, hlabel, hprints⟩ := exists_label_of_port hl hd
  rw [labelOf, hlabel]
  exact hprints

theorem text_labelOf_of_result {d : NodeId} {i k : Nat} (hd : m.def? v = some (.result d i))
    (hk : numbering.number? v = some k) :
    (labelOf m names numbering v).text = "%" ++ toString k := by
  rw [labelOf, label_of_result hd, hk]
  rfl

/-- A line shows a node: its operation, and the results and operands by their texts. -/
def Shows (m : Module) (texts : ValueId → String) (id : NodeId) (line : Printed) : Prop :=
  ∃ n, m.live? id = some n ∧ line.mnemonic = n.op.mnemonic ∧ line.results = n.results.map texts ∧
    line.operands = n.operands.map texts

/-- A node has a line. -/
theorem exists_nodeLine (hw : WellFormed m) (hl : m.Legible names) (numbering : Numbering)
    {nd : Node} (hn : m.live? id = some nd.core) (indent : Nat) :
    ∃ line, nodeLine m names numbering nd = .ok line ∧
      Shows m (fun v => (labelOf m names numbering v).text) id (line.printed indent) := by
  have hresults : nd.results.mapM (label m names numbering) = .ok (nd.results.map _) :=
    mapM_eq_ok_map fun v hv => label_eq hl (hw.usable_of_mem_results hn hv)
  have hoperands : nd.operands.mapM (label m names numbering) = .ok (nd.operands.map _) :=
    mapM_eq_ok_map fun v hv => label_eq hl (hw.usable_operand hn hv)
  have hop : ∀ name ∈ nd.op.names, names.Knows name := fun name hname =>
    hl.op hn (show name ∈ nd.core.op.names from hname)
  obtain ⟨attributes, hattributes⟩ := Op.exists_attributes hop
  have htypes : ∃ types, nd.results.mapM (fun v => do m.types.text names (← m.valueType v)) =
      .ok types := exists_mapM fun v hv => by
    obtain ⟨d, hd, -⟩ := hw.usable_of_mem_results hn hv
    obtain ⟨x, hx, -⟩ := Option.map_eq_some_iff.1 hd
    rw [Module.valueType, Module.value_eq_ok_iff.2 hx]
    exact hl.exists_text (hl.entry (v := v) (t := x.type) (by simp [Module.type?, hx]))
  obtain ⟨types, htypes⟩ := htypes
  let line (marks : List String) : Line := {
    results := nd.results.map (labelOf m names numbering)
    operands := nd.operands.map (labelOf m names numbering)
    mnemonic := nd.op.mnemonic
    marks := marks ++ if nd.twoState then ["two_state"] else []
    attributes, types }
  have hshows : ∀ marks, Shows m (fun v => (labelOf m names numbering v).text) id
      ((line marks).printed indent) := fun marks =>
    ⟨nd.core, hn, rfl, List.map_map, List.map_map⟩
  cases hname : nd.name with
  | none =>
    refine ⟨line [], ?_, hshows _⟩
    simp only [nodeLine, hresults, hattributes, hoperands, htypes, hname, ok_bind]
    rfl
  | some name =>
    obtain ⟨text, htext⟩ := hl.hint hn hname
    refine ⟨line ["name = " ++ Text.quoted text], ?_, hshows _⟩
    simp only [nodeLine, hresults, hattributes, hoperands, htypes, hname, htext, ok_bind]
    rfl

/-- The pieces of a region: those of its block, between braces. -/
def regionPieces (m : Module) (names : NameTable) (numbering : Numbering) (fuel depth : Nat)
    (region : BlockId) : Except Fault (List Piece) := do
  let inner ← blockPieces m names numbering fuel (depth + 1) region
  return Piece.regionOpen :: inner ++ [.regionClose depth]

/-- The pieces of a node: its line, and those of its regions. -/
def nodePieces (m : Module) (names : NameTable) (numbering : Numbering) (fuel depth : Nat)
    (id : NodeId) : Except Fault (List Piece) := do
  let n ← m.node id
  let line ← nodeLine m names numbering n
  let regions ← n.regions.mapM (regionPieces m names numbering fuel depth)
  return Piece.line depth line :: regions.flatten ++ [.lineEnd]

theorem blockPieces_succ (fuel indent : Nat) : blockPieces m names numbering (fuel + 1) indent b = do
    return (← (← m.blockNodes b).mapM (nodePieces m names numbering fuel indent)).flatten := rfl

/-- The pieces show the nodes on their lines, in order. -/
def ShowsAll (m : Module) (names : NameTable) (numbering : Numbering) (ids : List NodeId)
    (pieces : List Piece) : Prop :=
  List.Forall₂ (Shows m fun v => (labelOf m names numbering v).text) ids (lines pieces)

theorem ShowsAll.flatMap {α : Type} {f : α → List NodeId} {l : List α} {pieces : List (List Piece)}
    (h : List.Forall₂ (fun a ps => ShowsAll m names numbering (f a) ps) l pieces) :
    ShowsAll m names numbering (l.flatMap f) pieces.flatten := by
  unfold ShowsAll
  rw [lines_flatten]
  exact List.rel_flatMap h fun _ _ h => h

theorem exists_regionPieces {depth indent : Nat} {inner : List Piece}
    (hinner : blockPieces m names numbering depth (indent + 1) b = .ok inner) (hlaid : Laid inner)
    (hshows : ShowsAll m names numbering (m.nodesWithin depth b) inner) :
    ∃ pieces, regionPieces m names numbering depth indent b = .ok pieces ∧
      (∃ depth inner, Laid inner ∧ pieces = Piece.regionOpen :: inner ++ [.regionClose depth]) ∧
      ShowsAll m names numbering (m.nodesWithin depth b) pieces := by
  refine ⟨Piece.regionOpen :: inner ++ [.regionClose indent], ?_, ⟨indent, inner, hlaid, rfl⟩, ?_⟩
  · rw [regionPieces, hinner, ok_bind]
    rfl
  · simpa [ShowsAll, lines, Piece.printed?, List.filterMap_cons] using hshows

/-- The pieces of a node begin with its line, and the lines of what is inside follow. -/
theorem exists_nodePieces (hw : WellFormed m) (hl : m.Legible names) {depth indent : Nat}
    (hn : m.live? id = some n)
    (hregions : ∀ c ∈ m.regionsOf id, ∃ inner,
      blockPieces m names numbering depth (indent + 1) c = .ok inner ∧ Laid inner ∧
        ShowsAll m names numbering (m.nodesWithin depth c) inner) :
    ∃ pieces, nodePieces m names numbering depth indent id = .ok pieces ∧ Laid pieces ∧
      (∃ p rest, pieces = p :: rest ∧ p.printed?.isSome) ∧ ShowsAll m names numbering
        (id :: (m.regionsOf id).flatMap (m.nodesWithin depth)) pieces := by
  obtain ⟨nd, hnd, -, rfl⟩ := Module.exists_of_live? hn
  obtain ⟨line, hline, hshow⟩ := exists_nodeLine hw hl numbering hn indent
  have hin : m.regionsOf id = nd.regions :=
    show m.regionsOf id = nd.core.regions from Module.regionsOf_of_live? hn
  rw [hin] at hregions ⊢
  obtain ⟨regions, hrun, hinner⟩ := exists_mapM_forall₂
    (f := regionPieces m names numbering depth indent) fun region hregion => by
      obtain ⟨inner, hinner, hlaid, hshows⟩ := hregions region hregion
      exact exists_regionPieces hinner hlaid hshows
  refine ⟨Piece.line indent line :: regions.flatten ++ [.lineEnd], ?_,
    .node indent line fun ps hps => ?_, ⟨_, _, rfl, rfl⟩, ?_⟩
  · rw [nodePieces, Module.node_eq_ok_iff.2 hnd, ok_bind, hline, ok_bind, hrun, ok_bind]
    rfl
  · obtain ⟨_, -, hbraced, -⟩ := exists_left_of_forall₂ hinner hps
    exact hbraced
  · have hlines : lines (Piece.line indent line :: regions.flatten ++ [.lineEnd]) =
        line.printed indent :: lines regions.flatten := by
      simp [lines, Piece.printed?, List.filterMap_cons]
    rw [ShowsAll, hlines]
    exact .cons hshow (ShowsAll.flatMap (hinner.imp fun _ _ h => h.2))

/-- The lines of a block are those of its nodes in order. -/
theorem exists_blockPieces (hw : WellFormed m) (hr : m.Rooted) (hl : m.Legible names)
    (numbering : Numbering) (hdepth : m.blocks.size ≤ depth) (indent : Nat) :
    ∃ pieces, blockPieces m names numbering depth indent m.body = .ok pieces ∧ Laid pieces ∧
      (∀ p ∈ pieces.head?, p.printed?.isSome) ∧
        ShowsAll m names numbering (m.nodesWithin depth m.body) pieces := by
  refine hr.body_of_regions hw (P := fun depth b => ∀ indent, ∃ pieces,
    blockPieces m names numbering depth indent b = .ok pieces ∧ Laid pieces ∧
      (∀ p ∈ pieces.head?, p.printed?.isSome) ∧
        ShowsAll m names numbering (m.nodesWithin depth b) pieces)
    (fun depth b hb hregions indent => ?_) hdepth indent
  obtain ⟨pieces, hpieces, hshows⟩ := exists_mapM_forall₂
    (f := nodePieces m names numbering depth indent) fun id hid => by
      obtain ⟨n, hn, -⟩ := hw.mem_nodesOf_iff.1 hid
      refine exists_nodePieces hw hl hn fun c hc => ?_
      obtain ⟨inner, hinner, hlaid, -, hlines⟩ := hregions id hid c hc (indent + 1)
      exact ⟨inner, hinner, hlaid, hlines⟩
  refine ⟨pieces.flatten, ?_, .flatten fun ps hps => ?_, fun p hp => ?_, ?_⟩
  · rw [blockPieces_succ, hr.blockNodes_eq hw hb, ok_bind, hpieces, ok_bind]
    rfl
  · obtain ⟨_, -, hlaid, -⟩ := exists_left_of_forall₂ hshows hps
    exact hlaid
  · -- The first piece is the line of the first node.
    obtain _ | ⟨_, pieces⟩ := pieces
    · cases hp
    obtain ⟨_, -, -, ⟨first, rest, rfl, hfirst⟩, -⟩ :=
      exists_left_of_forall₂ hshows List.mem_cons_self
    obtain rfl : first = p := Option.some.inj hp
    exact hfirst
  · exact .flatMap (hshows.imp fun _ _ h => h.2.2)

/-! ## The numbers -/

/-- Each node of a list is shown by the line in its place. -/
theorem exists_line_of_mem {texts : ValueId → String} {ids : List NodeId} {ls : List Printed}
    (h : List.Forall₂ (Shows m texts) ids ls) (hid : id ∈ ids) :
    ∃ line, (id, line) ∈ ids.zip ls ∧ Shows m texts id line := by
  induction h with
  | nil => exact absurd hid List.not_mem_nil
  | @cons j line ids ls hline _ ih =>
    obtain rfl | hid := List.mem_cons.1 hid
    · exact ⟨line, List.mem_cons_self, hline⟩
    · obtain ⟨line', hmem, hshows⟩ := ih hid
      exact ⟨line', List.mem_cons_of_mem _ hmem, hshows⟩

theorem results_eq {texts : ValueId → String} {ids : List NodeId} {ls : List Printed}
    (h : List.Forall₂ (Shows m texts) ids ls) :
    ls.flatMap (·.results) = (ids.flatMap m.resultsOf).map texts := by
  induction h with
  | nil => rfl
  | cons hline _ ih =>
    obtain ⟨n, hn, -, hresults, -⟩ := hline
    rw [List.flatMap_cons, List.flatMap_cons, List.map_append, ih, hresults,
      Module.resultsOf_of_live? hn]

/-- The results of all nodes are numbered in the order of the lines. -/
theorem exists_numbering (hw : WellFormed m) (hr : m.Rooted) :
    ∃ numbers, Dump.numbering m = .ok numbers ∧
      ∀ i v, ((m.nodesWithin (m.blocks.size + 1) m.body).flatMap m.resultsOf)[i]? = some v →
        numbers.number? v = some i := by
  obtain ⟨hnodup, hmem⟩ := hr.exists_order hw (Nat.le_succ m.blocks.size)
  have hresults := hw.nodup_results hnodup fun id hid => ((hmem id).1 hid).imp fun _ => And.left
  refine ⟨_, numberBlock_eq hw hr (Nat.le_succ m.blocks.size) .empty, fun i v hv => ?_⟩
  have hnumber := (Numbering.number?_foldl_add (n := .empty) hresults fun _ _ => rfl).2 i v hv
  exact hnumber.trans (congrArg some (Nat.zero_add i))

/-- What the lines of a dump say of the nodes of a module, each line of the node in the same place. -/
structure Tells (m : Module) (names : NameTable) (ids : List NodeId) (ls : List Printed) : Prop where
  /-- Every node that the body leads to has one line. -/
  nodup : ids.Nodup
  mem_iff : ∀ id, id ∈ ids ↔ m.InBody id
  shows : ∃ texts, List.Forall₂ (Shows m texts) ids ls
  /-- From the top to the bottom and from the left to the right, the results are counted. -/
  results : ∃ count, ls.flatMap (·.results) = (List.range count).map fun k : Nat => "%" ++ toString k
  /-- An operand that is the result of a node has the number that stands on the line of that node. -/
  operand : ∀ {u v d i}, m.InBody u.node → m.Uses u v → m.def? v = some (.result d i) →
    ∃ (number : Nat) (user line : Printed), (u.node, user) ∈ ids.zip ls ∧
      user.operands[u.operand]? = some ("%" ++ toString number) ∧
        (d, line) ∈ ids.zip ls ∧ line.results[i]? = some ("%" ++ toString number)
  /-- An operand that is a port has its name. -/
  port : ∀ {u v i}, m.InBody u.node → m.Uses u v → m.def? v = some (.port i) →
    ∃ user text, (u.node, user) ∈ ids.zip ls ∧ user.operands[u.operand]? = some text ∧
      PrintsPort m names i text
  /-- Nothing is printed as dead, unless a port has that name. -/
  alive : ∀ {id line}, (id, line) ∈ ids.zip ls → "%<dead>" ∉ line.results ∧
    ∀ k, line.operands[k]? = some "%<dead>" → ∃ v i name, m.Uses ⟨id, k⟩ v ∧
      m.def? v = some (.port i) ∧ m.inputName? i = some name ∧ names.resolve name = .ok "<dead>"

/-- A number is not printed as something dead. -/
theorem number_ne_dead (k : Nat) : "%" ++ toString k ≠ "%<dead>" := by
  intro h
  have hlist : (toString k).toList = "<dead>".toList := by
    simpa using congrArg String.toList h
  rw [show (toString k).toList = Nat.toDigits 10 k from Nat.toList_repr] at hlist
  have hdigit := Text.isDigit_of_mem_toDigits (show '<' ∈ Nat.toDigits 10 k by rw [hlist]; decide)
  exact absurd hdigit (by decide)

theorem eq_dead_of_printsPort {i : Nat} (h : PrintsPort m names i "%<dead>") :
    ∃ name, m.inputName? i = some name ∧ names.resolve name = .ok "<dead>" := by
  unfold PrintsPort at h
  cases hname : m.inputName? i with
  | none =>
    rw [hname] at h
    have hlist := congrArg String.toList h
    simp at hlist
  | some name =>
    rw [hname] at h
    obtain ⟨s, hs, htext⟩ := h
    have hdead : s = "<dead>" := by
      have hlist : "<dead>".toList = s.toList := by simpa using congrArg String.toList htext
      exact (String.toList_inj.1 hlist).symm
    exact ⟨name, rfl, hdead ▸ hs⟩

/-- Lines show all nodes, every result by its place among the results on all lines, and every port as it
should be. -/
structure Counts (m : Module) (names : NameTable) (ids : List NodeId) (ls : List Printed)
    (texts : ValueId → String) : Prop where
  nodup : ids.Nodup
  mem_iff : ∀ id, id ∈ ids ↔ m.InBody id
  shows : List.Forall₂ (Shows m texts) ids ls
  place : ∀ {k : Nat} {v d i}, m.def? v = some (.result d i) →
    (ids.flatMap m.resultsOf)[k]? = some v → texts v = "%" ++ toString k
  port : ∀ {v i}, m.def? v = some (.port i) → PrintsPort m names i (texts v)

namespace Counts

variable {ids : List NodeId} {ls : List Printed} {texts : ValueId → String} {u : Use} {d : NodeId}
  {i : Nat}

theorem exists_number (h : Counts m names ids ls texts) (hw : WellFormed m) (hd : d ∈ ids)
    (hn : m.live? d = some n) (hv : n.results[i]? = some v) :
    ∃ k : Nat, texts v = "%" ++ toString k := by
  have hall : v ∈ ids.flatMap m.resultsOf := List.mem_flatMap.2
    ⟨d, hd, Module.resultsOf_of_live? hn ▸ List.mem_of_getElem? hv⟩
  obtain ⟨k, hk⟩ := List.mem_iff_getElem?.1 hall
  exact ⟨k, h.place (hw.result (Module.core_of_live? hn) hv) hk⟩

/-- Who makes an operand has a line too, and the operand stands there as a result. -/
theorem exists_maker (h : Counts m names ids ls texts) (hw : WellFormed m) (hsupply : m.Supplied)
    (hu : m.InBody u.node) (huse : m.Uses u v) (hd : m.def? v = some (.result d i)) :
    ∃ (number : Nat) (line : Printed), texts v = "%" ++ toString number ∧
      (d, line) ∈ ids.zip ls ∧ line.results[i]? = some (texts v) := by
  have hmem : d ∈ ids := (h.mem_iff d).2 (hsupply hu huse hd)
  obtain ⟨n, hn, -⟩ := hsupply hu huse hd
  obtain ⟨n', hn', hi⟩ := hw.definition hd
  obtain rfl := Option.some.inj (hn'.symm.trans (Module.core_of_live? hn))
  obtain ⟨number, hnumber⟩ := h.exists_number hw hmem hn hi
  obtain ⟨line, hline, n₁, hn₁, -, hresults, -⟩ := exists_line_of_mem h.shows hmem
  obtain rfl := Option.some.inj (hn.symm.trans hn₁)
  exact ⟨number, line, hnumber, hline, by rw [hresults, List.getElem?_map, hi, Option.map_some]⟩

theorem exists_user (h : Counts m names ids ls texts) (hu : m.InBody u.node) (huse : m.Uses u v) :
    ∃ user, (u.node, user) ∈ ids.zip ls ∧ user.operands[u.operand]? = some (texts v) := by
  obtain ⟨n, hn, hv⟩ := huse
  obtain ⟨user, huser, n', hn', -, -, hoperands⟩ :=
    exists_line_of_mem h.shows ((h.mem_iff u.node).2 hu)
  obtain rfl := Option.some.inj (hn.symm.trans hn')
  exact ⟨user, huser, by rw [hoperands, List.getElem?_map, hv, Option.map_some]⟩

theorem results (h : Counts m names ids ls texts) (hw : WellFormed m) :
    ls.flatMap (·.results) =
      (List.range (ids.flatMap m.resultsOf).length).map fun k : Nat => "%" ++ toString k := by
  rw [results_eq h.shows]
  refine List.ext_getElem (by simp) fun k hk _ => ?_
  have hlt : k < (ids.flatMap m.resultsOf).length := by simpa using hk
  obtain ⟨d, hd, hv⟩ := List.mem_flatMap.1 (List.getElem_mem hlt)
  obtain ⟨n, hn, -⟩ := (h.mem_iff d).1 hd
  rw [Module.resultsOf_of_live? hn] at hv
  obtain ⟨i, hdef⟩ := hw.exists_def hn hv
  have htext := h.place hdef (List.getElem?_eq_getElem hlt)
  simpa using htext

/-- A result is printed as a number, an operand as a number or as its port is. -/
theorem alive (h : Counts m names ids ls texts) (hw : WellFormed m) (hsupply : m.Supplied)
    {line : Printed} (hline : (id, line) ∈ ids.zip ls) : "%<dead>" ∉ line.results ∧
      ∀ k, line.operands[k]? = some "%<dead>" → ∃ v i name, m.Uses ⟨id, k⟩ v ∧
        m.def? v = some (.port i) ∧ m.inputName? i = some name ∧
          names.resolve name = .ok "<dead>" := by
  obtain ⟨n, hn, -, hresults, hoperands⟩ := List.forall₂_zip h.shows hline
  have hid := (List.of_mem_zip hline).1
  constructor
  · rw [hresults]
    intro hdead
    obtain ⟨v, hv, htext⟩ := List.mem_map.1 hdead
    obtain ⟨i, hi⟩ := List.mem_iff_getElem?.1 hv
    obtain ⟨k, hk⟩ := h.exists_number hw hid hn hi
    exact number_ne_dead k (hk.symm.trans htext)
  · intro k hk
    rw [hoperands, List.getElem?_map, Option.map_eq_some_iff] at hk
    obtain ⟨v, hv, htext⟩ := hk
    have huse : m.Uses ⟨id, k⟩ v := ⟨n, hn, hv⟩
    obtain ⟨d, hd, -⟩ := hw.operand huse
    cases d with
    | port i =>
      obtain ⟨name, hname, hdead⟩ := eq_dead_of_printsPort (htext ▸ h.port hd)
      exact ⟨v, i, name, huse, hd, hname, hdead⟩
    | result d j =>
      obtain ⟨number, -, hnumber, -⟩ := h.exists_maker hw hsupply ((h.mem_iff id).1 hid) huse hd
      exact absurd (hnumber.symm.trans htext) (number_ne_dead number)

theorem tells (h : Counts m names ids ls texts) (hw : WellFormed m) (hsupply : m.Supplied) :
    Tells m names ids ls where
  nodup := h.nodup
  mem_iff := h.mem_iff
  shows := ⟨texts, h.shows⟩
  results := ⟨_, h.results hw⟩
  operand hu huse hd := by
    obtain ⟨number, line, hnumber, hline, hresult⟩ := h.exists_maker hw hsupply hu huse hd
    obtain ⟨user, huser, hoperand⟩ := h.exists_user hu huse
    rw [hnumber] at hresult hoperand
    exact ⟨number, user, line, huser, hoperand, hline, hresult⟩
  port hu huse hd := by
    obtain ⟨user, huser, hoperand⟩ := h.exists_user hu huse
    exact ⟨user, _, huser, hoperand, h.port hd⟩
  alive := h.alive hw hsupply

end Counts

/-- Whatever the pieces, they stand below the header of the module. -/
theorem exists_dump (hl : m.Legible names) {pieces : List Piece}
    (h : bodyPieces m names = .ok pieces) : ∃ name ports, names.resolve m.name = .ok name ∧
      m.ports.mapM (portText m names) = .ok ports ∧ m.dump names =
        .ok ("module @" ++ name ++ "(" ++ ", ".intercalate ports ++ ") \x7b\n" ++
          String.join (pieces.map Piece.text) ++ "\x7d\n") := by
  have hports : ∃ ports, m.ports.mapM (portText m names) = .ok ports := exists_mapM fun p hp => by
    obtain ⟨hname, hentry⟩ := hl.port p hp
    exact exists_bind_ok (hl.exists_text hentry) fun _ _ =>
      exists_bind_ok hname fun _ _ => ⟨_, rfl⟩
  obtain ⟨ports, hports⟩ := hports
  obtain ⟨name, hname⟩ := hl.self
  refine ⟨name, ports, hname, hports, ?_⟩
  rw [Module.dump, hports, ok_bind, hname, ok_bind, h]
  rfl

/-- A dump is a header and one line for every node that the body leads to, each with a gap behind it
that ends the line. The results on the lines are counted, an operand that is the result of a node has
the number on the line of that node, and nothing is printed as dead but a port of that name. -/
theorem dump_tells (hw : WellFormed m) (hr : m.Rooted) (hsupply : m.Supplied)
    (hl : m.Legible names) :
    ∃ name ports ids ls gaps, names.resolve m.name = .ok name ∧
      m.ports.mapM (portText m names) = .ok ports ∧
      m.dump names = .ok ("module @" ++ name ++ "(" ++ ", ".intercalate ports ++ ") \x7b\n" ++
        String.join (List.zipWith (fun line gap => line.text ++ gap) ls gaps) ++ "\x7d\n") ∧
      gaps.length = ls.length ∧ (∀ gap ∈ gaps, IsGap gap ∧ '\n' ∈ gap.toList) ∧
      Tells m names ids ls := by
  obtain ⟨hnodup, hmem⟩ := hr.exists_order hw (Nat.le_succ m.blocks.size)
  obtain ⟨numbers, hnumbers, hnumber⟩ := exists_numbering hw hr
  obtain ⟨pieces, hpieces, hlaid, hfirst, hshows⟩ :=
    exists_blockPieces hw hr hl numbers (Nat.le_succ m.blocks.size) 1
  have hbody : bodyPieces m names = .ok pieces := by
    rw [bodyPieces, hnumbers, ok_bind]
    exact hpieces
  obtain ⟨name, ports, hname, hports, hdump⟩ := exists_dump hl hbody
  obtain ⟨lead, gaps, -, hlead, hlength, hgaps, hjoin⟩ := hlaid.exists_gaps
  rw [hjoin, hlead hfirst, String.empty_append] at hdump
  have hcounts : Counts m names _ (lines pieces) _ := ⟨hnodup, hmem, hshows,
    fun hd hv => text_labelOf_of_result hd (hnumber _ _ hv), text_labelOf_of_port hl⟩
  exact ⟨name, ports, _, lines pieces, gaps, hname, hports, hdump, hlength, hgaps,
    hcounts.tells hw hsupply⟩

end Dump

/-- A sum is used in a region before it, and what is made of it there is used behind both. -/
def Module.crossed : Module :=
  .sketch [.int 8] [(.input, 0), (.output, 0)]
    [(.back ⟨0⟩, .ifdef ⟨2⟩, [], []), (.back ⟨0⟩, .add, [0, 0], [0]),
      (.back ⟨2⟩, .xor, [1, 0], [0]), (.back ⟨0⟩, .output, [2], [])]

def Module.crossedText : String :=
  "module @top(in %a: i8, out b: i8) \x7b\n" ++
  "  ifdef b \x7b\n" ++
  "  \x7d \x7b\n" ++
  "    %0 = xor %1, %a : i8\n" ++
  "  \x7d\n" ++
  "  %1 = add %a, %a : i8\n" ++
  "  output %0\n" ++
  "\x7d\n"

theorem Dump.dump_tells_crossed : WellFormed Module.crossed ∧ Module.crossed.Rooted ∧
    Module.crossed.Supplied ∧ Module.crossed.Legible Module.sketchNames ∧
    ∃ header ids ls gaps, Module.crossedText =
        header ++ String.join (List.zipWith (fun line gap => line.text ++ gap) ls gaps) ++ "\x7d\n" ∧
      gaps.length = ls.length ∧ (∀ gap ∈ gaps, IsGap gap ∧ '\n' ∈ gap.toList) ∧
      Tells .crossed Module.sketchNames ids ls := by
  have hs : Sound Module.crossed := sound_of_isSound (by decide +kernel)
  have hl : Module.crossed.Legible Module.sketchNames :=
    Module.legible_of_isLegible (by decide +kernel)
  have htext : Module.crossed.dump Module.sketchNames = .ok Module.crossedText := by decide +kernel
  obtain ⟨_, _, ids, ls, gaps, -, -, hdump, hlength, hgaps, htells⟩ :=
    dump_tells hs.toWellFormed hs.toNested.rooted hs.supplied hl
  exact ⟨hs.toWellFormed, hs.toNested.rooted, hs.supplied, hl, _, ids, ls, gaps,
    Except.ok.inj (htext.symm.trans hdump), hlength, hgaps, htells⟩

/-- A module whose input, in the names below, is called like something dead. -/
def Module.passing : Module :=
  .sketch [.int 8] [(.input, 0), (.output, 0)] [(.back ⟨0⟩, .output, [0], [])]

def Module.deadNames : NameTable := (NameTable.ofList? ["m", "<dead>", "y"]).getD .empty

/-- The exception for ports is needed: nothing is dead here. -/
theorem Dump.dead_printed_for_port : WellFormed Module.passing ∧ Module.passing.Rooted ∧
    Module.passing.Supplied ∧ Module.passing.Legible Module.deadNames ∧
    Module.passing.dump Module.deadNames = .ok ("module @m(in %<dead>: i8, out y: i8) \x7b\n" ++
      "  output " ++ "%<dead>" ++ "\n\x7d\n") := by
  have hs : Sound Module.passing := sound_of_isSound (by decide +kernel)
  exact ⟨hs.toWellFormed, hs.toNested.rooted, hs.supplied,
    Module.legible_of_isLegible (by decide +kernel), by decide +kernel⟩

end NetPrep
