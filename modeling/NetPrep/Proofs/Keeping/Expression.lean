import Mathlib
import NetPrep.Proofs.Keeping.Inline
import NetPrep.Proofs.Replacing

/-!
# Expressions in printable form

Replacing an expression misuses nothing: the nodes that are made take over all uses of its results
before it is erased.
-/

namespace NetPrep

open Prepare Prep

/-- An operation that a tree is made of can have one result of any type. -/
theorem TypeTable.shapes_of_isCommutative {t : TypeTable} {op : Op} {os : List TypeId} {type : TypeId}
    (h : op.isCommutative = true) : t.Shapes op os [type] := by
  cases op with
  | add => exact fun _ => ⟨type, rfl⟩
  | mul | and | or | xor => trivial
  | _ => cases h

namespace Module

variable {m m' : Module} {id : NodeId} {input v old new : ValueId} {loc : Loc}
  {fields : List (ValueId × Name)} {created : List NodeId}

/-- Once another value has taken over its uses, a value is unused. -/
theorem Redirects.unused (h : m.Redirects m' (substitute old new)) (hne : new ≠ old) (u : Use) :
    ¬ m'.Uses u old := by
  rw [h.uses_substitute_iff]
  rintro (⟨-, heq⟩ | ⟨hself, -⟩)
  · exact hne heq.symm
  · exact hself rfl

/-- The value of a tree that branches is new. -/
theorem Grows.index_root {shape : TreeShape} {left right : OperandTree} {root : ValueId}
    {ids : List NodeId} (h : Grows shape (.branch left right) root ids m m') :
    m.values.size ≤ root.index := by
  cases h with
  | branch hleft hright _ hc _ =>
    exact (hleft.kept.trans hright.kept).values_size.trans (hc.index_result (List.mem_singleton_self _))

/-- Selecting fields makes no use of another value that was there. -/
theorem Extracts.not_uses (h : Extracts id input loc fields created m m') (hne : v ≠ input)
    (hlt : v.index < m.values.size) (hv : ∀ u, ¬ m.Uses u v) (u : Use) : ¬ m'.Uses u v := by
  induction h with
  | nil => exact hv u
  | @cons result value field rest extract ids na type m m₁ m₂ m' _ _ hc _ hr _ _ ih =>
    refine ih (Nat.lt_of_lt_of_le hlt (hc.kept.trans hr.kept).values_size) fun w => ?_
    rw [hr.uses_substitute_iff]
    rintro (⟨-, rfl⟩ | ⟨-, hw⟩)
    · exact Nat.lt_irrefl _ (Nat.lt_of_lt_of_le hlt (hc.index_result (List.mem_singleton_self _)))
    · obtain hold | ⟨-, hget⟩ := hc.uses_iff.1 hw
      · exact hv w hold
      · exact hne (List.mem_singleton.1 (List.mem_of_getElem? hget))

/-- The selections take over all uses of the results that they stand for. -/
theorem Extracts.unused (h : Extracts id input loc fields created m m')
    (hall : ∀ p ∈ fields, p.1 ≠ input ∧ p.1.index < m.values.size) :
    ∀ p ∈ fields, ∀ u, ¬ m'.Uses u p.1 := by
  induction h with
  | nil => simp
  | @cons result value field rest extract ids na type m m₁ m₂ m' _ _ hc _ hr _ hrest ih =>
    have hsize := (hc.kept.trans hr.kept).values_size
    obtain ⟨hne, hlt⟩ := hall (result, field) (by simp)
    have hnew : value ≠ result := by
      rintro rfl
      exact Nat.lt_irrefl _ (Nat.lt_of_lt_of_le hlt (hc.index_result (List.mem_singleton_self _)))
    intro p hp
    rcases List.mem_cons.1 hp with rfl | hp
    · exact hrest.not_uses hne (Nat.lt_of_lt_of_le hlt hsize) (hr.unused hnew)
    · refine ih (fun q hq => ?_) p hp
      obtain ⟨hq₁, hq₂⟩ := hall q (List.mem_cons_of_mem _ hq)
      exact ⟨hq₁, Nat.lt_of_lt_of_le hq₂ hsize⟩

end Module

namespace Prep

variable {env : Env} {s s' : State} {id : NodeId} {n : Node} {old : ValueId} {type : TypeId}

theorem settlesOperands_keeps (ho : env.oracle = .systemVerilog) {ids : List NodeId} (hs : s.Orderly)
    (hids : ∀ j ∈ ids, ∃ n, s.module.live? j = some n) :
    (ids.forM inlineOperands).Keeps env s := by
  refine .forM (P := fun s => ∀ j ∈ ids, ∃ n, s.module.live? j = some n) hs hids
    fun j hj s hs hall => ?_
  obtain ⟨n, hn⟩ := hall j hj
  refine ⟨inlineOperands_keeps ho hs hn, fun s' hrun _ k hk => ?_⟩
  obtain ⟨nk, hnk⟩ := hall k hk
  obtain ⟨nk', hnk', -⟩ := (inlineOperands_runs ho hs.sound hn hrun).inlines.live hnk
  exact ⟨nk', hnk'⟩

/-! ## Balancing -/

theorem isBalanceable_keeps (ho : env.oracle = .systemVerilog) (hs : s.Orderly)
    (hn : s.module.live? id = some n) : (isBalanceable id).Keeps env s := by
  obtain ⟨nd, hnd, -⟩ := Module.exists_of_live? hn
  refine .node hnd ?_
  split
  · exact .last (.isMemoryEffectFree ho hnd fun r => .pure hs r)
  · exact .pure hs false

theorem createTree_keeps {shape : TreeShape} {tree : OperandTree} {na : Node} (hs : s.Orderly)
    (ha : s.module.live? shape.anchor = some na) (hop : shape.op.isCommutative = true)
    (htype : s.module.type? old = some shape.type)
    (hleaves : ∀ v ∈ tree.leaves, s.module.Usable v) : (createTree shape tree).Keeps env s := by
  have hkinds := Op.regionKinds_of_isMade (Op.isMade_of_isCommutative hop)
  have hports : shape.op.portNames = [] := by cases h : shape.op <;> rw [h] at hop <;> trivial
  induction tree generalizing s with
  | leaf v => exact .pure hs _
  | branch left right ihl ihr =>
    have hl : ∀ v ∈ left.leaves, s.module.Usable v := fun v hv =>
      hleaves v (by simp [OperandTree.leaves, hv])
    have hr : ∀ v ∈ right.leaves, s.module.Usable v := fun v hv =>
      hleaves v (by simp [OperandTree.leaves, hv])
    refine .bind (ihl hs ha htype hl) fun p s₁ hrun₁ hl₁ => ?_
    obtain ⟨lhs, lefts⟩ := p
    have hleft := createTree_runs hs.sound ha hkinds hl hrun₁
    have hr₁ := fun v hv => hleft.usable (hr v hv)
    refine .bind (ihr hl₁.orderly (hleft.live ha) (hleft.kept.type? htype) hr₁)
      fun p s₂ hrun₂ hl₂ => ?_
    obtain ⟨rhs, rights⟩ := p
    have hright := createTree_runs hl₁.orderly.sound (hleft.live ha) hkinds hr₁ hrun₂
    have hs₂ := hl₂.orderly
    have ha₂ := hright.live (hleft.live ha)
    have hkept := hleft.kept.trans hright.kept
    refine .bind ?_ fun p s₃ _ hl₃ => .pure hl₃.orderly _
    refine .create hs₂ (hs₂.sound.in_before ha₂) (hs₂.placed ha₂) hkinds hports ?_
      (hs₂.entry (hkept.type? htype)) (fun os _ => TypeTable.shapes_of_isCommutative hop)
      fun node value s₃ hc hl₃ => .setTwoState hl₃.orderly (Module.lt_of_live? hc.live?_self)
        fun s₄ _ hl₄ => .pure hl₄.orderly _
    simpa using ⟨hright.usable (hleft.usable_value hl), hright.usable_value hr₁⟩

/-- A node whose uses another value takes over is replaced by the nodes that were made for that. -/
theorem replaceNode_keeps (ho : env.oracle = .systemVerilog) {root : ValueId} {ids : List NodeId}
    {rest : Prep (Option NodeId)} (hs : s.Orderly) (hn : s.module.live? id = some n)
    (hreg : n.regions = []) (hres : n.results = [old]) (hne : root ≠ old)
    (hroot : s.module.Usable root) (hold : s.module.type? old = some type)
    (htype : s.module.type? root = some type)
    (hids : ∀ j ∈ ids, j ≠ id ∧ ∃ n, s.module.live? j = some n)
    (hrest : ∀ s₁, s₁.Orderly → rest.Keeps env s₁) :
    (do
      edit (·.replaceUses old root)
      edit (·.eraseNode id)
      ids.forM inlineOperands
      rest : Prep (Option NodeId)).Keeps env s := by
  refine .replaceUses hs hroot hold htype fun s₁ hr hl₁ => ?_
  refine .eraseNode hl₁.orderly (hr.live hn) hreg (fun v hv => ?_) fun s₂ he hl₂ => ?_
  · obtain rfl : v = old := by simpa [hres] using hv
    exact hr.unused hne
  · refine .bind (settlesOperands_keeps ho hl₂.orderly fun j hj => ?_) fun _ s₃ _ hl₃ => hrest s₃ hl₃.orderly
    obtain ⟨hji, nj, hnj⟩ := hids j hj
    exact ⟨_, he.live (hr.live hnj) hji⟩

theorem balance_keeps (ho : env.oracle = .systemVerilog) (hs : s.Orderly)
    (hn : s.module.live? id = some n) (hres : n.results = [old]) (hop : n.op.isCommutative = true)
    (hlen : 1 < n.operands.length) : (balance id).Keeps env s := by
  obtain ⟨nd, hnd, -, rfl⟩ := Module.exists_of_live? hn
  have hkinds := Op.regionKinds_of_isMade (Op.isMade_of_isCommutative hop)
  have hreg : nd.core.regions = [] := hs.regions_eq_nil hn hkinds
  have hmem : old ∈ nd.core.results := by simp [hres]
  obtain ⟨type, htype⟩ := (hs.usable_of_mem_results hn hmem).exists_type
  refine .node hnd ?_
  split
  · exact .pure hs none
  · next tree htree =>
    refine .result hn (by simp [hres]) (.valueType htype ?_)
    have hleaves : ∀ v ∈ tree.leaves, s.module.Usable v := fun v hv => by
      rw [OperandTree.leaves_balanced? htree] at hv
      exact hs.usable_operand hn hv
    refine .bind (createTree_keeps hs hn hop htype hleaves) fun ⟨root, ids⟩ s₁ hrun hl₁ => ?_
    have hgrow := createTree_runs hs.sound hn hkinds hleaves hrun
    obtain ⟨left, right, rfl⟩ := OperandTree.exists_branch_of_balanced? htree hlen
    have hs₁ := hl₁.orderly
    have hroot := hgrow.usable_value hleaves
    have hrootType : s₁.module.type? root = some type := by
      cases hgrow with
      | branch _ _ _ hc _ => exact hc.type?_result (i := 0) rfl
    have hne : root ≠ old := by
      rintro rfl
      exact Nat.lt_irrefl _ (Nat.lt_of_lt_of_le (Module.lt_of_type? htype) hgrow.index_root)
    have hids : ∀ j ∈ ids, j ≠ id ∧ ∃ n, s₁.module.live? j = some n := fun j hj => by
      refine ⟨?_, (hgrow.live_ids j hj).imp fun _ hn => hn.1⟩
      rintro rfl
      exact absurd (Module.lt_of_live? hn) (Nat.not_lt.2 (hgrow.fresh_ids _ hj))
    have hend : ∀ s₁ : State, s₁.Orderly →
        (count (fun s => { s with balanced := s.balanced + 1 }) >>= fun _ =>
          pure ids.head? : Prep (Option NodeId)).Keeps env s₁ := fun _ hs =>
      .count hs fun hs => .pure hs _
    refine .definingNode? hroot ?_ fun rootNode nr i _ hnr => ?_
    · exact replaceNode_keeps ho hs₁ (hgrow.live hn) hreg hres hne hroot (hgrow.kept.type? htype)
        hrootType hids hend
    · refine .setName hs₁ (Module.lt_of_live? hnr) (fun x hx => hl₁.names (hs.hint hn hx))
        fun s₂ hr hl₂ => ?_
      refine replaceNode_keeps ho hl₂.orderly (hr.live (hgrow.live hn)) hreg hres hne (hr.usable hroot)
        (hr.kept.type? (hgrow.kept.type? htype)) (hr.kept.type? hrootType) (fun j hj => ?_) hend
      obtain ⟨hji, nj, hnj⟩ := hids j hj
      exact ⟨hji, _, hr.live hnj⟩

/-! ## Subtraction for negative constants -/

theorem subtractInstead_keeps (ho : env.oracle = .systemVerilog) {constant : NodeId} {value : Int}
    (hs : s.Orderly) (hn : s.module.live? id = some n)
    (hneg : negativeConstant? s.module id = .ok (some (constant, value))) :
    (subtractInstead id constant value).Keeps env s := by
  obtain ⟨nd, lhs, rhs, nc, hnd, hop, hops, ⟨i, hrhs⟩, hnc, hcop, -⟩ := negativeConstant?_eq_some hneg
  obtain ⟨nd', hnd', -, rfl⟩ := Module.exists_of_live? hn
  obtain rfl := Option.some.inj (hnd.symm.trans hnd')
  have hlhs : s.module.Uses ⟨id, 0⟩ lhs := ⟨_, hn, by simp [Node.core, hops]⟩
  have huse : s.module.Uses ⟨id, 1⟩ rhs := ⟨_, hn, by simp [Node.core, hops]⟩
  -- The constant is used, so it is not erased.
  have hlive : s.module.live? constant = some nc.core := by
    obtain ⟨d, hd, hdlive⟩ := hs.operand huse
    obtain ⟨nc', hnc'⟩ := hdlive (Option.some.inj (hd.symm.trans hrhs))
    obtain ⟨x, hx, -, rfl⟩ := Module.exists_of_live? hnc'
    obtain rfl := Option.some.inj (hnc.symm.trans hx)
    exact hnc'
  have hne : constant ≠ id := by
    rintro rfl
    obtain rfl := Option.some.inj (hnd.symm.trans hnc)
    rw [hop] at hcop
    cases hcop
  -- An addition has one result.
  obtain ⟨old, hold⟩ : ∃ old, nd.results = [old] := by
    obtain ⟨os, rs, hos, hrs, hshape⟩ := hs.exists_shape hn
    change s.module.types.Shapes nd.op os rs at hshape
    rw [hop] at hshape
    obtain ⟨r, rfl⟩ := hshape (by rw [← hos.length_eq]; simp [Node.core, hops])
    obtain ⟨old, rest, -, hrest, hold⟩ := List.forall₂_cons_right_iff.1 hrs
    obtain rfl := List.forall₂_nil_right_iff.1 hrest
    exact ⟨old, hold⟩
  have hmem : old ∈ nd.core.results := by simp [Node.core, hold]
  obtain ⟨type, htype⟩ := (hs.usable_of_mem_results hn hmem).exists_type
  refine .node hnd (.operand hlhs (.result (v := old) hn (by simp [Node.core, hold]) (.valueType htype
    (.ask (hs.bitWidth_tame htype) fun width _ => ?_))))
  refine .create hs (hs.sound.in_before hn) (hs.placed hn) rfl rfl (by simp) (hs.entry htype)
    (fun _ _ => trivial) fun positive positiveValue s₁ hc₁ hl₁ => ?_
  have hs₁ := hl₁.orderly
  have hn₁ := hc₁.live hn
  refine .create hs₁ (hs₁.sound.in_before hn₁) (hs₁.placed hn₁) rfl rfl
    (by simpa using ⟨hc₁.usable (hs.usable hlhs), hc₁.usable_result (i := 0) rfl⟩)
    (hs₁.entry (hc₁.kept.type? htype)) (fun _ _ => trivial)
    fun sub difference s₂ hc₂ hl₂ => ?_
  refine .setTwoState hl₂.orderly (Module.lt_of_live? hc₂.live?_self) fun s₃ hr₃ hl₃ => ?_
  refine .setName hl₃.orderly (Module.lt_of_live? (hr₃.live hc₂.live?_self))
    (fun x hx => hl₃.names (hl₂.names (hl₁.names (hs.hint hn hx)))) fun s₄ hr₄ hl₄ => ?_
  have hc₄ := (hc₂.relabel hr₃).relabel hr₄
  have hnew : difference ≠ old := by
    rintro rfl
    have hlt := Module.lt_of_type? (hc₁.kept.type? htype)
    exact Nat.lt_irrefl _ (Nat.lt_of_lt_of_le hlt (hc₂.index_result (List.mem_singleton_self _)))
  refine .replaceUses hl₄.orderly (hc₄.usable_result (i := 0) rfl)
    (hc₄.kept.type? (hc₁.kept.type? htype)) (hc₄.type?_result (i := 0) rfl) fun s₅ hr₅ hl₅ => ?_
  have hs₅ := hl₅.orderly
  have hn₅ := hr₅.live (hc₄.live hn₁)
  have hkinds : nd.op.regionKinds = [] := by rw [hop]; rfl
  refine .eraseNode hs₅ hn₅ (hs₅.regions_eq_nil hn₅ hkinds) (fun v hv => ?_) fun s₆ he hl₆ => ?_
  · obtain rfl : v = old := by simpa [Node.core, hold] using hv
    exact hr₅.unused hnew
  · have hs₆ := hl₆.orderly
    have hnc₆ := he.live (hr₅.live (hc₄.live (hc₁.live hlive))) hne
    have hsub₆ := he.live (hr₅.live hc₄.live?_self) (hc₄.ne hn₁).symm
    have hend : ∀ {s : State} {n : Node}, s.Orderly → s.module.live? sub = some n →
        (inlineOperands sub >>= fun _ => pure positive).Keeps env s := fun hs hn =>
      .bind (inlineOperands_keeps ho hs hn) fun _ _ _ hl => .pure hl.orderly positive
    refine .ask (hs₆.sound.isUnused_tame hnc₆) fun unused hunused => ?_
    cases unused with
    | false => exact hend hs₆ hsub₆
    | true =>
      have hckinds : nc.op.regionKinds = [] := by rw [hcop]; rfl
      refine .eraseNode hs₆ hnc₆ (hs₆.regions_eq_nil hnc₆ hckinds) (fun v hv u => ?_)
        fun s₇ he' hl₇ => hend hl₇.orderly (he'.live hsub₆ (hc₄.ne (hc₁.live hlive)).symm)
      exact hs₆.unused_of_isUnused (Module.core_of_live? hnc₆) hunused hv

/-! ## Struct fields -/

theorem extractFields_keeps {input : ValueId} {loc : Loc} {fields : List (ValueId × Name)}
    (hs : s.Orderly) (hn : s.module.live? id = some n) (hinput : s.module.Usable input)
    (hfields : ∀ p ∈ fields, ∃ type, s.module.type? p.1 = some type) :
    (extractFields id input loc fields).Keeps env s := by
  induction fields generalizing s n with
  | nil => exact .pure hs []
  | cons field rest ih =>
    obtain ⟨result, field⟩ := field
    obtain ⟨type, htype⟩ := hfields (result, field) (by simp)
    refine .valueType htype (.create hs (hs.sound.in_before hn) (hs.placed hn) rfl rfl
      (by simpa using hinput) (hs.entry htype) (fun _ _ => trivial) fun extract value s₁ hc hl₁ => ?_)
    refine .replaceUses hl₁.orderly (hc.usable_result (i := 0) rfl) (hc.kept.type? htype)
      (hc.type?_result (i := 0) rfl) fun s₂ hr hl₂ => ?_
    refine .bind (ih hl₂.orderly (hr.live (hc.live hn)) (hr.usable (hc.usable hinput))
      fun p hp => ?_) fun _ _ _ hl₃ => .pure hl₃.orderly _
    obtain ⟨t, ht⟩ := hfields p (List.mem_cons_of_mem _ hp)
    exact ⟨t, hr.kept.type? (hc.kept.type? ht)⟩

/-- A struct is of another type than its fields, so taking it apart makes no use of its own results. -/
theorem explode_keeps (ho : env.oracle = .systemVerilog) (hs : s.Orderly)
    (hn : s.module.live? id = some n) (hop : n.op = .structExplode) : (explode id).Keeps env s := by
  obtain ⟨os, rs, hos, hrs, hshape⟩ := hs.exists_shape hn
  rw [hop] at hshape
  obtain ⟨type, fields, rfl, hfields, rfl⟩ := hshape
  obtain ⟨input, rest, htype, hrest, hops⟩ := List.forall₂_cons_right_iff.1 hos
  obtain rfl := List.forall₂_nil_right_iff.1 hrest
  have hreg : n.regions = [] := hs.regions_eq_nil hn (by rw [hop]; rfl)
  have hinput : s.module.Usable input := hs.usable_operand hn (by simp [hops])
  have hlen : n.results.length = fields.length := by simpa using hrs.length_eq
  have hresult : ∀ v ∈ n.results, v ≠ input ∧ v.index < s.module.values.size := fun v hv => by
    refine ⟨?_, hs.lt_of_result (Module.core_of_live? hn) hv⟩
    rintro rfl
    obtain ⟨i, hi, rfl⟩ := List.mem_iff_getElem.1 hv
    have hfield := hrs.get hi (hrs.length_eq ▸ hi)
    obtain rfl := Option.some.inj (htype.symm.trans hfield)
    exact Nat.lt_irrefl _ (hs.grounded.fields?_lt hfields (List.get_mem _ _))
  have hmem : ∀ p ∈ n.results.zip (fields.map (·.1)), p.1 ∈ n.results := fun p hp =>
    (List.of_mem_zip (a := p.1) (b := p.2) hp).1
  have hcover : ∀ v ∈ n.results, ∃ p ∈ n.results.zip (fields.map (·.1)), p.1 = v := fun v hv => by
    obtain ⟨i, hi, rfl⟩ := List.mem_iff_getElem.1 hv
    have hi' : i < (fields.map (·.1)).length := by simpa [hlen] using hi
    exact ⟨(n.results[i], (fields.map (·.1))[i]), List.mem_iff_getElem.2 ⟨i, by simpa [hi] using hi', by simp⟩,
      rfl⟩
  obtain ⟨nd, hnd, -, rfl⟩ := Module.exists_of_live? hn
  refine .node hnd ?_
  rw [show nd.operands = [input] from hops]
  refine .tell (a := fields) ?_ (.bind (extractFields_keeps hs hn hinput fun p hp => ?_)
    fun ids s₁ hrun hl₁ => ?_)
  · have hget := TypeTable.fields?_eq_some_iff.1 hfields
    simp [valueType_eq_ok_iff.2 htype, TypeTable.fields, hget, bind, Except.bind, pure, Except.pure]
  · exact (hs.usable_of_mem_results hn (hmem p hp)).exists_type
  · have hextract := extractFields_runs hs.sound hn hinput hrun
    obtain ⟨ops, hn₁⟩ := hextract.live hn
    refine .eraseNode hl₁.orderly hn₁ hreg (fun v hv => ?_) fun s₂ he hl₂ => ?_
    · obtain ⟨p, hp, rfl⟩ := hcover v hv
      exact hextract.unused (fun q hq => hresult _ (hmem q hq)) p hp
    · refine .bind (settlesOperands_keeps ho hl₂.orderly fun j hj => ?_)
        fun _ _ _ hl₃ => .pure hl₃.orderly ids.head?
      obtain ⟨hsize, nj, hnj⟩ := hextract.fresh_ids hj
      refine ⟨_, he.live hnj ?_⟩
      rintro rfl
      exact absurd (Module.lt_of_live? hn) (Nat.not_lt.2 hsize)

end Prep

end NetPrep
