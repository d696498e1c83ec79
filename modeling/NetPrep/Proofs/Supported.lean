import Mathlib
import NetPrep.Proofs.Checking
import NetPrep.Proofs.Passes
import NetPrep.Proofs.Walk

/-!
# Unsupported operations

An operation of another dialect is refused when the scan of its block comes to it. Where storage is
accessed directly the scan comes to every node that it does not move, so no such operation is left.
Where storage is reached by way of a read, the node that the scan goes on with may be one that was
moved ahead, and the scan jumps over what lies in between.
-/

namespace NetPrep

open Prepare

namespace Module

variable {o : Options} {m m' m'' : Module} {id x : NodeId} {n : Node} {block : BlockId}

/-- A node of another dialect. -/
def IsForeign (m : Module) (id : NodeId) : Prop := m.HasOp (·.category = .foreign) id

/-- No node of the module belongs to another dialect. -/
def Supported (m : Module) : Prop := ∀ {id n}, m.live? id = some n → n.op.category ≠ .foreign

/-! ## No foreign node is made or moved -/

/-- Every foreign node that is there was there before, in the same block. -/
def KeepsForeign (m m' : Module) : Prop := ∀ ⦃x n'⦄, m'.live? x = some n' →
  n'.op.category = .foreign →
    ∃ n, m.live? x = some n ∧ n.op.category = .foreign ∧ n.parent = n'.parent

theorem KeepsForeign.refl (m : Module) : KeepsForeign m m := fun _ _ hx hop => ⟨_, hx, hop, rfl⟩

theorem KeepsForeign.trans (h : KeepsForeign m m') (h' : KeepsForeign m' m'') :
    KeepsForeign m m'' := by
  intro x n'' hx hop
  obtain ⟨n', hn', hop', hp'⟩ := h' hx hop
  obtain ⟨n, hn, hop, hp⟩ := h hn' hop'
  exact ⟨n, hn, hop, hp.trans hp'⟩

/-- Where only other nodes move, no foreign node is moved. -/
theorem Advances.keepsForeign {T : NodeId → Prop} (h : Advances T m m')
    (hT : ∀ x n, m.live? x = some n → n.op.category = .foreign → ¬ T x) : KeepsForeign m m' := by
  intro x n' hx hop
  rcases h.frame.old hx with ⟨n, hn⟩ | ⟨-, hmade⟩
  · obtain ⟨n₁, hn₁, hop₁, -⟩ := h.frame.kept.node (core_of_live? hn)
    obtain rfl := Option.some.inj ((core_of_live? hx).symm.trans hn₁)
    rw [hop₁] at hop
    obtain ⟨n₂, hn₂, hp⟩ := h.frame.live hn (hT x n hn hop)
    obtain rfl := Option.some.inj (hx.symm.trans hn₂)
    exact ⟨n, hn, hop, hp.symm⟩
  · exact absurd hop (Op.category_ne_foreign_of_isMade hmade)

/-- A scan moves nodes of other kinds only. -/
theorem not_hasOp_of_foreign (hn : m.live? x = some n) (hop : n.op.category = .foreign) :
    ¬ m.HasOp (fun op => op.isExpression = true ∨ op = .logic ∨ op = .assign) x := by
  intro ht
  rcases ht.of_live hn with hexpr | hlogic | hassign
  · rw [Op.isExpression, hop] at hexpr
    cases hexpr
  · rw [hlogic] at hop
    cases hop
  · rw [hassign] at hop
    cases hop

theorem ScanStep.keepsForeign {visited visited' : IdMap Unit} {next : Option NodeId}
    (h : ScanStep o block id visited visited' next m m') (hd : Direct m) : KeepsForeign m m' :=
  (h.advances hd).keepsForeign fun _ _ hn hop => not_hasOp_of_foreign hn hop

theorem Scans.keepsForeign {visited : IdMap Unit} {cursor : Option NodeId}
    (h : Scans o block visited cursor m m') (hd : Direct m) : KeepsForeign m m' :=
  (h.advances hd).keepsForeign fun _ _ hn hop => not_hasOp_of_foreign hn hop

/-! ## The scan comes to every foreign node -/

/-- No foreign node is left in a block that was scanned. -/
theorem Scans.supported {visited : IdMap Unit} {cursor : Option NodeId}
    (h : Scans o block visited cursor m m') (hd : Direct m)
    (hahead : ∀ x ∈ m.nodesOf block, m.IsForeign x →
      ∃ c, cursor = some c ∧ (c = x ∨ Precedes (m.nodesOf block) c x)) :
    ∀ x ∈ m'.nodesOf block, ¬ m'.IsForeign x := by
  induction h with
  | done =>
    intro x hx hforeign
    obtain ⟨c, hc, -⟩ := hahead x hx hforeign
    cases hc
  | @step visited visited' id next m m₁ m' h _ ih =>
    have hadv := h.advances hd
    refine ih hadv.direct fun x hx hforeign => ?_
    obtain ⟨n', hn', hp'⟩ := hadv.direct.mem_nodesOf_iff.1 hx
    obtain ⟨n, hn, hop, hp⟩ := h.keepsForeign hd hn' (hforeign.of_live hn')
    have hmem : x ∈ m.nodesOf block := hd.mem_nodesOf_iff.2 ⟨n, hn, hp.trans hp'⟩
    obtain ⟨c, hc, hx⟩ := hahead x hmem ⟨n, core_of_live? hn, hop⟩
    cases hc
    -- The scan would have been refused at the node itself.
    obtain ⟨nc, hnc, -, hcop⟩ := h.live
    have hne : id ≠ x := by
      rintro rfl
      obtain rfl := Option.some.inj (hn.symm.trans hnc)
      exact hcop hop
    have hnot := not_hasOp_of_foreign hn hop
    exact h.ahead hd (fun ht => hnot (ht.isExpression.imp fun _ => Or.inl))
      (fun ht => hnot (ht.imp fun _ h => Or.inr (Or.inr h))) (hx.resolve_left hne)

/-! ## Every block is scanned -/

theorem Orders.keepsForeign (h : Orders block m m') (hd : Direct m)
    (hclean : ∀ x ∈ m.nodesOf block, ¬ m.IsForeign x) : KeepsForeign m m' := by
  cases h with
  | empty _ _ h => exact h ▸ KeepsForeign.refl m
  | declarations _ _ _ h =>
    refine (h.advances hd).keepsForeign fun x n hn hop ht => ?_
    have hlogic := ht.of_live hn
    rw [hlogic] at hop
    cases hop
  | definitions _ hids h =>
    refine (h.advances hd).keepsForeign fun x n hn hop ht => ?_
    rcases ht.2 with hx | hdecl
    · exact hclean x ((Prep.outOfOrder_eq_ok hd.toSound hids).1.subset hx) ⟨n, core_of_live? hn, hop⟩
    · have := hdecl.of_live hn
      rw [Op.isDeclaration, hop] at this
      cases this

/-- Legalizing blocks leaves no foreign node in them, and moves none elsewhere. -/
theorem Legalizes.supported {bs : List BlockId} (h : Legalizes o bs m m') (hd : Direct m) :
    KeepsForeign m m' ∧ ∀ b ∈ bs, ∀ {x n'}, m'.live? x = some n' → m.Inside b n'.parent →
      n'.op.category ≠ .foreign := by
  induction h with
  | nil m => exact ⟨KeepsForeign.refl m, by simp⟩
  | @cons block blocks m m₁ m₂ m₃ m' hblock hinner hscan horder hrest ihinner ihrest =>
    have h₁ := hinner.advances hd
    have h₂ := hscan.advances_leaf h₁.direct
    have h₃ := horder.advances h₂.direct
    obtain ⟨hkeep₁, hclean₁⟩ := ihinner hd
    have hclean₂ : ∀ x ∈ m₂.nodesOf block, ¬ m₂.IsForeign x :=
      hscan.supported h₁.direct fun x hx _ => by
        obtain ⟨c, r, hl⟩ := List.exists_cons_of_ne_nil (List.ne_nil_of_mem hx)
        rw [hl] at hx ⊢
        exact ⟨c, rfl, (List.mem_cons.1 hx).imp Eq.symm fun hx => Precedes.cons_iff.2 (Or.inl ⟨rfl, hx⟩)⟩
    have hkeep₂ := hscan.keepsForeign h₁.direct
    have hkeep₃ := horder.keepsForeign h₂.direct hclean₂
    obtain ⟨hkeep₄, hclean₄⟩ := ihrest h₃.direct
    refine ⟨((hkeep₁.trans hkeep₂).trans hkeep₃).trans hkeep₄, fun b hb {x n'} hx hin hop => ?_⟩
    have htree : SameTree m m₃ := (((hinner.edits hd.toSound).trans
      (hscan.edits h₁.direct.toSound)).trans (horder.edits h₂.direct.toSound)).sameTree
    rcases List.mem_cons.1 hb with rfl | hb
    · obtain ⟨n₃, hn₃, hop₃, hp₃⟩ := hkeep₄ hx hop
      obtain ⟨n₂, hn₂, hop₂, hp₂⟩ := hkeep₃ hn₃ hop₃
      rcases hin.cases_regions hd.toWellFormed with hp | ⟨r, hr, hin⟩
      · refine hclean₂ x (h₂.direct.mem_nodesOf_iff.2 ⟨n₂, hn₂, ?_⟩) ⟨n₂, core_of_live? hn₂, hop₂⟩
        rw [hp₂, hp₃, hp]
      · obtain ⟨n₁, hn₁, hop₁, hp₁⟩ := hkeep₂ hn₂ hop₂
        refine hclean₁ r hr hn₁ ?_ hop₁
        rwa [hp₁, hp₂, hp₃]
    · exact hclean₄ b hb hx (htree.inside hin) hop

end Module

/-- Where storage is accessed directly, no operation that is not understood gets past legalization. -/
theorem supported_of_legalize {m m' : Module} {names names' : NameTable} {options : Options}
    (hm : WellTyped m) (hp : m.Plain) (h : Yields .legalize options m names m' names') :
    m'.Supported := by
  obtain ⟨env, s, s', ho, -, rfl, -, rfl, -, hrun⟩ := h.runs
  have hd := hm.direct hp
  have hlegal := Prep.legalize_runs ho hd.toSound hrun
  have he := hlegal.edits hd.toSound
  intro id n hn
  have hin := (he.sound.toNested.placed hn).inside
  rw [he.kept.body] at hin
  exact (hlegal.supported hd).2 _ (List.mem_singleton_self _) hn (he.sameTree.symm.inside hin)

/-- A wire that is read and assigned. -/
def Module.readBack : Module :=
  .sketch [.int 8, .storage ⟨0⟩] [(.input, 0), (.output, 0)]
    [(.back ⟨0⟩, .wire, [], [1]), (.back ⟨0⟩, .read, [1], [0]), (.back ⟨0⟩, .assign, [1, 0], []),
      (.back ⟨0⟩, .output, [2], [])]

theorem supported_readBack : ∃ m' names', Valid Module.readBack ∧ Module.readBack.Plain ∧
    Yields .legalize .default .readBack Module.sketchNames m' names' ∧ m'.Supported := by
  have hv : Valid Module.readBack := valid_of_isValid (by decide +kernel)
  have hp : Module.readBack.Plain := plain_of_isPlain (by decide +kernel)
  obtain ⟨m', names', h, -⟩ := exists_yields_of_leaves (p := fun _ _ => true)
    (show leaves .legalize .default .readBack Module.sketchNames _ = true by decide +kernel)
  exact ⟨m', names', hv, hp, h, supported_of_legalize hv.toWellTyped hp h⟩

/-- A path to an element, the read of it before it, and behind them a node of another dialect. When the
scan comes to the read, it moves it behind that node, where it is used, and goes on with the path; the
path follows the read, and the scan follows the path. -/
def Module.hidden : Module :=
  .sketch [.int 2, .int 8, .array ⟨1⟩ 4, .storage ⟨2⟩, .storage ⟨1⟩] [(.input, 0), (.output, 1)]
    [(.back ⟨0⟩, .wire, [], [3]), (.back ⟨0⟩, .elementStorage, [1, 0], [4]),
      (.before ⟨1⟩, .read, [2], [1]), (.back ⟨0⟩, .foreign "seq" "reg", [], []),
      (.back ⟨0⟩, .output, [3], [])]

/-- Behind a path to storage an operation that is not understood can stay. -/
theorem not_supported_hidden : ¬ ∀ (options : Options) (m m' : Module) (names names' : NameTable),
    Valid m → Yields .legalize options m names m' names' → m'.Supported := by
  intro h
  have hv : Valid Module.hidden := valid_of_isValid (by decide +kernel)
  obtain ⟨m', names', hy, hm'⟩ := exists_yields_of_leaves
    (p := fun m' _ => (m'.live? ⟨3⟩).any (·.op == .foreign "seq" "reg"))
    (show leaves .legalize .default .hidden Module.sketchNames _ = true by decide +kernel)
  obtain ⟨n, hn, hop⟩ := (Option.any_eq_true _ _).1 hm'
  exact h _ _ _ _ _ hv hy hn (by rw [beq_iff_eq.1 hop]; rfl)

end NetPrep
