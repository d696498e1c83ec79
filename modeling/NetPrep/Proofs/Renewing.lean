import Mathlib
import NetPrep.Proofs.Advancing
import NetPrep.Proofs.Supplying

/-!
# Expressions in a new form

Replacing an expression leaves every node where those that take it find it: what takes its place stands
before it, and finds what it finds.
-/

namespace NetPrep

open Prepare Prep

namespace Module

variable {m m' : Module} {a d e id u : NodeId} {n na nd nu : Node} {b : BlockId}
  {i j : Nat} {v w x y : ValueId} {ids : List NodeId}

theorem Erases.fitted (h : m.Erases m' id) (hf : m.Fitted) : m'.Fitted := by
  intro j nj hj
  exact hf (h.live_cases hj).2

theorem SettlesOperands.fed (h : SettlesOperands ids m m') (hs : Sound m) (hf : m.Fitted)
    (hm : m.Fed []) : m'.Fed [] := by
  induction h with
  | nil => exact hm
  | cons _ h _ ih =>
    have hm₁ : Fed _ [] := h.fed hs hf (fun _ hd => hd.1) hm nofun
    exact ih (h.inlines.sound hs) (h.fitted hf) hm₁

/-- Uses of a result are redirected to a node that comes before the one that computes it and is not
printed at its uses. -/
theorem Redirects.fed_before (h : m.Redirects m' (substitute y x)) (hs : Sound m) (hm : m.Fed [])
    (hy : m.def? y = some (.result a i)) (hx : m.def? x = some (.result d j))
    (hp : Precedes (m.nodesOf b) d a) (hinline : ¬ IsInline m d) : m'.Fed [] :=
  h.fed_substitute hs.toWellFormed hm fun _ k hu =>
    .of_def hx ((hm ⟨k, y, i, hu, hy⟩).of_before hs hp hinline)

/-- What is put before a node is found by it. -/
theorem Creates.finds_result {types : List TypeId} (h : m.Creates m' b (.before a) id n types)
    (hs : Sound m) (hs' : Sound m') (ha : a ∈ m.nodesOf b) (hv : n.results[i]? = some v) :
    m'.Finds [] a v := by
  obtain ⟨c, hc⟩ := (h.heralds hs.toWellFormed ha).precedes
  exact .of_def (h.def?_result hv) (.of_precedes hc hs'.toWellFormed)

section

variable {shape : TreeShape} {tree : OperandTree}

/-- Growing a tree, of which the anchor finds the leaves and then the root. -/
theorem Grows.fed (h : Grows shape tree v ids m m') (hs : Sound m)
    (hop : shape.op.isCommutative = true) (ha : m.live? shape.anchor = some na)
    (hassign : na.op ≠ .assign) (hinline : na.op.isAlwaysInline = false) (hm : m.Fed [])
    (hleaves : ∀ w ∈ tree.leaves, m.Usable w ∧ m.Finds [] shape.anchor w) :
    m'.Fed [] ∧ m'.Finds [] shape.anchor v := by
  induction h with
  | leaf => exact ⟨hm, (hleaves _ (List.mem_singleton_self _)).2⟩
  | @branch left right lhs rhs value lefts rights id na₂ m m₁ m₂ m' hleft hright ha₂ hc hs' ih₁ ih₂ =>
    have hs₁ := hleft.sound hs
    have hs₂ := hright.sound hs₁
    have hframe₁ : Frame (fun _ => False) m m₁ := hleft.frame hs hop
    have hframe₂ : Frame (fun _ => False) m₁ m₂ := hright.frame hs₁ hop
    have ha₁ := hleft.live ha
    obtain rfl := Option.some.inj (ha₂.symm.trans (hright.live ha₁))
    obtain ⟨hlefts, hrights⟩ := List.forall_mem_append.1 hleaves
    obtain ⟨hm₁, hlhs⟩ := ih₁ hs ha hm hlefts
    obtain ⟨hm₂, hrhs⟩ := ih₂ hs₁ ha₁ hm₁ fun w hw =>
      ⟨hleft.usable (hrights w hw).1, (hrights w hw).2.stay hframe₁ (hleft.edits hs).sameTree ha (hrights w hw).1⟩
    have hlhs₁ := hleft.usable_value fun w hw => (hlefts w hw).1
    have hrhs₂ := hright.usable_value fun w hw => hleft.usable (hrights w hw).1
    have hmade := Op.isMade_of_isCommutative hop
    refine ⟨hc.fed hs₂ hs' hmade hm₂ (List.forall_mem_cons.2 ⟨hc.finds hs₂ hs' hmade ha₂ rfl hassign
      hinline (hlhs.stay hframe₂ (hright.edits hs₁).sameTree ha₁ hlhs₁) (hright.usable hlhs₁),
      List.forall_mem_singleton.2 (hc.finds hs₂ hs' hmade ha₂ rfl hassign hinline hrhs hrhs₂)⟩),
      hc.finds_result (i := 0) hs₂ hs' (hs₂.mem_nodesOf ha₂) rfl⟩

/-- The root of a tree with a branch comes before the anchor. -/
theorem Grows.root_precedes {left right : OperandTree}
    (h : Grows shape (.branch left right) v ids m m') (hs : Sound m)
    (hop : shape.op.isCommutative = true) (ha : m.live? shape.anchor = some na) :
    ∃ d, m'.def? v = some (.result d 0) ∧ Precedes (m'.nodesOf na.parent) d shape.anchor ∧
      ¬ IsInline m' d := by
  obtain ⟨d, i, hdef, hd⟩ : ∃ d, m'.def? v = some (.result d 0) ∧ d ∈ ids ∧ ¬ IsInline m' d := by
    cases h with
    | @branch _ _ _ _ _ _ _ id _ _ _ _ _ _ _ _ hc _ =>
      exact ⟨id, hc.def?_result (i := 0) rfl, by simp,
        not_isInline_of_live hc.live?_self (Op.isAlwaysInline_of_isCommutative hop)⟩
  exact ⟨d, i, h.precedes hs hop hdef ha, hd⟩

end

theorem Balances.fed (h : m.Balances id ids m') (hs : Sound m) (hf : m.Fitted)
    (hn : m.live? id = some n) (hop : n.op.isCommutative = true) (hlen : 1 < n.operands.length)
    (hm : m.Fed []) : m'.Fed [] := by
  obtain ⟨hn', htree, hold, -, hopn, hanchor, hgrow, hname, hs₂, hr, hs₃, -, he, hs₄, hsettle, -, -⟩ := h
  obtain rfl := Option.some.inj (hn.symm.trans hn')
  rename_i tree old root shape name rootNode m₁ m₂ m₃ m₄
  obtain ⟨left, right, rfl⟩ := OperandTree.exists_branch_of_balanced? htree hlen
  have hcomm : shape.op.isCommutative = true := hopn ▸ hop
  have hinline := Op.isAlwaysInline_of_isCommutative hop
  have hassign : n.op ≠ .assign := by
    intro h
    rw [h] at hop
    cases hop
  have ha : m.live? shape.anchor = some n := hanchor ▸ hn
  have hs₁ := hgrow.sound hs
  obtain ⟨hm₁, -⟩ := hgrow.fed hs hcomm ha hassign hinline hm fun w hw => by
    rw [OperandTree.leaves_balanced? htree] at hw
    obtain ⟨k, hk⟩ := exists_uses_of_mem hn hw
    exact ⟨hs.usable hk, hanchor ▸ hm.finds hk⟩
  obtain ⟨d, hdef, hp, hd⟩ := hgrow.root_precedes hs hcomm ha
  have hgrown : Acts n.parent (fun _ => True) m m₁ := hgrow.acts hs hcomm ha
    (Op.ne_logic_of_isExpression (Op.isExpression_of_isCommutative hop)) .self fun _ _ => trivial
  have hnamed : Acts n.parent (fun _ => True) m₁ m₂ := acts_of_named hname hs₂
  have hf₂ : m₂.Fitted := Acts.fitted hnamed (Acts.fitted hgrown hf)
  have hm₂ : m₂.Fed [] := by
    rcases hname with rfl | hl
    · exact hm₁
    · exact hl.fed hs₁.toWellFormed hm₁
  have hk₂ : m₁.Kept m₂ ∧ ∀ c, m₂.nodesOf c = m₁.nodesOf c := by
    rcases hname with rfl | hl
    · exact ⟨.refl _, fun _ => rfl⟩
    · exact ⟨hl.kept, hl.nodesOf⟩
  obtain ⟨n₂, hn₂, hop₂, -⟩ := live_of_named hname (hgrow.live hn)
  obtain ⟨nd, hnd, -⟩ := hs₁.mem_nodesOf_iff.1 hp.mem_left
  have hm₃ : Fed _ [] := hr.fed_before hs₂ hm₂
    (hk₂.1.def? (hgrow.kept.def? (hs.result (core_of_live? hn) hold))) (hk₂.1.def? hdef)
    (hanchor ▸ hk₂.2 _ ▸ hp) fun hi => hd (hi.of_kept hk₂.1 hnd)
  have hn₃ := hr.live hn₂
  have hreg := hs₃.toNested.regions_eq_nil hn₃ (by
    change n₂.op.regionKinds = []
    rw [hop₂]
    exact Op.regionKinds_of_isExpression (Op.isExpression_of_isCommutative hop))
  exact hsettle.fed hs₄ (he.fitted (hr.fitted_substitute hf₂)) (he.fed hs₃ hs₄ hn₃ hreg hm₃)

theorem Subtracts.fed {constant positive : NodeId} {value : Int}
    (h : m.Subtracts id constant value positive m') (hs : Sound m) (hf : m.Fitted)
    (hm : m.Fed []) : m'.Fed [] := by
  obtain ⟨hn, hop, hops, hrhs, hc, hcop, -, hold, -, -, hpos, hs₁, hsub, hs₂, hr, hs₃, -, he, hs₄,
    hconst, hs₅, hsettle⟩ := h
  rename_i n nc lhs rhs old positiveValue difference type sub m₁ m₂ m₃ m₄ m₅ width
  have hassign : n.op ≠ .assign := by simp [hop]
  have hinline : n.op.isAlwaysInline = false := by rw [hop]; rfl
  have hn₁ := hpos.live hn
  have hn₂ := hsub.live hn₁
  have hn₃ := hr.live hn₂
  obtain ⟨k, hlhs⟩ := exists_uses_of_mem hn (hops ▸ List.mem_cons_self : lhs ∈ n.operands)
  have hframe₁ : Frame (fun _ => False) m m₁ := hpos.frame hs.toWellFormed rfl
  have hm₁ : m₁.Fed [] := hpos.fed hs hs₁ rfl hm nofun
  have hm₂ : m₂.Fed [] := hsub.fed hs₁ hs₂ rfl hm₁ (List.forall_mem_cons.2
    ⟨hsub.finds hs₁ hs₂ rfl hn₁ rfl hassign hinline
      ((hm.finds hlhs).stay hframe₁ hpos.sameTree hn (hs.usable hlhs)) (hpos.usable (hs.usable hlhs)),
    List.forall_mem_singleton.2 (hsub.finds hs₁ hs₂ rfl hn₁ rfl hassign hinline
      (hpos.finds_result (i := 0) hs hs₁ (hs.mem_nodesOf hn) rfl) (hpos.usable_result (i := 0) rfl))⟩)
  obtain ⟨b, hb⟩ := (hsub.heralds hs₁.toWellFormed (hs₁.mem_nodesOf hn₁)).precedes
  have hm₃ : m₃.Fed [] := hr.fed_before hs₂ hm₂
    (hsub.kept.def? (hpos.kept.def? (hs.result (core_of_live? hn) hold)))
    (hsub.def?_result (i := 0) rfl) hb (not_isInline_of_live hsub.live?_self rfl)
  have hm₄ : m₄.Fed [] := he.fed hs₃ hs₄ hn₃
    (hs₃.toNested.regions_eq_nil hn₃ (by change n.op.regionKinds = []; rw [hop]; rfl)) hm₃
  have hf₂ : m₂.Fitted := hsub.fitted (hpos.fitted hf (.of_alone rfl rfl))
    (.of_result rfl nofun nofun ⟨_, rfl⟩)
  have hf₄ : m₄.Fitted := he.fitted (hr.fitted_substitute hf₂)
  obtain ⟨rfl, -⟩ | ⟨-, he'⟩ := hconst
  · exact hsettle.fed hs₄ hf₄ hm₄
  · have hne : constant ≠ id := by
      rintro rfl
      obtain rfl := Option.some.inj (hn.symm.trans hc)
      rw [hop] at hcop
      cases hcop
    have hc₄ := he.live (hr.live (hsub.live (hpos.live hc))) hne
    exact hsettle.fed hs₅ (he'.fitted hf₄) (he'.fed hs₄ hs₅ hc₄
      (hs₄.toNested.regions_eq_nil hc₄ (by change nc.op.regionKinds = []; rw [hcop]; rfl)) hm₄)

theorem Extracts.fed {input : ValueId} {loc : Loc} {fields : List (ValueId × Name)}
    (h : Extracts id input loc fields ids m m') (hs : Sound m) (hn : m.live? id = some n)
    (hassign : n.op ≠ .assign) (hinline : n.op.isAlwaysInline = false) (hf : m.Fitted)
    (hm : m.Fed []) (husable : m.Usable input) (hinput : m.Finds [] id input)
    (hfields : ∀ f ∈ fields, ∃ i, m.def? f.1 = some (.result id i)) :
    m'.Fed [] ∧ m'.Fitted := by
  induction h generalizing n with
  | nil => exact ⟨hm, hf⟩
  | @cons result value field rest extract ids na type m m₁ m₂ m' ha htype hc hs₁ hr hs₂ hrest ih =>
    obtain rfl := Option.some.inj (hn.symm.trans ha)
    obtain ⟨⟨i, hi⟩, hfields⟩ := List.forall_mem_cons.1 hfields
    have hframe₁ : Frame (fun _ => False) m m₁ := hc.frame hs.toWellFormed rfl
    have hframe₂ : Frame (fun _ => False) m₁ m₂ := hr.frame
    have hfinds₁ := hc.finds hs hs₁ rfl hn rfl hassign hinline hinput husable
    have hm₁ : m₁.Fed [] := hc.fed hs hs₁ rfl hm (List.forall_mem_singleton.2 hfinds₁)
    have hf₁ : m₁.Fitted := hc.fitted hf (.of_result rfl nofun nofun ⟨_, rfl⟩)
    obtain ⟨b, hb⟩ := (hc.heralds hs.toWellFormed (hs.mem_nodesOf hn)).precedes
    have hm₂ : m₂.Fed [] := hr.fed_before hs₁ hm₁ (hc.kept.def? hi) (hc.def?_result (i := 0) rfl) hb
      (not_isInline_of_live hc.live?_self rfl)
    have hn₁ := hc.live hn
    exact ih hs₂ (hr.live hn₁) hassign hinline (hr.fitted_substitute hf₁) hm₂
      ((hc.usable husable).mono hr.kept fun hj => ⟨_, hr.live hj⟩)
      ((hinput.stay hframe₁ hc.sameTree hn husable).stay hframe₂ hr.sameTree hn₁ (hc.usable husable))
      fun f hf => (hfields f hf).imp fun _ hi => hr.kept.def? (hc.kept.def? hi)

theorem Explodes.fed (h : m.Explodes id ids m') (hs : Sound m) (hf : m.Fitted)
    (hn : m.live? id = some n) (hop : n.op = .structExplode) (hm : m.Fed []) : m'.Fed [] := by
  obtain ⟨hn', hops, -, -, hextract, -, he, hs₂, hsettle⟩ := h
  obtain rfl := Option.some.inj (hn.symm.trans hn')
  obtain ⟨k, hinput⟩ := exists_uses_of_mem hn (hops ▸ List.mem_cons_self)
  obtain ⟨hm₁, hf₁⟩ := hextract.fed hs hn (by simp [hop]) (by rw [hop]; rfl) hf hm (hs.usable hinput)
    (hm.finds hinput) fun f hf => by
      obtain ⟨i, hi⟩ := List.mem_iff_getElem?.1 (List.of_mem_zip hf).1
      exact ⟨i, hs.result (core_of_live? hn) hi⟩
  obtain ⟨ops, hn₁⟩ := hextract.live hn
  have hs₁ := hextract.sound hs
  exact hsettle.fed hs₂ (he.fitted hf₁) (he.fed hs₁ hs₂ hn₁
    (hs₁.toNested.regions_eq_nil hn₁ (by change n.op.regionKinds = []; rw [hop]; rfl)) hm₁)

theorem Replaces.fed {target : NodeId} (h : m.Replaces id target m') (hs : Sound m) (hf : m.Fitted)
    (hm : m.Fed []) : m'.Fed [] := by
  cases h with
  | balance hn hop hlen _ h => exact h.fed hs hf hn hop (Nat.lt_of_succ_lt hlen) hm
  | subtract h => exact h.fed hs hf hm
  | explode hn hop _ h => exact h.fed hs hf hn hop hm

/-! ## Assignments that are read -/

/-- What a node of the body uses can be used from anywhere, as nothing is further out. -/
theorem Fed.open_of_body {k : Nat} (hm : m.Fed []) (hs : Sound m) (hu : m.live? u = some nu)
    (hbody : nu.parent = m.body) (huse : m.Uses ⟨u, k⟩ v) : m.Open v := by
  have hin : ∀ {j nj}, m.live? j = some nj → nj.parent = m.body → ∀ e, m.Takes j e →
      m.Free e ∨ ∃ ne, m.live? e = some ne ∧ ne.parent = m.body := by
    intro j nj hj hp e hje
    obtain hfree | ⟨hW, -⟩ | ⟨ne, nj', hne, hj', hin⟩ := (hm hje).inside
    · exact Or.inl hfree
    · cases hW
    · obtain rfl := Option.some.inj (hj.symm.trans hj')
      exact Or.inr ⟨ne, hne, (hs.inside_antisymm (hp ▸ hin) (hs.placed hne).inside)⟩
  have hfree : ∀ {e ne}, m.live? e = some ne → ne.parent = m.body →
      m.Free e ∨ IsInline m e := fun {e ne} hne hp =>
    (em (IsInline m e)).symm.imp_left fun h => ⟨⟨ne, hne, hp ▸ hs.kind?_body⟩, h⟩
  intro d i hdef
  obtain hd | ⟨nd, hnd, hp⟩ := hin hu hbody d ⟨k, v, i, huse, hdef⟩
  · exact Or.inl hd
  · refine (hfree hnd hp).imp_right fun hi => ⟨hi, fun j => ∃ nj, m.live? j = some nj ∧
      nj.parent = m.body, ⟨nd, hnd, hp⟩, fun j ⟨nj, hj, hpj⟩ e hje => ?_⟩
    obtain he | ⟨ne, hne, hpe⟩ := hin hj hpj e hje
    · exact Or.inl he
    · exact (hfree hne hpe).imp_right fun hi => ⟨hi, ne, hne, hpe⟩

theorem Reuses.fed (h : m.Reuses id m') (hs : Sound m) (hf : m.Fitted) (hm : m.Fed []) :
    m'.Fed [] := by
  obtain ⟨-, -, -, -, -, -, ha, -, hroot, -, htarget, -, -, hreads, hdecl⟩ := h
  rename_i n na result target assignment uses others type ttype m₁
  obtain ⟨blk, hblk⟩ := hs.exists_block_of_placed (hs.placed ha)
  have hcore : m.blockCore na.parent = some blk.core := Option.map_eq_some_iff.2 ⟨blk, hblk, rfl⟩
  obtain ⟨hbody, -⟩ := hs.graph_of_no_owner (hs.placed ha) hcore (hroot _ hcore)
  have huse : m.Uses ⟨assignment, 0⟩ target := ⟨na, ha, htarget⟩
  obtain ⟨hm₁, hf₁⟩ := hreads.fed hs hf (hs.usable huse) (hm.open_of_body hs ha hbody huse) hm
  obtain rfl | ⟨d, hd, -, hsettle⟩ := hdecl
  · exact hm₁
  · exact hsettle.fed (hreads.sound hs) hf₁ (fun j hj => hj ▸ hd) hm₁ nofun

end Module

end NetPrep
