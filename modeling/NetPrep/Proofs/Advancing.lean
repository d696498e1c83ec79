import Mathlib
import NetPrep.Proofs.Supplying

/-!
# Steps of a direct module

Each step of preparation keeps a direct module direct, and leaves all but a few nodes in their places.
-/

namespace NetPrep

open Prepare Prep

namespace Module

variable {m m' m'' : Module} {T T' : NodeId → Prop} {id : NodeId} {n : Node} {b : BlockId}
  {pos : Position} {v : ValueId} {u : Use}

/-- A step that may move nodes of a set, and leaves a direct module. -/
structure Advances (T : NodeId → Prop) (m m' : Module) : Prop where
  frame : Frame T m m'
  direct : Direct m'

namespace Advances

theorem refl (hd : Direct m) : Advances T m m := ⟨.refl T m, hd⟩

theorem trans (h : Advances T m m') (h' : Advances T' m' m'') (hd : Direct m)
    (hT : ∀ j n, m.live? j = some n → T' j → T j) : Advances T m m'' :=
  ⟨h.frame.trans h'.frame hd.toWellFormed h.direct.toWellFormed hT, h'.direct⟩

theorem mono (h : Advances T m m') (hd : Direct m)
    (hT : ∀ j n, m.live? j = some n → T j → T' j) : Advances T' m m' :=
  ⟨h.frame.mono hT hd.toWellFormed, h.direct⟩

/-- No node is moved. -/
theorem of_none (h : Advances (fun _ => False) m m') (hd : Direct m) : Advances T m m' :=
  h.mono hd fun _ _ _ hfalse => hfalse.elim

end Advances

/-- Creating a declaration. -/
theorem Creates.advances_declaration {decl : NodeId} {stype type : TypeId}
    (h : m.Creates m' b pos decl n [stype]) (hd : Direct m) (hs' : Sound m')
    (hop : n.op = .wire ∨ n.op = .reg ∨ n.op = .logic) (hops : n.operands = [])
    (hstype : m'.types.get stype = .ok (.storage type)) : Advances T m m' := by
  have hmade : n.op.isMade = true ∧ n.op.isAlwaysInline = false ∧ n.op ≠ .assign := by
    rcases hop with h | h | h <;> simp [h, Op.isMade, Op.isAlwaysInline]
  refine ⟨h.frame hd.toWellFormed hmade.1, hd.creates hs' h hmade.1 (fun hi => ?_)
    (fun ha => absurd ha hmade.2.2) fun _ => ⟨hops, stype, rfl, TypeTable.isStorage_of_get hstype⟩⟩
  rw [hmade.2.1] at hi
  cases hi

/-- Creating an expression that is printed at its uses, or an assignment. -/
theorem Creates.advances_access {types : List TypeId} (h : m.Creates m' b pos id n types)
    (hd : Direct m) (hs' : Sound m') (hop : n.op.isMade = true) (hdecl : n.op.isDeclaration = false)
    (hinline : n.op.isAlwaysInline = true → ∀ v ∈ n.operands, m.IsFixed v)
    (hassign : n.op = .assign → ∀ v, n.operands[0]? = some v → m.IsFixed v) : Advances T m m' :=
  ⟨h.frame hd.toWellFormed hop, hd.creates hs' h hop hinline hassign fun ht => by
    rw [hdecl] at ht
    cases ht⟩

/-- Creating another expression or statement. -/
theorem Creates.advances {types : List TypeId} (h : m.Creates m' b pos id n types)
    (hd : Direct m) (hs' : Sound m') (hop : n.op.isMade = true) (hdecl : n.op.isDeclaration = false)
    (hinline : n.op.isAlwaysInline = false) (hassign : n.op ≠ .assign) : Advances T m m' :=
  h.advances_access hd hs' hop hdecl (fun ht => by
    rw [hinline] at ht
    cases ht) fun ht => absurd ht hassign

theorem Moves.advances (h : m.Moves m' b pos id) (hd : Direct m) (hs' : Sound m') :
    Advances (· = id) m m' :=
  ⟨h.frame hd.toWellFormed, hd.moves hs' h⟩

theorem Erases.advances (h : m.Erases m' id) (hd : Direct m) (hs' : Sound m') :
    Advances (· = id) m m' :=
  ⟨h.frame hd.toWellFormed, hd.erases hs' h⟩

theorem Relabels.advances {name : Option Name → Option Name} {twoState : Bool → Bool}
    (h : m.Relabels m' id name twoState) (hd : Direct m) (hs' : Sound m') : Advances T m m' :=
  ⟨h.frame, hd.relabels hs' h⟩

theorem Redirects.advances_substitute {old new : ValueId}
    (h : m.Redirects m' (substitute old new)) (hd : Direct m) (hs' : Sound m')
    (hold : ¬ m.IsFixed old) (hnew : ¬ m.IsStorage new) : Advances T m m' :=
  ⟨h.frame, hd.substitute hs' h hold hnew⟩

/-- Only the given nodes move when they are settled. -/
theorem Inlines.advances (h : m.Inlines (Settled m T) m') (hd : Direct m) : Advances T m m' :=
  ⟨(h.frame hd.toWellFormed).mono (fun _ _ _ ht => hd.settled ht) hd.toWellFormed, hd.inlines h⟩

/-! ## Reads -/

section

variable {old storage : ValueId} {type : TypeId} {loc : Loc} {us : List Use} {read d : NodeId}
  {nd : Node} {i : Nat}

theorem ReadFor.advances (h : ReadFor old storage type loc u read m m') (hd : Direct m)
    (hold : m.IsComputed old) (hst : m.IsFixed storage) : Advances T m m' := by
  obtain ⟨hu, hnu, hc, hs₁, hr, hs⟩ := h
  have h₁ : Advances T m _ := hc.advances_access hd hs₁ rfl rfl
    (fun _ v hv => by
      obtain rfl : v = storage := by simpa [Node.fresh] using hv
      exact hst)
    fun ha => by cases ha
  have hvalue := h₁.direct.isComputed hc.live?_self rfl (List.mem_singleton_self _)
  exact h₁.trans ⟨hr.frame, h₁.direct.pointAt hs hr (hc.uses_iff.2 (Or.inl hu))
    (Or.inl (hold.mono hc.kept).not_isFixed) hvalue.not_isStorage⟩ hd fun _ _ _ ht => ht

theorem ReadsFor.advances (h : ReadsFor old storage type loc us m m') (hd : Direct m)
    (hold : m.IsComputed old) (hst : m.IsFixed storage) : Advances T m m' := by
  induction h with
  | nil => exact .refl hd
  | cons h _ ih =>
    have h₁ : Advances T _ _ := h.advances hd hold hst
    exact h₁.trans (ih h₁.direct (hold.mono h.kept) (hst.mono h.kept)) hd fun _ _ _ ht => ht

/-- The read that is made for a use is new. -/
theorem ReadFor.fresh (h : ReadFor old storage type loc u read m m') {n : Node} :
    m.live? read ≠ some n := by
  obtain ⟨-, -, hc, -, -, -⟩ := h
  exact fun hn => hc.ne hn rfl

theorem ReadsSettled.advances (h : ReadsSettled old storage type loc us m m') (hd : Direct m)
    (hold : m.IsComputed old) (hst : m.IsFixed storage) : Advances T m m' := by
  induction h with
  | nil => exact .refl hd
  | cons h hsettle _ ih =>
    have h₁ : Advances T _ _ := h.advances hd hold hst
    have h₂ := hsettle.inlines.advances h₁.direct
    have hk := h.kept.trans hsettle.inlines.kept
    exact (h₁.trans h₂ hd fun j n hj ht => absurd (ht ▸ hj) h.fresh).trans
      (ih h₂.direct (hold.mono hk) (hst.mono hk)) hd fun _ _ _ ht => ht

end

/-! ## Temporaries -/

theorem SpillsResult.advances {name : Option Name} {atFront : Bool}
    (h : m.SpillsResult id v name atFront m') (hd : Direct m)
    (hv : m.IsComputed v) : Advances T m m' := by
  obtain ⟨hn, hres, htype, hdecl, hstype, hs₁, huses, hnd, hreads, hconn, hs₃, hmove⟩ := h
  rename_i n type stype decl conn storage uses m₁ m₂ m₃
  have hops := m.temporaryOps_cases n.parent
  have h₁ : Advances T m m₁ := hdecl.advances_declaration hd hs₁
    (by rcases hops with h | h <;> simp [h, Node.fresh]) rfl hstype
  have hst₁ : m₁.IsStorage storage :=
    ⟨decl, 0, _, hdecl.def?_result (i := 0) rfl, core_of_live? hdecl.live?_self, by
      rcases hops with h | h <;> simp [h, Node.fresh, Op.isDeclaration, Op.category]⟩
  have h₂ : Advances T m m₂ := h₁.trans (hreads.advances h₁.direct (hv.mono hdecl.kept)
    (Or.inr hst₁)) hd fun _ _ _ ht => ht
  have hst₂ := hst₁.mono hreads.kept
  have hassign : ∀ w, [storage, v][0]? = some w → m₂.IsFixed w := fun w hw => by
    cases hw
    exact Or.inr hst₂
  have h₃ : Advances T m m₃ := by
    refine h₂.trans (hconn.advances_access h₂.direct hs₃ ?_ ?_ (fun hi => ?_) fun _ => hassign) hd
      fun _ _ _ ht => ht
    · rcases hops with h | h <;> simp [h, Node.fresh, Op.isMade]
    · rcases hops with h | h <;> simp [h, Node.fresh, Op.isDeclaration, Op.category]
    · rcases hops with h | h <;> simp [h, Node.fresh, Op.isAlwaysInline] at hi
  cases atFront with
  | true => exact hmove ▸ h₃
  | false =>
    refine h₃.trans (hmove.1.advances h₃.direct hmove.2) hd fun j n hj ht => ?_
    exact absurd ht (hdecl.ne hj)

theorem SpillsResults.advances {atFront : Bool} {vs : List ValueId}
    (h : SpillsResults id atFront vs m m') (hd : Direct m) (hvs : ∀ v ∈ vs, m.IsComputed v) :
    Advances T m m' := by
  induction h with
  | nil => exact .refl hd
  | cons h _ ih =>
    have h₁ : Advances T _ _ := h.advances hd (hvs _ (by simp))
    exact h₁.trans (ih h₁.direct fun w hw => (hvs w (List.mem_cons_of_mem _ hw)).mono h.kept) hd
      fun _ _ _ ht => ht

theorem Spills.advances {atFront : Bool} (h : m.Spills id atFront m') (hd : Direct m)
    (hop : ∀ n, m.live? id = some n → n.op.isDeclaration = false) : Advances T m m' := by
  cases h with
  | single hn hv hl hs₁ h =>
    have h₁ : Advances T _ _ := hl.advances hd hs₁
    have hv₁ := (hd.isComputed hn (hop _ hn) (hv ▸ List.mem_singleton_self _)).mono hl.kept
    exact h₁.trans (h.advances h₁.direct hv₁) hd fun _ _ _ ht => ht
  | all hn h => exact h.advances hd fun v hv => hd.isComputed hn (hop _ hn) hv

theorem Reuses.advances (h : m.Reuses id m') (hd : Direct m)
    (hop : ∀ n, m.live? id = some n → n.op.isDeclaration = false) : Advances T m m' := by
  obtain ⟨hn, hv, -, -, -, -, ha, hopa, -, hsource, htarget, -, -, hreads, hdecl⟩ := h
  have hst := hd.assigned ha hopa htarget
  have h₁ : Advances T _ _ := hreads.advances hd
    (hd.isComputed hn (hop _ hn) (hv ▸ List.mem_singleton_self _)) hst
  rcases hdecl with rfl | ⟨d, ⟨nd, hnd, hopd⟩, ⟨i, hdef⟩, -⟩
  · exact h₁
  · exact absurd (hst.mono hreads.kept)
      (Module.not_isFixed hdef hnd (Op.isDeclaration_of_isAlwaysInline hopd))

/-! ## Replacing expressions -/

theorem InlineStep.isInline (h : InlineStep id m m') : IsInline m id := by
  cases h with
  | clone hn hop => exact ⟨_, core_of_live? hn, hop⟩
  | move hn hop => exact ⟨_, core_of_live? hn, hop⟩

/-- Settling moves nothing but what is printed at its uses. -/
theorem Inlines.frame_inline (h : Inlines T m m') (hw : WellFormed m) : Frame (IsInline m) m m' := by
  induction h with
  | refl => exact .refl _ _
  | step _ hstep _ ih =>
    have hw₁ := hstep.sound.toWellFormed
    exact ((hstep.frame hw).mono (fun _ _ _ he => he ▸ hstep.isInline) hw).trans (ih hw₁) hw hw₁
      fun j _ hj ht => ht.of_kept hstep.kept hj

theorem SettlesOperands.frame {ids : List NodeId} (h : SettlesOperands ids m m') (hs : Sound m) :
    Frame (IsInline m) m m' := by
  induction h with
  | nil => exact .refl _ _
  | cons _ h _ ih =>
    have hs₁ := h.inlines.sound hs
    exact (h.inlines.frame_inline hs.toWellFormed).trans (ih hs₁) hs.toWellFormed hs₁.toWellFormed
      fun j _ hj ht => ht.of_kept h.inlines.kept hj

theorem SettlesOperands.advances {ids : List NodeId} (h : SettlesOperands ids m m')
    (hd : Direct m) : Advances (IsInline m) m m' := by
  refine ⟨h.frame hd.toSound, ?_⟩
  induction h with
  | nil => exact hd
  | cons _ h _ ih => exact ih (h.inlines.advances hd).direct

/-- Nodes that a step does not move keep their order. -/
theorem Frame.precedes {a x : NodeId} {c : BlockId} (h : Frame T m m')
    (hax : Precedes (m.nodesOf c) a x) (ha : ¬ T a) (hx : ¬ T x) : Precedes (m'.nodesOf c) a x :=
  (h.order ha hx hax.mem_left hax.mem_right).2 hax

theorem Advances.precedes {a x : NodeId} {c : BlockId} (h : Advances T m m')
    (hax : Precedes (m.nodesOf c) a x) (ha : ¬ T a) (hx : ¬ T x) : Precedes (m'.nodesOf c) a x :=
  h.frame.precedes hax ha hx

/-- A new node comes right before the one that it is put before. -/
theorem Creates.precedes_before {a : NodeId} {types : List TypeId}
    (hc : m.Creates m' b (.before a) id n types) (hw : WellFormed m) (ha : a ∈ m.nodesOf b) :
    Precedes (m'.nodesOf b) id a := by
  have hnot : id ∉ m.nodesOf b := fun hm => by
    obtain ⟨n', hn', -⟩ := hw.mem_nodesOf_iff.1 hm
    exact hc.ne hn' rfl
  rw [hc.nodesOf, if_pos rfl]
  exact (Precedes.insertBefore_iff (hw.nodup b) ha hnot).2 (Or.inr (Or.inl ⟨rfl, Or.inl rfl⟩))

/-- What came before a node comes before a new one that is put before it. -/
theorem Creates.precedes_of_before {a x : NodeId} {types : List TypeId}
    (hc : m.Creates m' b (.before a) id n types) (hw : WellFormed m) (ha : a ∈ m.nodesOf b)
    (hx : Precedes (m.nodesOf b) x a) :
    Precedes (m'.nodesOf b) x a ∧ Precedes (m'.nodesOf b) x id := by
  have hnot : id ∉ m.nodesOf b := fun hm => by
    obtain ⟨n', hn', -⟩ := hw.mem_nodesOf_iff.1 hm
    exact hc.ne hn' rfl
  rw [hc.nodesOf, if_pos rfl]
  exact ⟨(Precedes.insertBefore_iff (hw.nodup b) ha hnot).2 (Or.inl hx),
    (Precedes.insertBefore_iff (hw.nodup b) ha hnot).2 (Or.inr (Or.inr ⟨rfl, hx⟩))⟩

section

variable {shape : TreeShape} {tree : OperandTree} {ids : List NodeId}

theorem Grows.advances (h : Grows shape tree v ids m m') (hd : Direct m)
    (hop : shape.op.isCommutative = true) : Advances T m m' := by
  induction h with
  | leaf => exact .refl hd
  | branch _ _ ha hc hs ih₁ ih₂ =>
    have h₁ := ih₁ hd
    have h₂ := h₁.trans (ih₂ h₁.direct) hd fun _ _ _ ht => ht
    refine h₂.trans (hc.advances h₂.direct hs (Op.isMade_of_isCommutative hop) ?_ ?_ ?_) hd
      fun _ _ _ ht => ht
    all_goals
      change shape.op.isCommutative = true at hop
      cases hshape : shape.op <;> simp_all [Node.fresh, Op.isDeclaration, Op.category,
        Op.isAlwaysInline, Op.isCommutative]

/-- Growing a tree moves nothing. -/
theorem Grows.frame {T : NodeId → Prop} (h : Grows shape tree v ids m m') (hs : Sound m)
    (hop : shape.op.isCommutative = true) : Frame T m m' := by
  induction h with
  | leaf => exact .refl _ _
  | branch hleft hright _ hc _ ih₁ ih₂ =>
    have hs₁ := hleft.sound hs
    have hs₂ := hright.sound hs₁
    exact ((ih₁ hs).trans (ih₂ hs₁) hs.toWellFormed hs₁.toWellFormed fun _ _ _ ht => ht).trans
      (hc.frame hs₂.toWellFormed (Op.isMade_of_isCommutative hop)) hs.toWellFormed hs₂.toWellFormed
      fun _ _ _ ht => ht

/-- The nodes of a tree come before its anchor. -/
theorem Grows.precedes (h : Grows shape tree v ids m m') (hs : Sound m)
    (hop : shape.op.isCommutative = true) {j : NodeId} (hj : j ∈ ids) {na : Node}
    (ha : m.live? shape.anchor = some na) : Precedes (m'.nodesOf na.parent) j shape.anchor := by
  induction h with
  | leaf => cases hj
  | @branch left right lhs rhs value lefts rights id na₂ m m₁ m₂ m' hleft hright ha₂ hc hs' ih₁ ih₂ =>
    have hs₁ := hleft.sound hs
    have hs₂ := hright.sound hs₁
    have ha₁ := hleft.live ha
    obtain rfl := Option.some.inj (ha₂.symm.trans (hright.live ha₁))
    simp only [List.append_assoc, List.mem_append, List.mem_singleton] at hj
    rcases hj with hj | hj | rfl
    · have h₂ : Frame (fun _ => False) m₁ m₂ := hright.frame hs₁ hop
      exact (hc.precedes_of_before hs₂.toWellFormed (hs₂.mem_nodesOf ha₂) (h₂.precedes
        (ih₁ hs hj ha) not_false not_false)).1
    · exact (hc.precedes_of_before hs₂.toWellFormed (hs₂.mem_nodesOf ha₂) (ih₂ hs₁ hj ha₁)).1
    · exact hc.precedes_before hs₂.toWellFormed (hs₂.mem_nodesOf ha₂)

/-- What came before the anchor comes before the nodes of the tree. -/
theorem Grows.follows (h : Grows shape tree v ids m m') (hs : Sound m)
    (hop : shape.op.isCommutative = true) {na : Node} (ha : m.live? shape.anchor = some na)
    {x : NodeId} (hx : Precedes (m.nodesOf na.parent) x shape.anchor) :
    ∀ j ∈ ids, Precedes (m'.nodesOf na.parent) x j := by
  induction h with
  | leaf => simp
  | @branch left right lhs rhs value lefts rights id na₂ m m₁ m₂ m' hleft hright ha₂ hc hs' ih₁ ih₂ =>
    have hs₁ := hleft.sound hs
    have hs₂ := hright.sound hs₁
    have h₂ : Frame (fun _ => False) m₁ m₂ := hright.frame hs₁ hop
    have ha₁ := hleft.live ha
    obtain rfl := Option.some.inj (ha₂.symm.trans (hright.live ha₁))
    have hx₁ := (hleft.frame (T := fun _ => False) hs hop).precedes hx not_false not_false
    have hframe : Frame (fun _ => False) m₂ m' :=
      hc.frame hs₂.toWellFormed (Op.isMade_of_isCommutative hop)
    intro j hj
    simp only [List.append_assoc, List.mem_append, List.mem_singleton] at hj
    rcases hj with hj | hj | rfl
    · exact hframe.precedes (h₂.precedes (ih₁ hs ha hx j hj) not_false not_false) not_false not_false
    · exact hframe.precedes (ih₂ hs₁ ha₁ hx₁ j hj) not_false not_false
    · exact (hc.precedes_of_before hs₂.toWellFormed (hs₂.mem_nodesOf ha₂)
        (h₂.precedes hx₁ not_false not_false)).2

/-- The nodes of a tree stand in the order in which they are made. -/
theorem Grows.ordered (h : Grows shape tree v ids m m') (hs : Sound m)
    (hop : shape.op.isCommutative = true) {na : Node} (ha : m.live? shape.anchor = some na) :
    ids.Pairwise (Precedes (m'.nodesOf na.parent)) := by
  induction h with
  | leaf => exact .nil
  | @branch left right lhs rhs value lefts rights id na₂ m m₁ m₂ m' hleft hright ha₂ hc hs' ih₁ ih₂ =>
    have hs₁ := hleft.sound hs
    have hs₂ := hright.sound hs₁
    have h₂ : Frame (fun _ => False) m₁ m₂ := hright.frame hs₁ hop
    have ha₁ := hleft.live ha
    obtain rfl := Option.some.inj (ha₂.symm.trans (hright.live ha₁))
    have hlefts : ∀ j ∈ lefts, Precedes (m₁.nodesOf na₂.parent) j shape.anchor := fun j hj =>
      hleft.precedes hs hop hj ha
    have hbefore : ∀ j ∈ lefts ++ rights, Precedes (m₂.nodesOf na₂.parent) j shape.anchor :=
      List.forall_mem_append.2 ⟨fun j hj => h₂.precedes (hlefts j hj) not_false not_false,
        fun j hj => hright.precedes hs₁ hop hj ha₁⟩
    have hordered : (lefts ++ rights).Pairwise (Precedes (m₂.nodesOf na₂.parent)) :=
      List.pairwise_append.2 ⟨(ih₁ hs ha).imp fun hp => h₂.precedes hp not_false not_false,
        ih₂ hs₁ ha₁, fun j hj => hright.follows hs₁ hop ha₁ (hlefts j hj)⟩
    have hframe : Frame (fun _ => False) m₂ m' :=
      hc.frame hs₂.toWellFormed (Op.isMade_of_isCommutative hop)
    refine List.pairwise_append.2 ⟨hordered.imp fun hp => hframe.precedes hp not_false not_false,
      List.pairwise_singleton _ _, fun j hj k hk => ?_⟩
    obtain rfl := List.mem_singleton.1 hk
    exact (hc.precedes_of_before hs₂.toWellFormed (hs₂.mem_nodesOf ha₂) (hbefore j hj)).2

end

/-- A node has taken the place of another one: it is in its block, and what came after that one comes
after it. -/
structure Succeeds (T : NodeId → Prop) (id target : NodeId) (m m' : Module) : Prop where
  mem : ∀ {c}, id ∈ m.nodesOf c → target ∈ m'.nodesOf c
  precedes : ∀ {x c}, ¬ T x → Precedes (m.nodesOf c) id x → Precedes (m'.nodesOf c) target x

/-- A node that is made before another one takes its place. -/
theorem Creates.succeeds {target : NodeId} {nt : Node} {types : List TypeId}
    (hc : m.Creates m' n.parent (.before id) target nt types) (hw : WellFormed m)
    (hn : m.live? id = some n) : Succeeds (fun _ => False) id target m m' := by
  have hparent : ∀ {c}, id ∈ m.nodesOf c → n.parent = c := fun hid => by
    obtain ⟨n', hn', hp⟩ := hw.mem_nodesOf_iff.1 hid
    rw [hn] at hn'
    cases hn'
    exact hp
  have hnot : target ∉ m.nodesOf n.parent := fun hm => by
    obtain ⟨nt', hnt', -⟩ := hw.mem_nodesOf_iff.1 hm
    exact hc.ne hnt' rfl
  constructor
  · intro c hid
    obtain rfl := hparent hid
    rw [hc.nodesOf, if_pos rfl]
    exact (mem_insertBefore_iff hid).2 (Or.inl rfl)
  · intro x c _ hprec
    obtain rfl := hparent hprec.mem_left
    rw [hc.nodesOf, if_pos rfl]
    exact (Precedes.insertBefore_iff (hw.nodup _) (hw.mem_nodesOf hn) hnot).2
      (Or.inr (Or.inl ⟨rfl, Or.inr hprec⟩))

theorem Succeeds.mono {target : NodeId} (h : Succeeds T id target m m') (hT : ∀ j, T j → T' j) :
    Succeeds T' id target m m' := ⟨h.mem, fun hx => h.precedes fun ht => hx (hT _ ht)⟩

/-- Further steps that do not move the node leave it there. -/
theorem Succeeds.frame {target : NodeId} (h : Succeeds (fun _ => False) id target m m')
    (h' : Frame T' m' m'') (hw : WellFormed m) (hw' : WellFormed m') (hw'' : WellFormed m'')
    (htarget : ¬ T' target) (hT : ∀ j n, m.live? j = some n → T' j → T j) :
    Succeeds T id target m m'' where
  mem hid := h'.mem_nodesOf hw' hw'' (h.mem hid) htarget
  precedes {x c} hx hprec := by
    obtain ⟨nx, hnx, -⟩ := hw.mem_nodesOf_iff.1 hprec.mem_right
    exact h'.precedes (h.precedes not_false hprec) htarget fun ht => hx (hT x nx hnx ht)

/-- The nodes of a tree take the place of its anchor. -/
theorem Grows.succeeds {shape : TreeShape} {tree : OperandTree} {ids : List NodeId}
    (h : Grows shape tree v ids m m') (hs : Sound m) (hop : shape.op.isCommutative = true)
    {j : NodeId} (hj : j ∈ ids) (hn : m.live? shape.anchor = some n) :
    Succeeds (fun _ => False) shape.anchor j m m' := by
  have hframe : Frame (fun _ => False) m m' := h.frame hs hop
  have hbefore := h.precedes hs hop hj hn
  have hparent : ∀ {c}, shape.anchor ∈ m.nodesOf c → n.parent = c := fun hid => by
    obtain ⟨n', hn', hp⟩ := hs.mem_nodesOf_iff.1 hid
    rw [hn] at hn'
    cases hn'
    exact hp
  constructor
  · intro c hid
    exact hparent hid ▸ hbefore.mem_left
  · intro x c _ hprec
    rw [hparent hprec.mem_left] at hbefore
    exact hbefore.trans ((h.sound hs).nodup c) (hframe.precedes hprec not_false not_false)

/-- The value of a tree with a branch is computed by its last node. -/
theorem Grows.isComputed {left right : OperandTree} {shape : TreeShape} {ids : List NodeId}
    (h : Grows shape (.branch left right) v ids m m') (hd' : Direct m')
    (hop : shape.op.isCommutative = true) : m'.IsComputed v := by
  cases h with
  | branch _ _ _ hc _ =>
    refine hd'.isComputed hc.live?_self ?_ (List.mem_singleton_self _)
    cases hshape : shape.op <;> simp_all [Node.fresh, Op.isDeclaration, Op.category,
      Op.isCommutative]

/-- Once its tree is made, nothing is moved for the sake of an operator but itself and what is printed
at its uses. -/
theorem Balances.exists_grows {ids : List NodeId} (h : m.Balances id ids m') (hs : Sound m)
    (hn : m.live? id = some n) (hop : n.op.isCommutative = true) :
    ∃ shape tree root m₁, shape.op.isCommutative = true ∧ shape.anchor = id ∧
      Grows shape tree root ids m m₁ ∧ Frame (fun j => j = id ∨ IsInline m₁ j) m₁ m' ∧
        Sound m' := by
  obtain ⟨hn', -, -, -, hopn, hanchor, hgrow, hname, hs₂, hr, hs₃, -, he, hs₄, hsettle, -, -⟩ := h
  obtain rfl := Option.some.inj (hn.symm.trans hn')
  rename_i tree old root shape name rootNode m₁ m₂ m₃ m₄
  have hs₁ := hgrow.sound hs
  have h₁₂ : Frame (fun j => j = id ∨ IsInline m₁ j) m₁ m₂ := by
    rcases hname with rfl | hl
    · exact .refl _ _
    · exact hl.frame
  have h₁₃ := h₁₂.trans hr.frame hs₁.toWellFormed hs₂.toWellFormed fun _ _ _ ht => ht
  have h₁₄ := h₁₃.trans (he.frame hs₃.toWellFormed) hs₁.toWellFormed hs₃.toWellFormed
    fun _ _ _ ht => Or.inl ht
  exact ⟨shape, tree, root, m₁, hopn ▸ hop, hanchor, hgrow, h₁₄.trans (hsettle.frame hs₄)
    hs₁.toWellFormed hs₄.toWellFormed fun j _ hj ht => Or.inr (ht.of_kept h₁₄.kept hj),
    hsettle.sound hs₄⟩

theorem Balances.frame {ids : List NodeId} (h : m.Balances id ids m') (hs : Sound m)
    (hn : m.live? id = some n) (hop : n.op.isCommutative = true) :
    Frame (fun j => j = id ∨ IsInline m j) m m' := by
  obtain ⟨shape, tree, root, m₁, hcomm, -, hgrow, hrest, -⟩ := h.exists_grows hs hn hop
  exact (hgrow.frame hs hcomm).trans hrest hs.toWellFormed (hgrow.sound hs).toWellFormed
    fun j _ hj ht => ht.imp_right fun h => h.of_kept hgrow.kept hj

/-- The nodes of the tree stay in the order in which they are made, and where the operator was. -/
theorem Balances.ordered {ids : List NodeId} (h : m.Balances id ids m') (hs : Sound m)
    (hn : m.live? id = some n) (hop : n.op.isCommutative = true) :
    ids.Pairwise (Precedes (m'.nodesOf n.parent)) ∧
      ∀ j ∈ ids, Succeeds (fun j => j = id ∨ IsInline m j) id j m m' := by
  obtain ⟨shape, tree, root, m₁, hcomm, rfl, hgrow, hrest, hs'⟩ := h.exists_grows hs hn hop
  have hstay : ∀ j ∈ ids, ¬ (j = shape.anchor ∨ IsInline m₁ j) := by
    rintro j hj (rfl | hin)
    · exact absurd (lt_of_live? hn) (Nat.not_lt.2 (hgrow.fresh_ids _ hj))
    · obtain ⟨nj, hnj, hopj⟩ := hgrow.live_ids j hj
      obtain ⟨nj', hnj', hinline⟩ := hin
      obtain rfl := Option.some.inj ((core_of_live? hnj).symm.trans hnj')
      rw [hopj, Op.isAlwaysInline_of_isCommutative hcomm] at hinline
      cases hinline
  exact ⟨(hgrow.ordered hs hcomm hn).imp_of_mem fun hj hk hp =>
      hrest.precedes hp (hstay _ hj) (hstay _ hk),
    fun j hj => (hgrow.succeeds hs hcomm hj hn).frame hrest hs.toWellFormed
      (hgrow.sound hs).toWellFormed hs'.toWellFormed (hstay j hj)
      fun k _ hk ht => ht.imp_right fun h => h.of_kept hgrow.kept hk⟩

theorem Balances.advances {ids : List NodeId} (h : m.Balances id ids m') (hd : Direct m)
    (hn : m.live? id = some n) (hop : n.op.isCommutative = true) (hlen : 1 < n.operands.length) :
    Advances (fun j => j = id ∨ IsInline m j) m m' := by
  refine ⟨h.frame hd.toSound hn hop, ?_⟩
  obtain ⟨hn', htree, hold, -, hopn, hanchor, hgrow, hname, hs₂, hr, hs₃, -, he, hs₄, hsettle, -, -⟩ := h
  obtain rfl := Option.some.inj (hn.symm.trans hn')
  rename_i tree old root shape name rootNode m₁ m₂ m₃ m₄
  have hcomm : shape.op.isCommutative = true := hopn ▸ hop
  have h₁ : Advances (fun _ => False) m m₁ := hgrow.advances hd hcomm
  obtain ⟨left, right, rfl⟩ := OperandTree.exists_branch_of_balanced? htree hlen
  have hroot₁ := hgrow.isComputed h₁.direct hcomm
  have h₂ : Advances (fun _ => False) m₁ m₂ := by
    rcases hname with rfl | hl
    · exact .refl h₁.direct
    · exact hl.advances h₁.direct hs₂
  have hold₂ : m₂.IsComputed old :=
    ((hd.isComputed hn (Op.isDeclaration_of_isCommutative hop) (List.mem_of_getElem? hold)).mono
      h₁.frame.kept).mono h₂.frame.kept
  have h₃ : Advances (fun _ => False) m₂ m₃ := hr.advances_substitute h₂.direct hs₃
    hold₂.not_isFixed (hroot₁.mono h₂.frame.kept).not_isStorage
  exact (hsettle.advances (he.advances h₃.direct hs₄).direct).direct

/-- The nodes that replacing a node may move or erase: the node, what is printed at its uses, and a
constant that goes with it. -/
def Displaced (m m' : Module) (id j : NodeId) : Prop :=
  j = id ∨ IsInline m j ∨ (m.HasOp (·.isConstant = true) j ∧ m'.live? j = none)

/-- The nodes that are moved or erased once a subtraction is made: the addition, what is printed at its
uses, and the constant that was added. -/
def Subtracted (m m' : Module) (id constant j : NodeId) : Prop :=
  j = id ∨ IsInline m j ∨ (j = constant ∧ m'.live? constant = none)

theorem Subtracted.of_kept {constant j : NodeId} (h : m'.Subtracted m'' id constant j) (hk : m.Kept m')
    (hj : m.live? j = some n) : m.Subtracted m'' id constant j :=
  h.imp_right fun h => h.imp_left fun h => h.of_kept hk hj

/-- The rest of turning an addition into a subtraction. -/
theorem SettlesOperands.frame_subtracted {m₁ m₂ m₃ : Module} {constant : NodeId} {ids : List NodeId}
    {old new : ValueId} {P Q : Prop} (h : SettlesOperands ids m₃ m') (hs : Sound m)
    (hr : m.Redirects m₁ (substitute old new)) (hs₁ : Sound m₁) (he : m₁.Erases m₂ id)
    (hs₂ : Sound m₂) (hconst : (m₂ = m₃ ∧ P) ∨ (Q ∧ m₂.Erases m₃ constant)) (hs₃ : Sound m₃)
    (hlt : constant.index < m.nodes.size) : Frame (m.Subtracted m' id constant) m m' := by
  have hw := hs.toWellFormed
  have hframe := h.frame hs₃
  have hk := hr.kept.trans he.kept
  have h₂₃ : Frame (fun j => j = constant ∧ m'.live? constant = none) m₂ m₃ := by
    rcases hconst with ⟨rfl, -⟩ | ⟨-, he'⟩
    · exact .refl _ _
    · have hgone := hframe.gone ((he'.live? constant).trans (if_pos rfl))
        (hlt.trans_le (hk.trans he'.kept).nodes_size)
      exact (he'.frame hs₂.toWellFormed).mono (fun j _ _ ht => ⟨ht, hgone⟩) hs₂.toWellFormed
  have ha := hr.frame.trans (T := m.Subtracted m' id constant) (he.frame hs₁.toWellFormed) hw
    hs₁.toWellFormed fun _ _ _ ht => Or.inl ht
  exact (ha.trans h₂₃ hw hs₂.toWellFormed fun _ _ _ ht => Or.inr (Or.inr ht)).trans hframe hw
    hs₃.toWellFormed fun j _ hj ht => Or.inr (Or.inl (ht.of_kept (hk.trans h₂₃.kept) hj))

/-- Another node than the constant that is added, and that is not printed at its uses, stays. -/
theorem Creates.not_subtracted {constant j : NodeId} {nj : Node} {m₁ : Module} {types : List TypeId}
    (h : m.Creates m₁ b pos j nj types) (hk : m₁.Kept m'') (hid : m.live? id = some n)
    {nc : Node} (hc : m.live? constant = some nc) (hinline : nj.op.isAlwaysInline = false) :
    ¬ m''.Subtracted m' id constant j := by
  rintro (rfl | hin | ⟨rfl, -⟩)
  · exact h.ne hid rfl
  · obtain ⟨nj', hnj', hop⟩ := hin.of_kept hk h.live?_self
    obtain rfl := Option.some.inj ((core_of_live? h.live?_self).symm.trans hnj')
    exact Bool.false_ne_true (hinline.symm.trans hop)
  · exact h.ne hc rfl

/-- The positive constant takes the place of the addition, and the negative one is at most erased. -/
theorem Subtracts.frame {constant positive : NodeId} {value : Int}
    (h : m.Subtracts id constant value positive m') (hs : Sound m) :
    Frame (m.Displaced m' id) m m' ∧ Succeeds (m.Displaced m' id) id positive m m' := by
  obtain ⟨hn, -, -, -, hc, hcop, -, -, -, -, hpos, hs₁, hsub, hs₂, hr, hs₃, -, he, hs₄, hconst, hs₅,
    hsettle⟩ := h
  rename_i m₁ m₂ m₃ m₄ m₅ width
  have hw := hs.toWellFormed
  have hw₁ := hs₁.toWellFormed
  have hk := hpos.kept.trans hsub.kept
  have hrest := hsettle.frame_subtracted hs₂ hr hs₃ he hs₄ hconst hs₅
    ((lt_of_live? hc).trans_le hk.nodes_size)
  have h₁₂ : Frame (fun _ => False) m₁ m₂ := hsub.frame hw₁ rfl
  have h₀₂ := (hpos.frame (T := m.Displaced m' id) hw rfl).trans h₁₂ hw hw₁ fun _ _ _ => False.elim
  have hback : ∀ j nj, m.live? j = some nj → m₂.Subtracted m' id constant j → m.Displaced m' id j := by
    intro j nj hj ht
    obtain ht | ht | ⟨rfl, hgone⟩ := ht.of_kept hk hj
    · exact Or.inl ht
    · exact Or.inr (Or.inl ht)
    · exact Or.inr (Or.inr ⟨⟨_, core_of_live? hc, by rw [hcop]; rfl⟩, hgone⟩)
  exact ⟨h₀₂.trans hrest hw hs₂.toWellFormed hback, ((hpos.succeeds hw hn).frame h₁₂ hw hw₁
    hs₂.toWellFormed not_false fun _ _ _ ht => ht).frame hrest hw hs₂.toWellFormed
    (hsettle.sound hs₅).toWellFormed (hpos.not_subtracted hsub.kept hn hc rfl) hback⟩

theorem Subtracts.advances {constant positive : NodeId} {value : Int}
    (h : m.Subtracts id constant value positive m') (hd : Direct m) :
    Advances (m.Displaced m' id) m m' := by
  refine ⟨(h.frame hd.toSound).1, ?_⟩
  obtain ⟨hn, hop, hops, hrhs, hc, hcop, hneg, hold, htype, hwidth, hpos, hs₁, hsub, hs₂, hr, hs₃, -,
    he, hs₄, hconst, hs₅, hsettle⟩ := h
  rename_i n nc lhs rhs old positiveValue difference type sub m₁ m₂ m₃ m₄ m₅ width
  have hdecl : n.op.isDeclaration = false := by rw [hop]; rfl
  have h₁ : Advances (fun _ => False) m m₁ :=
    hpos.advances hd hs₁ rfl rfl rfl (by simp [Node.fresh])
  have h₁₂ : Advances (fun _ => False) m₁ m₂ :=
    hsub.advances h₁.direct hs₂ rfl rfl rfl (by simp [Node.fresh])
  have hold₂ : m₂.IsComputed old :=
    (hd.isComputed hn hdecl (List.mem_of_getElem? hold)).mono (hpos.kept.trans hsub.kept)
  have hdiff : m₂.IsComputed difference :=
    h₁₂.direct.isComputed hsub.live?_self rfl (List.mem_singleton_self _)
  have h₂₃ : Advances (fun _ => False) m₂ m₃ := hr.advances_substitute h₁₂.direct hs₃
    hold₂.not_isFixed hdiff.not_isStorage
  have h₃₄ := he.advances h₂₃.direct hs₄
  have hd₅ : Direct m₅ := by
    rcases hconst with ⟨rfl, -⟩ | ⟨-, he'⟩
    · exact h₃₄.direct
    · exact (he'.advances h₃₄.direct hs₅).direct
  exact (hsettle.advances hd₅).direct

section

variable {input : ValueId} {loc : Loc} {fields : List (ValueId × Name)} {ids : List NodeId}
  {j : NodeId}

theorem Extracts.advances (h : Extracts id input loc fields ids m m') (hd : Direct m)
    (hfields : ∀ f ∈ fields, m.IsComputed f.1) : Advances T m m' := by
  induction h with
  | nil => exact .refl hd
  | @cons result value field rest extract ids na type m m₁ m₂ m' ha htype hc hs₁ hr hs₂ hrest ih =>
    have h₁ : Advances T m m₁ := hc.advances hd hs₁ rfl rfl rfl (by simp [Node.fresh])
    have hvalue : m₁.IsComputed value :=
      h₁.direct.isComputed hc.live?_self rfl (List.mem_singleton_self _)
    have hresult : m₁.IsComputed result := (hfields (result, field) (by simp)).mono hc.kept
    have h₂ : Advances T m m₂ := h₁.trans (hr.advances_substitute h₁.direct hs₂
      hresult.not_isFixed hvalue.not_isStorage) hd fun _ _ _ (ht : T _) => ht
    exact h₂.trans (ih h₂.direct fun f hf =>
      (hfields f (List.mem_cons_of_mem _ hf)).mono h₂.frame.kept) hd fun _ _ _ ht => ht

/-- Selecting fields moves no node. -/
theorem Extracts.frame (h : Extracts id input loc fields ids m m') (hs : Sound m) :
    Sound m' ∧ Frame T m m' := by
  induction h with
  | nil => exact ⟨hs, .refl _ _⟩
  | cons _ _ hc hs₁ hr hs₂ _ ih =>
    obtain ⟨hs', hrest⟩ := ih hs₂
    exact ⟨hs', ((hc.frame hs.toWellFormed rfl).trans hr.frame hs.toWellFormed hs₁.toWellFormed
      fun _ _ _ ht => ht).trans hrest hs.toWellFormed hs₂.toWellFormed fun _ _ _ ht => ht⟩

/-- The selections stand in the order in which they are made, behind what came before the node. -/
theorem Extracts.ordered (h : Extracts id input loc fields ids m m') (hs : Sound m)
    (hid : id ∈ m.nodesOf b) : ids.Pairwise (Precedes (m'.nodesOf b)) ∧
      ∀ x, Precedes (m.nodesOf b) x id → ∀ j ∈ ids, Precedes (m'.nodesOf b) x j := by
  induction h with
  | nil => exact ⟨.nil, nofun⟩
  | @cons result value field rest extract ids na type m m₁ m₂ m' ha htype hc hs₁ hr hs₂ hrest ih =>
    obtain ⟨n, hn, rfl⟩ := hs.mem_nodesOf_iff.1 hid
    obtain rfl := Option.some.inj (hn.symm.trans ha)
    obtain ⟨hordered, hfollow⟩ := ih hs₂ (hs₂.mem_nodesOf_iff.2 ⟨_, hr.live (hc.live hn), rfl⟩)
    have hbefore : Precedes (m₂.nodesOf n.parent) extract id := by
      rw [hr.nodesOf]
      exact hc.precedes_before hs.toWellFormed hid
    have hkeep : ∀ {x}, Precedes (m.nodesOf n.parent) x id → Precedes (m₂.nodesOf n.parent) x id ∧
        Precedes (m₂.nodesOf n.parent) x extract := fun hx => by
      rw [hr.nodesOf]
      exact hc.precedes_of_before hs.toWellFormed hid hx
    obtain ⟨-, hframe⟩ := hrest.frame (T := fun _ => False) hs₂
    refine ⟨List.pairwise_cons.2 ⟨hfollow extract hbefore, hordered⟩,
      fun x hx => List.forall_mem_cons.2 ⟨?_, hfollow x (hkeep hx).1⟩⟩
    exact hframe.precedes (hkeep hx).2 not_false not_false

/-- The selections are other nodes than the one they are made for, and are not printed at their uses. -/
theorem Extracts.stay (h : Extracts id input loc fields ids m m') (hs : Sound m)
    (hn : m.live? id = some n) : ∀ j ∈ ids, ¬ (j = id ∨ IsInline m' j) := by
  induction h generalizing n with
  | nil => nofun
  | cons _ _ hc hs₁ hr hs₂ hrest ih =>
    refine List.forall_mem_cons.2 ⟨?_, ih hs₂ (hr.live (hc.live hn))⟩
    obtain ⟨-, hframe⟩ := hrest.frame (T := fun _ => False) hs₂
    rintro (rfl | hin)
    · exact hc.ne hn rfl
    · obtain ⟨ne, hne, hinline⟩ := hin.of_kept (hr.kept.trans hframe.kept) hc.live?_self
      obtain rfl := Option.some.inj ((core_of_live? hc.live?_self).symm.trans hne)
      cases hinline

/-- The first selection takes the place of the node. -/
theorem Extracts.succeeds (h : Extracts id input loc fields ids m m') (hs : Sound m)
    (hn : m.live? id = some n) (hj : ids.head? = some j) : Succeeds (fun _ => False) id j m m' := by
  cases h with
  | nil => cases hj
  | cons ha _ hc hs₁ hr hs₂ hrest =>
    cases hj
    obtain rfl := Option.some.inj (hn.symm.trans ha)
    obtain ⟨hs', h₃⟩ := hrest.frame (T := fun _ => False) hs₂
    exact (hc.succeeds hs.toWellFormed hn).frame (hr.frame.trans h₃ hs₁.toWellFormed hs₂.toWellFormed
      fun _ _ _ ht => ht) hs.toWellFormed hs₁.toWellFormed hs'.toWellFormed not_false
      fun _ _ _ ht => ht

end

/-- Once the selections are made, nothing is moved but the node and what is printed at its uses. The
selections take its place, in the order in which they are made. -/
theorem Explodes.frame {ids : List NodeId} (h : m.Explodes id ids m') (hs : Sound m)
    (hn : m.live? id = some n) : Frame (fun j => j = id ∨ IsInline m j) m m' ∧
      ids.Pairwise (Precedes (m'.nodesOf n.parent)) ∧
      ∀ j, ids.head? = some j → Succeeds (fun j => j = id ∨ IsInline m j) id j m m' := by
  obtain ⟨-, -, -, -, hextract, -, he, hs₂, hsettle⟩ := h
  rename_i m₁ m₂
  obtain ⟨hs₁, h₁⟩ := hextract.frame (T := fun j => j = id ∨ IsInline m j) hs
  have hall : Frame (fun j => j = id ∨ IsInline m₁ j) m₁ m' :=
    ((he.frame hs₁.toWellFormed).mono (fun _ _ _ ht => Or.inl ht) hs₁.toWellFormed).trans
      (hsettle.frame hs₂) hs₁.toWellFormed hs₂.toWellFormed
      fun j nj hj ht => Or.inr (ht.of_kept he.kept hj)
  have hback : ∀ j nj, m.live? j = some nj → (j = id ∨ IsInline m₁ j) → j = id ∨ IsInline m j :=
    fun j nj hj ht => ht.imp_right fun h => h.of_kept h₁.kept hj
  have hstay := hextract.stay hs hn
  exact ⟨h₁.trans hall hs.toWellFormed hs₁.toWellFormed hback,
    (hextract.ordered hs (hs.mem_nodesOf hn)).1.imp_of_mem fun hj hk hp => hall.precedes hp (hstay _ hj) (hstay _ hk),
    fun j hj => (hextract.succeeds hs hn hj).frame hall hs.toWellFormed hs₁.toWellFormed
      (hsettle.sound hs₂).toWellFormed (hstay j (List.mem_of_mem_head? hj)) hback⟩

theorem Explodes.advances {ids : List NodeId} (h : m.Explodes id ids m') (hd : Direct m)
    (hn : m.live? id = some n) (hop : n.op = .structExplode) :
    Advances (fun j => j = id ∨ IsInline m j) m m' := by
  refine ⟨(h.frame hd.toSound hn).1, ?_⟩
  obtain ⟨hn', hops, htype, hfields, hextract, -, he, hs₂, hsettle⟩ := h
  obtain rfl := Option.some.inj (hn.symm.trans hn')
  have hdecl : n.op.isDeclaration = false := by rw [hop]; rfl
  have h₁ : Advances (fun _ => False) m _ := hextract.advances hd fun f hf =>
    hd.isComputed hn hdecl (List.of_mem_zip hf).1
  exact (hsettle.advances (he.advances h₁.direct hs₂).direct).direct

/-- The first node that is put in the place of a node comes where that one was. -/
theorem Replaces.frame {target : NodeId} (h : m.Replaces id target m') (hs : Sound m) :
    Frame (m.Displaced m' id) m m' ∧ Succeeds (m.Displaced m' id) id target m m' := by
  have hsub : ∀ j, (j = id ∨ IsInline m j) → m.Displaced m' id j := fun j ht => ht.imp_right Or.inl
  cases h with
  | balance hn hop _ hids h =>
    exact ⟨(h.frame hs hn hop).mono (fun j _ _ => hsub j) hs.toWellFormed,
      ((h.ordered hs hn hop).2 target (List.mem_of_head? hids)).mono hsub⟩
  | subtract h => exact h.frame hs
  | explode hn _ hids h =>
    obtain ⟨hf, -, hsucc⟩ := h.frame hs hn
    exact ⟨hf.mono (fun j _ _ => hsub j) hs.toWellFormed, (hsucc target hids).mono hsub⟩

theorem Replaces.advances {target : NodeId} (h : m.Replaces id target m') (hd : Direct m) :
    Advances (m.Displaced m' id) m m' := by
  refine ⟨(h.frame hd.toSound).1, ?_⟩
  cases h with
  | balance hn hop hlen _ h => exact (h.advances hd hn hop (Nat.lt_of_succ_lt hlen)).direct
  | subtract h => exact (h.advances hd).direct
  | explode hn hop _ h => exact (h.advances hd hn hop).direct

/-! ## Out of procedural code -/

theorem Hoists.advances (h : m.Hoists id m') (hd : Direct m) : Advances (· = id) m m' := by
  obtain ⟨-, -, -, hm, hs⟩ := h
  exact hm.advances hd hs

theorem LeavesProcess.advances (h : m.LeavesProcess id m') (hd : Direct m) :
    Advances (· = id) m m' := by
  obtain ⟨-, -, -, hm, hs⟩ := h
  exact hm.advances hd hs

theorem Captures.advances (h : m.Captures id m') (hd : Direct m)
    (hop : ∀ n, m.live? id = some n → n.op.isDeclaration = false) : Advances T m m' := by
  obtain ⟨hn, hv, htype, hprocess, hp, hdecl, hstype, hs₁, hread, hs₂, hr, hs₃, hconn, hs⟩ := h
  rename_i n np result value storage process decl read conn type stype m₁ m₂ m₃
  have h₁ : Advances (fun _ => False) m m₁ :=
    hdecl.advances_declaration hd hs₁ (Or.inr (Or.inl rfl)) rfl hstype
  have hst : m₁.IsStorage storage :=
    ⟨decl, 0, _, hdecl.def?_result (i := 0) rfl, core_of_live? hdecl.live?_self, rfl⟩
  have h₂ : Advances (fun _ => False) m₁ m₂ := hread.advances_access h₁.direct hs₂ rfl rfl
    (fun _ w hw => by
      obtain rfl : w = storage := by simpa [Node.fresh] using hw
      exact Or.inr hst)
    fun ha => by cases ha
  have hresult : m.IsComputed result := hd.isComputed hn (hop n hn) (hv ▸ List.mem_singleton_self _)
  have hvalue : m₂.IsComputed value :=
    h₂.direct.isComputed hread.live?_self rfl (List.mem_singleton_self _)
  have h₃ : Advances (fun _ => False) m₂ m₃ := hr.advances_substitute h₂.direct hs₃
    ((hresult.mono hdecl.kept).mono hread.kept).not_isFixed hvalue.not_isStorage
  have h₄ : Advances (fun _ => False) m₃ m' := hconn.advances h₃.direct hs rfl rfl rfl
    (by simp [Node.fresh])
  exact (((h₁.trans h₂ hd fun _ _ _ ht => ht).trans h₃ hd fun _ _ _ ht => ht).trans h₄ hd
    fun _ _ _ ht => ht).of_none hd

/-! ## Ports and events -/

theorem AnchorsOutput.direct {inst : NodeId} (h : m.AnchorsOutput inst v m') (hd : Direct m)
    (hop : m.HasOp (·.isInstance = true) inst) : Direct m' := by
  cases h with
  | ending h => exact h ▸ hd
  | assigned hn _ ha hopa _ hm hs => exact hd.moves hs hm
  | @wired n name type stype decl conn storage uses m₁ m₂ hn hres htype hdecl hstype hs₁ huses hnd
      hreads hconn hs =>
    have h₁ : Advances (fun _ => False) m m₁ :=
      hdecl.advances_declaration hd hs₁ (Or.inl rfl) rfl hstype
    have hst : m₁.IsStorage storage :=
      ⟨decl, 0, _, hdecl.def?_result (i := 0) rfl, core_of_live? hdecl.live?_self, rfl⟩
    have hv : m.IsComputed v := hd.isComputed hn (Op.isDeclaration_of_isInstance (hop.of_live hn)) hres
    have h₂ : Advances (fun _ => False) m₁ m₂ :=
      hreads.advances h₁.direct (hv.mono hdecl.kept) (Or.inr hst)
    have h₃ : Advances (fun _ => False) m₂ m' := hconn.advances_access h₂.direct hs rfl rfl
      (fun hi => by cases hi) fun _ w hw => by
        cases hw
        exact Or.inr (hst.mono hreads.kept)
    exact h₃.direct

/-- Only assignments are moved when the outputs of an instance are anchored. -/
theorem AnchorsOutputs.advances {inst : NodeId} {vs : List ValueId}
    (h : AnchorsOutputs inst vs m m') (hd : Direct m)
    (hop : m.HasOp (·.isInstance = true) inst) : Advances (m.HasOp (· = .assign)) m m' := by
  refine ⟨(h.frame hd.toSound hop).1, ?_⟩
  induction h with
  | nil => exact hd
  | cons h _ ih => exact ih (h.direct hd hop) (hop.mono (h.edits hd.toSound).kept)

theorem AnchorsInput.advances {inst : NodeId} {index : Nat} (h : m.AnchorsInput inst index v m')
    (hd : Direct m) (hop : m.HasOp (·.isInstance = true) inst) : Advances T m m' := by
  cases h with
  | simple h => exact h ▸ .refl hd
  | @wired n name type stype decl read conn storage value m₁ m₂ m₃ hn huse htype hdecl hstype hs₁
      hread hs₂ hconn hs₃ hr hs =>
    have h₁ : Advances (fun _ => False) m m₁ :=
      hdecl.advances_declaration hd hs₁ (Or.inl rfl) rfl hstype
    have hst : m₁.IsStorage storage :=
      ⟨decl, 0, _, hdecl.def?_result (i := 0) rfl, core_of_live? hdecl.live?_self, rfl⟩
    have h₂ : Advances (fun _ => False) m₁ m₂ := hread.advances_access h₁.direct hs₂ rfl rfl
      (fun _ w hw => by
        obtain rfl : w = storage := by simpa [Node.fresh] using hw
        exact Or.inr hst)
      fun ha => by cases ha
    have hvalue : m₂.IsComputed value :=
      h₂.direct.isComputed hread.live?_self rfl (List.mem_singleton_self _)
    have h₃ : Advances (fun _ => False) m₂ m₃ := hconn.advances_access h₂.direct hs₃ rfl rfl
      (fun hi => by cases hi) fun _ w hw => by
        cases hw
        exact Or.inr (hst.mono hread.kept)
    have hn₃ := hconn.live (hread.live (hdecl.live hn))
    have huse₃ := hconn.uses_iff.2 (Or.inl (hread.uses_iff.2 (Or.inl (hdecl.uses_iff.2
      (Or.inl huse)))))
    have h₄ : Advances (fun _ => False) m₃ m' :=
      ⟨hr.frame, h₃.direct.pointAt hs hr huse₃ (Or.inr ⟨n, hn₃, hop.of_live hn⟩)
        (hvalue.mono hconn.kept).not_isStorage⟩
    exact (((h₁.trans h₂ hd fun _ _ _ ht => ht).trans h₃ hd fun _ _ _ ht => ht).trans h₄ hd
      fun _ _ _ ht => ht).of_none hd

theorem AnchorsInputs.advances {inst : NodeId} {index : Nat} {vs : List ValueId}
    (h : AnchorsInputs inst index vs m m') (hd : Direct m)
    (hop : m.HasOp (·.isInstance = true) inst) : Advances T m m' := by
  induction h with
  | nil => exact .refl hd
  | cons h _ ih =>
    have h₁ : Advances T _ _ := h.advances hd hop
    exact h₁.trans (ih h₁.direct (hop.mono h₁.frame.kept)) hd fun _ _ _ ht => ht

theorem RoutesEvent.advances {process : NodeId} (h : m.RoutesEvent process v m') (hd : Direct m)
    (hv : ¬ m.IsStorage v) : Advances T m m' := by
  cases h with
  | simple h => exact h ▸ .refl hd
  | @wired np type stype decl read conn d storage value i m₁ m₂ m₃ m₄ hp hevent htype hdecl hstype
      hs₁ hread hs₂ hr hs₃ hconn hs₄ hsettle =>
    have h₁ : Advances (fun _ => False) m m₁ :=
      hdecl.advances_declaration hd hs₁ (Or.inl rfl) rfl hstype
    have hst : m₁.IsStorage storage :=
      ⟨decl, 0, _, hdecl.def?_result (i := 0) rfl, core_of_live? hdecl.live?_self, rfl⟩
    have h₂ : Advances (fun _ => False) m₁ m₂ := hread.advances_access h₁.direct hs₂ rfl rfl
      (fun _ w hw => by
        obtain rfl : w = storage := by simpa [Node.fresh] using hw
        exact Or.inr hst)
      fun ha => by cases ha
    have hcomputed : m.IsComputed v := by
      obtain ⟨nd, hnd, -⟩ := hd.definition hevent
      refine ⟨d, i, nd, hevent, hnd, ?_⟩
      cases hop : nd.op.isDeclaration with
      | false => rfl
      | true => exact absurd ⟨d, i, nd, hevent, hnd, hop⟩ hv
    have hvalue : m₂.IsComputed value :=
      h₂.direct.isComputed hread.live?_self rfl (List.mem_singleton_self _)
    have h₃ : Advances (fun _ => False) m₂ m₃ := hr.advances_substitute h₂.direct hs₃
      ((hcomputed.mono hdecl.kept).mono hread.kept).not_isFixed hvalue.not_isStorage
    have h₄ : Advances (fun _ => False) m₃ m₄ := hconn.advances_access h₃.direct hs₄ rfl rfl
      (fun hi => by cases hi) fun _ w hw => by
        cases hw
        exact Or.inr ((hst.mono hread.kept).mono hr.kept)
    have h₅ := ((h₁.trans h₂ hd fun _ _ _ ht => ht).trans h₃ hd fun _ _ _ ht => ht).trans h₄ hd
      fun _ _ _ ht => ht
    -- The read that is settled is new.
    refine (h₅.of_none hd).trans (hsettle.inlines.advances h₅.direct) hd fun j n hj ht => ?_
    exact absurd ht (hread.ne (hdecl.live hj))

theorem RoutesEvents.advances {process : NodeId} {vs : List ValueId}
    (h : RoutesEvents process vs m m') (hd : Direct m)
    (hvs : ∀ v ∈ vs, ¬ m.IsStorage v ∧ ∃ d, m.def? v = some d) : Advances T m m' := by
  induction h with
  | nil => exact .refl hd
  | cons h _ ih =>
    have h₁ : Advances T _ _ := h.advances hd (hvs _ (by simp)).1
    refine h₁.trans (ih h₁.direct fun w hw => ?_) hd fun _ _ _ ht => ht
    obtain ⟨hnot, d, hdef⟩ := hvs w (List.mem_cons_of_mem _ hw)
    exact ⟨fun hst => hnot (hst.of_kept h₁.frame.kept hd.toWellFormed hdef),
      d, h₁.frame.kept.def? hdef⟩

/-! ## Order -/

theorem PlacesDeclarations.advances {scope : BlockId} {placed : Option NodeId} {ids : List NodeId}
    (h : PlacesDeclarations scope placed ids m m') (hd : Direct m) :
    Advances (m.HasOp (· = .logic)) m m' := by
  induction h with
  | nil => exact .refl hd
  | skip _ _ _ ih => exact ih hd
  | stay _ _ _ _ _ ih => exact ih hd
  | move hn hop hm hs₁ _ ih =>
    have h₁ := (hm.advances hd hs₁).mono hd
      fun j n hj ht => (⟨_, ht ▸ core_of_live? hn, hop⟩ : HasOp _ (· = .logic) j)
    exact h₁.trans (ih h₁.direct) hd fun j n hj ht => ht.of_kept hm.kept hj

/-- The nodes that may move when nodes are resolved: those of them, and declarations, that have no
regions. -/
def Resolved (m : Module) (ids : List NodeId) (j : NodeId) : Prop :=
  m.HasOp (·.regionKinds = []) j ∧ (j ∈ ids ∨ m.HasOp (·.isDeclaration = true) j)

theorem Resolved.of_kept {ids : List NodeId} {j : NodeId} {nj : Node} (h : m'.Resolved ids j)
    (hk : m.Kept m') (hj : m.live? j = some nj) : m.Resolved ids j :=
  ⟨h.1.of_kept hk hj, h.2.imp_right fun hd => hd.of_kept hk hj⟩

theorem Resolves.advances {block : BlockId} (h : m.Resolves block id m') (hd : Direct m) :
    Advances (m.Resolved [id]) m m' := by
  cases h with
  | @front n hn hplace hm hs =>
    have hid : m.Resolved [id] id :=
      ⟨⟨n, core_of_live? hn, hd.regionKinds_of_placeable hn hplace⟩,
        Or.inl (by simp)⟩
    exact (hm.advances hd hs).mono hd fun _ _ _ ht => ht ▸ hid
  | @read n nd decl storage i m₁ hn hop hstorage hdef hdecl hplace hm₁ hs₁ hm hs =>
    have hid : m.Resolved [id] id :=
      ⟨⟨n, core_of_live? hn, by rw [hop]; rfl⟩, Or.inl (by simp)⟩
    have h₁ : Advances (m.Resolved [id]) m m₁ :=
      (hm₁.advances hd hs₁).mono hd fun _ _ _ ht => ht ▸ hid
    have hdecl' : m.Resolved [id] decl := by
      refine ⟨⟨nd, core_of_live? hdecl,
        hd.regionKinds_of_placeable hdecl hplace⟩, Or.inr ?_⟩
      rcases hd.inline hn (by rw [hop]; rfl) (List.mem_of_getElem? hstorage) with
        ⟨k, hk⟩ | ⟨e, k, ne, hdef', he, hne⟩
      · rw [hdef] at hk
        cases hk
      · rw [hdef] at hdef'
        cases hdef'
        exact ⟨ne, he, hne⟩
    exact h₁.trans (hm.advances h₁.direct hs) hd fun j nj hj ht => ht ▸ hdecl'
  | spill hnot h =>
    refine h.advances hd fun n hn => ?_
    cases hop : n.op.isDeclaration with
    | false => rfl
    | true => exact absurd (Or.inr (hd.declaration hn hop)) (hnot n hn)

theorem ResolvesAll.advances {block : BlockId} {ids : List NodeId}
    (h : ResolvesAll block ids m m') (hd : Direct m) : Advances (m.Resolved ids) m m' := by
  induction h with
  | nil => exact .refl hd
  | cons h _ ih =>
    have h₁ := h.advances hd
    exact (h₁.mono hd fun j _ _ ht => ⟨ht.1, ht.2.imp_left fun he => by
      rw [List.mem_singleton.1 he]
      exact List.mem_cons_self⟩).trans
      (ih h₁.direct) hd fun j n hj ht => (ht.of_kept h₁.frame.kept hj).imp_right
        fun ht => ht.imp_left (List.mem_cons_of_mem _)

end Module

end NetPrep
