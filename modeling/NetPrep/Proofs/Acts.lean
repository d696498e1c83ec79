import Mathlib
import NetPrep.Proofs.Frame
import NetPrep.Proofs.Legalization
import NetPrep.Proofs.Plain
import NetPrep.Proofs.Tree

/-!
# The edits of legalization

Whatever rule is applied while a block is legalized, it comes down to five kinds of edits, of which
`Module.Act` says where they put nodes and what operands they leave. A node other than a variable is
put next to code, or into a graph block; a variable is put into a graph block or a block around the one
that is legalized. A property that every edit keeps is kept by all of legalization.
-/

namespace NetPrep

open Prepare Prep

theorem Op.ne_logic_of_isAlwaysInline {op : Op} (h : op.isAlwaysInline = true) : op ≠ .logic := by
  rintro rfl
  cases h

theorem Op.standsAlone_of_isAlwaysInline {op : Op} (h : op.isAlwaysInline = true) :
    op.standsAlone = false := by
  cases op <;> first | rfl | cases h

theorem Op.standsAlone_of_isCommutative {op : Op} (h : op.isCommutative = true) :
    op.standsAlone = false := by
  cases op <;> first | rfl | cases h

theorem Op.ne_logic_of_isExpression {op : Op} (h : op.isExpression = true) : op ≠ .logic := by
  rintro rfl
  cases h

theorem Op.ne_logic_of_isInstance {op : Op} (h : op.isInstance = true) : op ≠ .logic := by
  rintro rfl
  cases h

theorem Op.isMade_of_isDeclaration {op : Op} (h : op.isDeclaration = true) :
    op.isMade = true ∧ op.isCommutative = false := by
  cases op <;> first | exact ⟨rfl, rfl⟩ | cases h

/-- A node that legalization leaves in its form wherever it moves it. -/
def Node.IsSettled (n : Node) : Prop :=
  n.operands = [] ∨ (n.op.isCommutative = false ∧ n.op ≠ .structExplode)

theorem Node.IsSettled.of_inline {n : Node} (h : n.op.isAlwaysInline = true) : n.IsSettled := by
  cases hop : n.op <;> simp_all [Node.IsSettled, Op.isAlwaysInline, Op.isCommutative]

namespace Module

variable {o : Options} {m m' m'' : Module} {a id x : NodeId} {n na : Node} {b : BlockId}
  {pos : Position} {v w : ValueId} {u : Use}

/-- A position next to a node that is no plain declaration of a variable. -/
def Beside (m : Module) : Position → Prop
  | .before a | .after a => ∃ n, m.live? a = some n ∧ (n.op = .logic → n.operands ≠ [])
  | .front _ | .back _ => False

/-- Where a node of an operation is put while a block is legalized. -/
def Suits (m : Module) (block : BlockId) (op : Op) (b : BlockId) (pos : Position) : Prop :=
  m.kind? b = some .graph ∨ (op = .logic ∧ m.Inside b block) ∨ (op ≠ .logic ∧ m.Beside pos)

/-- A value is the result of a node that is neither a constant nor a declaration. -/
def IsDerived (m : Module) (v : ValueId) : Prop :=
  ∃ d i, m.def? v = some (.result d i) ∧ m.HasOp (·.standsAlone = false) d

/-- An edit that is made while a block is legalized. Nodes that are not in the form that legalization
leaves them in are made or moved only if they are among given ones. -/
inductive Act (block : BlockId) (F : NodeId → Prop) (m m' : Module) : Prop
  | relabel {id : NodeId} {name : Option Name → Option Name} {twoState : Bool → Bool}
      (h : m.Relabels m' id name twoState) (hs : Sound m')
  | create {b : BlockId} {pos : Position} {id : NodeId} {n : Node} {types : List TypeId}
      (h : m.Creates m' b pos id n types) (hs : Sound m') (hmade : n.op.isMade = true)
      (hfits : m.Fitted → n.Fits) (hplace : m.Suits block n.op b pos)
      (hform : n.IsSettled ∨ (F id ∧ m.Inside b block))
      (hdecl : n.op.isDeclaration = true → m'.Placeable n)
  | redirect {f : NodeId → List ValueId → List ValueId} (h : m.Redirects m' f) (hs : Sound m')
      (hlen : ∀ j ops, (f j ops).length = ops.length)
      (hnew : ∀ u v, m'.Uses u v → m.Uses u v ∨ m.IsDerived v)
  | move {b : BlockId} {pos : Position} {id : NodeId} {n : Node} (h : m.Moves m' b pos id)
      (hs : Sound m') (hn : m.live? id = some n) (hreg : n.op.regionKinds = [])
      (hplace : m.Suits block n.op b pos) (hform : n.IsSettled ∨ (F id ∧ m.Inside b block))
  | erase {id : NodeId} {n : Node} (h : m.Erases m' id) (hs : Sound m')
      (hn : m.live? id = some n) (hreg : n.op.regionKinds = [])

/-- Edits that are made one after another while a block is legalized. -/
abbrev Acts (block : BlockId) (F : NodeId → Prop) : Module → Module → Prop :=
  Relation.ReflTransGen (Act block F)

variable {block : BlockId} {F : NodeId → Prop}

theorem Act.acts (h : Act block F m m') : Acts block F m m' := .single h

theorem Act.edits (h : Act block F m m') (hs : Sound m) : Edits m m' := by
  cases h with
  | relabel h hs' => exact h.edits hs'
  | create h hs' => exact h.edits hs'
  | redirect h hs' => exact h.edits hs'
  | move h hs' hn hreg => exact h.edits hs hs' hn hreg
  | erase h hs' hn hreg => exact h.edits hs hs' hn hreg

theorem Acts.edits (h : Acts block F m m') (hs : Sound m) : Edits m m' := by
  induction h with
  | refl => exact .refl hs
  | tail _ h ih => exact ih.trans (h.edits ih.sound)

theorem Act.fitted (h : Act block F m m') (ha : m.Fitted) : m'.Fitted := by
  intro x n' hx
  cases h with
  | relabel h =>
    obtain ⟨n, hn, rfl⟩ := h.live_cases hx
    exact (ha hn).congr rfl rfl rfl
  | create h _ _ hfits =>
    rcases h.live_cases hx with ⟨-, rfl⟩ | ⟨-, hn⟩
    · exact hfits ha
    · exact ha hn
  | redirect h _ hlen =>
    obtain ⟨n, hn, rfl⟩ := h.live_cases hx
    exact (ha hn).congr rfl rfl (hlen _ _)
  | move h =>
    obtain ⟨n, hn, rfl⟩ := h.live_cases hx
    exact (ha hn).congr rfl rfl rfl
  | erase h => exact ha (h.live_cases hx).2

theorem Acts.fitted (h : Acts block F m m') (ha : m.Fitted) : m'.Fitted := by
  induction h with
  | refl => exact ha
  | tail _ h ih => exact h.fitted ih

/-- A node that is there after an edit was there before, or is made by it. -/
theorem Act.old (h : Act block F m m') {n' : Node} (hx : m'.live? x = some n') :
    (∃ n, m.live? x = some n) ∨ m.nodes.size ≤ x.index := by
  cases h with
  | relabel h =>
    obtain ⟨n, hn, -⟩ := h.live_cases hx
    exact Or.inl ⟨n, hn⟩
  | create h =>
    rcases h.live_cases hx with ⟨rfl, -⟩ | ⟨-, hn⟩
    · exact Or.inr (by rw [h.fresh])
    · exact Or.inl ⟨n', hn⟩
  | redirect h =>
    obtain ⟨n, hn, -⟩ := h.live_cases hx
    exact Or.inl ⟨n, hn⟩
  | move h =>
    obtain ⟨n, hn, -⟩ := h.live_cases hx
    exact Or.inl ⟨n, hn⟩
  | erase h => exact Or.inl ⟨n', (h.live_cases hx).2⟩

theorem Acts.old (h : Acts block F m m') (hs : Sound m) {n' : Node} (hx : m'.live? x = some n') :
    (∃ n, m.live? x = some n) ∨ m.nodes.size ≤ x.index := by
  induction h generalizing n' with
  | refl => exact Or.inl ⟨n', hx⟩
  | tail h hstep ih =>
    rcases hstep.old hx with ⟨n, hn⟩ | hsize
    · exact ih hn
    · exact Or.inr ((Acts.edits h hs).kept.nodes_size.trans hsize)

/-- What is erased does not come back. -/
theorem Acts.gone (h : Acts block F m m') (hs : Sound m) (hx : m.live? x = none)
    (hlt : x.index < m.nodes.size) : m'.live? x = none := by
  cases hx' : m'.live? x with
  | none => rfl
  | some n' =>
    rcases Acts.old h hs hx' with ⟨n, hn⟩ | hsize
    · rw [hx] at hn
      cases hn
    · exact absurd hlt hsize.not_gt

/-! ## Places and values -/

theorem Beside.before (hn : m.live? a = some na) (hop : na.op ≠ .logic) : m.Beside (.before a) :=
  ⟨na, hn, fun h => absurd h hop⟩

theorem Beside.after (hn : m.live? a = some na) (hop : na.op ≠ .logic) : m.Beside (.after a) :=
  ⟨na, hn, fun h => absurd h hop⟩

/-- A user has an operand. -/
theorem Beside.before_user (hu : m.Uses u v) : m.Beside (.before u.node) := by
  obtain ⟨n, hn, hv⟩ := hu
  refine ⟨n, hn, fun _ hnil => ?_⟩
  rw [hnil] at hv
  cases hv

theorem Suits.beside {op : Op} (hop : op ≠ .logic) (h : m.Beside pos) : m.Suits block op b pos :=
  Or.inr (Or.inr ⟨hop, h⟩)

theorem IsDerived.mono (h : m.IsDerived v) (hk : m.Kept m') : m'.IsDerived v := by
  obtain ⟨d, i, hdef, hop⟩ := h
  exact ⟨d, i, hk.def? hdef, hop.mono hk⟩

/-- Declarations can stand anywhere, and are no events. -/
structure Proper (m : Module) : Prop where
  placeable : ∀ {id n}, m.live? id = some n → n.op.isDeclaration = true → m.Placeable n
  event : ∀ {id n v}, m.live? id = some n → n.op.isClocked = true → v ∈ n.operands →
    ¬ m.IsStorage v

theorem Placeable.mono {n' : Node} (h : m.Placeable n) (hk : m.Kept m') (hop : n'.op = n.op)
    (hres : n'.results = n.results) (hlen : n'.operands.length = n.operands.length) :
    m'.Placeable n' := by
  refine h.imp (hop ▸ ·) fun ⟨hops, v, type, hv, htype, hst⟩ => ⟨?_, v, type, hres.trans hv,
    hk.type? htype, Direct.isStorage_mono (fun ha => hk.types ha) hst⟩
  exact List.length_eq_zero_iff.1 (hlen.trans (List.length_eq_zero_iff.2 hops))

theorem IsDerived.not_isStorage (h : m.IsDerived v) : ¬ m.IsStorage v := by
  rintro ⟨d, i, nd, hdef, hd, hop⟩
  obtain ⟨d', i', hdef', n', hn', hop'⟩ := h
  obtain ⟨rfl, -⟩ : d = d' ∧ i = i' := by simpa using hdef.symm.trans hdef'
  obtain rfl := Option.some.inj (hd.symm.trans hn')
  rw [Op.standsAlone, hop, Bool.or_true] at hop'
  cases hop'

theorem Act.proper (h : Act block F m m') (hs : Sound m) (hm : m.Proper) : m'.Proper := by
  have hk := (h.edits hs).kept
  -- An operand that a node had before was no storage, and is none now.
  have hevent : ∀ {id n v}, m.live? id = some n → n.op.isClocked = true → v ∈ n.operands →
      ¬ m'.IsStorage v := fun {id n v} hn hop hv ht => by
    obtain ⟨k, hu⟩ := exists_uses_of_mem hn hv
    obtain ⟨d, hdef, -⟩ := hs.usable hu
    exact hm.event hn hop hv (ht.of_kept hk hs.toWellFormed hdef)
  refine ⟨fun {x n'} hx hdecl => ?_, fun {x n' v} hx hop hv => ?_⟩
  · cases h with
    | relabel h =>
      obtain ⟨n, hn, rfl⟩ := h.live_cases hx
      exact (hm.placeable hn hdecl).mono hk rfl rfl rfl
    | create h _ _ _ _ _ hplaceable =>
      rcases h.live_cases hx with ⟨-, rfl⟩ | ⟨-, hn⟩
      · exact hplaceable hdecl
      · exact (hm.placeable hn hdecl).mono hk rfl rfl rfl
    | redirect h _ hlen =>
      obtain ⟨n, hn, rfl⟩ := h.live_cases hx
      exact (hm.placeable hn hdecl).mono hk rfl rfl (hlen _ _)
    | move h =>
      obtain ⟨n, hn, rfl⟩ := h.live_cases hx
      exact (hm.placeable hn hdecl).mono hk rfl rfl rfl
    | erase h => exact (hm.placeable (h.live_cases hx).2 hdecl).mono hk rfl rfl rfl
  · cases h with
    | relabel h =>
      obtain ⟨n, hn, rfl⟩ := h.live_cases hx
      exact hevent hn hop hv
    | create h _ hmade =>
      rcases h.live_cases hx with ⟨-, rfl⟩ | ⟨-, hn⟩
      · rw [Op.isClocked_of_isMade hmade] at hop
        cases hop
      · exact hevent hn hop hv
    | redirect h _ _ hnew =>
      obtain ⟨n, hn, rfl⟩ := h.live_cases hx
      obtain ⟨k, hu⟩ := exists_uses_of_mem hx hv
      obtain ⟨n₁, hn₁, hget⟩ | hderived := hnew _ v hu
      · obtain rfl := Option.some.inj (hn.symm.trans hn₁)
        exact hevent hn hop (List.mem_of_getElem? hget)
      · exact (hderived.mono hk).not_isStorage
    | move h =>
      obtain ⟨n, hn, rfl⟩ := h.live_cases hx
      exact hevent hn hop hv
    | erase h => exact hevent (h.live_cases hx).2 hop hv

theorem Acts.proper (h : Acts block F m m') (hs : Sound m) (hm : m.Proper) : m'.Proper := by
  induction h with
  | refl => exact hm
  | tail h hstep ih => exact hstep.proper (Acts.edits h hs).sound ih

theorem Creates.isDerived {types : List TypeId} {i : Nat} (h : m.Creates m' b pos id n types)
    (hv : n.results[i]? = some v) (hop : n.op.standsAlone = false) : m'.IsDerived v :=
  ⟨id, i, h.def?_result hv, n, core_of_live? h.live?_self, hop⟩

theorem Redirects.act_pointAt (h : m.Redirects m' (pointAt u w)) (hs : Sound m') (hu : m.Uses u v)
    (hw : m.IsDerived w) : Act block F m m' :=
  .redirect h hs (fun j ops => by unfold pointAt; split <;> simp) fun u' v' hu' => by
    rw [h.uses_pointAt_iff hu] at hu'
    split at hu'
    · exact Or.inr (hu' ▸ hw)
    · exact Or.inl hu'

theorem Redirects.act_substitute (h : m.Redirects m' (substitute v w)) (hs : Sound m')
    (hw : m.IsDerived w) : Act block F m m' :=
  .redirect h hs (fun j ops => by simp [substitute]) fun u' v' hu' => by
    rcases h.uses_substitute_iff.1 hu' with ⟨-, rfl⟩ | ⟨-, hu'⟩
    · exact Or.inr hw
    · exact Or.inl hu'

/-! ## Reads -/

theorem InlineStep.acts (h : InlineStep id m m') : Acts block F m m' := by
  cases h with
  | clone hn hop hv hu hnu htype hc hs₁ hr hs =>
    have hlogic := Op.ne_logic_of_isAlwaysInline hop
    have hcreate : Act block F m _ := .create hc hs₁ (Op.isMade_of_isAlwaysInline hop)
      (fun hf => .inline hop ((hf hn).operand (Or.inr hop)) rfl) (.beside hlogic (.before_user hu))
      (Or.inl (.of_inline hop)) fun hd => absurd hd
        (Bool.eq_false_iff.1 (Op.isDeclaration_of_isAlwaysInline hop))
    exact hcreate.acts.tail (hr.act_pointAt hs (hc.uses_iff.2 (Or.inl hu))
      (hc.isDerived (i := 0) rfl (Op.standsAlone_of_isAlwaysInline hop)))
  | move hn hop hv honly hnu hne hm hs =>
    exact Act.acts (.move hm hs hn (Op.regionKinds_of_isAlwaysInline hop)
      (.beside (Op.ne_logic_of_isAlwaysInline hop) (.before_user ((honly _).2 rfl)))
      (Or.inl (.of_inline hop)))

theorem Inlines.acts {T : NodeId → Prop} (h : Inlines T m m') : Acts block F m m' := by
  induction h with
  | refl => exact .refl
  | step _ h _ ih => exact h.acts.trans ih

section

variable {old storage : ValueId} {type : TypeId} {loc : Loc} {us : List Use} {read : NodeId}

theorem ReadFor.acts (h : ReadFor old storage type loc u read m m') : Acts block F m m' := by
  obtain ⟨hu, hnu, hc, hs₁, hr, hs⟩ := h
  have hcreate : Act block F m _ := .create hc hs₁ rfl (fun _ => .inline rfl nofun rfl)
    (.beside nofun (.before_user hu)) (Or.inl (.of_inline rfl)) nofun
  exact hcreate.acts.tail (hr.act_pointAt hs (hc.uses_iff.2 (Or.inl hu))
    (hc.isDerived (i := 0) rfl rfl))

theorem ReadsFor.acts (h : ReadsFor old storage type loc us m m') : Acts block F m m' := by
  induction h with
  | nil => exact .refl
  | cons h _ ih => exact h.acts.trans ih

theorem ReadsSettled.acts (h : ReadsSettled old storage type loc us m m') :
    Acts block F m m' := by
  induction h with
  | nil => exact .refl
  | cons h hsettle _ ih => exact (h.acts.trans hsettle.inlines.acts).trans ih

end

/-! ## Temporaries -/

/-- A new declaration of storage can stand anywhere. -/
theorem Creates.placeable {stype type : TypeId} {storage : ValueId}
    (h : m.Creates m' b pos id n [stype]) (hops : n.operands = []) (hres : n.results = [storage])
    (hstype : m'.types.get stype = .ok (.storage type)) : m'.Placeable n :=
  Or.inr ⟨hops, storage, stype, hres, h.type?_result (i := 0) (by rw [hres]; rfl),
    TypeTable.isStorage_of_get hstype⟩

/-- Declaring storage in a graph block. -/
theorem Creates.acts_declaration {stype type : TypeId} {storage : ValueId}
    (h : m.Creates m' b pos id n [stype]) (hs' : Sound m') (hop : n.op.isDeclaration = true)
    (hops : n.operands = []) (hres : n.results = [storage])
    (hstype : m'.types.get stype = .ok (.storage type)) (hk : m.kind? b = some .graph) :
    Acts block F m m' :=
  have hkind := Op.isMade_of_isDeclaration hop
  Act.acts (.create h hs' hkind.1 (fun _ => .of_alone (Bool.or_eq_true_iff.2 (Or.inr hop)) hops)
    (Or.inl hk) (Or.inl (Or.inl hops)) fun _ => h.placeable hops hres hstype)

/-- Adding an access to storage in a graph block or next to a node. -/
theorem Creates.acts_access {types : List TypeId} (h : m.Creates m' b pos id n types)
    (hs' : Sound m') (hop : n.op = .read ∨ n.op = .assign ∨ n.op = .blockingAssign)
    (hfits : n.Fits) (hpos : m.kind? b = some .graph ∨ m.Beside pos) : Acts block F m m' := by
  have hkind : n.op.isMade = true ∧ n.op ≠ .logic ∧ n.op.isDeclaration = false ∧
      n.op.isCommutative = false ∧ n.op ≠ .structExplode := by
    rcases hop with h | h | h <;> simp [h, Op.isMade, Op.isDeclaration, Op.category, Op.isCommutative]
  exact Act.acts (.create h hs' hkind.1 (fun _ => hfits)
    (hpos.imp_right fun h => Or.inr ⟨hkind.2.1, h⟩) (Or.inl (Or.inr hkind.2.2.2))
    fun hd => absurd hd (Bool.eq_false_iff.1 hkind.2.2.1))

/-- A result is spilled into a wire of its graph block, or into a variable of a block around the one
that is legalized. -/
theorem SpillsResult.acts {name : Option Name} {atFront : Bool}
    (h : m.SpillsResult id v name atFront m') (hs : Sound m) (hn : m.live? id = some n) (hin : m.Inside n.parent block)
    (hcode : m.kind? n.parent = some .graph ∨ n.op ≠ .logic) :
    Acts block F m m' := by
  obtain ⟨hn', hres, htype, hdecl, hstype, hs₁, huses, hnd, hreads, hconn, hs₃, hmove⟩ := h
  obtain rfl := Option.some.inj (hn.symm.trans hn')
  rename_i type stype decl conn storage uses m₁ m₂ m₃
  have hkind := hs.kind?_parent hn
  have hops : (m.temporaryOps n.parent).1.isMade = true ∧
      (m.kind? n.parent = some .graph ∨ (m.temporaryOps n.parent).1 = .logic) ∧
      ((m.temporaryOps n.parent).2 = .assign ∨ (m.temporaryOps n.parent).2 = .blockingAssign) := by
    rcases hkind with hk | hk <;> simp [temporaryOps, hk, Op.isMade]
  have hdecl' : (m.temporaryOps n.parent).1.standsAlone = true := by
    rcases hkind with hk | hk <;> simp [temporaryOps, hk] <;> rfl
  have hconn' : (m.temporaryOps n.parent).2.category = .connection := by
    rcases hops.2.2 with h | h <;> rw [h] <;> rfl
  have hplace : ∀ {m₀ pos}, m.Edits m₀ → m₀.Suits block (m.temporaryOps n.parent).1 n.parent pos :=
    fun he => by
      rcases hops.2.1 with hk | hl
      · exact Or.inl (he.kept.kind? _ ▸ hk)
      · exact Or.inr (Or.inl ⟨hl, he.sameTree.inside hin⟩)
  have he₁ := hdecl.edits hs₁
  have he₂ := he₁.trans (hreads.edits hs₁)
  have he₃ := he₂.trans (hconn.edits hs₃)
  have h₁ : Act block F m m₁ := .create hdecl hs₁ hops.1 (fun _ => .of_alone hdecl' rfl)
    (hplace (.refl hs)) (Or.inl (Or.inl rfl)) fun _ => hdecl.placeable rfl rfl hstype
  obtain ⟨ops, hn₂⟩ := hreads.live (hdecl.live hn)
  have h₃ : Acts block F m m₃ := (h₁.acts.trans hreads.acts).trans
    (hconn.acts_access hs₃ (Or.inr hops.2.2) (.of_connection hconn' rfl rfl)
      (hcode.imp (he₂.kept.kind? _ ▸ ·) (.after hn₂)))
  cases atFront with
  | true => exact hmove ▸ h₃
  | false =>
    obtain ⟨ops', hd⟩ := hreads.live hdecl.live?_self
    obtain ⟨hm, hs'⟩ := hmove
    refine h₃.tail (.move hm hs' (hconn.live hd) (m.temporaryOps_regionKinds n.parent).1
      (hplace he₃) (Or.inl (Or.inr ?_)))
    change (m.temporaryOps n.parent).1.isCommutative = false ∧ _
    rcases hkind with hk | hk <;> simp [temporaryOps, hk, Node.fresh, Op.isCommutative]

theorem SpillsResults.acts {atFront : Bool} {vs : List ValueId}
    (h : SpillsResults id atFront vs m m') (hs : Sound m) (hn : m.live? id = some n)
    (hin : m.Inside n.parent block)
    (hcode : m.kind? n.parent = some .graph ∨ n.op ≠ .logic) : Acts block F m m' := by
  induction h generalizing n with
  | nil => exact .refl
  | cons h _ ih =>
    obtain ⟨ops, hn₁⟩ := h.live hn
    have he := h.edits
    exact (h.acts hs hn hin hcode).trans (ih he.sound hn₁ (he.sameTree.inside hin)
      (hcode.imp_left (he.kept.kind? _ ▸ ·)))

theorem Spills.acts {atFront : Bool} (h : m.Spills id atFront m') (hs : Sound m)
    (hn : m.live? id = some n) (hin : m.Inside n.parent block)
    (hcode : m.kind? n.parent = some .graph ∨ n.op ≠ .logic) :
    Acts block F m m' := by
  cases h with
  | single _ _ hl hs₁ h =>
    exact (Act.acts (.relabel hl hs₁)).trans
      (h.acts hs₁ (hl.live hn) ((hl.edits hs₁).sameTree.inside hin)
        (hcode.imp_left (hl.kept.kind? _ ▸ ·)))
  | all hn' h => exact h.acts hs hn hin hcode

theorem Reuses.acts (h : m.Reuses id m') : Acts block F m m' := by
  obtain ⟨-, -, -, -, -, -, -, -, -, -, -, -, -, hreads, hdecl⟩ := h
  rcases hdecl with rfl | ⟨d, -, -, hsettle⟩
  · exact hreads.acts
  · exact hreads.acts.trans hsettle.inlines.acts

/-! ## Replacing expressions -/

theorem SettlesOperands.acts {ids : List NodeId} (h : SettlesOperands ids m m') :
    Acts block F m m' := by
  induction h with
  | nil => exact .refl
  | cons _ h _ ih => exact h.inlines.acts.trans ih

/-- The nodes of a tree are put before its anchor. -/
theorem Grows.acts {shape : TreeShape} {tree : OperandTree} {ids : List NodeId}
    (h : Grows shape tree v ids m m') (hs : Sound m) (hop : shape.op.isCommutative = true)
    (ha : m.live? shape.anchor = some na) (hcode : na.op ≠ .logic) (hin : m.Inside na.parent block)
    (hF : ∀ j ∈ ids, F j) : Acts block F m m' := by
  induction h with
  | leaf => exact .refl
  | @branch left right lhs rhs value lefts rights id na₂ m m₁ m₂ m' hleft hright ha₂ hc hs' ih₁ ih₂ =>
    have he₁ := hleft.edits hs
    have he₂ := he₁.trans (hright.edits he₁.sound)
    have ha₁ := hleft.live ha
    obtain rfl := Option.some.inj (ha₂.symm.trans (hright.live ha₁))
    have h₁ := ih₁ hs ha hin fun j hj => hF j (by simp [hj])
    have h₂ := ih₂ he₁.sound ha₁ (he₁.sameTree.inside hin) fun j hj => hF j (by simp [hj])
    refine (h₁.trans h₂).tail (.create hc hs' (Op.isMade_of_isCommutative hop)
      (fun _ => .commutative hop nofun rfl)
      (.beside (fun hl => ?_) (.before ha₂ hcode))
      (Or.inr ⟨hF id (by simp), he₂.sameTree.inside hin⟩)
      fun hd => absurd hd (Bool.eq_false_iff.1 (Op.isDeclaration_of_isCommutative hop)))
    rw [show shape.op = .logic from hl] at hop
    cases hop

/-- The value of a tree with a branch is that of its last node. -/
theorem Grows.isDerived {shape : TreeShape} {left right : OperandTree} {ids : List NodeId}
    (h : Grows shape (.branch left right) v ids m m') (hop : shape.op.isCommutative = true) :
    m'.IsDerived v := by
  cases h with
  | branch _ _ _ hc _ =>
    refine hc.isDerived (i := 0) rfl ?_
    exact Op.standsAlone_of_isCommutative hop

/-- Naming a node, if it is named at all. -/
theorem acts_of_named {name : Option Name}
    (h : m = m' ∨ m.Relabels m' x (fun _ => name) (fun t => t)) (hs' : Sound m') :
    Acts block F m m' := by
  rcases h with rfl | hl
  · exact .refl
  · exact Act.acts (.relabel hl hs')

theorem Balances.acts {ids : List NodeId} (h : m.Balances id ids m') (hs : Sound m)
    (hn : m.live? id = some n) (hop : n.op.isCommutative = true) (hlen : 1 < n.operands.length)
    (hin : m.Inside n.parent block) (hF : ∀ j ∈ ids, F j) : Acts block F m m' := by
  obtain ⟨hn', htree, hold, -, hopn, hanchor, hgrow, hname, hs₂, hr, hs₃, -, he, hs₄, hsettle, -, -⟩ := h
  obtain rfl := Option.some.inj (hn.symm.trans hn')
  rename_i tree old root shape name rootNode m₁ m₂ m₃ m₄
  obtain ⟨left, right, rfl⟩ := OperandTree.exists_branch_of_balanced? htree hlen
  have hcomm : shape.op.isCommutative = true := hopn ▸ hop
  have hcode := Op.ne_logic_of_isExpression (Op.isExpression_of_isCommutative hop)
  have hk : m₁.Kept m₂ := by
    rcases hname with rfl | hl
    · exact .refl _
    · exact hl.kept
  obtain ⟨n₂, hn₂, hop₂, -⟩ := live_of_named hname (hgrow.live hn)
  have hroot : m₂.IsDerived root := (hgrow.isDerived hcomm).mono hk
  have hgrow' : Acts block F m m₁ := hgrow.acts hs hcomm (hanchor ▸ hn) hcode hin hF
  have herase : Act block F m₃ m₄ := .erase he hs₄ (hr.live hn₂) (by
    change n₂.op.regionKinds = []
    rw [hop₂]
    exact Op.regionKinds_of_isExpression (Op.isExpression_of_isCommutative hop))
  exact (((hgrow'.trans (acts_of_named hname hs₂)).tail (hr.act_substitute hs₃ hroot)).tail
    herase).trans hsettle.acts

theorem Subtracts.acts {constant positive : NodeId} {value : Int}
    (h : m.Subtracts id constant value positive m') : Acts block F m m' := by
  obtain ⟨hn, hop, hops, hrhs, hc, hcop, hneg, hold, htype, hwidth, hpos, hs₁, hsub, hs₂, hr, hs₃, -,
    he, hs₄, hconst, hs₅, hsettle⟩ := h
  rename_i n nc lhs rhs old positiveValue difference type sub m₁ m₂ m₃ m₄ m₅ width
  have hcode : n.op ≠ .logic := by
    rw [hop]
    nofun
  have h₁ : Act block F m m₁ := .create hpos hs₁ rfl (fun _ => .of_alone rfl rfl)
    (.beside nofun (.before hn hcode)) (Or.inl (Or.inl rfl)) nofun
  have h₂ : Act block F m₁ m₂ := .create hsub hs₂ rfl
    (fun _ => .of_result rfl nofun nofun ⟨_, rfl⟩)
    (.beside nofun (.before (hpos.live hn) hcode)) (Or.inl (Or.inr ⟨rfl, nofun⟩)) nofun
  have h₃ : Act block F m₂ m₃ := hr.act_substitute hs₃ (hsub.isDerived (i := 0) rfl rfl)
  have h₄ : Act block F m₃ m₄ := .erase he hs₄ (hr.live (hsub.live (hpos.live hn))) (by
    change n.op.regionKinds = []
    rw [hop]
    rfl)
  have h₅ : Acts block F m₄ m₅ := by
    rcases hconst with ⟨rfl, -⟩ | ⟨-, he'⟩
    · exact .refl
    · have hne : constant ≠ id := by
        rintro rfl
        obtain rfl := Option.some.inj (hn.symm.trans hc)
        rw [hop] at hcop
        cases hcop
      exact Act.acts (.erase he' hs₅ (he.live (hr.live (hsub.live (hpos.live hc))) hne) (by
        change nc.op.regionKinds = []
        rw [hcop]
        rfl))
  exact ((((h₁.acts.tail h₂).tail h₃).tail h₄).trans h₅).trans hsettle.acts

theorem Extracts.acts {input : ValueId} {loc : Loc} {fields : List (ValueId × Name)}
    {ids : List NodeId} (h : Extracts id input loc fields ids m m') (hn : m.live? id = some n)
    (hcode : n.op ≠ .logic) : Acts block F m m' := by
  induction h generalizing n with
  | nil => exact .refl
  | cons ha htype hc hs₁ hr hs₂ _ ih =>
    have h₁ : Act block F _ _ := .create hc hs₁ rfl
      (fun _ => .of_result rfl nofun nofun ⟨_, rfl⟩) (.beside nofun (.before hn hcode))
      (Or.inl (Or.inr ⟨rfl, nofun⟩)) nofun
    have h₂ : Act block F _ _ := hr.act_substitute hs₂ (hc.isDerived (i := 0) rfl rfl)
    exact (h₁.acts.tail h₂).trans (ih (hr.live (hc.live hn)) hcode)

theorem Explodes.acts {ids : List NodeId} (h : m.Explodes id ids m')
    (hn : m.live? id = some n) (hop : n.op = .structExplode) : Acts block F m m' := by
  obtain ⟨-, -, -, -, hextract, -, he, hs₂, hsettle⟩ := h
  obtain ⟨ops, hn₁⟩ := hextract.live hn
  have hcode : n.op ≠ .logic := by
    rw [hop]
    nofun
  have herase : Act block F _ _ := .erase he hs₂ hn₁ (by
    change n.op.regionKinds = []
    rw [hop]
    rfl)
  exact ((hextract.acts hn hcode).tail herase).trans hsettle.acts

/-! ## Out of procedural code -/

/-- What has regions declares no variable. -/
theorem ne_logic_of_regions (hs : Sound m) (hn : m.live? id = some n) (hr : n.regions ≠ []) :
    n.op ≠ .logic := fun hop => hr (hs.regions_eq_nil hn (by rw [hop]; rfl))

/-- A node moves out of the block that is legalized, or of a block around it. -/
theorem Hoists.acts (h : m.Hoists id m') (hs : Sound m) (hn : m.live? id = some n)
    (hop : n.op.isExpression = true) (hform : n.IsSettled ∨ (F id ∧ m.Inside n.parent block)) :
    Acts block F m m' := by
  obtain ⟨hn', ha, hreach, hm, hs'⟩ := h
  obtain rfl := Option.some.inj (hn.symm.trans hn')
  rename_i na anchor
  have hout : m.Inside na.parent n.parent ∧ na.regions ≠ [] := by
    rcases hreach with ⟨-, hp⟩ | ⟨-, hown⟩
    · obtain ⟨na', ha', hr⟩ := hp.regions
      obtain rfl := Option.some.inj (ha.symm.trans ha')
      exact ⟨hp.inside hn ha, hr⟩
    · obtain ⟨na', ha', hr⟩ := hown.regions
      obtain rfl := Option.some.inj (ha.symm.trans ha')
      exact ⟨hown.inside hn ha, hr⟩
  exact Act.acts (.move hm hs' hn (Op.regionKinds_of_isExpression hop)
    (.beside (Op.ne_logic_of_isExpression hop) (.before ha (ne_logic_of_regions hs ha hout.2)))
    (hform.imp_right fun h => ⟨h.1, hout.1.trans h.2⟩))

/-- A node that moves out of a procedural block is no longer there. -/
theorem Hoists.not_mem (h : m.Hoists id m') (hs : Sound m) (hn : m.live? id = some n)
    (hk : m.kind? n.parent = some .procedural) : id ∉ m'.nodesOf n.parent := by
  obtain ⟨hn', ha, hreach, hm, hs'⟩ := h
  obtain rfl := Option.some.inj (hn.symm.trans hn')
  rename_i na anchor
  intro hmem
  obtain ⟨n', hn', hp⟩ := hs'.mem_nodesOf_iff.1 hmem
  obtain rfl := Option.some.inj ((hm.live hn).symm.trans hn')
  replace hp : na.parent = n.parent := (if_pos rfl).symm.trans hp
  rcases hreach with ⟨-, hprocess⟩ | ⟨-, nid, na', hnid, ha', hown⟩
  · rw [← hp, hprocess.graph ha] at hk
    cases hk
  · obtain rfl := Option.some.inj (hn.symm.trans hnid)
    obtain rfl := Option.some.inj (ha.symm.trans ha')
    exact hs.not_inside_region ha hown (hp ▸ .self)

theorem LeavesProcess.acts (h : m.LeavesProcess id m') (hn : m.live? id = some n)
    (hop : n.op = .logic) : Acts block F m m' := by
  obtain ⟨-, hprocess, hp, hm, hs'⟩ := h
  refine Act.acts (.move hm hs' hn (by rw [hop]; rfl) (Or.inl (hprocess.graph hp))
    (Or.inl (Or.inr ?_)))
  rw [hop]
  exact ⟨rfl, nofun⟩

theorem Captures.acts (h : m.Captures id m') (hn : m.live? id = some n) (hop : n.op ≠ .logic) :
    Acts block F m m' := by
  obtain ⟨hn', hv, htype, hprocess, hp, hdecl, hstype, hs₁, hread, hs₂, hr, hs₃, hconn, hs'⟩ := h
  obtain rfl := Option.some.inj (hn.symm.trans hn')
  have hk := hprocess.graph hp
  have h₁ : Acts block F m _ := hdecl.acts_declaration hs₁ rfl rfl rfl hstype hk
  have h₂ : Act block F _ _ := .create hread hs₂ rfl
    (fun _ => .inline rfl nofun rfl) (Or.inl (hdecl.kept.kind? _ ▸ hk))
    (Or.inl (.of_inline rfl)) nofun
  have h₃ : Act block F _ _ := hr.act_substitute hs₃ (hread.isDerived (i := 0) rfl rfl)
  exact ((h₁.tail h₂).tail h₃).trans (hconn.acts_access hs' (Or.inr (Or.inr rfl)) (.of_connection rfl rfl rfl)
    (Or.inr (.after (hr.live (hread.live (hdecl.live hn))) hop)))

/-! ## Ports and events -/

theorem AnchorsOutput.acts {inst : NodeId} (h : m.AnchorsOutput inst v m') (hs : Sound m)
    (hn : m.live? inst = some n) (hop : n.op.isInstance = true) : Acts block F m m' := by
  have hcode := Op.ne_logic_of_isInstance hop
  cases h with
  | ending h => exact h ▸ .refl
  | assigned hn' _ ha hopa _ hm hs' =>
    refine Act.acts (.move hm hs' ha (by rw [hopa]; rfl) (.beside ?_ (.after hn hcode))
      (Or.inl (Or.inr ?_)))
    all_goals rw [hopa]
    · nofun
    · exact ⟨rfl, nofun⟩
  | wired hn' hres htype hdecl hstype hs₁ huses hnd hreads hconn hs' =>
    have h₁ : Acts block F m _ := hdecl.acts_declaration hs₁ rfl rfl rfl hstype hs.kind?_body
    obtain ⟨n₂, hn₂, hop₂, -⟩ := hreads.live (hdecl.live hn)
    exact (h₁.trans hreads.acts).trans (hconn.acts_access hs' (Or.inr (Or.inl rfl)) (.of_connection rfl rfl rfl)
      (Or.inr (.after hn₂ (hop₂ ▸ hcode))))

theorem AnchorsOutputs.acts {inst : NodeId} {vs : List ValueId} (h : AnchorsOutputs inst vs m m')
    (hs : Sound m) (hn : m.live? inst = some n) (hop : n.op.isInstance = true) :
    Acts block F m m' := by
  induction h generalizing n with
  | nil => exact .refl
  | cons h _ ih =>
    obtain ⟨n₁, hn₁, hop₁, -⟩ := h.live_inst hn hop
    exact (h.acts hs hn hop).trans (ih (h.sound hs) hn₁ (hop₁ ▸ hop))

theorem AnchorsInput.acts {inst : NodeId} {index : Nat} (h : m.AnchorsInput inst index v m')
    (hs : Sound m) (hn : m.live? inst = some n) (hop : n.op.isInstance = true) :
    Acts block F m m' := by
  have hcode := Op.ne_logic_of_isInstance hop
  cases h with
  | simple h => exact h ▸ .refl
  | wired hn' huse htype hdecl hstype hs₁ hread hs₂ hconn hs₃ hr hs' =>
    have h₁ : Acts block F m _ := hdecl.acts_declaration hs₁ rfl rfl rfl hstype hs.kind?_body
    have hn₁ := hdecl.live hn
    have h₂ : Acts block F _ _ := hread.acts_access hs₂ (Or.inl rfl)
      (.inline rfl nofun rfl) (Or.inr (.before hn₁ hcode))
    have h₃ : Acts block F _ _ := hconn.acts_access hs₃ (Or.inr (Or.inl rfl)) (.of_connection rfl rfl rfl)
      (Or.inr (.before (hread.live hn₁) hcode))
    have huse₃ := hconn.uses_iff.2 (Or.inl (hread.uses_iff.2 (Or.inl (hdecl.uses_iff.2
      (Or.inl huse)))))
    exact ((h₁.trans h₂).trans h₃).tail (hr.act_pointAt hs' huse₃
      ((hread.isDerived (i := 0) rfl rfl).mono hconn.kept))

theorem AnchorsInputs.acts {inst : NodeId} {index : Nat} {vs : List ValueId}
    (h : AnchorsInputs inst index vs m m') (hs : Sound m) (hn : m.live? inst = some n)
    (hop : n.op.isInstance = true) : Acts block F m m' := by
  induction h generalizing n with
  | nil => exact .refl
  | cons h hrest ih =>
    obtain ⟨n₁, hn₁, hop₁, -⟩ := AnchorsInputs.live (.cons h (.nil _ _)) hn
    exact (h.acts hs hn hop).trans (ih (h.sound hs) hn₁ (hop₁ ▸ hop))

theorem RoutesEvent.acts {process : NodeId} (h : m.RoutesEvent process v m') (hs : Sound m)
    (hn : m.live? process = some n) (hop : n.op.isClocked = true) : Acts block F m m' := by
  have hcode := Op.ne_logic_of_isClocked hop
  cases h with
  | simple h => exact h ▸ .refl
  | wired hp hevent htype hdecl hstype hs₁ hread hs₂ hr hs₃ hconn hs₄ hsettle =>
    obtain rfl := Option.some.inj (hn.symm.trans hp)
    have h₁ : Acts block F m _ := hdecl.acts_declaration hs₁ rfl rfl rfl hstype hs.kind?_body
    have hn₁ := hdecl.live hn
    have h₂ : Acts block F _ _ := hread.acts_access hs₂ (Or.inl rfl)
      (.inline rfl nofun rfl) (Or.inr (.before hn₁ hcode))
    have h₃ : Act block F _ _ := hr.act_substitute hs₃ (hread.isDerived (i := 0) rfl rfl)
    have h₄ : Acts block F _ _ := hconn.acts_access hs₄ (Or.inr (Or.inl rfl)) (.of_connection rfl rfl rfl)
      (Or.inr (.before (hr.live (hread.live hn₁)) hcode))
    exact (((h₁.trans h₂).tail h₃).trans h₄).trans hsettle.inlines.acts

theorem RoutesEvents.acts {process : NodeId} {vs : List ValueId}
    (h : RoutesEvents process vs m m') (hs : Sound m) (hn : m.live? process = some n)
    (hop : n.op.isClocked = true) : Acts block F m m' := by
  induction h generalizing n with
  | nil => exact .refl
  | cons h _ ih =>
    obtain ⟨n₁, hn₁, hop₁, -⟩ := h.live hn
    exact (h.acts hs hn hop).trans (ih (h.sound hs) hn₁ (hop₁ ▸ hop))

/-! ## Order -/

theorem PlacesDeclarations.acts {scope : BlockId} {placed : Option NodeId} {ids : List NodeId}
    (h : PlacesDeclarations scope placed ids m m') (hs : Sound m) (hin : m.Inside scope block) :
    Acts block F m m' := by
  induction h with
  | nil => exact .refl
  | skip _ _ _ ih => exact ih hs hin
  | stay _ _ _ _ _ ih => exact ih hs hin
  | @move _ _ _ n _ _ _ hn hop hm hs₁ _ ih =>
    have hreg : n.op.regionKinds = [] := by rw [hop]; rfl
    have h₁ : Act block F _ _ := .move hm hs₁ hn hreg (Or.inr (Or.inl ⟨hop, hin⟩))
      (Or.inl (Or.inr (by rw [hop]; exact ⟨rfl, nofun⟩)))
    exact h₁.acts.trans (ih hs₁ ((hm.edits hs hs₁ hn hreg).sameTree.inside hin))

/-- What can stand anywhere is a constant or has no operands. -/
theorem Placeable.isSettled (h : m.Placeable n) : n.IsSettled := by
  rcases h with hop | ⟨hops, -⟩
  · refine Or.inr ?_
    cases hop' : n.op <;> simp_all [Op.isConstant, Op.isCommutative]
  · exact Or.inl hops

theorem Resolves.acts (h : m.Resolves block id m') (hs : Sound m) (hn : m.live? id = some n)
    (hp : n.parent = block) (hk : m.kind? block = some .graph) : Acts block F m m' := by
  cases h with
  | front hn' hplace hm hs' =>
    exact Act.acts (.move hm hs' hn' (hs.regionKinds_of_placeable hn' hplace) (Or.inl hk)
      (Or.inl hplace.isSettled))
  | read hn' hop hstorage hdef hd hplace hm₁ hs₁ hm hs' =>
    have h₁ : Act block F _ _ := .move hm₁ hs₁ hn' (by rw [hop]; rfl) (Or.inl hk)
      (Or.inl (.of_inline (by rw [hop]; rfl)))
    have hregd := hs.regionKinds_of_placeable hd hplace
    exact h₁.acts.tail (.move hm hs' (hm₁.live hd) hregd
      (Or.inl (hm₁.kept.kind? _ ▸ hk)) (Or.inl hplace.isSettled))
  | spill hnot h => exact h.acts hs hn (hp ▸ .self) (Or.inl (hp ▸ hk))

theorem ResolvesAll.acts {ids : List NodeId} (h : ResolvesAll block ids m m') (hs : Sound m)
    (hids : ∀ j ∈ ids, ∃ n, m.live? j = some n ∧ n.parent = block)
    (hk : m.kind? block = some .graph) : Acts block F m m' := by
  induction h with
  | nil => exact .refl
  | cons h _ ih =>
    obtain ⟨n, hn, hp⟩ := hids _ List.mem_cons_self
    have he := h.edits hs
    refine (h.acts hs hn hp hk).trans (ih he.sound (fun j hj => ?_) (he.kept.kind? _ ▸ hk))
    obtain ⟨nj, hnj, hpj⟩ := hids j (List.mem_cons_of_mem _ hj)
    obtain ⟨nj', hnj', -, -, hpj'⟩ := h.live hnj
    exact ⟨nj', hnj', hpj'.elim (·.trans hpj) id⟩

theorem Orders.acts (h : Orders block m m') (hs : Sound m) : Acts block F m m' := by
  cases h with
  | empty _ _ h => exact h ▸ .refl
  | declarations hk hfirst hscope h =>
    obtain ⟨n, hn, hp⟩ := hs.mem_nodesOf_iff.1 (List.mem_of_head? hfirst)
    exact h.acts hs (hp ▸ (hs.scopeWithin_eq_ok hn hscope).1)
  | definitions hk hids h =>
    refine h.acts hs (fun j hj => hs.mem_nodesOf_iff.1 ?_) hk
    exact (outOfOrder_eq_ok hs hids).1.subset hj

/-! ## Nodes of a scan -/

theorem Rule.acts (h : m.Rule id m') (hs : Sound m) (hn : m.live? id = some n)
    (hin : n.op.isAlwaysInline = false → m.Inside n.parent block) (hF : F id) :
    Acts block F m m' := by
  cases h with
  | anchorOutputs hn' hop h => exact h.acts hs hn' hop
  | anchorInputs hn' hop h => exact h.acts hs hn' hop
  | leaveProcess hn' hop _ h => exact h.acts hn' hop
  | route hn' hop h => exact h.acts hs hn' hop
  | hoist hn' hop _ h =>
    refine h.acts hs hn' hop ?_
    obtain rfl := Option.some.inj (hn.symm.trans hn')
    cases hinline : n.op.isAlwaysInline with
    | true => exact Or.inl (.of_inline hinline)
    | false => exact Or.inr ⟨hF, hin hinline⟩
  | capture hn' hop _ h => exact h.acts hn' (Op.ne_logic_of_isExpression hop)
  | erase hn' hop _ h hs' =>
    exact Act.acts (.erase h hs' hn' (Op.regionKinds_of_isExpression hop))
  | settle _ _ h => exact h.acts
  | reuse _ _ _ _ h => exact h.acts
  | spill hn' hop hinline h =>
    obtain rfl := Option.some.inj (hn.symm.trans hn')
    exact h.acts hs hn' (hin hinline) (Or.inr (Op.ne_logic_of_isExpression hop))

/-- A node that is not printed at its uses stays in its block or moves further out. -/
theorem Rule.outward {n' : Node} (h : m.Rule id m') (hn : m.live? id = some n)
    (hinline : n.op.isAlwaysInline = false) (hn' : m'.live? id = some n') :
    m.Inside n'.parent n.parent := by
  have hstay : ∀ {n₁ : Node}, m'.live? id = some n₁ → n₁.parent = n.parent →
      m.Inside n'.parent n.parent := fun h₁ hp => by
    obtain rfl := Option.some.inj (h₁.symm.trans hn')
    rw [hp]
    exact .self
  have hmove : ∀ {b pos}, m.Moves m' b pos id → n'.parent = b := fun hm => by
    obtain rfl := Option.some.inj ((hm.live hn).symm.trans hn')
    exact if_pos rfl
  cases h with
  | anchorOutputs hi hop h =>
    obtain ⟨n₁, hn₁, -, -, hp⟩ := h.live_inst hi hop
    obtain rfl := Option.some.inj (hn.symm.trans hi)
    exact hstay hn₁ hp
  | anchorInputs _ _ h =>
    obtain ⟨n₁, hn₁, -, -, hp⟩ := h.live hn
    exact hstay hn₁ hp
  | leaveProcess _ _ _ h =>
    obtain ⟨-, hprocess, hp, hm, -⟩ := h
    exact hmove hm ▸ hprocess.inside hn hp
  | route _ _ h =>
    obtain ⟨n₁, hn₁, -, -, hp⟩ := h.live hn
    exact hstay hn₁ (hp hinline)
  | hoist _ _ _ h =>
    obtain ⟨-, ha, hreach, hm, -⟩ := h
    rw [hmove hm]
    exact hreach.elim (·.2.inside hn ha) (·.2.inside hn ha)
  | capture _ _ _ h =>
    obtain ⟨-, -, -, -, -, hdecl, -, -, hread, -, hr, -, hconn, -⟩ := h
    exact hstay (hconn.live (hr.live (hread.live (hdecl.live hn)))) rfl
  | erase _ _ _ h =>
    rw [h.live?, if_pos rfl] at hn'
    cases hn'
  | settle hi hop =>
    obtain rfl := Option.some.inj (hn.symm.trans hi)
    rw [hinline] at hop
    cases hop
  | reuse _ _ _ _ h =>
    obtain ⟨n₁, hn₁, -, -, hp⟩ := h.live hn
    exact hstay hn₁ (hp hinline)
  | spill _ _ _ h =>
    obtain ⟨n₁, hn₁, -, -, hp⟩ := h.live hn
    exact hstay hn₁ hp

theorem Rules.acts (h : Rules id m m') (hs : Sound m) (hn : m.live? id = some n)
    (hin : n.op.isAlwaysInline = false → m.Inside n.parent block) (hF : F id) :
    Acts block F m m' := by
  induction h generalizing n with
  | refl => exact .refl
  | @step m m₁ m' h hrest ih =>
    have he := h.edits hs
    have h₁ := h.acts hs hn hin hF
    cases hrest with
    | refl => exact h₁
    | step h' hrest' =>
      obtain ⟨n₁, hn₁⟩ := h'.live
      refine h₁.trans (ih he.sound hn₁ fun hinline => ?_)
      obtain ⟨n₂, hn₂, hop, -⟩ := he.kept.node (core_of_live? hn)
      obtain rfl := Option.some.inj ((core_of_live? hn₁).symm.trans hn₂)
      rw [hop] at hinline
      exact he.sameTree.inside ((h.outward hn hinline hn₁).trans (hin hinline))

theorem Stores.acts (h : m.Stores id m') (hs : Sound m) (hn : m.live? id = some n)
    (hin : m.Inside n.parent block) : Acts block F m m' := by
  cases h with
  | nothing h => exact h ▸ .refl
  | reuse _ _ _ _ h => exact h.acts
  | spill hn' hop _ h => exact h.acts hs hn hin (by
      obtain rfl := Option.some.inj (hn.symm.trans hn')
      exact Or.inr (Op.ne_logic_of_isExpression hop))

theorem Replaces.acts {target : NodeId} (h : m.Replaces id target m') (hs : Sound m)
    (hn : m.live? id = some n) (hin : m.Inside n.parent block) :
    Acts block (fun _ => True) m m' := by
  cases h with
  | balance hn' hop hlen _ h =>
    obtain rfl := Option.some.inj (hn.symm.trans hn')
    exact h.acts hs hn hop (Nat.lt_of_succ_lt hlen) hin fun _ _ => trivial
  | subtract h => exact h.acts
  | explode hn' hop _ h => exact h.acts hn' hop

theorem ScanStep.acts {visited visited' : IdMap Unit} {next : Option NodeId}
    (h : ScanStep o block id visited visited' next m m') (hs : Sound m) :
    Acts block (fun _ => True) m m' := by
  obtain ⟨n, hn, hp, -⟩ := h.live
  have hin : m.Inside n.parent block := hp ▸ .self
  rcases h.handles with ⟨hrules, -⟩ | ⟨target, m₁, -, hst, hrep⟩
  · exact hrules.acts hs hn (fun _ => hin) trivial
  · have he := hst.rules.edits hs
    obtain ⟨n₁, hn₁, -, hinline⟩ := hrep.isExpression
    have hop : m.HasOp (·.isAlwaysInline = false) id :=
      .of_kept ⟨n₁, core_of_live? hn₁, hinline⟩ he.kept hn
    obtain ⟨n₂, hn₂, -, hp₂⟩ := hst.live hn (hop.of_live hn)
    exact (hst.acts hs hn hin).trans
      (hrep.acts he.sound hn₂ (hp₂ ▸ he.sameTree.inside hin))

theorem Scans.acts {visited : IdMap Unit} {cursor : Option NodeId}
    (h : Scans o block visited cursor m m') (hs : Sound m) : Acts block (fun _ => True) m m' := by
  induction h with
  | done => exact .refl
  | step h _ ih => exact (h.acts hs).trans (ih (h.edits hs).sound)

/-! ## Blocks one after another -/

/-- A region of a node of a block. -/
theorem mem_flatMap_regions {b r : BlockId} (hw : WellFormed m)
    (hr : r ∈ (m.nodesOf b).flatMap m.regionsOf) :
    ∃ x n, m.live? x = some n ∧ n.parent = b ∧ r ∈ n.regions := by
  obtain ⟨x, hx, hr⟩ := List.mem_flatMap.1 hr
  obtain ⟨n, hn, hp⟩ := hw.mem_nodesOf_iff.1 hx
  exact ⟨x, n, hn, hp, regionsOf_of_live? hn ▸ hr⟩

/-- The regions of the nodes of a block have nothing in common. -/
theorem pairwise_regions (hs : Sound m) (b : BlockId) :
    ((m.nodesOf b).flatMap m.regionsOf).Pairwise fun r r' =>
      ∀ c, m.Inside r c → ¬ m.Inside r' c := by
  have hnodup : ((m.nodesOf b).flatMap m.regionsOf).Nodup := by
    refine List.nodup_flatMap.2 ⟨fun x hx => ?_, (hs.nodup b).imp_of_mem fun hx hy hne r hr hr' => ?_⟩
    · obtain ⟨n, hn, -⟩ := hs.mem_nodesOf_iff.1 hx
      exact regionsOf_of_live? hn ▸ hs.regions_nodup hn
    · obtain ⟨n, hn, -⟩ := hs.mem_nodesOf_iff.1 hx
      obtain ⟨n', hn', -⟩ := hs.mem_nodesOf_iff.1 hy
      exact hne (hs.region_unique hn (regionsOf_of_live? hn ▸ hr) hn' (regionsOf_of_live? hn' ▸ hr'))
  refine hnodup.imp_of_mem fun hr hr' hne c hin hin' => hne ?_
  obtain ⟨x, n, hn, hp, hmem⟩ := mem_flatMap_regions hs.toWellFormed hr
  obtain ⟨y, n', hn', hp', hmem'⟩ := mem_flatMap_regions hs.toWellFormed hr'
  exact hs.eq_of_inside_regions hn hmem hn' hmem' (hp.trans hp'.symm) hin hin'

/-- What legalizing a block brings about in it, and leaves in blocks that are not around it, holds of
every block in the end: a block is legalized after those in it and does not touch them again. -/
theorem Legalizes.finishes {I : Module → Prop} {D : BlockId → Module → Prop} {bs : List BlockId}
    (hI : ∀ {m}, I m → Sound m)
    (hstep : ∀ {block m m₁ m₂}, I m → m.Placed block →
      Scans o block .empty (m.nodesOf block).head? m m₁ → Orders block m₁ m₂ →
        I m₂ ∧ D block m₂ ∧ ∀ c, ¬ m.Inside c block → D c m → D c m₂)
    (h : Legalizes o bs m m') (hm : I m)
    (hdisj : bs.Pairwise fun a b => ∀ c, m.Inside a c → ¬ m.Inside b c) :
    I m' ∧ (∀ c, (∀ b ∈ bs, ∀ d, m.Inside b d → ¬ m.Inside c d) → D c m → D c m') ∧
      ∀ b ∈ bs, ∀ c, m.Inside b c → D c m' := by
  induction h with
  | nil => exact ⟨hm, fun _ _ h => h, by simp⟩
  | @cons block blocks m m₁ m₂ m₃ m' hblock hinner hscan horder hrest ihinner ihrest =>
    have hs := hI hm
    have he₁ := hinner.edits hs
    obtain ⟨hm₁, hkeep₁, hfin₁⟩ := ihinner hm (pairwise_regions hs block)
    obtain ⟨hm₃, hblock₃, hkeep₃⟩ := hstep hm₁ (he₁.placed hblock) hscan horder
    have htree : SameTree m m₃ :=
      (he₁.trans ((hscan.edits he₁.sound).trans (horder.edits (hscan.edits he₁.sound).sound))).sameTree
    obtain ⟨hhead, htail⟩ := List.pairwise_cons.1 hdisj
    obtain ⟨hm', hkeep', hfin'⟩ := ihrest hm₃
      (htail.imp fun hab c h h' => hab c (htree.symm.inside h) (htree.symm.inside h'))
    -- The regions of the nodes of the block lie in it.
    have hregion : ∀ {r}, r ∈ (m.nodesOf block).flatMap m.regionsOf →
        m.Inside block r ∧ ¬ m.Inside r block := fun hr => by
      obtain ⟨x, n, hn, hp, hr⟩ := mem_flatMap_regions hs.toWellFormed hr
      exact hp ▸ ⟨.region hn hr .self, hs.not_inside_region hn hr⟩
    refine ⟨hm', fun c hc hD => ?_, fun b hb c hin => ?_⟩
    · refine hkeep' c (fun b hb d hd hcd => hc b (List.mem_cons_of_mem _ hb) d
        (htree.symm.inside hd) (htree.symm.inside hcd)) (hkeep₃ c (fun h => ?_) (hkeep₁ c ?_ hD))
      · exact hc block List.mem_cons_self block .self (he₁.sameTree.symm.inside h)
      · exact fun r hr d hd => hc block List.mem_cons_self d ((hregion hr).1.trans hd)
    · rcases List.mem_cons.1 hb with rfl | hb
      · refine hkeep' c (fun b' hb' d hd hcd => hhead b' hb' d
          (hin.trans (htree.symm.inside hcd)) (htree.symm.inside hd)) ?_
        rcases hin.cases_regions hs.toWellFormed with rfl | ⟨r, hr, hrc⟩
        · exact hblock₃
        · exact hkeep₃ c (fun h => (hregion hr).2 (hrc.trans (he₁.sameTree.symm.inside h)))
            (hfin₁ r hr c hrc)
      · exact hfin' b hb c (htree.inside hin)

end Module

end NetPrep
