import Mathlib
import NetPrep.Proofs.Valuations

/-!
# Modules with the same meaning

Two modules are similar if each valuation that satisfies one of them has a counterpart for the other,
with the same inputs and outputs. A temporary is declared before it is driven, and its reads are
right only because it will be driven: so the valuations on both sides may be asked for a condition,
which holds of them once and for all.
-/

namespace NetPrep

open Prepare Prep

/-! ## What is used where -/

namespace Wired

variable {m m' : Module} {id : NodeId} {n nu : Node} {v old new : ValueId} {u : Use}

theorem inside_user (hw : Wired m) (hn : m.live? id = some n) (hv : v ∈ n.results)
    (hop : n.op.isDeclaration = false) (hu : m.Uses u v) (hnu : m.live? u.node = some nu) :
    m.Inside n.parent nu.parent := by
  obtain ⟨i, hdef⟩ := hw.exists_def hn hv
  obtain ⟨nu', hnu', hget⟩ := hu
  obtain rfl := Option.some.inj (hnu.symm.trans hnu')
  exact hw.inScope hnu (List.mem_of_getElem? hget) id i n hdef hn
    hop

theorem not_isStorage_result (hw : Wired m) (hn : m.live? id = some n) (hv : v ∈ n.results)
    (hop : n.op.isDeclaration = false) : ¬ m.IsStorage v := by
  obtain ⟨i, hdef⟩ := hw.exists_def hn hv
  exact Module.not_isStorage hdef (Module.core_of_live? hn) hop

/-- The first operand of a read or an assignment stays where another value is redirected. -/
theorem reroutes_pointAt (hw : Wired m) (h : m.Redirects m' (pointAt u new)) (hu : m.Uses u old)
    (hold : ¬ m.IsStorage old) : m.Reroutes m' (· = u.node) old new := by
  refine h.reroutes_pointAt hu fun n hn hop hzero => hold ?_
  obtain ⟨nu, hnu, hget⟩ := hu
  obtain rfl := Option.some.inj (hn.symm.trans hnu)
  exact hw.whole hn hop (hzero ▸ hget)

theorem not_mem_results_of_fresh (hw : Wired m) (hn : m.live? id = some n)
    (hv : m.values.size ≤ v.index) : v ∉ n.results :=
  fun hmem => absurd (Meaning.lt_of_mem_results hw hn hmem) (Nat.not_lt.2 hv)

/-- The type of the one result of a node. -/
theorem suits_single {type : TypeId} (hw : Wired m) (hn : m.live? id = some n)
    (hv : n.results = [v]) (htype : m.type? v = some type) :
    ∃ os, n.operands.mapM m.type? = some os ∧ m.types.Suits os [type] n.op := by
  obtain ⟨os, rs, hos, hrs, hsuits⟩ := hw.suited hn
  obtain rfl : [type] = rs := by simpa [hv, htype] using hrs
  exact ⟨os, hos, hsuits⟩

end Wired

namespace Valuation

/-- A valuation that is given data for the values that are to come. -/
def extend (σ : Valuation) (size : Nat) (x y : Datum) : Valuation where
  value v := if v.index < size then σ.value v else x
  content v := if v.index < size then σ.content v else y

variable {σ : Valuation} {size : Nat} {x y : Datum} {v : ValueId}

theorem value_extend (h : v.index < size) : (σ.extend size x y).value v = σ.value v := if_pos h

theorem content_extend (h : v.index < size) : (σ.extend size x y).content v = σ.content v := if_pos h

theorem value_extend_of_le (h : size ≤ v.index) : (σ.extend size x y).value v = x :=
  if_neg (Nat.not_lt.2 h)

theorem content_extend_of_le (h : size ≤ v.index) : (σ.extend size x y).content v = y :=
  if_neg (Nat.not_lt.2 h)

/-- A condition that looks at some values only. -/
def Depends (K : ValueId → Prop) (F : Valuation → Prop) : Prop :=
  ∀ ⦃σ σ' : Valuation⦄, (∀ v, K v → σ'.value v = σ.value v ∧ σ'.content v = σ.content v) → F σ → F σ'

theorem Depends.mono {K K' : ValueId → Prop} {F : Valuation → Prop} (h : Depends K F)
    (hK : ∀ v, K v → K' v) : Depends K' F := fun _ _ hagree hF => h (fun v hv => hagree v (hK v hv)) hF

theorem depends_true (K : ValueId → Prop) : Depends K fun _ => True := fun _ _ _ h => h

end Valuation

namespace Meaning

variable {I : Meaning} {macros : Name → Prop} {ins : Nat → Datum} {outs : NodeId → List Datum}
  {m m' m'' : Module} {σ σ' : Valuation} {F : Valuation → Prop} {id : NodeId} {n : Node}
  {b : BlockId} {pos : Position} {types : List TypeId} {v : ValueId} {type : TypeId}

/-- Each valuation of one module that meets a condition has a counterpart for the other. -/
structure Similar (I : Meaning) (macros : Name → Prop) (F : Valuation → Prop) (m m' : Module) :
    Prop where
  forth : ∀ {ins outs σ}, I.Shows macros ins outs m σ → F σ →
    ∃ σ', I.Shows macros ins outs m' σ' ∧ F σ'
  back : ∀ {ins outs σ'}, I.Shows macros ins outs m' σ' → F σ' →
    ∃ σ, I.Shows macros ins outs m σ ∧ F σ

namespace Similar

theorem refl (m : Module) : Similar I macros F m m := ⟨fun h hF => ⟨_, h, hF⟩, fun h hF => ⟨_, h, hF⟩⟩

theorem trans (h : Similar I macros F m m') (h' : Similar I macros F m' m'') :
    Similar I macros F m m'' where
  forth hσ hF := by
    obtain ⟨σ₁, hσ₁, hF₁⟩ := h.forth hσ hF
    exact h'.forth hσ₁ hF₁
  back hσ hF := by
    obtain ⟨σ₁, hσ₁, hF₁⟩ := h'.back hσ hF
    exact h.back hσ₁ hF₁

theorem of_iff (h : ∀ {ins outs σ}, F σ →
    (I.Shows macros ins outs m' σ ↔ I.Shows macros ins outs m σ)) : Similar I macros F m m' :=
  ⟨fun hσ hF => ⟨_, (h hF).2 hσ, hF⟩, fun hσ hF => ⟨_, (h hF).1 hσ, hF⟩⟩

theorem realizes_iff (h : Similar I macros (fun _ => True) m m') :
    I.Realizes macros m' ins outs ↔ I.Realizes macros m ins outs := by
  constructor
  · rintro ⟨σ, hσ⟩
    obtain ⟨σ', hσ', -⟩ := h.back hσ trivial
    exact ⟨σ', hσ'⟩
  · rintro ⟨σ, hσ⟩
    obtain ⟨σ', hσ', -⟩ := h.forth hσ trivial
    exact ⟨σ', hσ'⟩

end Similar

/-! ## Creating, erasing, moving -/

/-- A new node with one result is satisfied by a datum of its type that it computes. -/
theorem Shows.creates_value {x y : Datum} (hσ : I.Shows macros ins outs m σ)
    (h : m.Creates m' b pos id n [type]) (hw : Wired m) (hout : n.op ≠ .output)
    (hassign : n.op ≠ .assign) (hx : I.has type x)
    (hy : n.op.isDeclaration = true → ∀ element, m'.types.elementOf? type = some element →
      I.has element y)
    (hfun : n.op = .read ∨ n.op.isFunction = true → m.Compiled macros b →
      I.computed m' (σ.extend m.values.size x y) n 0 = x) :
    I.Shows macros ins outs m' (σ.extend m.values.size x y) := by
  have hres : n.results = [⟨m.values.size⟩] := by simpa [Module.nextValues] using h.results
  have htype : m'.type? ⟨m.values.size⟩ = some type := h.type?_result (i := 0) (by rw [hres]; rfl)
  have hvalue : (σ.extend m.values.size x y).value ⟨m.values.size⟩ = x :=
    Valuation.value_extend_of_le le_rfl
  refine hσ.creates h hw hout (fun v hv => Valuation.value_extend hv)
    (fun v hv => Valuation.content_extend hv) (fun v hv t ht => ?_) (fun hop v hv t e ht he => ?_)
    fun hc => ⟨fun hop i v hv => ?_, fun hop => absurd hop hassign⟩
  · obtain rfl := List.mem_singleton.1 (hres ▸ hv)
    obtain rfl := Option.some.inj (htype.symm.trans ht)
    rwa [hvalue]
  · obtain rfl := List.mem_singleton.1 (hres ▸ hv)
    obtain rfl := Option.some.inj (htype.symm.trans ht)
    rw [Valuation.content_extend_of_le le_rfl]
    exact hy hop e he
  · rw [hres] at hv
    obtain ⟨rfl, rfl⟩ := eq_of_getElem?_singleton hv
    rw [hvalue, hfun hop hc]

/-- An assignment is satisfied if its destination contains its source. -/
theorem Shows.creates_assign {d s : ValueId} (hσ : I.Shows macros ins outs m σ)
    (h : m.Creates m' b pos id n []) (hw : Wired m) (hop : n.op = .assign) (hops : n.operands = [d, s])
    (heq : m.Compiled macros b → σ.content d = σ.value s) : I.Shows macros ins outs m' σ := by
  have hres : n.results = [] := by simpa [Module.nextValues] using h.results
  refine hσ.creates h hw (by simp [hop]) (fun _ _ => rfl) (fun _ _ => rfl)
    (fun v hv => absurd hv (by simp [hres])) (fun _ v hv => absurd hv (by simp [hres]))
    fun hc => ⟨fun _ i v hv => absurd hv (by simp [hres]), fun _ d' s' hds => ?_⟩
  obtain ⟨rfl, rfl⟩ : d = d' ∧ s = s' := by simpa [hops] using hds
  exact heq hc

/-- A node may go. -/
theorem Shows.erases (hσ : I.Shows macros ins outs m σ) (h : m.Erases m' id) (hw : Wired m)
    (hn : m.live? id = some n) (hr : n.regions = []) : I.Shows macros ins outs m' σ := by
  refine hσ.of_holds h.type? h.def? h.types fun {j n'} hj => ?_
  have hj' := (h.live_cases hj).2
  have hsame : SameNode n' n' := ⟨rfl, rfl, rfl, rfl, fun _ => rfl⟩
  exact ⟨n', hj', rfl, rfl, fun _ hc => ⟨(h.sameTree hn hr).compiled_iff.1 hc,
    ((hsame.alike (hw.suited hj') h.kept).holds_iff (hw.suited hj') h.kept rfl fun _ _ => rfl).2,
    rfl⟩⟩

/-- A node that is unused may come back. -/
theorem Shows.of_erases (hσ : I.Shows macros ins outs m' σ) (h : m.Erases m' id) (hw : Wired m)
    (hI : I.Fits m.types) (hn : m.live? id = some n) (hr : n.regions = [])
    (hop : n.op = .read ∨ n.op.isFunction = true) (hunused : ∀ u, ∀ v ∈ n.results, ¬ m.Uses u v) :
    I.Shows macros ins outs m (Valuation.settle I m σ n) :=
  hσ.settle hw hI hn hop (fun hv hu => absurd hu (hunused _ _ hv)) h.kept h.type? h.def? h.types
    (fun hj hne => ⟨_, h.live hj hne, ⟨rfl, rfl, rfl, rfl, fun _ => rfl⟩, rfl⟩)
    fun _ => (h.sameTree hn hr).compiled_iff

theorem similar_erases (h : m.Erases m' id) (hw : Wired m) (hI : I.Fits m.types)
    (hn : m.live? id = some n) (hr : n.regions = []) (hop : n.op = .read ∨ n.op.isFunction = true)
    (hunused : ∀ u, ∀ v ∈ n.results, ¬ m.Uses u v) :
    Similar I macros (fun _ => True) m m' where
  forth hσ _ := ⟨_, hσ.erases h hw hn hr, trivial⟩
  back hσ _ := ⟨_, hσ.of_erases h hw hI hn hr hop hunused, trivial⟩

/-- A node may move to a block inside its own. -/
theorem Shows.moves_inward (hσ : I.Shows macros ins outs m σ) (h : m.Moves m' b pos id)
    (hw : Wired m) (hn : m.live? id = some n) (hr : n.regions = []) (hin : m.Inside n.parent b) :
    I.Shows macros ins outs m' σ := by
  refine hσ.of_holds h.type? h.def? h.types fun {j n'} hj => ?_
  obtain ⟨nj, hnj, rfl⟩ := h.live_cases hj
  have hsuited := hw.suited hnj
  refine ⟨nj, hnj, rfl, rfl, fun hop hc => ⟨?_, ?_, rfl⟩⟩
  · replace hc := (h.sameTree hn hr).compiled_iff.1 hc
    by_cases hji : j = id
    · subst hji
      obtain rfl := Option.some.inj (hn.symm.trans hnj)
      rw [if_pos rfl] at hc
      exact hc.of_inside hw.toSound hin
    · rwa [if_neg hji] at hc
  · obtain ⟨os, rs, hos, hrs, -⟩ := hsuited
    have halike : Alike m m' σ σ nj { nj with parent := if j = id then b else nj.parent } :=
      ⟨rfl, rfl, typesOf_kept h.kept hos, typesOf_kept h.kept hrs, rfl, fun _ => rfl⟩
    exact (halike.holds_iff (hw.suited hnj) h.kept rfl fun _ _ => rfl).2

/-- A node whose only user is where it moved may move back. It is given what it computes if it was
compiled before and is not now. -/
theorem Shows.of_moves_inward {u : Use} {nu : Node} (hσ : I.Shows macros ins outs m' σ)
    (h : m.Moves m' nu.parent pos id) (hw : Wired m) (hI : I.Fits m.types)
    (hn : m.live? id = some n) (hr : n.regions = []) (hv : n.results = [v])
    (hop : n.op = .read ∨ n.op.isFunction = true) (honly : ∀ u', m.Uses u' v ↔ u' = u)
    (hnu : m.live? u.node = some nu) :
    ∃ σ', I.Shows macros ins outs m σ' ∧ σ'.content = σ.content ∧
      ∀ w ∉ n.results, σ'.value w = σ.value w := by
  have htree := h.sameTree hn hr
  by_cases hc : m.Compiled macros nu.parent
  · refine ⟨σ, ?_, rfl, fun _ _ => rfl⟩
    refine hσ.of_holds (fun w => (h.type? w).symm) (fun w => (h.def? w).symm) h.types.symm
      fun {j nj} hj => ⟨_, h.live hj, rfl, rfl, fun _ hcj => ⟨?_, ?_, rfl⟩⟩
    · rw [htree.compiled_iff]
      by_cases hji : j = id
      · rw [if_pos hji]
        exact hc
      · rwa [if_neg hji]
    · obtain ⟨os, rs, hos, hrs, -⟩ := hw.suited hj
      have halike : Alike m m' σ σ nj { nj with parent := if j = id then nu.parent else nj.parent } :=
        ⟨rfl, rfl, typesOf_kept h.kept hos, typesOf_kept h.kept hrs, rfl, fun _ => rfl⟩
      exact (halike.holds_iff (hw.suited hj) h.kept rfl fun _ _ => rfl).1
  · refine ⟨Valuation.settle I m σ n, hσ.settle hw hI hn hop (fun {w nw x} hx hu hnw => ?_) h.kept
      h.type? h.def? h.types (fun {j nj} hj hne => ⟨_, h.live hj, ⟨rfl, rfl, rfl, rfl, fun _ => ?_⟩,
        ?_⟩) fun _ => htree.compiled_iff, rfl, fun w hmem => if_neg hmem⟩
    · rw [hv] at hx
      obtain rfl := List.mem_singleton.1 hx
      obtain rfl := (honly w).1 hu
      obtain rfl := Option.some.inj (hnu.symm.trans hnw)
      exact hc
    · exact if_neg hne
    · exact if_neg hne

/-! ## Nodes that are printed at their uses -/

end Meaning

theorem Op.not_isDeclaration_or {op : Op} (h : op = .read ∨ op.isFunction = true) :
    op.isDeclaration = false :=
  Bool.eq_false_of_not_eq_true fun hdecl => Op.not_isFunction_of_isDeclaration hdecl h

theorem Op.isFunction_of_isAlwaysInline {op : Op} (h : op.isAlwaysInline = true) :
    op = .read ∨ op.isFunction = true := by
  cases op <;> first | exact absurd h Bool.false_ne_true | simp [isFunction, category]

namespace Module

/-- A value that is not printed at its uses. -/
def Steady (m : Module) (v : ValueId) : Prop :=
  ∃ x, m.def? v = some x ∧ ∀ d i n, x = .result d i → m.core d = some n →
    n.op.isAlwaysInline = false

variable {m m' : Module} {id : NodeId} {n : Node} {v : ValueId} {T : NodeId → Prop}

theorem Steady.mono (h : m.Steady v) (hk : m.Kept m') (hw : WellFormed m) : m'.Steady v := by
  obtain ⟨x, hx, hop⟩ := h
  refine ⟨x, hk.def? hx, ?_⟩
  rintro d i n rfl hn
  obtain ⟨n₀, hn₀, -⟩ := hw.definition hx
  obtain ⟨n₁, hn₁, hop₁, -⟩ := hk.node hn₀
  obtain rfl := Option.some.inj (hn.symm.trans hn₁)
  rw [hop₁]
  exact hop d i n₀ rfl hn₀

theorem Steady.lt (h : m.Steady v) : v.index < m.values.size := by
  obtain ⟨x, hx, -⟩ := h
  exact WellFormed.lt_of_def? hx

theorem Steady.not_mem_results (h : m.Steady v) (hw : WellFormed m) (hn : m.live? id = some n)
    (hop : n.op.isAlwaysInline = true) : v ∉ n.results := by
  intro hv
  obtain ⟨x, hx, hsteady⟩ := h
  obtain ⟨i, hdef⟩ := hw.exists_def hn hv
  have hfalse := hsteady id i n (Option.some.inj (hx.symm.trans hdef)) (core_of_live? hn)
  rw [hop] at hfalse
  cases hfalse

end Module

/-- A node is like another one, but for its result and its place. -/
structure Node.Copies (nc n : Node) (copy : ValueId) : Prop where
  op : nc.op = n.op
  twoState : nc.twoState = n.twoState
  operands : nc.operands = n.operands
  results : nc.results = [copy]

/-- A module with a copy of a node right before a user of it, which uses the copy instead. -/
structure Module.CopiesFor (m m₁ m' : Module) (id copyId : NodeId) (n nu nc : Node) (v copy : ValueId)
    (u : Use) (type : TypeId) : Prop where
  node : m.live? id = some n
  inline : n.op.isAlwaysInline = true
  results : n.results = [v]
  uses : m.Uses u v
  user : m.live? u.node = some nu
  type? : m.type? v = some type
  creates : m.Creates m₁ nu.parent (.before u.node) copyId nc [type]
  copies : nc.Copies n copy
  sound : Sound m₁
  redirects : m₁.Redirects m' (pointAt u copy)

namespace Module.CopiesFor

variable {m m₁ m' : Module} {id copyId : NodeId} {n nu nc : Node} {v copy : ValueId} {u : Use}
  {type : TypeId}

theorem mem (h : m.CopiesFor m₁ m' id copyId n nu nc v copy u type) : v ∈ n.results := by
  rw [h.results]
  exact List.mem_cons_self

theorem inside (h : m.CopiesFor m₁ m' id copyId n nu nc v copy u type) (hw : Wired m) :
    m.Inside n.parent nu.parent :=
  hw.inside_user h.node h.mem (Op.isDeclaration_of_isAlwaysInline h.inline) h.uses h.user

theorem index_copy (h : m.CopiesFor m₁ m' id copyId n nu nc v copy u type) :
    m.values.size ≤ copy.index := h.creates.index_result (by simp [h.copies.results])

theorem type?_copy (h : m.CopiesFor m₁ m' id copyId n nu nc v copy u type) :
    m₁.type? copy = some type := h.creates.type?_result (i := 0) (by rw [h.copies.results]; rfl)

/-- The node is not its own user. -/
theorem ne_user (h : m.CopiesFor m₁ m' id copyId n nu nc v copy u type) (hw : Wired m) :
    id ≠ u.node := by
  rintro rfl
  obtain ⟨nu', hnu', hop⟩ := h.uses
  obtain rfl := Option.some.inj (h.node.symm.trans hnu')
  exact hw.distinct h.node (Or.inl h.inline) h.mem (List.mem_of_getElem? hop)

theorem wired_copy (h : m.CopiesFor m₁ m' id copyId n nu nc v copy u type) (hw : Wired m) :
    Wired m₁ := by
  obtain ⟨os, hos, hsuits⟩ := hw.suits_single h.node h.results h.type?
  obtain ⟨hop, -, hops, -⟩ := h.copies
  refine h.creates.wired hw h.sound (hop ▸ Op.regionKinds_of_isAlwaysInline h.inline)
    (hops.symm ▸ hos) (hop.symm ▸ hsuits.mono h.creates.kept.extends) (fun w hw' => ?_)
    fun hread w hget => ?_
  · exact (hw.inScope h.node (hops ▸ hw')).inside (h.inside hw)
  · exact hw.whole h.node (hop ▸ hread) (hops ▸ hget)

theorem reroutes (h : m.CopiesFor m₁ m' id copyId n nu nc v copy u type) (hw : Wired m) :
    m₁.Reroutes m' (· = u.node) v copy :=
  (h.wired_copy hw).reroutes_pointAt h.redirects (h.creates.uses_iff.2 (Or.inl h.uses))
    ((h.wired_copy hw).not_isStorage_result (h.creates.live h.node) h.mem
      (Op.isDeclaration_of_isAlwaysInline h.inline))

theorem wired (h : m.CopiesFor m₁ m' id copyId n nu nc v copy u type) (hw : Wired m)
    (hs : Sound m') : Wired m' := by
  have huser : ∀ {j nj}, m₁.live? j = some nj → j = u.node → nj = nu := by
    rintro j nj hj rfl
    exact Option.some.inj (hj.symm.trans (h.creates.live h.user))
  refine (h.reroutes hw).wired (h.wired_copy hw) hs ?_ (fun hj hju _ => ?_) fun hj _ hju _ => ?_
  · exact h.type?_copy.trans (h.creates.kept.type? h.type?).symm
  · rw [huser hj hju]
    exact h.creates.visible_result (by simp [h.copies.results])
  · rw [huser hj hju]
    exact hw.not_mem_results_of_fresh h.user h.index_copy

end Module.CopiesFor

/-- A step that settles a node copies it for a use, or moves it to its only user. -/
theorem Module.InlineStep.cases_copiesFor {m m' : Module} {id : NodeId} (h : m.InlineStep id m') :
    (∃ m₁ copyId n nu nc v copy u type, m.CopiesFor m₁ m' id copyId n nu nc v copy u type) ∨
    ∃ n nu v u, m.live? id = some n ∧ n.op.isAlwaysInline = true ∧ n.results = [v] ∧
      (∀ u', m.Uses u' v ↔ u' = u) ∧ m.live? u.node = some nu ∧
      m.Moves m' nu.parent (.before u.node) id := by
  cases h with
  | clone hn hop hv hu hnu htype hc hs₁ hr hs =>
    exact Or.inl ⟨_, _, _, _, _, _, _, _, _, hn, hop, hv, hu, hnu, htype, hc, ⟨rfl, rfl, rfl, rfl⟩,
      hs₁, hr⟩
  | move hn hop hv honly hnu hne hm hs => exact Or.inr ⟨_, _, _, _, hn, hop, hv, honly, hnu, hm⟩

namespace Module

variable {m m' : Module} {id : NodeId} {T : NodeId → Prop}

theorem InlineStep.wired (h : InlineStep id m m') (hw : Wired m) : Wired m' := by
  obtain ⟨_, _, _, _, _, _, _, _, _, hcopy⟩ | ⟨n, nu, v, u, hn, hop, hv, honly, hnu, hm⟩ :=
    h.cases_copiesFor
  · exact hcopy.wired hw h.sound
  · have hmem : v ∈ n.results := by simp [hv]
    have hin := hw.inside_user hn hmem (Op.isDeclaration_of_isAlwaysInline hop) ((honly u).2 rfl) hnu
    have hr := hw.toNested.regions_eq_nil hn (Op.regionKinds_of_isAlwaysInline hop)
    refine hm.wired hw h.sound hn hr (fun w hw' => (hw.inScope hn hw').inside hin)
      (Or.inr fun {u' w nu'} hw' hu' hnu' _ => ?_)
    rw [hv] at hw'
    obtain rfl := List.mem_singleton.1 hw'
    obtain rfl := (honly u').1 hu'
    obtain rfl := Option.some.inj (hnu.symm.trans hnu')
    exact .self

theorem Inlines.wired (h : Inlines T m m') (hw : Wired m) : Wired m' := by
  induction h with
  | refl => exact hw
  | step _ h _ ih => exact ih (h.wired hw)

end Module

namespace Meaning

variable {I : Meaning} {macros : Name → Prop} {ins : Nat → Datum} {outs : NodeId → List Datum}
  {m m' m'' : Module} {σ σ' : Valuation} {F : Valuation → Prop} {id : NodeId} {n : Node}
  {b : BlockId} {pos : Position} {types : List TypeId} {v : ValueId} {type : TypeId}

/-- Nodes that differ in their results and their places compute the same. -/
theorem computed_congr {n n' : Node} {i : Nat} (hop : n'.op = n.op) (htwo : n'.twoState = n.twoState)
    (hops : n'.operands = n.operands) (htypes : m.typesOf n'.results = m.typesOf n.results) :
    I.computed m σ n' i = I.computed m σ n i := by
  unfold computed
  rw [hop, htwo, hops, htypes]

section CopiesFor

variable {m₁ : Module} {copyId : NodeId} {nu nc : Node} {copy : ValueId} {u : Use}

theorem shows_copiesFor_iff (h : m.CopiesFor m₁ m' id copyId n nu nc v copy u type) (hw : Wired m)
    (heq : m.Compiled macros nu.parent → σ.value copy = σ.value v) :
    I.Shows macros ins outs m' σ ↔ I.Shows macros ins outs m₁ σ := by
  refine shows_reroutes_iff (h.reroutes hw) (h.wired_copy hw)
    (h.type?_copy.trans (h.creates.kept.type? h.type?).symm) fun {j nj} hj hju _ hcomp => heq ?_
  subst hju
  obtain rfl := Option.some.inj ((h.creates.live h.user).symm.trans hj)
  exact h.creates.sameTree.compiled_iff.1 hcomp

theorem typesOf_copy (h : m.CopiesFor m₁ m' id copyId n nu nc v copy u type) :
    m₁.typesOf nc.results = m₁.typesOf n.results := by
  rw [h.copies.results, h.results]
  simp [Module.typesOf, h.type?_copy, h.creates.kept.type? h.type?]

/-- A copy is given what the node computes. -/
theorem Shows.copiesFor (hσ : I.Shows macros ins outs m σ)
    (h : m.CopiesFor m₁ m' id copyId n nu nc v copy u type) (hw : Wired m) (hI : I.Fits m.types) :
    I.Shows macros ins outs m' (σ.extend m.values.size (I.computed m σ n 0) default) := by
  have hget : n.results[0]? = some v := by rw [h.results]; rfl
  have hfun := Op.isFunction_of_isAlwaysInline h.inline
  have hdecl := Op.isDeclaration_of_isAlwaysInline h.inline
  refine (shows_copiesFor_iff h hw fun hcomp => ?_).2 ?_
  · rw [Valuation.value_extend (lt_of_mem_results hw h.node h.mem),
      Valuation.value_extend_of_le h.index_copy]
    exact ((hσ.holds h.node (hcomp.of_inside hw.toSound (h.inside hw))).results hfun 0 v hget).symm
  · have hop := h.copies.op
    refine hσ.creates_value h.creates hw ?_ ?_ (hσ.has_computed hw hI h.node hget h.type?)
      (fun hd => ?_) fun _ _ => ?_
    · intro he
      rw [← hop, he] at hdecl hfun
      simp [Op.isFunction, Op.category] at hfun
    · intro he
      rw [← hop, he] at hdecl hfun
      simp [Op.isFunction, Op.category] at hfun
    · rw [hop, hdecl] at hd
      cases hd
    · have hagree : Alike m m₁ σ (σ.extend m.values.size (I.computed m σ n 0) default) n n :=
        .of_agree (hw.suited h.node) h.creates.kept
          (fun w hw' => Valuation.value_extend (lt_of_mem_operands hw h.node hw'))
          fun w hw' => Valuation.content_extend (lt_of_mem_operands hw h.node hw')
      rw [computed_congr hop h.copies.twoState h.copies.operands (typesOf_copy h)]
      exact hagree.computed (hw.suited h.node) h.creates.kept

/-- A copy may be forgotten, as it computes what the node computes. -/
theorem Shows.of_copiesFor (hσ : I.Shows macros ins outs m' σ)
    (h : m.CopiesFor m₁ m' id copyId n nu nc v copy u type) (hw : Wired m) :
    I.Shows macros ins outs m σ := by
  have hget : n.results[0]? = some v := by rw [h.results]; rfl
  have hfun := Op.isFunction_of_isAlwaysInline h.inline
  have hnode := h.redirects.live (h.creates.live h.node)
  have hcopy := h.redirects.live h.creates.live?_self
  rw [pointAt, if_neg (h.ne_user hw)] at hnode
  rw [pointAt, if_neg fun he => h.creates.ne h.user he.symm] at hcopy
  have htree := h.creates.sameTree.trans h.redirects.sameTree
  refine ((shows_copiesFor_iff h hw fun hcomp => ?_).1 hσ).of_creates h.creates hw
  have hvalue := (hσ.holds hnode (htree.compiled (hcomp.of_inside hw.toSound (h.inside hw)))).results
    hfun 0 v hget
  have hcopied := (hσ.holds hcopy (htree.compiled (h.creates.parent ▸ hcomp))).results
    (h.copies.op ▸ hfun) 0 copy (by rw [h.copies.results]; rfl)
  rw [hvalue, hcopied]
  refine computed_congr h.copies.op h.copies.twoState h.copies.operands ?_
  have htypes := typesOf_copy h
  simpa only [Module.typesOf, h.redirects.type?] using htypes

end CopiesFor

theorem similar_inlineStep (h : m.InlineStep id m') (hw : Wired m) (hI : I.Fits m.types)
    (hF : Valuation.Depends m.Steady F) : Similar I macros F m m' := by
  obtain ⟨m₁, _, _, _, _, _, _, _, _, hcopy⟩ | ⟨n, nu, v, u, hn, hop, hv, honly, hnu, hm⟩ :=
    h.cases_copiesFor
  · exact ⟨fun hσ hFσ => ⟨_, hσ.copiesFor hcopy hw hI, hF (fun w hw' =>
      ⟨Valuation.value_extend hw'.lt, Valuation.content_extend hw'.lt⟩) hFσ⟩,
      fun hσ hFσ => ⟨_, hσ.of_copiesFor hcopy hw, hFσ⟩⟩
  · have hmem : v ∈ n.results := by simp [hv]
    have hfun := Op.isFunction_of_isAlwaysInline hop
    have hin := hw.inside_user hn hmem (Op.isDeclaration_of_isAlwaysInline hop) ((honly u).2 rfl) hnu
    have hr := hw.toNested.regions_eq_nil hn (Op.regionKinds_of_isAlwaysInline hop)
    refine ⟨fun hσ hFσ => ⟨_, hσ.moves_inward hm hw hn hr hin, hFσ⟩, fun hσ hFσ => ?_⟩
    obtain ⟨σ', hσ', hcontent, hvalue⟩ := hσ.of_moves_inward hm hw hI hn hr hv hfun honly hnu
    refine ⟨σ', hσ', hF (fun w hw' => ⟨hvalue w ?_, by rw [hcontent]⟩) hFσ⟩
    exact hw'.not_mem_results hw.toWellFormed hn hop

theorem similar_inlines {T : NodeId → Prop} (h : m.Inlines T m') (hw : Wired m)
    (hI : I.Fits m'.types) (hF : Valuation.Depends m.Steady F) : Similar I macros F m m' := by
  induction h with
  | refl => exact .refl _
  | step _ h hrest ih =>
    have hw₁ := h.wired hw
    refine (similar_inlineStep h hw ((hI.mono hrest.kept.extends).mono h.kept.extends) hF).trans
      (ih hw₁ hI (hF.mono fun v hv => hv.mono h.kept hw.toWellFormed))

end Meaning

end NetPrep
