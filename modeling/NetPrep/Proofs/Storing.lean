import Mathlib
import NetPrep.Proofs.Anchoring
import NetPrep.Proofs.Similar

/-!
# Values that flow through declarations

A use of a value may read a declaration instead, where the declaration contains the value. This is
how temporaries are made, how an assignment that is there is used, and how the ports of instances get
their wires.
-/

namespace NetPrep

open Prepare Prep

variable {I : Meaning} {macros : Name → Prop} {ins : Nat → Datum} {outs : NodeId → List Datum}
  {m m' : Module} {σ : Valuation} {id : NodeId} {n : Node} {b : BlockId} {old storage : ValueId}
  {type : TypeId} {loc : Loc} {u : Use} {us : List Use} {p : Prop}

/-- A declaration contains a value, if some condition holds. -/
def Valuation.Ties (p : Prop) (storage old : ValueId) (σ : Valuation) : Prop :=
  p → σ.content storage = σ.value old

theorem Valuation.depends_ties {K : ValueId → Prop} (hs : K storage) (ho : K old) :
    Valuation.Depends K (Valuation.Ties p storage old) := by
  intro σ σ' hagree hF hp
  rw [(hagree storage hs).2, (hagree old ho).1]
  exact hF hp

/-- A declaration can be used anywhere. -/
theorem Module.IsStorage.visible {v : ValueId} (h : m.IsStorage v) (c : BlockId) :
    m.Visible v c := by
  intro d i nd hdef hd hop
  obtain ⟨d', i', nd', hdef', hcore, hop'⟩ := h
  have heq := hdef.symm.trans hdef'
  simp only [Option.some.injEq, ValueDef.result.injEq] at heq
  obtain ⟨rfl, rfl⟩ := heq
  obtain rfl := Option.some.inj ((Module.core_of_live? hd).symm.trans hcore)
  rw [hop'] at hop
  cases hop

/-- A node in a block or further in defines a value, and a declaration stores values of its type. -/
structure Module.StoresFor (m : Module) (b : BlockId) (id : NodeId) (old storage : ValueId)
    (type : TypeId) : Prop where
  node : ∃ n, m.live? id = some n ∧ n.op.isDeclaration = false ∧ old ∈ n.results ∧
    m.Inside b n.parent
  decl : ∃ d nd, m.live? d = some nd ∧ nd.op.isDeclaration = true ∧ storage ∈ nd.results
  element : ∃ stype, m.type? storage = some stype ∧ m.types.elementOf? stype = some type
  type? : m.type? old = some type

namespace Module.StoresFor

theorem mono (h : m.StoresFor b id old storage type) (hk : m.Kept m') (ht : m.SameTree m')
    (hlive : ∀ {j n}, m.live? j = some n → ∃ n', m'.live? j = some n' ∧ n'.op = n.op ∧
      n'.results = n.results ∧ (j = id → n'.parent = n.parent)) :
    m'.StoresFor b id old storage type where
  node := by
    obtain ⟨n, hn, hop, hres, hin⟩ := h.node
    obtain ⟨n', hn', hop', hres', hp⟩ := hlive hn
    exact ⟨n', hn', by rwa [hop'], by rwa [hres'], hp rfl ▸ ht.inside hin⟩
  decl := by
    obtain ⟨d, nd, hd, hop, hres⟩ := h.decl
    obtain ⟨n', hn', hop', hres', -⟩ := hlive hd
    exact ⟨d, n', hn', by rwa [hop'], by rwa [hres']⟩
  element := by
    obtain ⟨stype, hst, he⟩ := h.element
    exact ⟨stype, hk.type? hst, hk.extends.elementOf? he⟩
  type? := hk.type? h.type?

theorem isStorage (h : m.StoresFor b id old storage type) (hw : WellFormed m) :
    m.IsStorage storage := by
  obtain ⟨d, nd, hd, hop, hres⟩ := h.decl
  obtain ⟨i, hdef⟩ := hw.exists_def hd hres
  exact ⟨d, i, nd, hdef, core_of_live? hd, hop⟩

theorem not_isStorage (h : m.StoresFor b id old storage type) (hw : Wired m) :
    ¬ m.IsStorage old := by
  obtain ⟨n, hn, hop, hres, -⟩ := h.node
  exact hw.not_isStorage_result hn hres hop

theorem lt_storage (h : m.StoresFor b id old storage type) : storage.index < m.values.size := by
  obtain ⟨stype, hst, -⟩ := h.element
  exact lt_of_type? hst

theorem lt_old (h : m.StoresFor b id old storage type) : old.index < m.values.size :=
  lt_of_type? h.type?

theorem visible (h : m.StoresFor b id old storage type) (hw : Wired m) (c : BlockId) :
    m.Visible storage c := (h.isStorage hw.toWellFormed).visible c

/-- Every user of the value is in the block or further in. -/
theorem inside_user (h : m.StoresFor b id old storage type) (hw : Wired m) {nu : Node}
    (hu : m.Uses u old) (hnu : m.live? u.node = some nu) : m.Inside b nu.parent := by
  obtain ⟨n, hn, hop, hres, hin⟩ := h.node
  exact hin.trans (hw.inside_user hn hres hop hu hnu)

end Module.StoresFor

/-! ## Reading a declaration instead -/

namespace Module.ReadFor

variable {read : NodeId}

/-- The steps of letting a use read a declaration. -/
theorem exists_reroutes (h : m.ReadFor old storage type loc u read m')
    (hst : m.StoresFor b id old storage type) (hw : Wired m) :
    ∃ nu value m₁, m.Uses u old ∧ m.live? u.node = some nu ∧
      m.Creates m₁ nu.parent (.before u.node) read
        (.fresh .read [storage] [value] nu.parent loc) [type] ∧
      Wired m₁ ∧ m₁.Reroutes m' (· = u.node) old value ∧
      m₁.type? value = m₁.type? old ∧ m.values.size ≤ value.index ∧ Wired m' ∧
      m'.live? read = some (.fresh .read [storage] [value] nu.parent loc) := by
  obtain @⟨nu, value, m₁, hu, hnu, hc, hs₁, hr, hs⟩ := h
  obtain ⟨stype, hstype, he⟩ := hst.element
  have hw₁ : Wired m₁ := by
    refine hc.wired hw hs₁ rfl (show _ = some [stype] by simp [Node.fresh, hstype])
      ⟨stype, type, rfl, rfl, hc.kept.extends.elementOf? he⟩ (fun v hv => ?_) fun _ v hv => ?_
    · obtain rfl := List.mem_singleton.1 hv
      exact hst.visible hw _
    · obtain rfl : storage = v := by simpa [Node.fresh] using hv
      exact hst.isStorage hw.toWellFormed
  have hold := hst.not_isStorage hw
  obtain ⟨d, hdef, -⟩ := hw.usable hu
  have hre := hw₁.reroutes_pointAt hr (hc.uses_iff.2 (Or.inl hu)) fun hst' =>
    hold (hst'.of_kept hc.kept hw.toWellFormed hdef)
  have htype : m₁.type? value = m₁.type? old := by
    rw [hc.kept.type? hst.type?]
    exact hc.type?_result (i := 0) rfl
  have hmem : value ∈ (Node.fresh .read [storage] [value] nu.parent loc).results := by
    simp [Node.fresh]
  have huser : ∀ {j nj}, m₁.live? j = some nj → j = u.node → nj = nu := by
    rintro j nj hj rfl
    exact Option.some.inj (hj.symm.trans (hc.live hnu))
  refine ⟨nu, value, m₁, hu, hnu, hc, hw₁, hre, htype, hc.index_result hmem, ?_, ?_⟩
  · refine hre.wired hw₁ hs htype (fun hj hju _ => ?_) fun hj _ hju _ => ?_
    · rw [huser hj hju]
      exact hc.visible_result hmem
    · rw [huser hj hju]
      exact hw.not_mem_results_of_fresh hnu (hc.index_result hmem)
  · have hread := hr.live hc.live?_self
    rwa [pointAt, if_neg fun he => hc.ne hnu he.symm] at hread

theorem wired (h : m.ReadFor old storage type loc u read m')
    (hst : m.StoresFor b id old storage type) (hw : Wired m) : Wired m' := by
  obtain ⟨_, _, _, _, _, _, _, _, _, _, hw', _⟩ := h.exists_reroutes hst hw
  exact hw'

theorem storesFor (h : m.ReadFor old storage type loc u read m')
    (hst : m.StoresFor b id old storage type) : m'.StoresFor b id old storage type := by
  refine hst.mono h.kept h.edits.sameTree fun hj => ?_
  obtain ⟨ops, hops⟩ := h.live hj
  exact ⟨_, hops, rfl, rfl, fun _ => rfl⟩

end Module.ReadFor

namespace Meaning

theorem similar_readFor {read : NodeId} (h : m.ReadFor old storage type loc u read m')
    (hst : m.StoresFor b id old storage type) (hw : Wired m) (hp : m.Compiled macros b → p) :
    Similar I macros (Valuation.Ties p storage old) m m' := by
  obtain ⟨nu, value, m₁, hu, hnu, hc, hw₁, hre, htype, hindex, -, hread⟩ := h.exists_reroutes hst hw
  have hpu : m.Compiled macros nu.parent → p := fun hcomp =>
    hp (hcomp.of_inside hw.toSound (hst.inside_user hw hu hnu))
  have hiff : ∀ {ins outs σ}, (m.Compiled macros nu.parent → σ.value value = σ.value old) →
      (I.Shows macros ins outs m' σ ↔ I.Shows macros ins outs m₁ σ) := by
    intro ins outs σ heq
    refine shows_reroutes_iff hre hw₁ htype fun {j nj} hj hju _ hcomp => heq ?_
    subst hju
    obtain rfl := Option.some.inj ((hc.live hnu).symm.trans hj)
    exact hc.sameTree.compiled_iff.1 hcomp
  constructor
  · intro ins outs σ hσ hF
    obtain ⟨d, nd, hd, hop, hres⟩ := hst.decl
    obtain ⟨stype, hstype, he⟩ := hst.element
    refine ⟨σ.extend m.values.size (σ.content storage) default, (hiff fun hcomp => ?_).2 ?_,
      Valuation.depends_ties (K := (·.index < m.values.size)) hst.lt_storage hst.lt_old
        (fun v hv => ⟨Valuation.value_extend hv, Valuation.content_extend hv⟩) hF⟩
    · rw [Valuation.value_extend_of_le hindex, Valuation.value_extend hst.lt_old]
      exact hF (hpu hcomp)
    · refine hσ.creates_value hc hw nofun nofun (hσ.content hd hop hres hstype he) nofun
        fun _ _ => ?_
      show (σ.extend _ _ _).content storage = _
      exact Valuation.content_extend hst.lt_storage
  · intro ins outs σ hσ hF
    refine ⟨σ, ((hiff fun hcomp => ?_).1 hσ).of_creates hc hw, hF⟩
    have hvalue := (hσ.holds hread ((hc.sameTree.trans hre.sameTree).compiled hcomp)).results
      (Or.inl rfl) 0 value rfl
    rw [hvalue, ← hF (hpu hcomp)]
    rfl

end Meaning

namespace Module

/-- Letting several uses read a declaration keeps it in place. -/
theorem ReadsFor.storesFor (h : ReadsFor old storage type loc us m m')
    (hst : m.StoresFor b id old storage type) (hw : Wired m) :
    Wired m' ∧ m'.StoresFor b id old storage type ∧ m.SameTree m' := by
  induction h with
  | nil => exact ⟨hw, hst, .refl _⟩
  | cons h _ ih =>
    obtain ⟨hw', hst', htree⟩ := ih (h.storesFor hst) (h.wired hst hw)
    exact ⟨hw', hst', h.edits.sameTree.trans htree⟩

/-- The value and the declaration are not printed at their uses. -/
theorem StoresFor.steady (h : m.StoresFor b id old storage type) (hw : WellFormed m)
    (hop : ∀ n, m.live? id = some n → n.op.isAlwaysInline = false) :
    m.Steady storage ∧ m.Steady old := by
  obtain ⟨n, hn, -, hres, -⟩ := h.node
  obtain ⟨d, nd, hd, hdecl, hres'⟩ := h.decl
  have hsteady : ∀ {j nj v}, m.live? j = some nj → nj.op.isAlwaysInline = false → v ∈ nj.results →
      m.Steady v := by
    intro j nj v hj hopj hv
    obtain ⟨i, hdef⟩ := hw.exists_def hj hv
    refine ⟨_, hdef, ?_⟩
    rintro d i' n' ⟨⟩ hcore
    obtain rfl := Option.some.inj ((core_of_live? hj).symm.trans hcore)
    exact hopj
  refine ⟨hsteady hd (Bool.eq_false_of_not_eq_true fun hinl => ?_) hres', hsteady hn (hop n hn) hres⟩
  rw [Op.isDeclaration_of_isAlwaysInline hinl] at hdecl
  cases hdecl

theorem StoresFor.inlines {T : NodeId → Prop} (hst : m.StoresFor b id old storage type)
    (h : m.Inlines T m') (hw : Wired m)
    (hop : ∀ n, m.live? id = some n → n.op.isAlwaysInline = false) :
    m'.StoresFor b id old storage type := by
  refine hst.mono h.kept (h.edits hw.toSound).sameTree fun {j nj} hj => ?_
  obtain ⟨n', hn', hop', hres, hp⟩ := h.live hj
  refine ⟨n', hn', hop', hres, ?_⟩
  rintro rfl
  exact hp (hop nj hj)

end Module

theorem Module.StoresFor.ne_inline_of_live (hop : ∀ n, m.live? id = some n → n.op.isAlwaysInline = false)
    (hst : m.StoresFor b id old storage type)
    (hlive : ∀ {n}, m.live? id = some n → ∃ n', m'.live? id = some n' ∧ n'.op = n.op) :
    ∀ n, m'.live? id = some n → n.op.isAlwaysInline = false := by
  intro n' hn'
  obtain ⟨n, hn, -⟩ := hst.node
  obtain ⟨n₁, hn₁, hop₁⟩ := hlive hn
  obtain rfl := Option.some.inj (hn₁.symm.trans hn')
  rw [hop₁]
  exact hop n hn

/-- What letting a use read a declaration, and settling the read, leaves of the node that defines the
value and of the declaration. -/
theorem Module.ReadFor.settled {read : NodeId} {m₁ : Module} {T : NodeId → Prop}
    (h : m.ReadFor old storage type loc u read m₁) (hsettle : m₁.Inlines T m')
    (hst : m.StoresFor b id old storage type) (hw : Wired m)
    (hop : ∀ n, m.live? id = some n → n.op.isAlwaysInline = false) :
    Wired m' ∧ m'.StoresFor b id old storage type ∧ m.SameTree m' ∧
      (∀ n, m₁.live? id = some n → n.op.isAlwaysInline = false) ∧
      ∀ n, m'.live? id = some n → n.op.isAlwaysInline = false := by
  have hw₁ := h.wired hst hw
  have hst₁ := h.storesFor hst
  have hop₁ := hst.ne_inline_of_live hop fun {n} hn => by
    obtain ⟨ops, hops⟩ := h.live hn
    exact ⟨_, hops, rfl⟩
  refine ⟨hsettle.wired hw₁, hst₁.inlines hsettle hw₁ hop₁,
    h.edits.sameTree.trans (hsettle.edits hw₁.toSound).sameTree, hop₁, hst₁.ne_inline_of_live hop₁ fun {n} hn => ?_⟩
  obtain ⟨n', hn', hop', -⟩ := hsettle.live hn
  exact ⟨n', hn', hop'⟩

theorem Module.ReadsSettled.storesFor (h : Module.ReadsSettled old storage type loc us m m')
    (hst : m.StoresFor b id old storage type) (hw : Wired m)
    (hop : ∀ n, m.live? id = some n → n.op.isAlwaysInline = false) :
    Wired m' ∧ m'.StoresFor b id old storage type ∧ m.SameTree m' := by
  induction h with
  | nil => exact ⟨hw, hst, .refl _⟩
  | cons h hsettle _ ih =>
    obtain ⟨hw₂, hst₂, htree, -, hop₂⟩ := h.settled hsettle.inlines hst hw hop
    obtain ⟨hw', hst', htree'⟩ := ih hst₂ hw₂ hop₂
    exact ⟨hw', hst', htree.trans htree'⟩

namespace Meaning

theorem similar_readsFor (h : Module.ReadsFor old storage type loc us m m')
    (hst : m.StoresFor b id old storage type) (hw : Wired m) (hp : m.Compiled macros b → p) :
    Similar I macros (Valuation.Ties p storage old) m m' := by
  induction h with
  | nil => exact .refl _
  | cons h _ ih =>
    exact (similar_readFor h hst hw hp).trans (ih (h.storesFor hst) (h.wired hst hw)
      fun hcomp => hp (h.edits.sameTree.compiled_iff.1 hcomp))

theorem similar_readsSettled (h : Module.ReadsSettled old storage type loc us m m')
    (hst : m.StoresFor b id old storage type) (hw : Wired m) (hI : I.Fits m'.types)
    (hp : m.Compiled macros b → p)
    (hop : ∀ n, m.live? id = some n → n.op.isAlwaysInline = false) :
    Similar I macros (Valuation.Ties p storage old) m m' := by
  induction h with
  | nil => exact .refl _
  | cons h hsettle hrest ih =>
    obtain ⟨hw₂, hst₂, htree, hop₁, hop₂⟩ := h.settled hsettle.inlines hst hw hop
    have hw₁ := h.wired hst hw
    obtain ⟨hsteady, hsteady'⟩ := (h.storesFor hst).steady hw₁.toWellFormed hop₁
    have hread := similar_readFor (I := I) h hst hw hp
    have hinline : Similar I macros (Valuation.Ties p storage old) _ _ :=
      similar_inlines hsettle.inlines hw₁ (hI.mono hrest.kept.extends)
        (Valuation.depends_ties hsteady hsteady')
    exact (hread.trans hinline).trans
      (ih hst₂ hw₂ hI (fun hcomp => hp (htree.compiled_iff.1 hcomp)) hop₂)

/-! ## Temporaries -/

/-- A declaration for a value that a node in a block or further in defines. -/
theorem storesFor_of_creates {d : NodeId} {nd : Node} {c : BlockId} {pos : Position} {stype : TypeId}
    (hc : m.Creates m' c pos d nd [stype]) (hres : nd.results = [storage])
    (hop : nd.op.isDeclaration = true) (hstype : m'.types.get stype = .ok (.storage type))
    (hn : m.live? id = some n) (hdecl : n.op.isDeclaration = false) (hold : old ∈ n.results)
    (htype : m.type? old = some type) (hin : m.Inside b n.parent) :
    m'.StoresFor b id old storage type where
  node := ⟨n, hc.live hn, hdecl, hold, hc.sameTree.inside hin⟩
  decl := ⟨d, nd, hc.live?_self, hop, by simp [hres]⟩
  element := ⟨stype, hc.type?_result (i := 0) (by rw [hres]; rfl),
    TypeTable.elementOf?_eq_some_iff.2 hstype⟩
  type? := hc.kept.type? htype

theorem wired_of_creates_wire {d : NodeId} {nd : Node} {c : BlockId} {pos : Position}
    {stype : TypeId} (hc : m.Creates m' c pos d nd [stype]) (hw : Wired m) (hs' : Sound m')
    (hop : nd.op = .wire) (hops : nd.operands = [])
    (hstype : m'.types.get stype = .ok (.storage type)) : Wired m' := by
  refine hc.wired hw hs' (by rw [hop]; rfl) (show _ = some [] by simp [hops]) ?_
    (fun v hv => by simp [hops] at hv) fun _ v hv => by simp [hops] at hv
  rw [hop]
  exact ⟨rfl, stype, rfl, by simp [TypeTable.elementOf?_eq_some_iff.2 hstype]⟩

/-- A declaration is made for a value, and contains it. -/
theorem Shows.creates_wire {d : NodeId} {nd : Node} {c : BlockId} {pos : Position} {stype : TypeId}
    {x : Datum} (hσ : I.Shows macros ins outs m σ) (hc : m.Creates m' c pos d nd [stype])
    (hw : Wired m) (hop : nd.op = .wire) (hres : nd.results = [storage])
    (hstype : m'.types.get stype = .ok (.storage type)) (hold : old.index < m.values.size)
    (htype : m.type? old = some type) (hx : I.has stype x) :
    ∃ σ', I.Shows macros ins outs m' σ' ∧ Valuation.Ties p storage old σ' ∧
      ∀ v : ValueId, v.index < m.values.size → σ'.value v = σ.value v := by
  have hindex := hc.index_result (v := storage) (by simp [hres])
  refine ⟨σ.extend m.values.size x (σ.value old), hσ.creates_value hc hw (by simp [hop])
    (by simp [hop]) hx (fun _ e he => ?_) (fun hfun _ => ?_), fun _ => ?_,
    fun v hv => Valuation.value_extend hv⟩
  · rw [TypeTable.elementOf?_eq_some_iff.2 hstype] at he
    obtain rfl := Option.some.inj he
    exact hσ.value htype
  · rw [hop] at hfun
    simp [Op.isFunction, Op.category] at hfun
  · rw [Valuation.content_extend_of_le hindex, Valuation.value_extend hold]

/-- The assignment that drives a declaration. -/
theorem wired_of_creates_assign {a : NodeId} {na : Node} {pos : Position}
    (hc : m.Creates m' b pos a na []) (hw : Wired m) (hs' : Sound m') (hop : na.op = .assign)
    (hops : na.operands = [storage, old]) (hst : m.StoresFor b id old storage type)
    (hscope : m.Visible old b) : Wired m' := by
  obtain ⟨stype, hstype, he⟩ := hst.element
  refine hc.wired hw hs' (by rw [hop]; rfl)
    (show _ = some [stype, type] by simp [hops, hstype, hst.type?]) ?_ (fun v hv => ?_) fun _ v hv => ?_
  · rw [hop]
    exact ⟨stype, type, rfl, rfl, hc.kept.extends.elementOf? he⟩
  · rw [hops] at hv
    obtain rfl | hv := List.mem_cons.1 hv
    · exact hst.visible hw b
    · obtain rfl := List.mem_singleton.1 hv
      exact hscope
  · obtain rfl : storage = v := by simpa [hops] using hv
    exact hst.isStorage hw.toWellFormed

/-- A value flows through a wire of its own: the wire is declared, uses read it, and then it is driven
beside the node that defines the value. -/
theorem similar_wire {m₁ m₂ : Module} {c : BlockId} {d a : NodeId} {nd na n : Node}
    {pos pos' : Position} {stype : TypeId} (hw : Wired m) (hI : I.Fits m.types)
    (hn : m.live? id = some n) (hold : old ∈ n.results) (htype : m.type? old = some type)
    (hc : m.Creates m₁ c pos d nd [stype]) (hop : nd.op = .wire) (hres : nd.results = [storage])
    (hstype : m₁.types.get stype = .ok (.storage type)) (ht : m₁.SameTree m₂)
    (hsim : Similar I macros (Valuation.Ties (m.Compiled macros n.parent) storage old) m₁ m₂)
    (hw₂ : Wired m₂) (ha : m₂.Creates m' n.parent pos' a na []) (haop : na.op = .assign)
    (haops : na.operands = [storage, old]) : Similar I macros (fun _ => True) m m' := by
  have htree := hc.sameTree.trans ht
  constructor
  · intro ins outs σ hσ _
    obtain ⟨x, hx⟩ := hI.inhabited stype
    obtain ⟨σ₁, hσ₁, hF₁, -⟩ := hσ.creates_wire (p := m.Compiled macros n.parent) hc hw hop hres hstype
      (lt_of_mem_results hw hn hold) htype hx
    obtain ⟨σ₂, hσ₂, hF₂⟩ := hsim.forth hσ₁ hF₁
    exact ⟨σ₂, hσ₂.creates_assign ha hw₂ haop haops fun hcomp => hF₂ (htree.compiled_iff.1 hcomp),
      trivial⟩
  · intro ins outs σ hσ _
    have hF : Valuation.Ties (m.Compiled macros n.parent) storage old σ := fun hcomp =>
      (hσ.holds ha.live?_self (ha.sameTree.compiled (htree.compiled (ha.parent ▸ hcomp)))).assign haop
        storage old haops
    obtain ⟨σ₁, hσ₁, -⟩ := hsim.back (hσ.of_creates ha hw₂) hF
    exact ⟨σ₁, hσ₁.of_creates hc hw, trivial⟩

end Meaning

/-! ## Steps that preserve the meaning -/

/-- A module of graph blocks is changed, and keeps its meaning under every set of macros. -/
structure Module.Preserves (m m' : Module) : Prop where
  wired : Wired m'
  kept : m.Kept m'
  sameTree : m.SameTree m'
  similar : ∀ {I : Meaning} {macros : Name → Prop}, I.Fits m'.types →
    Meaning.Similar I macros (fun _ => True) m m'

namespace Module

open Meaning

variable {m'' : Module} {result source : ValueId} {inst : NodeId} {index : Nat} {atFront : Bool}

theorem Preserves.refl (hw : Wired m) : Preserves m m := ⟨hw, .refl m, .refl m, fun _ => .refl m⟩

theorem Preserves.trans (h : Preserves m m') (h' : Preserves m' m'') : Preserves m m'' :=
  ⟨h'.wired, h.kept.trans h'.kept, h.sameTree.trans h'.sameTree, fun hI =>
    (h.similar (hI.mono h'.kept.extends)).trans (h'.similar hI)⟩

theorem Inlines.preserves {T : NodeId → Prop} (h : m.Inlines T m') (hw : Wired m) :
    Preserves m m' :=
  ⟨h.wired hw, h.kept, (h.edits hw.toSound).sameTree, fun hI => similar_inlines h hw hI (Valuation.depends_true _)⟩

theorem Relabels.preserves {name : Option Name → Option Name}
    (h : m.Relabels m' id name (fun t => t)) (hw : Wired m) (hs' : Sound m') : Preserves m m' :=
  ⟨h.wired hw hs', h.kept, h.sameTree, fun _ => .of_iff fun _ => shows_relabels_iff h hw⟩

theorem Moves.preserves {pos : Position} (h : m.Moves m' b pos id) (hw : Wired m) (hs' : Sound m')
    (hn : m.live? id = some n) (hr : n.regions = [])
    (hcase : n.op.isDeclaration = true ∨ b = n.parent) : Preserves m m' := by
  refine ⟨?_, h.kept, h.sameTree hn hr, fun _ => .of_iff fun _ => shows_moves_iff h hw hn hr hcase⟩
  obtain hop | hb := hcase
  · obtain ⟨os, rs, hos, -, hsuits⟩ := hw.suited hn
    obtain ⟨rfl, -⟩ := hsuits.of_declaration hop
    have hops : n.operands = [] := by
      have hall := forall₂_of_mapM_type? hos
      exact List.forall₂_nil_right_iff.1 hall
    exact h.wired hw hs' hn hr (fun v hv => by simp [hops] at hv) (Or.inl hop)
  · exact h.wired_of_parent hw hs' hn hr hb

theorem Erases.preserves (h : m.Erases m' id) (hw : Wired m) (hs' : Sound m')
    (hn : m.live? id = some n) (hr : n.regions = []) (hop : n.op = .read ∨ n.op.isFunction = true)
    (hunused : ∀ u, ∀ v ∈ n.results, ¬ m.Uses u v) : Preserves m m' :=
  ⟨h.wired hw hs' hn hr, h.kept, h.sameTree hn hr, fun hI =>
    similar_erases h hw (hI.mono h.kept.extends) hn hr hop hunused⟩

/-- The blocks of the tree are graph blocks. -/
theorem kind?_of_placed (hw : Wired m) (hb : m.Placed b) : m.kind? b = some .graph := by
  cases hb with
  | body => simp [kind?, hw.body, Block.empty]
  | region hn hb _ =>
    obtain ⟨k, hk, hblk⟩ := hw.toNested.blockCore_of_mem hn hb
    simp [kind?, hblk, Block.empty, hw.graph hn hk]

theorem temporaryOps_of_wired (hw : Wired m) (hn : m.live? id = some n) :
    m.temporaryOps n.parent = (.wire, .assign) := by
  rw [temporaryOps, kind?_of_placed hw (hw.placed hn)]
  rfl

theorem SpillsResult.preserves {name : Option Name}
    (h : m.SpillsResult id result name atFront m') (hw : Wired m)
    (hop : ∀ n, m.live? id = some n → n.op.isDeclaration = false) : Preserves m m' := by
  obtain @⟨n, type, stype, decl, conn, storage, uses, m₁, m₂, m₃, hn, hres, htype, hdecl, hstype,
    hs₁, -, -, hreads, hconn, hs₃, hmove⟩ := h
  rw [temporaryOps_of_wired hw hn] at hdecl hconn
  have hw₁ := wired_of_creates_wire hdecl hw hs₁ rfl rfl hstype
  have hst₁ := storesFor_of_creates hdecl rfl rfl hstype hn (hop n hn) hres htype .self
  obtain ⟨hw₂, hst₂, htree₂⟩ := hreads.storesFor hst₁ hw₁
  obtain ⟨ops, hid₂⟩ := hreads.live (hdecl.live hn)
  have hscope : m₂.Visible result n.parent := by
    intro d i nd hdef hd _
    obtain rfl := hw₂.eq_of_def hid₂ hres hdef
    obtain rfl := Option.some.inj (hid₂.symm.trans hd)
    exact .self
  have hw₃ : Wired m₃ := wired_of_creates_assign hconn hw₂ hs₃ rfl rfl hst₂ hscope
  have hpres : Preserves m m₃ := by
    refine ⟨hw₃, (hdecl.kept.trans hreads.kept).trans hconn.kept,
      (hdecl.sameTree.trans htree₂).trans hconn.sameTree, fun hI => ?_⟩
    have hI₀ := hI.mono ((hdecl.kept.trans hreads.kept).trans hconn.kept).extends
    -- While the uses are redirected, the wire contains the result, if its block is compiled.
    exact similar_wire hw hI₀ hn hres htype hdecl rfl rfl hstype htree₂
      (similar_readsFor hreads hst₁ hw₁ hdecl.sameTree.compiled_iff.1) hw₂ hconn rfl rfl
  by_cases hfront : atFront = true
  · rw [if_pos hfront] at hmove
    exact hmove ▸ hpres
  · rw [if_neg hfront] at hmove
    obtain ⟨ops, hops⟩ := hreads.live hdecl.live?_self
    exact hpres.trans (hmove.1.preserves hw₃ hmove.2 (hconn.live hops) rfl (Or.inr rfl))

theorem SpillsResults.preserves {vs : List ValueId} (h : SpillsResults id atFront vs m m')
    (hw : Wired m) (hn : m.live? id = some n) (hop : n.op.isDeclaration = false) :
    Preserves m m' := by
  induction h generalizing n with
  | nil => exact .refl hw
  | cons h _ ih =>
    have hpres := h.preserves hw fun n' hn' => by
      obtain rfl := Option.some.inj (hn.symm.trans hn')
      exact hop
    obtain ⟨ops, hn₁⟩ := h.live hn
    exact hpres.trans (ih hpres.wired hn₁ hop)

theorem Spills.preserves (h : m.Spills id atFront m') (hw : Wired m) (hn : m.live? id = some n)
    (hop : n.op.isDeclaration = false) : Preserves m m' := by
  cases h with
  | single hn' hv hl hs₁ h =>
    have hpres := hl.preserves hw hs₁
    refine hpres.trans (h.preserves hpres.wired fun n₁ hn₁ => ?_)
    obtain rfl := Option.some.inj ((hl.live hn).symm.trans hn₁)
    exact hop
  | all hn' h =>
    exact h.preserves hw hn hop

/-! ## Assignments that are there -/

/-- The two operands of an assignment. -/
theorem operands_of_assign {a : NodeId} {na : Node} {d s : ValueId} (hw : Wired m)
    (ha : m.live? a = some na) (hop : na.op = .assign) (hd : m.Uses ⟨a, 0⟩ d)
    (hs : m.Uses ⟨a, 1⟩ s) : na.operands = [d, s] := by
  obtain ⟨os, rs, hos, -, hsuits⟩ := hw.suited ha
  rw [hop] at hsuits
  obtain ⟨_, _, rfl, -⟩ := hsuits
  have hlen := (forall₂_of_mapM_type? hos).length_eq
  obtain ⟨n₁, hn₁, hd⟩ := hd
  obtain ⟨n₂, hn₂, hs⟩ := hs
  obtain rfl := Option.some.inj (ha.symm.trans hn₁)
  obtain rfl := Option.some.inj (ha.symm.trans hn₂)
  obtain ⟨d', s', hds⟩ := List.length_eq_two.1 hlen
  rw [hds] at hd hs ⊢
  obtain rfl : d' = d := by simpa using hd
  obtain rfl : s' = s := by simpa using hs
  rfl

/-- The operands of a node that uses no value that is redirected stay. -/
theorem ReadsSettled.uses {w : Use} {v : ValueId} {d : NodeId} {nd : Node} {i : Nat}
    (h : ReadsSettled old storage type loc us m m') (hs : Sound m)
    (hdef : m.def? v = some (.result d i)) (hd : m.core d = some nd)
    (hop : nd.op.isAlwaysInline = false) (hw : w ∉ us) (hu : m.Uses w v) : m'.Uses w v := by
  induction h generalizing nd with
  | nil => exact hu
  | @cons u us read m m₁ m₂ m' h hsettle _ ih =>
    obtain ⟨hne, hmem⟩ : w ≠ u ∧ w ∉ us := by simpa using hw
    obtain ⟨nd₁, hd₁, hop₁, -⟩ := h.kept.node hd
    obtain ⟨nd₂, hd₂, hop₂, -⟩ := hsettle.inlines.kept.node hd₁
    have hu₁ := h.uses hu hne
    exact ih (hsettle.inlines.sound h.sound) (hsettle.inlines.kept.def? (h.kept.def? hdef)) hd₂
      (by rw [hop₂, hop₁, hop]) hmem (hsettle.inlines.uses h.sound (h.kept.def? hdef) hd₁ (by rw [hop₁, hop]) hu₁)

/-- An assignment at the top, seen as storage for what it assigns. -/
theorem storesFor_of_assign {a : NodeId} {na : Node} {result target : ValueId} {ttype : TypeId}
    (hw : Wired m) (ha : m.live? a = some na) (haop : na.op = .assign)
    (hops : na.operands = [target, result]) (httype : m.type? target = some ttype)
    (htype : m.types.get ttype = .ok (.storage type)) (hn : m.live? id = some n)
    (hres : result ∈ n.results) (hop : n.op.isDeclaration = false) :
    m.StoresFor m.body id result target type where
  node := ⟨n, hn, hop, hres, (hw.placed hn).inside⟩
  decl := by
    have hget : na.operands[0]? = some target := by rw [hops]; rfl
    obtain ⟨d, i, nd, hdef, hcore, hdecl⟩ := hw.whole ha (Or.inr haop) hget
    obtain ⟨x, hx, hlive⟩ := hw.operand (u := ⟨a, 0⟩) ⟨na, ha, hget⟩
    obtain ⟨n₀, hn₀⟩ := hlive (Option.some.inj (hx.symm.trans hdef))
    obtain rfl := Option.some.inj ((core_of_live? hn₀).symm.trans hcore)
    obtain ⟨n₁, hn₁, hmem⟩ := hw.definition hdef
    obtain rfl := Option.some.inj (hn₁.symm.trans hcore)
    exact ⟨d, n₁, hn₀, hdecl, List.mem_of_getElem? hmem⟩
  element := ⟨ttype, httype, TypeTable.elementOf?_eq_some_iff.2 htype⟩
  type? := by
    obtain ⟨os, rs, hos, -, hsuits⟩ := hw.suited ha
    rw [haop] at hsuits
    obtain ⟨t, s, rfl, -, he⟩ := hsuits
    rw [hops] at hos
    have hall := forall₂_of_mapM_type? hos
    rw [List.forall₂_cons, List.forall₂_cons] at hall
    obtain rfl := Option.some.inj (httype.symm.trans hall.1)
    rw [TypeTable.elementOf?_eq_some_iff.2 htype] at he
    obtain rfl := Option.some.inj he
    exact hall.2.1

/-- The facts about the assignment that a value is reused from, before and after. -/
theorem Reuses.exists_assign (h : m.Reuses id m') (hw : Wired m) (hn : m.live? id = some n)
    (hop : n.op.isDeclaration = false) (hinline : n.op.isAlwaysInline = false) :
    ∃ a na na' result target type others loc, m.live? a = some na ∧ na.op = .assign ∧
      na.operands = [target, result] ∧ na.parent = m.body ∧
      m.StoresFor m.body id result target type ∧
      ReadsSettled result target type loc others m m' ∧ m'.live? a = some na' ∧
      na'.op = .assign ∧ na'.parent = m.body ∧ (Wired m' → na'.operands = [target, result]) := by
  obtain @⟨n', na, result, target, a, uses, others, type, ttype, m₁, hn', hv, huses, hothers, -, hnot, ha,
    haop, hroot, hsource, htarget, httype, htype, hreads, hdecl⟩ := h
  obtain rfl := Option.some.inj (hn.symm.trans hn')
  have hres : result ∈ n.results := by simp [hv]
  have hops := operands_of_assign hw ha haop ⟨na, ha, htarget⟩ ⟨na, ha, hsource⟩
  have hst := storesFor_of_assign hw ha haop hops httype htype hn hres hop
  obtain ⟨blk, hblk⟩ := hw.exists_block_of_placed (hw.placed ha)
  have hcore : m.blockCore na.parent = some blk.core := by simp [blockCore, hblk]
  obtain ⟨hbody, -⟩ := hw.graph_of_no_owner (hw.placed ha) hcore (hroot _ hcore)
  obtain ⟨d, i, nd, hdef, hd, hdop⟩ := hst.isStorage hw.toWellFormed
  -- The destination is a declaration, and nothing is settled for it.
  obtain rfl : m₁ = m' := by
    refine hdecl.resolve_right ?_
    rintro ⟨d', ⟨n₁, hn₁, hinl⟩, ⟨i', hdef'⟩, -⟩
    have heq := (hreads.kept.def? hdef).symm.trans hdef'
    simp only [Option.some.injEq, ValueDef.result.injEq] at heq
    obtain ⟨rfl, rfl⟩ := heq
    obtain ⟨n₂, hn₂, hop₂, -⟩ := hreads.kept.node hd
    obtain rfl := Option.some.inj (hn₁.symm.trans hn₂)
    have hfalse := Op.isDeclaration_of_isAlwaysInline hinl
    rw [hop₂, hdop] at hfalse
    cases hfalse
  have hdinl : nd.op.isAlwaysInline = false := Bool.eq_false_of_not_eq_true fun hinl => by
    rw [Op.isDeclaration_of_isAlwaysInline hinl] at hdop
    cases hdop
  obtain ⟨k, hresult⟩ := hw.exists_def hn hres
  have hnone : ⟨a, 0⟩ ∉ others ∧ ⟨a, 1⟩ ∉ others :=
    ⟨fun hmem => hnot _ hmem na ha haop, fun hmem => ((hothers _).1 hmem).2 rfl⟩
  have hu₀ := hreads.uses hw.toSound hdef hd hdinl hnone.1 ⟨na, ha, htarget⟩
  have hu₁ := hreads.uses hw.toSound hresult (core_of_live? hn) hinline
    hnone.2 ⟨na, ha, hsource⟩
  obtain ⟨na', ha', haop', -, hp⟩ := hreads.live ha
  exact ⟨a, na, na', result, target, type, others, na.loc, ha, haop, hops, hbody, hst, hreads, ha',
    haop'.trans haop, (hp (by rw [haop]; rfl)).trans hbody,
    fun hw' => operands_of_assign hw' ha' (haop'.trans haop) hu₀ hu₁⟩

theorem Reuses.preserves (h : m.Reuses id m') (hw : Wired m) (hn : m.live? id = some n)
    (hop : n.op.isDeclaration = false) (hinline : n.op.isAlwaysInline = false) :
    Preserves m m' := by
  obtain ⟨a, na, na', result, target, type, others, loc, ha, haop, hops, hbody, hst, hreads, ha', haop',
    hbody', hops'⟩ := h.exists_assign hw hn hop hinline
  have hinl : ∀ n', m.live? id = some n' → n'.op.isAlwaysInline = false := fun n' hn' => by
    obtain rfl := Option.some.inj (hn.symm.trans hn')
    exact hinline
  obtain ⟨hw', -, htree⟩ := hreads.storesFor hst hw hinl
  refine ⟨hw', hreads.kept, htree, fun {I macros} hI => ?_⟩
  -- The declaration contains the value on both sides, by the assignment.
  have hsim : Similar I macros (Valuation.Ties True target result) m m' :=
    similar_readsSettled hreads hst hw hI (fun _ => trivial) hinl
  have hcomp : m.Compiled macros m.body := .body
  constructor
  · intro ins outs σ hσ _
    obtain ⟨σ', hσ', -⟩ := hsim.forth hσ fun _ =>
      (hσ.holds ha (hbody ▸ hcomp)).assign haop target result hops
    exact ⟨σ', hσ', trivial⟩
  · intro ins outs σ hσ _
    obtain ⟨σ', hσ', -⟩ := hsim.back hσ fun _ =>
      (hσ.holds ha' (hbody' ▸ htree.compiled hcomp)).assign haop' target result (hops' hw')
    exact ⟨σ', hσ', trivial⟩

/-! ## Ports of instances -/

theorem AnchorsOutput.preserves (h : m.AnchorsOutput inst result m') (hw : Wired m)
    (hn : m.live? inst = some n) (hop : n.op.isInstance = true) : Preserves m m' := by
  cases h with
  | ending h => exact h ▸ .refl hw
  | @assigned n' na a slot hn' _ ha haop hparent hm hs' =>
    obtain rfl := Option.some.inj (hn.symm.trans hn')
    have hr := hw.toNested.regions_eq_nil ha (by rw [haop]; rfl)
    exact hm.preserves hw hs' ha hr (Or.inr hparent.symm)
  | @wired n' name type stype decl conn storage uses m₁ m₂ hn' hres htype hdecl hstype hs₁ huses hnd
      hreads hconn hs' =>
    obtain rfl := Option.some.inj (hn.symm.trans hn')
    have hw₁ := wired_of_creates_wire hdecl hw hs₁ rfl rfl hstype
    have hst₁ := storesFor_of_creates hdecl rfl rfl hstype hn
      (Op.isDeclaration_of_isInstance hop) hres htype .self
    have hinl : ∀ n', m₁.live? inst = some n' → n'.op.isAlwaysInline = false := fun n' hn' => by
      obtain rfl := Option.some.inj ((hdecl.live hn).symm.trans hn')
      exact Op.isAlwaysInline_of_isInstance hop
    obtain ⟨hw₂, hst₂, htree₂⟩ := hreads.storesFor hst₁ hw₁ hinl
    obtain ⟨n₂, hn₂, -, hres₂, hp₂⟩ := hreads.live (hdecl.live hn)
    replace hp₂ := hp₂ (Op.isAlwaysInline_of_isInstance hop)
    have hscope : m₂.Visible result n.parent := by
      intro d i nd hdef hd _
      obtain rfl := hw₂.eq_of_def hn₂ (hres₂ ▸ hres) hdef
      obtain rfl := Option.some.inj (hn₂.symm.trans hd)
      exact hp₂ ▸ .self
    refine ⟨wired_of_creates_assign hconn hw₂ hs' rfl rfl hst₂ hscope,
      (hdecl.kept.trans hreads.kept).trans hconn.kept,
      (hdecl.sameTree.trans htree₂).trans hconn.sameTree, fun hI => ?_⟩
    have hI₂ := hI.mono hconn.kept.extends
    exact similar_wire hw (hI₂.mono (hdecl.kept.trans hreads.kept).extends) hn hres htype hdecl rfl rfl
      hstype htree₂ (similar_readsSettled hreads hst₁ hw₁ hI₂ hdecl.sameTree.compiled_iff.1 hinl) hw₂
      hconn rfl rfl

theorem AnchorsOutputs.preserves {vs : List ValueId} (h : AnchorsOutputs inst vs m m') (hw : Wired m)
    (hn : m.live? inst = some n) (hop : n.op.isInstance = true) : Preserves m m' := by
  induction h generalizing n with
  | nil => exact .refl hw
  | cons h _ ih =>
    have hpres := h.preserves hw hn hop
    obtain ⟨n', hn', hop', -⟩ := h.live_inst hn hop
    exact hpres.trans (ih hpres.wired hn' (hop' ▸ hop))

/-- The steps of letting an input of an instance come from a wire. -/
structure InputWired (m m₁ m₂ m₃ m' : Module) (inst d r a : NodeId) (n nd nr na : Node)
    (pos pos' pos'' : Position) (index : Nat) (source storage value : ValueId) (type stype : TypeId) :
    Prop where
  node : m.live? inst = some n
  isInstance : n.op.isInstance = true
  uses : m.Uses ⟨inst, index⟩ source
  type? : m.type? source = some type
  creates_wire : m.Creates m₁ m.body pos d nd [stype]
  wire : nd.op = .wire ∧ nd.operands = [] ∧ nd.results = [storage]
  get_stype : m₁.types.get stype = .ok (.storage type)
  creates_read : m₁.Creates m₂ n.parent pos' r nr [type]
  read : nr.op = .read ∧ nr.operands = [storage] ∧ nr.results = [value]
  creates_assign : m₂.Creates m₃ n.parent pos'' a na []
  assign : na.op = .assign ∧ na.operands = [storage, source]
  redirects : m₃.Redirects m' (pointAt ⟨inst, index⟩ value)
  sound : Sound m₁ ∧ Sound m₂ ∧ Sound m₃ ∧ Sound m'

namespace InputWired

variable {m₁ m₂ m₃ : Module} {d r a : NodeId} {nd nr na : Node} {pos pos' pos'' : Position}
  {value : ValueId} {stype : TypeId}

theorem wired (h : InputWired m m₁ m₂ m₃ m' inst d r a n nd nr na pos pos' pos'' index source storage
    value type stype) (hw : Wired m) :
    Wired m₁ ∧ Wired m₂ ∧ Wired m₃ ∧ m₃.Reroutes m' (· = inst) source value ∧
      m₃.type? value = m₃.type? source ∧ Wired m' := by
  obtain ⟨hn, hinst, huse, htype, hc₁, ⟨hdop, hdops, hdres⟩, hstype, hc₂, ⟨hrop, hrops, hrres⟩, hc₃,
    ⟨haop, haops⟩, hr, hs₁, hs₂, hs₃, hs'⟩ := h
  have hw₁ := wired_of_creates_wire hc₁ hw hs₁ hdop hdops hstype
  have hdef : m₁.def? storage = some (.result d 0) := hc₁.def?_result (by rw [hdres]; rfl)
  have hst₁ : m₁.IsStorage storage :=
    ⟨d, 0, nd, hdef, core_of_live? hc₁.live?_self, by rw [hdop]; rfl⟩
  have htype₁ : m₁.type? storage = some stype := hc₁.type?_result (i := 0) (by rw [hdres]; rfl)
  have he₁ := TypeTable.elementOf?_eq_some_iff.2 hstype
  have hw₂ : Wired m₂ := by
    refine hc₂.wired hw₁ hs₂ (by rw [hrop]; rfl)
      (show _ = some [stype] by simp [hrops, htype₁]) ?_
      (fun v hv => ?_) fun _ v hv => ?_
    · rw [hrop]
      exact ⟨stype, type, rfl, rfl, hc₂.kept.extends.elementOf? he₁⟩
    · rw [hrops] at hv
      obtain rfl := List.mem_singleton.1 hv
      exact hst₁.visible _
    · obtain rfl : storage = v := by simpa [hrops] using hv
      exact hst₁
  have hst₂ := hst₁.mono hc₂.kept
  have hlt := lt_of_type? htype
  obtain ⟨n₀, hn₀, hget⟩ := huse
  obtain rfl := Option.some.inj (hn.symm.trans hn₀)
  have hvis : m₂.Visible source n.parent := by
    refine hc₂.visible hw₁.toWellFormed (hc₁.visible hw.toWellFormed
      (hw.inScope hn (List.mem_of_getElem? hget)) hlt) ?_
    exact lt_of_type? (hc₁.kept.type? htype)
  have hw₃ : Wired m₃ := by
    refine hc₃.wired hw₂ hs₃ (by rw [haop]; rfl)
      (show _ = some [stype, type] by
        simp [haops, hc₂.kept.type? htype₁, hc₂.kept.type? (hc₁.kept.type? htype)]) ?_
      (fun v hv => ?_) fun _ v hv => ?_
    · rw [haop]
      exact ⟨stype, type, rfl, rfl, (hc₂.kept.trans hc₃.kept).extends.elementOf? he₁⟩
    · rw [haops] at hv
      obtain rfl | hv := List.mem_cons.1 hv
      · exact hst₂.visible _
      · obtain rfl := List.mem_singleton.1 hv
        exact hvis
    · obtain rfl : storage = v := by simpa [haops] using hv
      exact hst₂
  have hn₃ := hc₃.live (hc₂.live (hc₁.live hn))
  have hkept := (hc₁.kept.trans hc₂.kept).trans hc₃.kept
  have hvalue : m₂.type? value = some type := hc₂.type?_result (i := 0) (by rw [hrres]; rfl)
  have hre : m₃.Reroutes m' (· = inst) source value :=
    hr.reroutes_pointAt ⟨n, hn₃, hget⟩ fun n' hn' hop => by
      obtain rfl := Option.some.inj (hn₃.symm.trans hn')
      rcases hop with hop | hop <;> rw [hop] at hinst <;> cases hinst
  have htypes : m₃.type? value = m₃.type? source := by
    rw [hkept.type? htype, hc₃.kept.type? hvalue]
  refine ⟨hw₁, hw₂, hw₃, hre, htypes, hre.wired hw₃ hs' htypes (fun hj hju _ => ?_)
    fun hj hinl hju _ => ?_⟩
  · subst hju
    obtain rfl := Option.some.inj (hn₃.symm.trans hj)
    exact hc₃.visible hw₂.toWellFormed (hc₂.visible_result (by simp [hrres])) (lt_of_type? hvalue)
  · subst hju
    obtain rfl := Option.some.inj (hn₃.symm.trans hj)
    obtain hinl | hinl := hinl
    · rw [Op.isAlwaysInline_of_isInstance hinst] at hinl
      cases hinl
    · rw [hinl] at hinst
      cases hinst

theorem similar (h : InputWired m m₁ m₂ m₃ m' inst d r a n nd nr na pos pos' pos'' index source storage
    value type stype) (hw : Wired m) (hI : I.Fits m.types) :
    Similar I macros (fun _ => True) m m' := by
  obtain ⟨hw₁, hw₂, hw₃, hre, htypes, hw'⟩ := h.wired hw
  obtain ⟨hn, hinst, huse, htype, hc₁, ⟨hdop, hdops, hdres⟩, hstype, hc₂, ⟨hrop, hrops, hrres⟩, hc₃,
    ⟨haop, haops⟩, hr, -⟩ := h
  have hn₃ := hc₃.live (hc₂.live (hc₁.live hn))
  have htree := (hc₁.sameTree.trans hc₂.sameTree).trans hc₃.sameTree
  have hiff : ∀ {ins outs σ}, (m.Compiled macros n.parent → σ.value value = σ.value source) →
      (I.Shows macros ins outs m' σ ↔ I.Shows macros ins outs m₃ σ) := by
    intro ins outs σ heq
    refine shows_reroutes_iff hre hw₃ htypes fun {j nj} hj hju _ hcomp => heq ?_
    subst hju
    obtain rfl := Option.some.inj (hn₃.symm.trans hj)
    exact htree.compiled_iff.1 hcomp
  have hlt₁ : source.index < m₁.values.size := lt_of_type? (hc₁.kept.type? htype)
  have htype₁ : m₁.type? storage = some stype := hc₁.type?_result (i := 0) (by rw [hdres]; rfl)
  have hstorage := lt_of_type? htype₁
  constructor
  · intro ins outs σ hσ _
    obtain ⟨x, hx⟩ := hI.inhabited stype
    obtain ⟨σ₁, hσ₁, hties, -⟩ := hσ.creates_wire (p := True) hc₁ hw hdop hdres hstype
      (lt_of_type? htype) htype hx
    have hσ₂ := hσ₁.creates_value (y := default) hc₂ hw₁ (by simp [hrop]) (by simp [hrop])
      (hσ₁.content hc₁.live?_self (by rw [hdop]; rfl) (by simp [hdres]) htype₁
        (TypeTable.elementOf?_eq_some_iff.2 hstype)) (fun hd => by rw [hrop] at hd; cases hd)
      fun _ _ => by
        rw [computed, if_pos hrop, hrops]
        exact Valuation.content_extend hstorage
    have hσ₃ := hσ₂.creates_assign hc₃ hw₂ haop haops fun _ => by
      rw [Valuation.content_extend hstorage, Valuation.value_extend hlt₁]
      exact hties trivial
    refine ⟨_, (hiff fun _ => ?_).2 hσ₃, trivial⟩
    rw [Valuation.value_extend_of_le (hc₂.index_result (by simp [hrres])),
      Valuation.value_extend hlt₁]
    exact hties trivial
  · intro ins outs σ hσ _
    have hread := hr.live (hc₃.live hc₂.live?_self)
    have hassign := hr.live hc₃.live?_self
    have hne : r ≠ inst := fun he => hc₂.ne (hc₁.live hn) he.symm
    have hne' : a ≠ inst := fun he => hc₃.ne (hc₂.live (hc₁.live hn)) he.symm
    rw [pointAt, if_neg hne] at hread
    rw [pointAt, if_neg hne'] at hassign
    have htree' := htree.trans hr.sameTree
    refine ⟨σ, (((((hiff fun hcomp => ?_).1 hσ).of_creates hc₃ hw₂).of_creates hc₂ hw₁).of_creates hc₁
      hw), trivial⟩
    have hvalue := (hσ.holds hread (htree'.compiled (hc₂.parent ▸ hcomp))).results (Or.inl hrop) 0
      value (by rw [hrres]; rfl)
    have hcontent := (hσ.holds hassign (htree'.compiled (hc₃.parent ▸ hcomp))).assign haop storage
      source haops
    rw [hvalue, ← hcontent, computed, if_pos hrop, hrops]
    rfl

end InputWired

theorem AnchorsInput.preserves (h : m.AnchorsInput inst index source m') (hw : Wired m)
    (hn : m.live? inst = some n) (hop : n.op.isInstance = true) : Preserves m m' := by
  cases h with
  | simple h => exact h ▸ .refl hw
  | @wired n' name type stype decl read conn storage value m₁ m₂ m₃ hn' huse htype hdecl hstype hs₁ hread
      hs₂ hconn hs₃ hr hs' =>
    obtain rfl := Option.some.inj (hn.symm.trans hn')
    have hinput := InputWired.mk hn hop huse htype hdecl ⟨rfl, rfl, rfl⟩ hstype hread ⟨rfl, rfl, rfl⟩
      hconn ⟨rfl, rfl⟩ hr ⟨hs₁, hs₂, hs₃, hs'⟩
    have hkept := ((hdecl.kept.trans hread.kept).trans hconn.kept).trans hr.kept
    exact ⟨(hinput.wired hw).2.2.2.2.2, hkept,
      ((hdecl.sameTree.trans hread.sameTree).trans hconn.sameTree).trans hr.sameTree,
      fun hI => hinput.similar hw (hI.mono hkept.extends)⟩

theorem AnchorsInputs.preserves {vs : List ValueId} (h : AnchorsInputs inst index vs m m')
    (hw : Wired m) (hn : m.live? inst = some n) (hop : n.op.isInstance = true) :
    Preserves m m' := by
  induction h generalizing n with
  | nil => exact .refl hw
  | cons h hrest ih =>
    have hpres := h.preserves hw hn hop
    obtain ⟨n', hn', hop', -⟩ := (AnchorsInputs.cons h (.nil _ _)).live hn
    exact hpres.trans (ih hpres.wired hn' (hop' ▸ hop))

end Module

end NetPrep
