import Mathlib
import NetPrep.Proofs.Sound

/-!
# The steps that make and redirect

Each step that preparation is put together from, as edits of a sound module: declaring storage,
reading and connecting it.
-/

namespace NetPrep

open Prepare Prep

namespace Module

variable {m m₁ m' : Module} {b : BlockId} {pos : Position} {id : NodeId} {n : Node}
  {types : List TypeId}

/-- Adding a type first makes no difference to creating a node. -/
theorem Creates.of_addsType (h : m.AddsType m₁) (hc : m₁.Creates m' b pos id n types) :
    m.Creates m' b pos id n types := by
  have hkept := h.kept.trans hc.kept
  have hlists := h.nodesOf
  obtain ⟨table, rfl⟩ := h.rest
  exact ⟨hkept, hc.fresh, hc.parent, hc.regions, hc.results, hc.values_size, hc.live?_self,
    hc.live?_of_ne, hc.def?_of_lt, hc.def?_result, hc.type?_of_lt, hc.type?_result, fun c => by
      rw [hc.nodesOf, hlists, hlists]⟩

/-- Labelling a new node makes no difference to the others. -/
theorem Creates.relabel {name : Option Name → Option Name} {twoState : Bool → Bool}
    (hc : m.Creates m₁ b pos id n types) (hr : m₁.Relabels m' id name twoState) :
    m.Creates m' b pos id { n with name := name n.name, twoState := twoState n.twoState } types where
  kept := hc.kept.trans hr.kept
  fresh := hc.fresh
  parent := hc.parent
  regions := hc.regions
  results := hc.results
  values_size := by
    have hvalues : m'.values = m₁.values := Array.ext_getElem? fun i => hr.value? ⟨i⟩
    rw [hvalues, hc.values_size]
  live?_self := by
    rw [hr.live?, hc.live?_self]
    simp
  live?_of_ne {j} hj := by
    rw [hr.live?, hc.live?_of_ne hj]
    cases m.live? j <;> simp [hj]
  def?_of_lt hv := by rw [Module.def?, hr.value?, ← Module.def?, hc.def?_of_lt hv]
  def?_result hv := by rw [Module.def?, hr.value?, ← Module.def?, hc.def?_result hv]
  type?_of_lt hv := by rw [Module.type?, hr.value?, ← Module.type?, hc.type?_of_lt hv]
  type?_result hv := by rw [Module.type?, hr.value?, ← Module.type?, hc.type?_result hv]
  nodesOf c := by rw [hr.nodesOf, hc.nodesOf]

end Module

namespace Sound

variable {m : Module} {a : NodeId} {na : Node}

theorem in_before (hs : Sound m) (ha : m.live? a = some na) :
    (Position.before a).In m.nodesOf na.parent := hs.toWellFormed.mem_nodesOf ha

theorem in_after (hs : Sound m) (ha : m.live? a = some na) :
    (Position.after a).In m.nodesOf na.parent := hs.toWellFormed.mem_nodesOf ha

end Sound

namespace Prep

variable {env : Env} {s s' : State} {p : Position} {b : BlockId} {op : Op}
  {operands : List ValueId} {type : TypeId} {loc : Loc} {id decl : NodeId} {v value storage : ValueId}
  {name : Option Name}

/-- The first result of a node that was just created. -/
theorem result_eq_ok_iff {m : Module} {i : Nat} :
    m.result id i = .ok v ↔ ∃ n, m.node? id = some n ∧ n.results[i]? = some v := by
  simp only [Module.result, bind_eq_ok_iff, Module.node_eq_ok_iff]
  constructor
  · rintro ⟨n, hn, h⟩
    refine ⟨n, hn, ?_⟩
    cases hv : n.results[i]? with
    | none => simp [hv] at h
    | some w =>
      simp only [hv] at h
      cases h
      rfl
  · rintro ⟨n, hn, hv⟩
    exact ⟨n, hn, by simp [hv, pure, Except.pure]⟩

theorem operand_eq_ok_iff {m : Module} {i : Nat} :
    m.operand id i = .ok v ↔ ∃ n, m.node? id = some n ∧ n.operands[i]? = some v := by
  simp only [Module.operand, bind_eq_ok_iff, Module.node_eq_ok_iff]
  constructor
  · rintro ⟨n, hn, h⟩
    refine ⟨n, hn, ?_⟩
    cases hv : n.operands[i]? with
    | none => simp [hv] at h
    | some w =>
      simp only [hv] at h
      cases h
      rfl
  · rintro ⟨n, hn, hv⟩
    exact ⟨n, hn, by simp [hv, pure, Except.pure]⟩

theorem createStatement_runs (hs : Sound s.module) (hpos : p.In s.module.nodesOf b)
    (hb : s.module.Placed b) (hop : op.regionKinds = [])
    (huse : ∀ v ∈ operands, s.module.Usable v)
    (h : (createStatement p op operands loc).Runs env s id s') :
    s.module.Creates s'.module b p id (.fresh op operands [] b loc) [] ∧ Sound s'.module := by
  obtain ⟨m, hm, rfl⟩ := runs_editWith.1 h
  exact hs.createNode hpos hb hop huse hm

theorem create_runs (hs : Sound s.module) (hpos : p.In s.module.nodesOf b)
    (hb : s.module.Placed b) (hop : op.regionKinds = [])
    (huse : ∀ v ∈ operands, s.module.Usable v)
    (h : (create p op operands type loc).Runs env s (id, value) s') :
    s.module.Creates s'.module b p id (.fresh op operands [value] b loc) [type] ∧
      Sound s'.module := by
  simp only [create, runs_bind, runs_editWith, runs_query, runs_pure, Prod.mk.injEq] at h
  obtain ⟨id', _, ⟨m, hm, rfl⟩, value', _, ⟨hresult, rfl⟩, ⟨rfl, rfl⟩, rfl⟩ := h
  obtain ⟨hc, hs'⟩ := hs.createNode hpos hb hop huse hm
  obtain ⟨n, hn, hv⟩ := result_eq_ok_iff.1 hresult
  have hlive := hc.live?_self
  obtain ⟨nd, hnd, -, hcore⟩ := Module.exists_of_live? hlive
  obtain rfl : n = nd := by
    have := hn.symm.trans hnd
    simpa using this
  have hresults : n.results = s.module.nextValues 1 := congrArg Node.results hcore
  have hnext : s.module.nextValues 1 = [value'] := by
    rw [hresults] at hv
    obtain ⟨-, rfl⟩ := Module.getElem?_nextValues.1 hv
    rfl
  rw [List.length_singleton, hnext] at hc
  exact ⟨hc, hs'⟩

theorem valueType_eq_ok_iff {m : Module} : m.valueType v = .ok type ↔ m.type? v = some type := by
  simp only [Module.valueType, bind_eq_ok_iff, Module.value_eq_ok_iff, Module.type?,
    Option.map_eq_some_iff]
  constructor
  · rintro ⟨x, hx, h⟩
    cases h
    exact ⟨x, hx, rfl⟩
  · rintro ⟨x, hx, rfl⟩
    exact ⟨x, hx, rfl⟩

/-- Declaring storage for a value. -/
theorem declareFor_runs (hs : Sound s.module)
    (hpos : p.In s.module.nodesOf b) (hb : s.module.Placed b) (hop : op.regionKinds = [])
    (h : (declareFor v p op name loc).Runs env s (decl, storage) s') :
    ∃ vtype stype, s.module.type? v = some vtype ∧
      s'.module.types.get stype = .ok (.storage vtype) ∧
      s.module.Creates s'.module b p decl
        { Node.fresh op [] [storage] b loc with name } [stype] ∧ Sound s'.module := by
  simp only [declareFor, storageTypeOf, runs_bind, runs_query, runs_editWith, runs_edit,
    runs_pure, Prod.mk.injEq, valueType_eq_ok_iff] at h
  obtain ⟨stype, s₁, ⟨vtype, _, ⟨hv, rfl⟩, m₁, hm₁, rfl⟩, ⟨decl', storage'⟩, s₂, hcreate, _, _,
    ⟨m₃, hm₃, rfl⟩, ⟨rfl, rfl⟩, rfl⟩ := h
  obtain ⟨rfl, rfl⟩ : (s.module.internType (.storage vtype)).1 = stype ∧
      (s.module.internType (.storage vtype)).2 = m₁ := by
    simpa [Prod.ext_iff] using hm₁
  obtain ⟨ht, hs₁⟩ := hs.internType (.storage vtype)
  have hpos₁ : p.In (s.module.internType (.storage vtype)).2.nodesOf b := by
    have hlists : (s.module.internType (.storage vtype)).2.nodesOf = s.module.nodesOf :=
      funext ht.nodesOf
    rwa [hlists]
  have hb₁ : (s.module.internType (.storage vtype)).2.Placed b :=
    Nested.placed_of_kept ht.kept (fun {j n} hn _ => ⟨n, by rwa [ht.live?], rfl, rfl⟩) hb
  obtain ⟨hc, hs₂⟩ := create_runs (s := { s with module := _ }) hs₁ hpos₁ hb₁ hop (by simp) hcreate
  obtain ⟨hr, hs₃⟩ := hs₂.setName hm₃
  have hget : (s.module.internType (.storage vtype)).2.types.get
      (s.module.internType (.storage vtype)).1 = .ok (.storage vtype) :=
    TypeTable.get_intern _ _
  exact ⟨vtype, _, hv, hr.kept.types (hc.kept.types hget), (hc.of_addsType ht).relabel hr, hs₃⟩

/-- Letting a use read storage. -/
theorem readFor_runs {u : Use} {nu : Node} {read : NodeId} (hs : Sound s.module)
    (hu : s.module.live? u.node = some nu) (hstorage : s.module.Usable storage)
    (h : (readFor u storage type loc).Runs env s read s') :
    ∃ value m₁,
      s.module.Creates m₁ nu.parent (.before u.node) read
        (.fresh .read [storage] [value] nu.parent loc) [type] ∧ Sound m₁ ∧
      (∃ old, nu.operands[u.operand]? = some old) ∧
      m₁.Redirects s'.module (pointAt u value) ∧
      Sound s'.module := by
  simp only [readFor, runs_bind, runs_edit, runs_pure] at h
  obtain ⟨⟨read', value⟩, s₁, hcreate, _, _, ⟨m₂, hm₂, rfl⟩, rfl, rfl⟩ := h
  obtain ⟨hc, hs₁⟩ := create_runs hs (hs.in_before hu) (hs.placed hu) rfl
    (by simpa using hstorage) hcreate
  have hne : u.node ≠ read' := by
    intro he
    rw [he, hc.fresh] at hu
    exact Nat.lt_irrefl _ (Module.lt_of_live? hu)
  have hu₁ : s₁.module.live? u.node = some nu := by rw [hc.live?_of_ne hne, hu]
  have hvalue : s₁.module.Usable value :=
    ⟨_, hc.def?_result (i := 0) rfl, fun he => by
      cases he
      exact ⟨_, hc.live?_self⟩⟩
  obtain ⟨hold, hr, hs₂⟩ := hs₁.setOperand hu₁ hvalue hm₂
  exact ⟨value, s₁.module, hc, hs₁, hold, hr, hs₂⟩

end Prep

namespace Sound

variable {m m' : Module} {source id : NodeId} {n : Node} {v : ValueId} {p : Position} {b : BlockId}

/-- A copy of a node with one result. -/
theorem cloneNode (hs : Sound m) (hn : m.live? source = some n) (hv : n.results = [v])
    (hr : n.regions = []) (hpos : p.In m.nodesOf b) (hb : m.Placed b)
    (h : m.cloneNode source p = .ok (id, m')) :
    ∃ copy type, m.type? v = some type ∧
      m.Creates m' b p id { Node.fresh n.op n.operands [copy] b n.loc with
        name := n.name, twoState := n.twoState } [type] ∧ Sound m' := by
  obtain ⟨nd, hid, -, rfl⟩ := Module.exists_of_live? hn
  simp only [Module.cloneNode, bind_eq_ok_iff, Module.node_eq_ok_iff] at h
  obtain ⟨nd', hid', types, htypes, ⟨id', m₁⟩, h₁, m₂, h₂, hret⟩ := h
  cases hret
  obtain rfl : nd = nd' := by simpa [hid] using hid'
  replace hv : nd.results = [v] := hv
  have hall := forall₂_of_mapM htypes
  rw [hv] at hall
  obtain ⟨type, rfl, htype⟩ : ∃ type, types = [type] ∧ m.valueType v = .ok type := by
    cases hall with
    | cons h₀ hrest =>
      cases hrest
      exact ⟨_, rfl, h₀⟩
  rw [Prep.valueType_eq_ok_iff] at htype
  have hop : nd.op.regionKinds = [] := hs.toNested.regionKinds_eq_nil (n := nd.core) hn hr
  have huse : ∀ w ∈ nd.operands, m.Usable w := by
    intro w hw
    obtain ⟨i, huse⟩ := Module.exists_uses_of_mem hn hw
    exact hs.usable huse
  obtain ⟨hc, hs₁⟩ := hs.createNode hpos hb hop huse h₁
  obtain ⟨hl, hw₂⟩ := hs₁.toWellFormed.modifyNode (f := fun _ => nd.name)
    (g := fun _ => nd.twoState) h₂
  exact ⟨⟨m.values.size⟩, type, htype, hc.relabel hl, hs₁.of_relabels hl hw₂⟩

end Sound

end NetPrep
