import Mathlib
import NetPrep.Proofs.Reusing

/-!
# Instance ports

Letting the outputs of an instance flow into wires, and its inputs come from wires, as edits of a
sound module.
-/

namespace NetPrep

open Prepare Prep

namespace Module

variable {m m' : Module} {inst : NodeId} {result source : ValueId} {index : Nat}

/-- An output of an instance needs no wire, has its only assignment moved, or gets a wire. -/
inductive AnchorsOutput (inst : NodeId) (result : ValueId) (m m' : Module) : Prop
  | ending (h : m = m')
  | assigned {n na : Node} {assignment : NodeId} {slot : Nat} (hn : m.live? inst = some n)
      (huses : ∀ u, m.Uses u result ↔ u = ⟨assignment, slot⟩) (ha : m.live? assignment = some na)
      (hop : na.op = .assign) (hparent : na.parent = n.parent)
      (hm : m.Moves m' n.parent (.after inst) assignment) (hs : Sound m')
  | wired {n : Node} {name : Option Name} {type stype : TypeId} {decl conn : NodeId}
      {storage : ValueId} {uses : List Use} {m₁ m₂ : Module} (hn : m.live? inst = some n)
      (hres : result ∈ n.results) (htype : m.type? result = some type)
      (hdecl : m.Creates m₁ m.body (.front m.body) decl
        { Node.fresh .wire [] [storage] m.body n.loc with name } [stype])
      (hstype : m₁.types.get stype = .ok (.storage type)) (hs₁ : Sound m₁)
      (huses : ∀ u, u ∈ uses ↔ m₁.Uses u result) (hnd : uses.Nodup)
      (hreads : ReadsSettled result storage type n.loc uses m₁ m₂)
      (hconn : m₂.Creates m' n.parent (.after inst) conn
        (.fresh .assign [storage, result] [] n.parent n.loc) []) (hs : Sound m')

/-- The outputs of an instance are anchored one after another. -/
inductive AnchorsOutputs (inst : NodeId) : List ValueId → Module → Module → Prop
  | nil (m : Module) : AnchorsOutputs inst [] m m
  | cons {v : ValueId} {vs : List ValueId} {m m₁ m' : Module} (h : m.AnchorsOutput inst v m₁)
      (hrest : AnchorsOutputs inst vs m₁ m') : AnchorsOutputs inst (v :: vs) m m'

/-- An input of an instance needs no wire, or gets one. -/
inductive AnchorsInput (inst : NodeId) (index : Nat) (source : ValueId) (m m' : Module) : Prop
  | simple (h : m = m')
  | wired {n : Node} {name : Option Name} {type stype : TypeId} {decl read conn : NodeId}
      {storage value : ValueId} {m₁ m₂ m₃ : Module} (hn : m.live? inst = some n)
      (huse : m.Uses ⟨inst, index⟩ source) (htype : m.type? source = some type)
      (hdecl : m.Creates m₁ m.body (.front m.body) decl
        { Node.fresh .wire [] [storage] m.body n.loc with name } [stype])
      (hstype : m₁.types.get stype = .ok (.storage type)) (hs₁ : Sound m₁)
      (hread : m₁.Creates m₂ n.parent (.before inst) read
        (.fresh .read [storage] [value] n.parent n.loc) [type]) (hs₂ : Sound m₂)
      (hconn : m₂.Creates m₃ n.parent (.before inst) conn
        (.fresh .assign [storage, source] [] n.parent n.loc) []) (hs₃ : Sound m₃)
      (hr : m₃.Redirects m' (pointAt ⟨inst, index⟩ value)) (hs : Sound m')

/-- The inputs of an instance from a position on are anchored one after another. -/
inductive AnchorsInputs (inst : NodeId) : Nat → List ValueId → Module → Module → Prop
  | nil (index : Nat) (m : Module) : AnchorsInputs inst index [] m m
  | cons {index : Nat} {v : ValueId} {vs : List ValueId} {m m₁ m' : Module}
      (h : m.AnchorsInput inst index v m₁) (hrest : AnchorsInputs inst (index + 1) vs m₁ m') :
      AnchorsInputs inst index (v :: vs) m m'

/-- Anchoring an output keeps the instance in its place. -/
theorem AnchorsOutput.live_inst {n : Node} (h : m.AnchorsOutput inst result m')
    (hn : m.live? inst = some n) (hop : n.op.isInstance = true) :
    ∃ n', m'.live? inst = some n' ∧ n'.op = n.op ∧ n'.results = n.results ∧ n'.parent = n.parent := by
  have hinline := Op.isAlwaysInline_of_isInstance hop
  cases h with
  | ending h => exact ⟨n, h ▸ hn, rfl, rfl, rfl⟩
  | assigned _ _ ha hopa _ hm _ =>
    refine ⟨_, hm.live hn, rfl, rfl, if_neg ?_⟩
    rintro rfl
    rw [hn] at ha
    cases ha
    rw [hopa] at hop
    cases hop
  | wired _ _ _ hdecl _ _ _ _ hreads hconn _ =>
    obtain ⟨n', hn', hop', hr', hp'⟩ := hreads.live (hdecl.live hn)
    exact ⟨n', hconn.live hn', hop', hr', hp' hinline⟩

theorem AnchorsOutput.edits (h : m.AnchorsOutput inst result m') (hs : Sound m) : Edits m m' := by
  cases h with
  | ending h => exact h ▸ .refl hs
  | assigned _ _ ha hop _ hm hs' => exact hm.edits hs hs' ha (by rw [hop]; rfl)
  | wired _ _ _ hdecl _ hs₁ _ _ hreads hconn hs' =>
    exact ((hdecl.edits hs₁).trans (hreads.edits hs₁)).trans (hconn.edits hs')

theorem AnchorsOutputs.edits {vs : List ValueId} (h : AnchorsOutputs inst vs m m') (hs : Sound m) :
    Edits m m' := by
  induction h with
  | nil => exact .refl hs
  | cons h _ ih =>
    have h₁ := h.edits hs
    exact h₁.trans (ih h₁.sound)

theorem AnchorsOutput.sound (h : m.AnchorsOutput inst result m') (hs : Sound m) : Sound m' := by
  cases h with
  | ending h => exact h ▸ hs
  | assigned _ _ _ _ _ _ hs => exact hs
  | wired _ _ _ _ _ _ _ _ _ _ hs => exact hs

theorem AnchorsOutputs.live_inst {n : Node} {vs : List ValueId} (h : AnchorsOutputs inst vs m m')
    (hn : m.live? inst = some n) (hop : n.op.isInstance = true) :
    ∃ n', m'.live? inst = some n' ∧ n'.op = n.op ∧ n'.results = n.results ∧ n'.parent = n.parent := by
  induction h generalizing n with
  | nil => exact ⟨n, hn, rfl, rfl, rfl⟩
  | cons h _ ih =>
    obtain ⟨n₁, hn₁, hop₁, hr₁, hp₁⟩ := h.live_inst hn hop
    obtain ⟨n₂, hn₂, hop₂, hr₂, hp₂⟩ := ih hn₁ (hop₁ ▸ hop)
    exact ⟨n₂, hn₂, hop₂.trans hop₁, hr₂.trans hr₁, hp₂.trans hp₁⟩

theorem AnchorsInput.sound (h : m.AnchorsInput inst index source m') (hs : Sound m) : Sound m' := by
  cases h with
  | simple h => exact h ▸ hs
  | wired _ _ _ _ _ _ _ _ _ _ _ hs => exact hs

theorem AnchorsInput.edits (h : m.AnchorsInput inst index source m') (hs : Sound m) :
    Edits m m' := by
  cases h with
  | simple h => exact h ▸ .refl hs
  | wired _ _ _ hdecl _ hs₁ hread hs₂ hconn hs₃ hr hs' =>
    exact (((hdecl.edits hs₁).trans (hread.edits hs₂)).trans (hconn.edits hs₃)).trans (hr.edits hs')

theorem AnchorsInputs.edits {vs : List ValueId} (h : AnchorsInputs inst index vs m m')
    (hs : Sound m) : Edits m m' := by
  induction h with
  | nil => exact .refl hs
  | cons h _ ih =>
    have h₁ := h.edits hs
    exact h₁.trans (ih h₁.sound)

/-- Anchoring inputs keeps every node in its place. -/
theorem AnchorsInputs.live {j : NodeId} {n : Node} {vs : List ValueId}
    (h : AnchorsInputs inst index vs m m') (hj : m.live? j = some n) :
    ∃ n', m'.live? j = some n' ∧ n'.op = n.op ∧ n'.results = n.results ∧ n'.parent = n.parent := by
  induction h generalizing n with
  | nil => exact ⟨n, hj, rfl, rfl, rfl⟩
  | cons h _ ih =>
    cases h with
    | simple h => exact ih (h ▸ hj)
    | wired _ _ _ hdecl _ _ hread _ hconn _ hr _ =>
      obtain ⟨n', hn', hop, hres, hp⟩ := ih (hr.live (hconn.live (hread.live (hdecl.live hj))))
      exact ⟨n', hn', hop, hres, hp⟩

end Module

namespace Prep

variable {env : Env} {s s' : State} {inst : NodeId} {n : Node}

theorem flowsDirectly_runs {uses : List Use} {r : Bool} {result : ValueId} (hs : Sound s.module)
    (hn : s.module.live? inst = some n) (hop : n.op.isInstance = true)
    (huses : ∀ u, u ∈ uses ↔ s.module.Uses u result)
    (h : (flowsDirectly inst n.parent uses).Runs env s r s') :
    (r = false ∧ s = s') ∨ (r = true ∧ s.module.AnchorsOutput inst result s'.module) := by
  unfold flowsDirectly at h
  split at h
  · next u =>
    simp only [runs_bind, runs_node] at h
    obtain ⟨nu, _, ⟨hnu, rfl⟩, h⟩ := h
    obtain ⟨n', hn', -⟩ := (huses u).1 (by simp)
    obtain ⟨nd, hnd, he, rfl⟩ := Module.exists_of_live? hn'
    obtain rfl : nu = nd := by simpa using hnu.symm.trans hnd
    split at h
    · obtain ⟨rfl, rfl⟩ := runs_pure.1 h
      exact Or.inr ⟨rfl, .ending rfl⟩
    · next hopu =>
      split at h
      · next hp =>
        simp only [runs_bind, runs_edit, runs_pure] at h
        obtain ⟨_, _, ⟨m', hm', rfl⟩, rfl, rfl⟩ := h
        have hne : u.node ≠ inst := by
          intro he
          rw [he, hn] at hn'
          cases hn'
          rw [show nu.core.op = .assign from hopu] at hop
          cases hop
        have hreg : nu.core.regions = [] := hs.toNested.regions_eq_nil hn' (by
          change nu.op.regionKinds = []
          rw [hopu]
          rfl)
        obtain ⟨hm, hs'⟩ := hs.moveNode hn' hreg (hs.in_after hn) (hs.placed hn) (by simp)
          (by simpa using hne.symm) hm'
        have huses' : ∀ w, s.module.Uses w result ↔ w = ⟨u.node, u.operand⟩ := fun w => by
          rw [← huses]
          simp
        exact Or.inr ⟨rfl, .assigned hn huses' hn' hopu hp hm hs'⟩
      · obtain ⟨rfl, rfl⟩ := runs_pure.1 h
        exact Or.inl ⟨rfl, rfl⟩
    · obtain ⟨rfl, rfl⟩ := runs_pure.1 h
      exact Or.inl ⟨rfl, rfl⟩
  · obtain ⟨rfl, rfl⟩ := runs_pure.1 h
    exact Or.inl ⟨rfl, rfl⟩

theorem anchorOutputs_runs (ho : env.oracle = .systemVerilog) {names : PortNames} {index : Nat}
    {results : List ValueId} {r : Unit} (hs : Sound s.module) (hn : s.module.live? inst = some n)
    (hop : n.op.isInstance = true) (hresults : ∀ v ∈ results, v ∈ n.results)
    (h : (anchorOutputs inst names index results).Runs env s r s') :
    s.module.AnchorsOutputs inst results s'.module := by
  induction results generalizing s n index with
  | nil =>
    obtain ⟨-, rfl⟩ := runs_pure.1 h
    exact .nil _
  | cons result rest ih =>
    obtain ⟨nd, hnd, -, rfl⟩ := Module.exists_of_live? hn
    simp only [anchorOutputs, runs_bind, runs_node, runs_query, Module.value_eq_ok_iff] at h
    obtain ⟨nd', _, ⟨hnd', rfl⟩, x, _, ⟨hx, rfl⟩, direct, s₁, hdirect, h⟩ := h
    obtain rfl : nd = nd' := by simpa using hnd.symm.trans hnd'
    have huses : ∀ u, u ∈ x.uses ↔ s.module.Uses u result := fun u => hs.mem_uses hx
    have hrest : ∀ {t : State}, s.module.AnchorsOutput inst result t.module →
        (anchorOutputs inst names (index + 1) rest).Runs env t r s' →
        s.module.AnchorsOutputs inst (result :: rest) s'.module := by
      intro t hanchor ht
      obtain ⟨n', hn', hop', hres', -⟩ := hanchor.live_inst hn hop
      exact .cons hanchor (ih (hanchor.sound hs) hn' (hop' ▸ hop)
        (fun v hv => hres' ▸ hresults v (List.mem_cons_of_mem _ hv)) ht)
    rcases flowsDirectly_runs (n := nd.core) hs hn hop huses hdirect with ⟨rfl, rfl⟩ | ⟨rfl, hanchor⟩
    · simp only [Bool.not_false, if_true, runs_bind, runs_query, runs_count,
        valueType_eq_ok_iff] at h
      obtain ⟨type, _, ⟨htype, rfl⟩, body, _, ⟨hbody, rfl⟩, name, s₁, hname, ⟨decl, storage⟩, s₂,
        hdecl, _, s₃, hreads, conn, s₄, hconn, _, _, rfl, h⟩ := h
      cases hbody
      have hm₁ := (Silent.intern _).module_eq hname
      have hs₁ : Sound s₁.module := hm₁ ▸ hs
      obtain ⟨vtype, stype, hvtype, hstype, hc₁, hs₂⟩ := declareFor_runs hs₁
        (p := .front s.module.body) (b := s.module.body) rfl (by rw [hm₁]; exact .body) rfl hdecl
      rw [hm₁] at hvtype hc₁
      obtain rfl := Option.some.inj (hvtype.symm.trans htype)
      have huses₁ : ∀ u, u ∈ x.uses ↔ s₂.module.Uses u result := fun u => by
        rw [huses, hc₁.uses_iff]
        simp [Node.fresh]
      obtain ⟨i, hi⟩ := List.mem_iff_getElem?.1 (hresults result (by simp))
      have hdef := hs.result (Module.core_of_live? hn) hi
      have hinline : nd.op.isAlwaysInline = false := Op.isAlwaysInline_of_isInstance hop
      have hstorage : s₂.module.Usable storage := hc₁.usable_result (i := 0) rfl
      have hn₁ := hc₁.live hn
      have hr := readsSettled_runs ho hs₂ (hc₁.kept.def? hdef) (Module.core_of_live? hn₁) hinline
        (fun u hu => (huses₁ u).1 hu) (hs.uses_nodup hx) hstorage hreads
      have hs₃ := hr.sound hs₂
      obtain ⟨n₂, hn₂, -, -, hp₂⟩ := hr.live hn₁
      have hp₂ := hp₂ hinline
      have hresult : s₃.module.Usable result :=
        ⟨_, hr.kept.def? (hc₁.kept.def? hdef), fun he => by
          cases he
          exact ⟨_, hn₂⟩⟩
      have hpos : (Position.after inst).In s₃.module.nodesOf nd.parent := by
        have hin := hs₃.in_after hn₂
        rwa [hp₂] at hin
      have hplaced : s₃.module.Placed nd.parent := by
        have hin := hs₃.placed hn₂
        rwa [hp₂] at hin
      obtain ⟨hc₄, hs₄⟩ := createStatement_runs hs₃ hpos hplaced rfl
        (by simpa using ⟨hr.usable hstorage, hresult⟩) hconn
      refine hrest ?_ h
      exact .wired hn (hresults result (by simp)) htype hc₁ hstype hs₂ huses₁ (hs.uses_nodup hx) hr
        hc₄ hs₄
    · simp only [Bool.not_true, Bool.false_eq_true, if_false] at h
      exact hrest hanchor h

theorem anchorInputs_runs {names : PortNames} {index : Nat} {sources : List ValueId} {r : Unit}
    (hs : Sound s.module) (hn : s.module.live? inst = some n) (hop : n.op.isInstance = true)
    (hsources : ∀ i v, sources[i]? = some v → s.module.Uses ⟨inst, index + i⟩ v)
    (h : (anchorInputs inst names index sources).Runs env s r s') :
    s.module.AnchorsInputs inst index sources s'.module := by
  induction sources generalizing s n index with
  | nil =>
    obtain ⟨-, rfl⟩ := runs_pure.1 h
    exact .nil _ _
  | cons source rest ih =>
    obtain ⟨nd, hnd, -, rfl⟩ := Module.exists_of_live? hn
    simp only [anchorInputs, runs_bind, runs_query] at h
    obtain ⟨simple, _, ⟨-, rfl⟩, h⟩ := h
    have hrest : ∀ i v, rest[i]? = some v → s.module.Uses ⟨inst, index + 1 + i⟩ v := fun i v hi => by
      have hv := hsources (i + 1) v (by simpa using hi)
      rwa [show index + (i + 1) = index + 1 + i by omega] at hv
    split at h
    · simp only [runs_bind, runs_node, runs_query, runs_edit, runs_count, valueType_eq_ok_iff] at h
      obtain ⟨nd', _, ⟨hnd', rfl⟩, type, _, ⟨htype, rfl⟩, body, _, ⟨hbody, rfl⟩, name, s₁, hname,
        ⟨decl, storage⟩, s₂, hdecl, ⟨read, value⟩, s₃, hread, conn, s₄, hconn, _, _, ⟨m₅, hm₅, rfl⟩, _,
        _, rfl, h⟩ := h
      obtain rfl : nd = nd' := by simpa using hnd.symm.trans hnd'
      cases hbody
      have huse : s.module.Uses ⟨inst, index⟩ source := hsources 0 source rfl
      have hm₁ := (Silent.intern _).module_eq hname
      have hs₁ : Sound s₁.module := hm₁ ▸ hs
      obtain ⟨vtype, stype, hvtype, hstype, hc₁, hs₂⟩ := declareFor_runs hs₁
        (p := .front s.module.body) (b := s.module.body) rfl (by rw [hm₁]; exact .body) rfl hdecl
      rw [hm₁] at hvtype hc₁
      obtain rfl := Option.some.inj (hvtype.symm.trans htype)
      have hstorage : s₂.module.Usable storage := hc₁.usable_result (i := 0) rfl
      have hn₂ := hc₁.live hn
      obtain ⟨hc₂, hs₃⟩ := create_runs hs₂ (hs₂.in_before hn₂) (hs₂.placed hn₂) rfl
        (by simpa using hstorage) hread
      have hn₃ := hc₂.live hn₂
      have hsource := hc₂.usable (hc₁.usable (hs.usable huse))
      obtain ⟨hc₃, hs₄⟩ := createStatement_runs hs₃ (hs₃.in_before hn₃) (hs₃.placed hn₃) rfl
        (by simpa using ⟨hc₂.usable hstorage, hsource⟩) hconn
      have hn₄ := hc₃.live hn₃
      obtain ⟨-, hr, hs₅⟩ := hs₄.setOperand hn₄
        (hc₃.usable (hc₂.usable_result (i := 0) (v := value) rfl)) hm₅
      have huses : ∀ i v, rest[i]? = some v → m₅.Uses ⟨inst, index + 1 + i⟩ v := fun i v hi => by
        have hlift : ∀ {u w}, s.module.Uses u w → s₄.module.Uses u w := fun hw =>
          hc₃.uses_iff.2 (Or.inl (hc₂.uses_iff.2 (Or.inl (hc₁.uses_iff.2 (Or.inl hw)))))
        rw [hr.uses_pointAt_iff (hlift huse), if_neg (by simp; omega)]
        exact hlift (hrest i v hi)
      have hn₅ := hr.live hn₄
      refine .cons ?_ (ih (s := ⟨m₅, s₄.names, _⟩) hs₅ hn₅ hop huses h)
      exact .wired hn huse htype hc₁ hstype hs₂ hc₂ hs₃ hc₃ hs₄ hr hs₅
    · exact .cons (.simple rfl) (ih hs hn hop hrest h)

theorem anchorInstanceOutputs_runs (ho : env.oracle = .systemVerilog) {r : Unit}
    (hs : Sound s.module) (hn : s.module.live? inst = some n) (hop : n.op.isInstance = true)
    (h : (anchorInstanceOutputs inst).Runs env s r s') :
    s.module.AnchorsOutputs inst n.results s'.module := by
  obtain ⟨nd, hnd, -, rfl⟩ := Module.exists_of_live? hn
  simp only [anchorInstanceOutputs, runs_bind, runs_node] at h
  obtain ⟨nd', _, ⟨hnd', rfl⟩, names, s₁, hnames, h⟩ := h
  obtain rfl : nd = nd' := by simpa using hnd.symm.trans hnd'
  have hm := (Silent.portNames _ _).module_eq hnames
  rw [← hm] at hn ⊢
  exact anchorOutputs_runs ho (hm ▸ hs) hn hop (fun v hv => hv) h

theorem anchorInstanceInputs_runs {r : Unit} (hs : Sound s.module)
    (hn : s.module.live? inst = some n) (hop : n.op.isInstance = true)
    (h : (anchorInstanceInputs inst).Runs env s r s') :
    s.module.AnchorsInputs inst 0 n.operands s'.module := by
  obtain ⟨nd, hnd, -, rfl⟩ := Module.exists_of_live? hn
  simp only [anchorInstanceInputs, runs_bind, runs_node] at h
  obtain ⟨nd', _, ⟨hnd', rfl⟩, names, s₁, hnames, h⟩ := h
  obtain rfl : nd = nd' := by simpa using hnd.symm.trans hnd'
  have hm := (Silent.portNames _ _).module_eq hnames
  rw [← hm] at hn ⊢
  refine anchorInputs_runs (hm ▸ hs) hn hop (fun i v hi => ⟨_, hn, ?_⟩) h
  simpa [Node.core] using hi

end Prep

end NetPrep
