import Mathlib
import NetPrep.Proofs.Frame

/-!
# Direct access to storage

Preparation goes wrong where storage is reached by way of a node that is itself printed at its uses,
such as a path to an element. `Direct` excludes this: what is read or assigned is a port or a
declaration. Every step of preparation keeps a module direct, as it redirects only uses of other
values.
-/

namespace NetPrep

open Prepare Prep

theorem TypeTable.isStorage_of_get {t : TypeTable} {type element : TypeId}
    (h : t.get type = .ok (.storage element)) : t.isStorage type = .ok true := by
  simp [isStorage, storedType?, h, bind, Except.bind, pure, Except.pure]

namespace Module

variable {m m' : Module} {v w : ValueId} {id d : NodeId} {n : Node} {i : Nat}

/-- A value is the storage that a declaration stands for. -/
def IsStorage (m : Module) (v : ValueId) : Prop :=
  ∃ d i n, m.def? v = some (.result d i) ∧ m.core d = some n ∧ n.op.isDeclaration = true

/-- A value is a port or declared storage. -/
def IsFixed (m : Module) (v : ValueId) : Prop := (∃ i, m.def? v = some (.port i)) ∨ m.IsStorage v

theorem IsStorage.mono (h : m.IsStorage v) (hk : m.Kept m') : m'.IsStorage v := by
  obtain ⟨d, i, n, hdef, hd, hop⟩ := h
  obtain ⟨n', hd', hop', -⟩ := hk.node hd
  exact ⟨d, i, n', hk.def? hdef, hd', hop' ▸ hop⟩

theorem IsFixed.mono (h : m.IsFixed v) (hk : m.Kept m') : m'.IsFixed v := by
  rcases h with ⟨i, hi⟩ | h
  · exact Or.inl ⟨i, hk.def? hi⟩
  · exact Or.inr (h.mono hk)

/-- A result of a node that is no declaration is not storage. -/
theorem not_isStorage (hv : m.def? v = some (.result d i)) (hd : m.core d = some n)
    (hop : n.op.isDeclaration = false) : ¬ m.IsStorage v := by
  rintro ⟨d', i', n', hdef, hd', hop'⟩
  rw [hv] at hdef
  cases hdef
  rw [hd] at hd'
  cases hd'
  rw [hop] at hop'
  cases hop'

theorem not_isFixed (hv : m.def? v = some (.result d i)) (hd : m.core d = some n)
    (hop : n.op.isDeclaration = false) : ¬ m.IsFixed v := by
  rintro (⟨i', hi'⟩ | h)
  · rw [hv] at hi'
    cases hi'
  · exact not_isStorage hv hd hop h

/-- A value is a result of a node that is no declaration. -/
def IsComputed (m : Module) (v : ValueId) : Prop :=
  ∃ d i n, m.def? v = some (.result d i) ∧ m.core d = some n ∧ n.op.isDeclaration = false

theorem IsComputed.mono (h : m.IsComputed v) (hk : m.Kept m') : m'.IsComputed v := by
  obtain ⟨d, i, n, hdef, hd, hop⟩ := h
  obtain ⟨n', hd', hop', -⟩ := hk.node hd
  exact ⟨d, i, n', hk.def? hdef, hd', hop' ▸ hop⟩

theorem IsComputed.not_isFixed (h : m.IsComputed v) : ¬ m.IsFixed v := by
  obtain ⟨d, i, n, hdef, hd, hop⟩ := h
  exact Module.not_isFixed hdef hd hop

theorem IsComputed.not_isStorage (h : m.IsComputed v) : ¬ m.IsStorage v := fun hs =>
  h.not_isFixed (Or.inr hs)

/-- What is not storage does not become storage. -/
theorem IsStorage.of_kept (h : m'.IsStorage v) (hk : m.Kept m') (hw : WellFormed m) {d : ValueDef}
    (hv : m.def? v = some d) : m.IsStorage v := by
  obtain ⟨e, i, n, hdef, he, hop⟩ := h
  obtain rfl : d = .result e i := Option.some.inj ((hk.def? hv).symm.trans hdef)
  obtain ⟨n₀, hn₀, -⟩ := hw.definition hv
  obtain ⟨n₁, hn₁, hop₁, -⟩ := hk.node hn₀
  obtain rfl := Option.some.inj (hn₁.symm.trans he)
  exact ⟨e, i, n₀, hv, hn₀, hop₁ ▸ hop⟩

end Module

theorem Prep.IsInline.of_kept {m m' : Module} {j : NodeId} {n : Node} (h : IsInline m' j)
    (hk : m.Kept m') (hj : m.live? j = some n) : IsInline m j :=
  Module.HasOp.of_kept (p := (·.isAlwaysInline = true)) h hk hj

theorem Op.isDeclaration_of_isAlwaysInline {op : Op} (h : op.isAlwaysInline = true) :
    op.isDeclaration = false := by
  cases op <;> first | rfl | cases h

theorem Op.isDeclaration_of_isInstance {op : Op} (h : op.isInstance = true) :
    op.isDeclaration = false := by
  cases op <;> first | rfl | cases h

theorem Op.isDeclaration_of_isCommutative {op : Op} (h : op.isCommutative = true) :
    op.isDeclaration = false := by
  cases op <;> first | rfl | cases h

theorem Op.isClocked_of_isMade {op : Op} (h : op.isMade = true) : op.isClocked = false := by
  cases op <;> first | rfl | cases h

/-- A sound module where storage is accessed directly. -/
structure Direct (m : Module) : Prop extends Sound m where
  /-- What is printed at its uses refers to ports and declarations only. -/
  inline : ∀ {id n v}, m.live? id = some n → n.op.isAlwaysInline = true → v ∈ n.operands →
    m.IsFixed v
  /-- The destination of an assignment is a port or a declaration. -/
  assigned : ∀ {id n v}, m.live? id = some n → n.op = .assign → n.operands[0]? = some v →
    m.IsFixed v
  /-- Storage is no event. -/
  event : ∀ {id n v}, m.live? id = some n → n.op.isClocked = true → v ∈ n.operands →
    ¬ m.IsStorage v
  /-- A declaration has no operands and stands for storage. -/
  declaration : ∀ {id n}, m.live? id = some n → n.op.isDeclaration = true → n.operands = [] ∧
    ∃ v type, n.results = [v] ∧ m.type? v = some type ∧ m.types.isStorage type = .ok true

namespace Direct

variable {m m' : Module} {id : NodeId} {n : Node} {b : BlockId} {pos : Position}
  {types : List TypeId} {T : NodeId → Prop} {v : ValueId} {u : Use}

theorem isStorage_mono {t t' : TypeTable} {type : TypeId}
    (h : ∀ {i a}, t.get i = .ok a → t'.get i = .ok a) (hs : t.isStorage type = .ok true) :
    t'.isStorage type = .ok true := by
  simp only [TypeTable.isStorage, TypeTable.storedType?, bind_eq_ok_iff] at hs ⊢
  obtain ⟨e, ⟨ty, hty, he⟩, hret⟩ := hs
  exact ⟨e, ⟨ty, h hty, he⟩, hret⟩

theorem creates (hd : Direct m) (hs' : Sound m') (h : m.Creates m' b pos id n types)
    (hop : n.op.isMade = true)
    (hinline : n.op.isAlwaysInline = true → ∀ v ∈ n.operands, m.IsFixed v)
    (hassign : n.op = .assign → ∀ v, n.operands[0]? = some v → m.IsFixed v)
    (hdecl : n.op.isDeclaration = true → n.operands = [] ∧
      ∃ type, types = [type] ∧ m'.types.isStorage type = .ok true) : Direct m' where
  toSound := hs'
  inline hj hj' hv := by
    rcases h.live_cases hj with ⟨rfl, rfl⟩ | ⟨-, hj⟩
    · exact (hinline hj' _ hv).mono h.kept
    · exact (hd.inline hj hj' hv).mono h.kept
  assigned hj hj' hv := by
    rcases h.live_cases hj with ⟨rfl, rfl⟩ | ⟨-, hj⟩
    · exact (hassign hj' _ hv).mono h.kept
    · exact (hd.assigned hj hj' hv).mono h.kept
  event {j nj v} hj hj' hv hst := by
    rcases h.live_cases hj with ⟨rfl, rfl⟩ | ⟨-, hj⟩
    · rw [Op.isClocked_of_isMade hop] at hj'
      cases hj'
    · obtain ⟨k, hk⟩ := Module.exists_uses_of_mem hj hv
      obtain ⟨d, hdef, -⟩ := hd.operand hk
      exact hd.event hj hj' hv (hst.of_kept h.kept hd.toWellFormed hdef)
  declaration hj hj' := by
    rcases h.live_cases hj with ⟨rfl, rfl⟩ | ⟨-, hj⟩
    · obtain ⟨hops, type, rfl, htype⟩ := hdecl hj'
      have hres := h.results
      refine ⟨hops, ⟨m.values.size⟩, type, hres, ?_, htype⟩
      exact h.type?_result (i := 0) (by rw [hres]; rfl)
    · obtain ⟨hops, v, type, hv, htype, hst⟩ := hd.declaration hj hj'
      exact ⟨hops, v, type, hv, h.kept.type? htype, isStorage_mono h.kept.types hst⟩

/-- Redirecting uses to values that are not storage, where what was used is neither a port nor storage
or the user is an instance. -/
theorem redirects {f : NodeId → List ValueId → List ValueId} (hd : Direct m) (hs' : Sound m')
    (h : m.Redirects m' f)
    (hf : ∀ {j : NodeId} {n : Node} {i : Nat} {v : ValueId}, m.live? j = some n →
      (f j n.operands)[i]? = some v →
      ∃ w, n.operands[i]? = some w ∧
        (v = w ∨ (¬ m.IsFixed w ∨ n.op.isInstance = true) ∧ ¬ m.IsStorage v)) :
    Direct m' where
  toSound := hs'
  inline hj hj' hv := by
    obtain ⟨n, hn, rfl⟩ := h.live_cases hj
    obtain ⟨i, hi⟩ := List.mem_iff_getElem?.1 hv
    obtain ⟨w, hw, rfl | ⟨hnot | hinst, -⟩⟩ := hf hn hi
    · exact (hd.inline hn hj' (List.mem_of_getElem? hw)).mono h.kept
    · exact absurd (hd.inline hn hj' (List.mem_of_getElem? hw)) hnot
    · change n.op.isAlwaysInline = true at hj'
      rw [Op.isAlwaysInline_of_isInstance hinst] at hj'
      cases hj'
  assigned hj hj' hv := by
    obtain ⟨n, hn, rfl⟩ := h.live_cases hj
    obtain ⟨w, hw, rfl | ⟨hnot | hinst, -⟩⟩ := hf hn hv
    · exact (hd.assigned hn hj' hw).mono h.kept
    · exact absurd (hd.assigned hn hj' hw) hnot
    · rw [show n.op = .assign from hj'] at hinst
      cases hinst
  event {j nj v} hj hj' hv hst := by
    have hst₀ : m.IsStorage v := by
      obtain ⟨e, i, ne, hdef, he, hop⟩ := hst
      rw [h.def?] at hdef
      obtain ⟨n₀, hn₀, -⟩ := hd.definition hdef
      obtain ⟨n₁, hn₁, hop₁, -⟩ := h.kept.node hn₀
      obtain rfl := Option.some.inj (hn₁.symm.trans he)
      exact ⟨e, i, n₀, hdef, hn₀, hop₁ ▸ hop⟩
    obtain ⟨n, hn, rfl⟩ := h.live_cases hj
    obtain ⟨i, hi⟩ := List.mem_iff_getElem?.1 hv
    obtain ⟨w, hw, rfl | ⟨-, hnot⟩⟩ := hf hn hi
    · exact hd.event hn hj' (List.mem_of_getElem? hw) hst₀
    · exact hnot hst₀
  declaration hj hj' := by
    obtain ⟨n, hn, rfl⟩ := h.live_cases hj
    obtain ⟨hops, v, type, hv, htype, hst⟩ := hd.declaration hn hj'
    refine ⟨?_, v, type, hv, h.kept.type? htype, isStorage_mono h.kept.types hst⟩
    rw [List.eq_nil_iff_forall_not_mem]
    intro x hx
    obtain ⟨i, hi⟩ := List.mem_iff_getElem?.1 hx
    obtain ⟨w, hw, -⟩ := hf hn hi
    simp [hops] at hw

theorem pointAt {x old : ValueId} (hd : Direct m) (hs' : Sound m')
    (h : m.Redirects m' (pointAt u x)) (hu : m.Uses u old)
    (hold : ¬ m.IsFixed old ∨ ∃ n, m.live? u.node = some n ∧ n.op.isInstance = true)
    (hx : ¬ m.IsStorage x) : Direct m' := by
  refine hd.redirects hs' h fun {j n i v} hj hv => ?_
  unfold NetPrep.pointAt at hv
  split at hv
  · next hju =>
    obtain ⟨nu, hnu, hslot⟩ := hu
    rw [hju, hnu] at hj
    cases hj
    rw [List.getElem?_set] at hv
    split at hv
    · next hi =>
      split at hv
      · cases hv
        refine ⟨old, hi ▸ hslot, Or.inr ⟨hold.imp_right ?_, hx⟩⟩
        rintro ⟨n', hn', hinst⟩
        rw [hnu] at hn'
        cases hn'
        exact hinst
      · cases hv
    · exact ⟨v, hv, Or.inl rfl⟩
  · exact ⟨v, hv, Or.inl rfl⟩

theorem substitute {old new : ValueId} (hd : Direct m) (hs' : Sound m')
    (h : m.Redirects m' (substitute old new)) (hold : ¬ m.IsFixed old)
    (hnew : ¬ m.IsStorage new) : Direct m' := by
  refine hd.redirects hs' h fun {j n i v} hj hv => ?_
  simp only [NetPrep.substitute, List.getElem?_map, Option.map_eq_some_iff] at hv
  obtain ⟨w, hw, rfl⟩ := hv
  refine ⟨w, hw, ?_⟩
  split
  · next hwo => exact Or.inr ⟨Or.inl (hwo ▸ hold), hnew⟩
  · exact Or.inl rfl

/-- A step that changes neither operations nor operands keeps a module direct. -/
theorem of_live (hd : Direct m) (hs' : Sound m') (hk : m.Kept m')
    (hlive : ∀ {j n'}, m'.live? j = some n' → ∃ n, m.live? j = some n ∧ n'.op = n.op ∧
      n'.operands = n.operands ∧ n'.results = n.results ∧ n'.regions = n.regions) :
    Direct m' where
  toSound := hs'
  inline hj hj' hv := by
    obtain ⟨n, hn, hop, hops, -⟩ := hlive hj
    exact (hd.inline hn (hop ▸ hj') (hops ▸ hv)).mono hk
  assigned hj hj' hv := by
    obtain ⟨n, hn, hop, hops, -⟩ := hlive hj
    exact (hd.assigned hn (hop ▸ hj') (hops ▸ hv)).mono hk
  event {j nj v} hj hj' hv hst := by
    obtain ⟨n, hn, hop, hops, -⟩ := hlive hj
    obtain ⟨k, hk'⟩ := Module.exists_uses_of_mem hn (hops ▸ hv)
    obtain ⟨d, hdef, -⟩ := hd.operand hk'
    exact hd.event hn (hop ▸ hj') (hops ▸ hv) (hst.of_kept hk hd.toWellFormed hdef)
  declaration hj hj' := by
    obtain ⟨n, hn, hop, hops, hres, -⟩ := hlive hj
    obtain ⟨hnil, v, type, hv, htype, hst⟩ := hd.declaration hn (hop ▸ hj')
    exact ⟨hops.trans hnil, v, type, hres.trans hv, hk.type? htype, isStorage_mono hk.types hst⟩

theorem moves (hd : Direct m) (hs' : Sound m') (h : m.Moves m' b pos id) : Direct m' :=
  hd.of_live hs' h.kept fun hj => by
    obtain ⟨n, hn, rfl⟩ := h.live_cases hj
    exact ⟨n, hn, rfl, rfl, rfl, rfl⟩

theorem erases (hd : Direct m) (hs' : Sound m') (h : m.Erases m' id) : Direct m' :=
  hd.of_live hs' h.kept fun hj => ⟨_, (h.live_cases hj).2, rfl, rfl, rfl, rfl⟩

theorem relabels {name : Option Name → Option Name} {twoState : Bool → Bool} (hd : Direct m)
    (hs' : Sound m') (h : m.Relabels m' id name twoState) : Direct m' :=
  hd.of_live hs' h.kept fun hj => by
    obtain ⟨n, hn, rfl⟩ := h.live_cases hj
    exact ⟨n, hn, rfl, rfl, rfl, rfl⟩

/-! ## Settling -/

theorem isComputed (hd : Direct m) (hn : m.live? id = some n)
    (hop : n.op.isDeclaration = false) (hv : v ∈ n.results) : m.IsComputed v := by
  obtain ⟨i, hdef⟩ := hd.exists_def hn hv
  exact ⟨id, i, n, hdef, Module.core_of_live? hn, hop⟩

theorem inlineStep (hd : Direct m) (h : m.InlineStep id m') : Direct m' := by
  cases h with
  | @clone copyId n nu v copy u type m₁ hn hop hv hu hnu htype hc hs₁ hr hs =>
    have hdecl := Op.isDeclaration_of_isAlwaysInline hop
    have hd₁ : Direct m₁ := hd.creates hs₁ hc (Op.isMade_of_isAlwaysInline hop)
      (fun _ v hv => hd.inline hn hop hv)
      (fun ha => by
        change n.op = .assign at ha
        rw [ha] at hop
        cases hop)
      (fun ht => by
        change n.op.isDeclaration = true at ht
        rw [hdecl] at ht
        cases ht)
    have hv₁ : v ∈ n.results := by simp [hv]
    have hcopy := hd₁.isComputed hc.live?_self hdecl (v := copy) (by simp [Node.fresh])
    exact hd₁.pointAt hs hr (hc.uses_iff.2 (Or.inl hu))
      (Or.inl (hd₁.isComputed (hc.live hn) hdecl hv₁).not_isFixed) hcopy.not_isStorage
  | move hn hop hv honly hnu hne hm hs => exact hd.moves hs hm

theorem inlines (hd : Direct m) (h : m.Inlines T m') : Direct m' := by
  induction h with
  | refl => exact hd
  | step _ hstep _ ih => exact ih (hd.inlineStep hstep)

/-- Nothing is printed inside what is printed at its uses. -/
theorem not_innerOf (hd : Direct m) {k : NodeId} : ¬ InnerOf m k id := by
  rintro ⟨⟨n, hn, hop⟩, nj, hj, hopj, v, hv, i, hdef⟩
  exact Module.not_isFixed hdef hn (Op.isDeclaration_of_isAlwaysInline hop)
    (hd.inline hj hopj hv)

/-- So settling concerns the given nodes only. -/
theorem settled (hd : Direct m) {j : NodeId} (h : Settled m T j) : T j := by
  rcases h with h | ⟨m', k, hm', hinner⟩
  · exact h
  · exact absurd hinner (hd.inlines hm').not_innerOf

end Direct

end NetPrep
