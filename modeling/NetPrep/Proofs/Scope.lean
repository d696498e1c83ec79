import Mathlib
import NetPrep.Proofs.ForwardReferences
import NetPrep.Proofs.Plain
import NetPrep.Proofs.Wired

/-!
# Scope

A module is in scope if every use lies in the block of the definition or further in. Temporaries keep
it so: the declaration stands beside the node, which is around every user. They also keep it candid:
whether a node can stand anywhere shows in its operation.
-/

namespace NetPrep

open Prepare Prep

/-! ## What shows in the operation -/

namespace TypeTable

variable {t t' : TypeTable} {op : Op} {r : TypeId}

theorem isValue_of_isInt (h : t.isInt r = true) : t.isValue r = true := by
  unfold isInt intWidth? at h
  unfold isValue
  split at h
  · next hw => simp [hw]
  · simp at h

theorem isValue_of_fields? (h : (t.fields? r).isSome) : t.isValue r = true := by
  unfold fields? at h
  unfold isValue
  split at h
  · next hf => simp [hf]
  · simp at h

theorem isValue_mono (h : t.isValue r = true) (ht : t'.Extends t) : t'.isValue r = true := by
  unfold isValue at h ⊢
  split at h
  · cases h
  · cases h
  · next ty hnot hty =>
    rw [entry?_eq_some_iff.2 (ht _ _ (entry?_eq_some_iff.1 hty))]
    cases ty <;> first | rfl | exact absurd rfl (hnot _)

theorem fits_constant {os rs : List TypeId} (hop : op.isConstant = true)
    (h : t.fits op os rs = true) : os = [] ∧ ∃ r, rs = [r] ∧ t.isInt r = true :=
  match op, os, rs, h with
  | .constant _, [], [r], h => ⟨rfl, r, rfl, h⟩

/-- What has no operands and one result is a constant, a declaration, or computes a value. -/
theorem isValue_of_fits (h : t.fits op [] [r] = true) (hop : op.standsAlone = false) :
    t.isValue r = true :=
  match op, h with
  | .inst .., h => by simpa using (Bool.and_eq_true_iff.1 h).2
  | .concat, h => isValue_of_isInt (by simpa using (Bool.and_eq_true_iff.1 (Bool.and_eq_true_iff.1 h).1).2)
  | .structCreate, h => isValue_of_fields? (by
      obtain ⟨fields, hf, -⟩ := Option.map_eq_some_iff.1 (beq_iff_eq.1 h)
      simp [hf])
  | .systemCall .., h | .verbatim .., h => h
  | .foreign .., h => by simpa [fits] using h

end TypeTable

namespace Module

variable {m m' : Module} {d id read decl : NodeId} {n nd nj : Node} {b block : BlockId}
  {pos : Position} {types : List TypeId} {u w : Use} {v x y storage old result : ValueId}

/-- Whether a node can stand anywhere shows in its operation. -/
structure Evident (m : Module) (n : Node) : Prop where
  alone : n.op.standsAlone = true → n.operands = []
  declaration : n.op.isDeclaration = true →
    ∃ v type, n.results = [v] ∧ m.type? v = some type ∧ m.types.isStorage type = .ok true
  read : n.op = .read → ∃ v, n.operands = [v]
  value : n.op.standsAlone = false → n.operands = [] →
    ∀ v, n.results = [v] → ∃ type, m.type? v = some type ∧ m.types.isValue type = true

theorem Typed.evident (h : m.Typed n) : m.Evident n := by
  obtain ⟨os, rs, hos, hrs, hfits⟩ := h
  refine ⟨fun hop => ?_, fun hop => ?_, fun hop => ?_, fun hop hbare v hv => ?_⟩
  · have hnil : os = [] := (Bool.or_eq_true_iff.1 hop).elim
      (fun hc => (TypeTable.fits_constant hc hfits).1)
      fun hd => (TypeTable.fits_declaration hd hfits).1
    subst hnil
    exact List.forall₂_nil_right_iff.1 (forall₂_of_mapM_type? hos)
  · obtain ⟨-, r, rfl, hst⟩ := TypeTable.fits_declaration hop hfits
    obtain ⟨v, ws, htype, hws, hres⟩ := List.forall₂_cons_right_iff.1 (forall₂_of_mapM_type? hrs)
    obtain rfl := List.forall₂_nil_right_iff.1 hws
    exact ⟨v, r, hres, htype, TypeTable.isStorage_of_elementOf? hst⟩
  · rw [hop] at hfits
    obtain ⟨s, r, rfl, -, -⟩ := TypeTable.fits_read hfits
    obtain ⟨v, ws, -, hws, hops⟩ := List.forall₂_cons_right_iff.1 (forall₂_of_mapM_type? hos)
    obtain rfl := List.forall₂_nil_right_iff.1 hws
    exact ⟨v, hops⟩
  · rw [hbare] at hos
    obtain rfl : os = [] := by simpa using hos.symm
    rw [hv] at hrs
    obtain ⟨r, rs', htype, hrs', rfl⟩ := List.forall₂_cons_left_iff.1 (forall₂_of_mapM_type? hrs)
    obtain rfl := List.forall₂_nil_left_iff.1 hrs'
    exact ⟨r, htype, TypeTable.isValue_of_fits hfits hop⟩

/-- A node that can stand anywhere is a constant or a declaration. -/
theorem Evident.placeable_iff (h : m.Evident n) : m.Placeable n ↔ n.op.standsAlone = true := by
  constructor
  · rintro (hc | ⟨hnil, v, type, hv, htype, hst⟩)
    · exact Bool.or_eq_true_iff.2 (Or.inl hc)
    · by_contra hnot
      obtain ⟨type', htype', hval⟩ := h.value (Bool.eq_false_of_not_eq_true hnot) hnil v hv
      obtain rfl := Option.some.inj (htype.symm.trans htype')
      have helem := TypeTable.elementOf?_of_isStorage hst
      rw [TypeTable.elementOf?_of_isValue hval] at helem
      cases helem
  · intro hop
    exact (Bool.or_eq_true_iff.1 hop).imp_right fun hd => ⟨h.alone hop, h.declaration hd⟩

/-- What the operation shows it shows for good, as long as there are as many operands. -/
theorem Evident.kept {n' : Node} (h : m.Evident n) (hk : m.Kept m') (hop : n'.op = n.op)
    (hres : n'.results = n.results) (hlen : n'.operands.length = n.operands.length) :
    m'.Evident n' := by
  have hnil : n'.operands = [] ↔ n.operands = [] := by
    rw [← List.length_eq_zero_iff, hlen, List.length_eq_zero_iff]
  refine ⟨fun hc => hnil.2 (h.alone (hop ▸ hc)), fun hd => ?_, fun hr => ?_,
    fun hc hbare v hv => ?_⟩
  · obtain ⟨v, type, hv, htype, hst⟩ := h.declaration (hop ▸ hd)
    exact ⟨v, type, hres.trans hv, hk.type? htype, Direct.isStorage_mono (fun ha => hk.types ha) hst⟩
  · obtain ⟨v, hv⟩ := h.read (hop ▸ hr)
    rw [hv] at hlen
    exact List.length_eq_one_iff.1 hlen
  · obtain ⟨type, htype, hval⟩ := h.value (hop ▸ hc) (hnil.1 hbare) v (hres ▸ hv)
    exact ⟨type, hk.type? htype, TypeTable.isValue_mono hval hk.extends⟩

/-- Whether a node can stand anywhere shows in its operation, for every node. -/
def Candid (m : Module) : Prop := ∀ ⦃id n⦄, m.live? id = some n → m.Evident n

theorem Creates.candid (h : m.Creates m' b pos id n types) (hm : m.Candid) (hn : m'.Evident n) :
    m'.Candid := fun j n' hj => by
  obtain ⟨-, rfl⟩ | ⟨-, hj⟩ := h.live_cases hj
  · exact hn
  · exact (hm hj).kept h.kept rfl rfl rfl

theorem Redirects.candid (h : m.Redirects m' (pointAt w x)) (hm : m.Candid) : m'.Candid :=
  fun j n' hj => by
    obtain ⟨n, hn, rfl⟩ := h.live_cases hj
    refine (hm hn).kept h.kept rfl rfl ?_
    simp only [pointAt]
    split
    · exact List.length_set
    · rfl

theorem Moves.candid (h : m.Moves m' b pos id) (hm : m.Candid) : m'.Candid := fun j n' hj => by
  obtain ⟨n, hn, rfl⟩ := h.live_cases hj
  exact (hm hn).kept h.kept rfl rfl rfl

theorem Relabels.candid {name : Option Name → Option Name} {twoState : Bool → Bool}
    (h : m.Relabels m' id name twoState) (hm : m.Candid) : m'.Candid := fun j n' hj => by
  obtain ⟨n, hn, rfl⟩ := h.live_cases hj
  exact (hm hn).kept h.kept rfl rfl rfl

/-- What has operands, and does not stand alone, and has one operand if it is a read. -/
theorem evident_fresh {op : Op} {ops results : List ValueId} {loc : Loc}
    (hop : op.standsAlone = false) (hne : ops ≠ []) (hr : op = .read → ∃ v, ops = [v]) :
    m.Evident (.fresh op ops results b loc) where
  alone h := absurd (hop.symm.trans h) Bool.false_ne_true
  declaration h := absurd (hop.symm.trans (Bool.or_eq_true_iff.2 (Or.inr h))) Bool.false_ne_true
  read := hr
  value _ h := absurd h hne

/-! ## Scope -/

/-- The definition of a value stands in a block or further out. -/
def Sees (m : Module) (v : ValueId) (b : BlockId) : Prop :=
  ∀ d i nd, m.def? v = some (.result d i) → m.live? d = some nd → m.Inside nd.parent b

/-- Every use lies in the block of its definition or further in. -/
def InScope (m : Module) : Prop :=
  ∀ ⦃u v nu⦄, m.Uses u v → m.live? u.node = some nu → m.Sees v nu.parent

theorem Sees.inside {c : BlockId} (h : m.Sees v b) (hc : m.Inside b c) : m.Sees v c :=
  fun d i nd hdef hd => (h d i nd hdef hd).trans hc

/-- What defines a value stays where it is. -/
theorem Sees.of_sameTree (h : m.Sees v b) (ht : m.SameTree m') (hdef : m'.def? v = m.def? v)
    (hlive : ∀ {d i nd}, m.def? v = some (.result d i) → m'.live? d = some nd →
      ∃ n, m.live? d = some n ∧ n.parent = nd.parent) : m'.Sees v b := by
  intro d i nd hv hd
  rw [hdef] at hv
  obtain ⟨n, hn, hp⟩ := hlive hv hd
  exact hp ▸ ht.inside (h d i n hv hn)

theorem Creates.sees {c : BlockId} (h : m.Creates m' b pos id n types) (hv : m.Sees v c)
    (hu : m.Usable v) : m'.Sees v c := by
  refine hv.of_sameTree h.sameTree (h.def?_of_lt (WellFormed.lt_of_usable hu)) fun hdef hd => ?_
  obtain ⟨d₀, hd₀, hlive⟩ := hu
  obtain rfl := Option.some.inj (hd₀.symm.trans hdef)
  obtain ⟨n₀, hn₀⟩ := hlive rfl
  obtain rfl := Option.some.inj ((h.live hn₀).symm.trans hd)
  exact ⟨_, hn₀, rfl⟩

theorem Creates.inScope (h : m.Creates m' b pos id n types) (hw : WellFormed m) (hm : m.InScope)
    (hops : ∀ v ∈ n.operands, m.Usable v ∧ m.Sees v b) : m'.InScope := by
  intro u v nu hu hnu
  rcases h.uses_iff.1 hu with hu | ⟨hid, hv⟩
  · have ⟨n₀, hn₀, _⟩ := hu
    obtain rfl := Option.some.inj ((h.live hn₀).symm.trans hnu)
    exact h.sees (hm hu hn₀) (hw.usable hu)
  · rw [hid, h.live?_self] at hnu
    obtain rfl := Option.some.inj hnu
    obtain ⟨husable, hsees⟩ := hops v (List.mem_of_getElem? hv)
    exact h.parent ▸ h.sees hsees husable

theorem Redirects.sees {f : NodeId → List ValueId → List ValueId} (h : m.Redirects m' f)
    (hv : m.Sees v b) : m'.Sees v b :=
  hv.of_sameTree h.sameTree (h.def? v) fun _ hd => by
    obtain ⟨n, hn, rfl⟩ := h.live_cases hd
    exact ⟨n, hn, rfl⟩

theorem Redirects.inScope (h : m.Redirects m' (pointAt w x)) (hw : m.Uses w y) (hm : m.InScope)
    (hx : ∀ nw, m.live? w.node = some nw → m.Sees x nw.parent) : m'.InScope := by
  intro u v nu hu hnu
  obtain ⟨n₀, hn₀, rfl⟩ := h.live_cases hnu
  show m'.Sees v n₀.parent
  rw [h.uses_pointAt_iff hw] at hu
  split at hu
  · next huw => exact hu ▸ h.sees (hx n₀ (huw ▸ hn₀))
  · exact h.sees (hm hu hn₀)

theorem Relabels.inScope {name : Option Name → Option Name} {twoState : Bool → Bool}
    (h : m.Relabels m' id name twoState) (hm : m.InScope) : m'.InScope := by
  intro u v nu hu hnu
  obtain ⟨n₀, hn₀, rfl⟩ := h.live_cases hnu
  refine (hm (h.uses_iff.1 hu) hn₀).of_sameTree h.sameTree (h.def? v) fun _ hd => ?_
  obtain ⟨n, hn, rfl⟩ := h.live_cases hd
  exact ⟨n, hn, rfl⟩

/-- A node moves to a block where its operands are seen and that is around its users. -/
theorem Moves.inScope (h : m.Moves m' b pos id) (hm : m.InScope) (hn : m.live? id = some n)
    (hr : n.regions = []) (hops : ∀ v ∈ n.operands, m.Sees v b)
    (husers : ∀ {u v i nu}, m.Uses u v → m.def? v = some (.result id i) →
      m.live? u.node = some nu → m.Inside b nu.parent) : m'.InScope := by
  have htree := h.sameTree hn hr
  intro u v nu hu hnu d i nd hdef hd
  rw [h.uses_iff] at hu
  rw [h.def?] at hdef
  obtain ⟨nu₀, hnu₀, rfl⟩ := h.live_cases hnu
  obtain ⟨nd₀, hd₀, rfl⟩ := h.live_cases hd
  refine htree.inside ?_
  -- Either end of the use may be the node that moves.
  by_cases hdid : d = id
  · subst hdid
    by_cases hud : u.node = d
    · simpa [hud] using Inside.self
    · simpa [hud] using husers hu hdef hnu₀
  · by_cases hud : u.node = id
    · have ⟨nu', hnu', hget⟩ := hu
      rw [hud] at hnu'
      obtain rfl := Option.some.inj (hn.symm.trans hnu')
      simpa [hdid, hud] using hops v (List.mem_of_getElem? hget) d i nd₀ hdef hd₀
    · simpa [hdid, hud] using hm hu hnu₀ d i nd₀ hdef hd₀

/-- Moving a node within its block. -/
theorem Moves.inScope_of_parent (h : m.Moves m' b pos id) (hm : m.InScope)
    (hn : m.live? id = some n) (hr : n.regions = []) (hb : n.parent = b) : m'.InScope := by
  subst hb
  refine h.inScope hm hn hr (fun v hv => ?_) fun hu hdef hnu => hm hu hnu id _ n hdef hn
  obtain ⟨k, hk⟩ := exists_uses_of_mem hn hv
  exact hm hk hn

/-! ## Temporaries -/

variable {type : TypeId} {loc : Loc} {us : List Use} {atFront : Bool}

theorem ReadFor.candid (h : ReadFor old storage type loc u read m m') (hm : m.Candid) :
    m'.Candid := by
  obtain ⟨-, -, hc, -, hr, -⟩ := h
  exact hr.candid (hc.candid hm
    (evident_fresh rfl (List.cons_ne_nil _ _) fun _ => ⟨storage, rfl⟩))

theorem ReadsFor.candid (h : ReadsFor old storage type loc us m m') (hm : m.Candid) :
    m'.Candid := by
  induction h with
  | nil => exact hm
  | cons h _ ih => exact ih (h.candid hm)

theorem SpillsResult.candid {name : Option Name} (h : m.SpillsResult id result name atFront m')
    (hm : m.Candid) : m'.Candid := by
  obtain ⟨-, -, -, hdecl, hstype, -, -, -, hreads, hconn, -, hmove⟩ := h
  rename_i n type stype decl conn storage uses m₁ m₂ m₃
  have hst : m₁.type? storage = some stype := hdecl.type?_result (i := 0) rfl
  have hstorage : m₁.types.isStorage stype = .ok true := TypeTable.isStorage_of_elementOf? (by
    simp [TypeTable.elementOf?_eq_some_iff.2 hstype])
  have hm₁ : m₁.Candid := hdecl.candid hm (by
    obtain hops | hops := m.temporaryOps_cases n.parent <;> rw [hops] <;>
      exact ⟨fun _ => rfl, fun _ => ⟨storage, stype, rfl, hst, hstorage⟩, nofun, nofun⟩)
  have hm₃ : m₃.Candid := hconn.candid (hreads.candid hm₁) (by
    obtain hops | hops := m.temporaryOps_cases n.parent <;> rw [hops] <;>
      exact evident_fresh rfl (List.cons_ne_nil _ _) nofun)
  cases atFront with
  | true => exact hmove ▸ hm₃
  | false => exact hmove.1.candid hm₃

theorem SpillsResults.candid {vs : List ValueId} (h : SpillsResults id atFront vs m m')
    (hm : m.Candid) : m'.Candid := by
  induction h with
  | nil => exact hm
  | cons h _ ih => exact ih (h.candid hm)

theorem Spills.candid (h : m.Spills id atFront m') (hm : m.Candid) : m'.Candid := by
  cases h with
  | single _ _ hl _ h => exact h.candid (hl.candid hm)
  | all _ h => exact h.candid hm

/-- A use reads storage that it sees. -/
theorem ReadFor.inScope (h : ReadFor old storage type loc u read m m') (hs : Sound m)
    (hm : m.InScope) (hu : m.Usable storage)
    (hst : ∀ nu, m.live? u.node = some nu → m.Sees storage nu.parent) :
    m'.InScope ∧ ∀ b, m.Sees storage b → m'.Sees storage b := by
  obtain ⟨huse, hnu, hc, hs₁, hr, -⟩ := h
  rename_i nu value m₁
  have hm₁ : m₁.InScope := hc.inScope hs.toWellFormed hm fun v hv => by
    obtain rfl : v = storage := by simpa [Node.fresh] using hv
    exact ⟨hu, hst nu hnu⟩
  refine ⟨hr.inScope (hc.uses_iff.2 (Or.inl huse)) hm₁ fun nw hnw d i nd hdef hd => ?_,
    fun b hb => hr.sees (hc.sees hb hu)⟩
  -- What is read stands beside the user.
  obtain rfl := Option.some.inj ((hc.live hnu).symm.trans hnw)
  have hvalue : m₁.def? value = some (.result read 0) := hc.def?_result rfl
  obtain ⟨rfl, -⟩ : read = d ∧ 0 = i := by simpa using hvalue.symm.trans hdef
  obtain rfl := Option.some.inj (hc.live?_self.symm.trans hd)
  exact .self

theorem ReadsFor.inScope (h : ReadsFor old storage type loc us m m') (hs : Sound m)
    (hm : m.InScope) (hu : m.Usable storage)
    (hst : ∀ u ∈ us, ∃ nu, m.live? u.node = some nu ∧ m.Sees storage nu.parent) :
    m'.InScope ∧ ∀ b, m.Sees storage b → m'.Sees storage b := by
  induction h with
  | nil => exact ⟨hm, fun _ h => h⟩
  | cons h _ ih =>
    obtain ⟨nu, hnu, hsees⟩ := hst _ List.mem_cons_self
    obtain ⟨hm₁, hkeep⟩ := h.inScope hs hm hu fun nu' hnu' =>
      Option.some.inj (hnu.symm.trans hnu') ▸ hsees
    obtain ⟨hm', hrest⟩ := ih h.sound hm₁ (h.usable hu) fun w hw => by
      obtain ⟨nw, hnw, hsees⟩ := hst w (List.mem_cons_of_mem _ hw)
      obtain ⟨ops, hnw₁⟩ := h.live hnw
      exact ⟨_, hnw₁, hkeep _ hsees⟩
    exact ⟨hm', fun b hb => hrest b (hkeep b hb)⟩

theorem SpillsResult.inScope {name : Option Name}
    (h : m.SpillsResult id result name atFront m') (hs : Sound m) (hm : m.InScope) : m'.InScope := by
  obtain ⟨hn, hres, -, hdecl, -, hs₁, huses, -, hreads, hconn, hs₃, hmove⟩ := h
  rename_i n type stype decl conn storage uses m₁ m₂ m₃
  obtain ⟨k, hdef⟩ := hs.toWellFormed.exists_def hn hres
  have hst : m₁.def? storage = some (.result decl 0) := hdecl.def?_result (i := 0) rfl
  have hsees : m₁.Sees storage n.parent := fun d i nd hd hnd => by
    obtain ⟨rfl, -⟩ : decl = d ∧ 0 = i := by simpa using hst.symm.trans hd
    obtain rfl := Option.some.inj (hdecl.live?_self.symm.trans hnd)
    exact .self
  have hm₁ : m₁.InScope := hdecl.inScope hs.toWellFormed hm fun v hv => by cases hv
  have husable : m₁.Usable storage := hdecl.usable_result (i := 0) rfl
  -- Whoever uses the result is further in than the node, and so than the declaration.
  obtain ⟨hm₂, hkeep⟩ := hreads.inScope hs₁ hm₁ husable fun u hu => by
    have hu₁ := (huses u).1 hu
    have ⟨nu, hnu, _⟩ := hu₁
    refine ⟨nu, hnu, hsees.inside ?_⟩
    exact hm₁ hu₁ hnu id k n (hdecl.kept.def? hdef) (hdecl.live hn)
  have hs₂ := hreads.sound hs₁
  obtain ⟨ops, hid₂⟩ := hreads.live (hdecl.live hn)
  have hdef₂ := hreads.kept.def? (hdecl.kept.def? hdef)
  have hm₃ : m₃.InScope := hconn.inScope hs₂.toWellFormed hm₂ fun v hv => by
    obtain rfl | rfl : v = storage ∨ v = result := by simpa [Node.fresh] using hv
    · exact ⟨hreads.usable husable, hkeep _ hsees⟩
    · refine ⟨⟨_, hdef₂, fun he => ⟨_, by cases he; exact hid₂⟩⟩, fun d i nd hd hnd => ?_⟩
      obtain ⟨rfl, -⟩ : id = d ∧ k = i := by simpa using hdef₂.symm.trans hd
      obtain rfl := Option.some.inj (hid₂.symm.trans hnd)
      exact .self
  cases atFront with
  | true => exact hmove ▸ hm₃
  | false =>
    obtain ⟨ops', hdecl₂⟩ := hreads.live hdecl.live?_self
    exact hmove.1.inScope_of_parent hm₃ (hconn.live hdecl₂) rfl rfl

theorem SpillsResults.inScope {vs : List ValueId} (h : SpillsResults id atFront vs m m')
    (hs : Sound m) (hm : m.InScope) : m'.InScope := by
  induction h with
  | nil => exact hm
  | cons h _ ih => exact ih h.sound (h.inScope hs hm)

theorem Spills.inScope (h : m.Spills id atFront m') (hs : Sound m) (hm : m.InScope) :
    m'.InScope := by
  cases h with
  | single _ _ hl hs₁ h => exact h.inScope hs₁ (hl.inScope hm)
  | all _ h => exact h.inScope hs hm

/-- The declarations that a temporary brings stand beside the node. -/
theorem SpillsResult.back {n' : Node} {name : Option Name}
    (h : m.SpillsResult id result name atFront m') (hn : m.live? id = some n) (hj : m'.live? d = some n') :
    (∃ n, m.live? d = some n) ∨ (n'.op.standsAlone = true → n'.parent = n.parent) := by
  obtain ⟨hn₀, -, -, hdecl, -, -, -, -, hreads, hconn, -, hmove⟩ := h
  rename_i n₀ type stype decl conn storage uses m₁ m₂ m₃
  obtain rfl := Option.some.inj (hn.symm.trans hn₀)
  have hconnop : (m.temporaryOps n.parent).2.standsAlone = false := by
    obtain hops | hops := m.temporaryOps_cases n.parent <;> rw [hops] <;> rfl
  have hback₃ : ∀ {n'}, m₃.live? d = some n' →
      (∃ n, m.live? d = some n) ∨ (n'.op.standsAlone = true → n'.parent = n.parent) := by
    intro n' hj
    obtain ⟨-, rfl⟩ | ⟨-, hj⟩ := hconn.live_cases hj
    · exact Or.inr fun hd => absurd (hconnop.symm.trans hd) Bool.false_ne_true
    · obtain ⟨n₁, hn₁⟩ | ⟨hread, -⟩ := hreads.back hj
      · obtain ⟨ops, hn₂⟩ := hreads.live hn₁
        obtain rfl := Option.some.inj (hn₂.symm.trans hj)
        obtain ⟨-, rfl⟩ | ⟨-, hold⟩ := hdecl.live_cases hn₁
        · exact Or.inr fun _ => rfl
        · exact Or.inl ⟨n₁, hold⟩
      · refine Or.inr fun hd => ?_
        rw [hread] at hd
        cases hd
  cases atFront with
  | true => exact hback₃ (hmove ▸ hj)
  | false =>
    obtain ⟨n₃, hn₃, rfl⟩ := hmove.1.live_cases hj
    refine (hback₃ hn₃).imp_right fun hp hd => ?_
    by_cases hdd : d = decl
    · simp [hdd]
    · simpa [hdd] using hp hd

theorem SpillsResults.back {n' : Node} {vs : List ValueId} (h : SpillsResults id atFront vs m m')
    (hn : m.live? id = some n) (hj : m'.live? d = some n') :
    (∃ n, m.live? d = some n) ∨ (n'.op.standsAlone = true → n'.parent = n.parent) := by
  induction h generalizing n with
  | nil => exact Or.inl ⟨_, hj⟩
  | cons h hrest ih =>
    obtain ⟨ops, hn₁⟩ := h.live hn
    obtain ⟨n₁, hd₁⟩ | hp := ih hn₁ hj
    · refine (h.back hn hd₁).imp_right fun hp hd => ?_
      obtain ⟨ops', hd'⟩ := hrest.live hd₁
      obtain rfl := Option.some.inj (hd'.symm.trans hj)
      exact hp hd
    · exact Or.inr hp

theorem Spills.back {n' : Node} (h : m.Spills id atFront m') (hn : m.live? id = some n)
    (hj : m'.live? d = some n') :
    (∃ n, m.live? d = some n) ∨ (n'.op.standsAlone = true → n'.parent = n.parent) := by
  cases h with
  | single _ _ hl _ h =>
    refine (h.back (hl.live hn) hj).imp_left fun ⟨n₁, hn₁⟩ => ?_
    obtain ⟨n₀, hn₀, -⟩ := hl.live_cases hn₁
    exact ⟨n₀, hn₀⟩
  | all hn₀ h => exact h.back hn hj

theorem SpillsResults.uses_iff {vs : List ValueId} (h : SpillsResults id atFront vs m m')
    (hs : Sound m) (hv : m.Usable v) (hne : v ∉ vs) : m'.Uses u v ↔ m.Uses u v := by
  induction h with
  | nil => exact Iff.rfl
  | cons h _ ih =>
    have hd := h.detours hs
    obtain ⟨hhead, htail⟩ := not_or.1 (mt List.mem_cons.2 hne)
    rw [ih h.sound (hd.lessens.usable hv) htail, hd.uses hv hhead]

/-- What other nodes than the one with the temporaries compute is used as before. -/
theorem Spills.uses_iff (h : m.Spills id atFront m') (hs : Sound m) (hn : m.live? id = some n)
    (hv : m.Usable v) (hne : v ∉ n.results) : m'.Uses u v ↔ m.Uses u v := by
  cases h with
  | single hn₀ hres hl hs₁ h =>
    obtain rfl := Option.some.inj (hn.symm.trans hn₀)
    rw [(h.detours hs₁).uses (hl.usable hv) (by simpa [hres] using hne), hl.uses_iff]
  | all hn₀ h =>
    obtain rfl := Option.some.inj (hn.symm.trans hn₀)
    exact h.uses_iff hs hv hne

end Module

end NetPrep
