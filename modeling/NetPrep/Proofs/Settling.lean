import Mathlib
import NetPrep.Proofs.Advancing
import NetPrep.Proofs.Unsharing

/-!
# Settling the operands of new nodes

Settling the operands of new nodes copies and moves what is printed there. Whatever comes out of it
covers what went in: a use may refer to the value of a copy, and the nodes that are not printed at their
uses keep theirs. It comes to an end where what is printed for an operand is finite.
-/

namespace NetPrep

open Prepare

namespace Module

variable {p : Label → Bool} {m m' : Module} {id j k : NodeId} {n nj nk n' : Node} {v w : ValueId}
  {u : Use} {c : BlockId} {ids : List NodeId} {T : NodeId → Prop} {g : NodeId → NodeId}
  {o : ValueId → ValueId}

/-! ## Coverings -/

/-- No node that is printed at its uses defines a value. -/
def Unpasted (p : Label → Bool) (m : Module) (v : ValueId) : Prop :=
  ∀ j n, m.live? j = some n → p (m.label n) = true → v ∉ n.results

theorem unpasted_of_plain (hw : WellFormed m) (hn : m.live? id = some n)
    (hp : p (m.label n) = false) (hv : v ∈ n.results) : m.Unpasted p v := by
  intro j nj hj hpj hmem
  obtain ⟨rfl, rfl⟩ := hw.eq_of_mem_results hn hj hv hmem
  simp [hp] at hpj

/-- No other value stands for a value that is not printed at its uses. -/
theorem Covers.eq_of_unpasted (h : m.Covers p m' g o) (hv : m.Unpasted p (o v)) : o v = v := by
  refine (h.value v).resolve_right fun ⟨j, n', hj, hp, hmem⟩ => ?_
  obtain ⟨n, hn, hlabel, hres, -⟩ := h.node hj
  exact hv _ n hn (hlabel ▸ hp) (hres ▸ List.mem_map_of_mem hmem)

/-- So it is still used where it was. -/
theorem Covers.uses (h : m.Covers p m' g o) (hu : m.Uses u v) (hv : m.Unpasted p v) : m'.Uses u v := by
  obtain ⟨nu, hnu, hslot⟩ := hu
  obtain ⟨n', hn', -, -, hops⟩ := h.exists_live hnu
  rw [← hops, List.getElem?_map, Option.map_eq_some_iff] at hslot
  obtain ⟨w, hw', rfl⟩ := hslot
  exact ⟨n', hn', by rw [h.eq_of_unpasted hv, hw']⟩

/-- A use gets a copy, which stands for its source. -/
theorem InlineStep.exists_covers (h : InlineStep id m m') (hw : WellFormed m) :
    ∃ g o, m.Covers Label.isAlwaysInline m' g o := by
  have hlabel : ∀ {m m' : Module} {n n' : Node}, n'.op = n.op → n'.name = n.name →
      n'.twoState = n.twoState → n'.loc = n.loc → n'.results.map m'.type? = n.results.map m.type? →
      m'.label n' = m.label n := by
    intro m m' n n' h₁ h₂ h₃ h₄ h₅
    simp only [label, h₁, h₂, h₃, h₄, h₅]
  have htypes : ∀ {m₁ : Module} {j : NodeId} {nj : Node}, m.Kept m₁ → m.live? j = some nj →
      nj.results.map m₁.type? = nj.results.map m.type? := fun hk hj =>
    List.map_congr_left fun y hy => hk.type?_eq (hw.usable_of_mem_results hj hy)
  cases h with
  | move hn hop hv _ _ _ hm _ =>
    refine ⟨fun j => j, fun y => y, fun hj => ⟨rfl, _, hm.live hj, rfl⟩, fun hj => ?_,
      fun y => Or.inl rfl⟩
    obtain ⟨nj, hnj, rfl⟩ := hm.live_cases hj
    have htype : nj.results.map m'.type? = nj.results.map m.type? := htypes hm.kept hnj
    exact ⟨nj, hnj, hlabel rfl rfl rfl rfl htype, List.map_id' _, List.map_id' _⟩
  | @clone copyId n nu v copy u type m₁ hn hop hv hu hnu htype hc hs₁ hr hs =>
    have hkept := hc.kept.trans hr.kept
    -- Nothing that was there is the copy.
    have hsame : ∀ {ys : List ValueId}, (∀ y ∈ ys, m.Usable y) →
        ys.map (fun y => if y = copy then v else y) = ys := fun hys => by
      refine (List.map_congr_left fun y hy => if_neg ?_).trans (List.map_id' _)
      rintro rfl
      obtain ⟨d, hd, -⟩ := hys y hy
      have hlt := WellFormed.lt_of_def? hd
      exact absurd (hc.index_result (v := y) (by simp [Node.fresh])) (by omega)
    have hself := hr.live hc.live?_self
    have hcopy : m'.type? copy = m.type? v := by
      rw [hr.type?, hc.type?_result (i := 0) rfl, htype]
      rfl
    refine ⟨fun j => if j = copyId then id else j, fun y => if y = copy then v else y,
      fun hj => ⟨if_neg (hc.ne hj), _, hr.live (hc.live hj), rfl⟩, fun {j n'} hj => ?_, fun y => ?_⟩
    · obtain ⟨n₁, hn₁, rfl⟩ := hr.live_cases hj
      obtain ⟨rfl, rfl⟩ | ⟨hne, hnj⟩ := hc.live_cases hn₁
      · -- The copy is not its own user, so it keeps the operands of its source.
        have hne : j ≠ u.node := (hc.ne hnu).symm
        refine ⟨n, by rw [if_pos rfl, hn], hlabel rfl rfl rfl rfl ?_, ?_, ?_⟩
        · simp [Node.fresh, hv, hcopy]
        · simp [Node.fresh, hv]
        · rw [pointAt, if_neg hne]
          exact hsame fun y hy => hw.usable_operand hn hy
      · have htype : n₁.results.map m'.type? = n₁.results.map m.type? := htypes hkept hnj
        refine ⟨n₁, by rw [if_neg hne, hnj], hlabel rfl rfl rfl rfl htype,
          hsame fun y hy => hw.usable_of_mem_results hnj hy, List.ext_getElem? fun i => ?_⟩
        rw [List.getElem?_map]
        by_cases hself : (⟨j, i⟩ : Use) = u
        · subst hself
          obtain ⟨nu', hnu', hslot⟩ := hu
          obtain rfl := Option.some.inj (hnu'.symm.trans hnj)
          have hget := getElem?_pointAt_self (w := copy) (List.getElem?_eq_some_iff.1 hslot).1
          simp only at hget hslot
          rw [hget, hslot, Option.map_some, if_pos rfl]
        · have hget : (pointAt u copy j n₁.operands)[i]? = n₁.operands[i]? :=
            getElem?_pointAt_of_ne hself
          rw [hget, ← List.getElem?_map, hsame fun y hy => hw.usable_operand hnj hy]
    · by_cases hy : y = copy
      · exact Or.inr ⟨copyId, _, hself, hop, by simp [Node.fresh, hy]⟩
      · exact Or.inl (if_neg hy)

theorem Inlines.exists_covers (h : Inlines T m m') (hs : Sound m) :
    ∃ g o, m.Covers Label.isAlwaysInline m' g o := by
  induction h with
  | refl m => exact ⟨_, _, .refl _ m⟩
  | step _ hstep _ ih =>
    obtain ⟨g, o, hcovers⟩ := hstep.exists_covers hs.toWellFormed
    obtain ⟨g', o', hcovers'⟩ := ih hstep.sound
    exact ⟨_, _, hcovers.trans hcovers'⟩

theorem SettlesOperands.exists_covers (h : SettlesOperands ids m m') (hs : Sound m) :
    ∃ g o, m.Covers Label.isAlwaysInline m' g o := by
  induction h with
  | nil m => exact ⟨_, _, .refl _ m⟩
  | cons _ h _ ih =>
    obtain ⟨g, o, hcovers⟩ := h.inlines.exists_covers hs
    obtain ⟨g', o', hcovers'⟩ := ih (h.inlines.sound hs)
    exact ⟨_, _, hcovers.trans hcovers'⟩

/-- Settling makes nothing but copies. -/
theorem InlineStep.live_cases (h : InlineStep id m m') (hj : m'.live? j = some n') :
    (∃ n, m.live? j = some n) ∨ n'.op.isAlwaysInline = true := by
  cases h with
  | move _ _ _ _ _ _ hm _ =>
    obtain ⟨n, hn, -⟩ := hm.live_cases hj
    exact Or.inl ⟨n, hn⟩
  | clone _ hop _ _ _ _ hc _ hr _ =>
    obtain ⟨n₁, hn₁, rfl⟩ := hr.live_cases hj
    obtain ⟨-, rfl⟩ | ⟨-, hn⟩ := hc.live_cases hn₁
    · exact Or.inr hop
    · exact Or.inl ⟨n₁, hn⟩

theorem Inlines.live_cases (h : Inlines T m m') (hj : m'.live? j = some n') :
    (∃ n, m.live? j = some n) ∨ n'.op.isAlwaysInline = true := by
  induction h with
  | refl => exact Or.inl ⟨n', hj⟩
  | step _ hstep hrest ih =>
    obtain ⟨n₁, hn₁⟩ | hop := ih hj
    · refine (hstep.live_cases hn₁).imp id fun hop => ?_
      obtain ⟨n₂, hn₂, hop₂, -⟩ := hrest.kept.node (core_of_live? hn₁)
      obtain rfl := Option.some.inj (hn₂.symm.trans (core_of_live? hj))
      exact hop₂ ▸ hop
    · exact Or.inr hop

theorem SettlesOperands.live_cases (h : SettlesOperands ids m m') (hj : m'.live? j = some n') :
    (∃ n, m.live? j = some n) ∨ n'.op.isAlwaysInline = true := by
  induction h with
  | nil => exact Or.inl ⟨n', hj⟩
  | cons _ h hrest ih =>
    obtain ⟨n₁, hn₁⟩ | hop := ih hj
    · refine (h.inlines.live_cases hn₁).imp id fun hop => ?_
      obtain ⟨n₂, hn₂, hop₂, -⟩ := hrest.kept.node (core_of_live? hn₁)
      obtain rfl := Option.some.inj (hn₂.symm.trans (core_of_live? hj))
      exact hop₂ ▸ hop
    · exact Or.inr hop

/-! ## Uses that settling leaves alone -/

/-- A value is used neither by a node nor by what is printed inside it. -/
def Shuns (p : Label → Bool) (m : Module) (w : ValueId) (j : NodeId) : Prop :=
  ∀ k nk, Relation.ReflTransGen (m.PastedIn p) k j → m.live? k = some nk → w ∉ nk.operands

/-- What is printed for a value does not use another one. -/
def Avoids (p : Label → Bool) (m : Module) (w v : ValueId) : Prop :=
  ∀ j n, m.live? j = some n → p (m.label n) = true → v ∈ n.results → m.Shuns p w j

/-- Some node that is not printed at its uses defines a value. -/
def Plainly (p : Label → Bool) (m : Module) (w : ValueId) : Prop :=
  ∃ j n, m.live? j = some n ∧ p (m.label n) = false ∧ w ∈ n.results

theorem Plainly.unpasted (h : m.Plainly p w) (hw : WellFormed m) : m.Unpasted p w := by
  obtain ⟨j, n, hn, hp, hmem⟩ := h
  exact unpasted_of_plain hw hn hp hmem

namespace Covers

variable (h : m.Covers p m' g o)

include h

theorem plainly (hw : m.Plainly p w) : m'.Plainly p w := by
  obtain ⟨j, n, hn, hp, hmem⟩ := hw
  obtain ⟨n', hn', hres, hlabel, -⟩ := h.exists_live hn
  exact ⟨j, n', hn', hlabel ▸ hp, hres ▸ hmem⟩

theorem eq_of_plainly (hw' : WellFormed m') (hplain : m.Plainly p w) : o w = w :=
  (h.value w).resolve_right fun ⟨j, n', hj, hp, hmem⟩ =>
    (h.plainly hplain).unpasted hw' j n' hj hp hmem

/-- What stands for a node uses a value that is not printed at its uses only if that node did. -/
theorem shuns (hw' : WellFormed m') (hplain : m.Plainly p w)
    (hj : m.Shuns p w (g j)) : m'.Shuns p w j := by
  intro k nk hchain hk hmem
  obtain ⟨n, hn, -, -, hops⟩ := h.node hk
  refine hj (g k) n (hchain.lift g fun _ _ => h.pastedIn) hn ?_
  rw [← hops, ← h.eq_of_plainly hw' hplain]
  exact List.mem_map_of_mem hmem

theorem avoids (hw' : WellFormed m') (hplain : m.Plainly p w)
    (hv : m.Avoids p w (o v)) : m'.Avoids p w v := by
  intro j n' hj hp hmem
  obtain ⟨n, hn, hlabel, hres, -⟩ := h.node hj
  exact h.shuns hw' hplain (hv _ n hn (hlabel ▸ hp) (hres ▸ List.mem_map_of_mem hmem))

end Covers

/-- Settling a node does not touch the uses of values that it neither defines nor uses. -/
theorem InlineStep.uses_iff_of_not_mem (h : InlineStep id m m') (hw : WellFormed m)
    (hn : m.live? id = some n) (hv : m.Plainly Label.isAlwaysInline v) (hmem : v ∉ n.operands) :
    m'.Uses u v ↔ m.Uses u v := by
  have hunpasted := hv.unpasted hw
  cases h with
  | move _ _ _ _ _ _ hm _ => exact hm.uses_iff
  | @clone copyId n₀ nu x copy u₀ type m₁ hn₀ hop hx hu hnu htype hc hs₁ hr hs =>
    obtain rfl := Option.some.inj (hn.symm.trans hn₀)
    obtain ⟨j, nj, hj, -, hres⟩ := hv
    have hcopy : v ≠ copy := by
      rintro rfl
      exact absurd (hw.lt_of_result (core_of_live? hj) hres)
        (Nat.not_lt.2 (hc.index_result (by simp [Node.fresh])))
    have hne : v ≠ x := by
      rintro rfl
      exact hunpasted id n hn hop (by simp [hx])
    rw [hr.uses_pointAt_iff (hc.uses_iff.2 (Or.inl hu))]
    by_cases huse : u = u₀
    · subst huse
      rw [if_pos rfl]
      refine iff_of_false hcopy fun hu' => hne ?_
      obtain ⟨nu', hnu', hget⟩ := hu
      obtain ⟨nu'', hnu'', hget'⟩ := hu'
      obtain rfl := Option.some.inj (hnu'.symm.trans hnu'')
      exact Option.some.inj (hget'.symm.trans hget)
    · rw [if_neg huse, hc.uses_iff]
      exact or_iff_left fun hget => hmem (List.mem_of_getElem? hget.2)

/-- What must be printed where an operand is used is there. -/
theorem exists_live_of_isInline {i : Nat} (hs : Sound m) (hn : m.live? id = some n)
    (hv : v ∈ n.operands) (hdef : m.def? v = some (.result j i)) (hj : Prep.IsInline m j) :
    ∃ nj, m.live? j = some nj ∧ nj.op.isAlwaysInline = true ∧ v ∈ nj.results := by
  obtain ⟨k, huse⟩ := exists_uses_of_mem hn hv
  obtain ⟨d, hd, hlive⟩ := hs.usable huse
  obtain ⟨nj, hnj⟩ := hlive (Option.some.inj (hd.symm.trans hdef))
  obtain ⟨nc, hnc, hop⟩ := hj
  obtain rfl := Option.some.inj ((core_of_live? hnj).symm.trans hnc)
  obtain ⟨nd, hnd, hget⟩ := hs.definition hdef
  obtain rfl := Option.some.inj (hnc.symm.trans hnd)
  exact ⟨nj, hnj, hop, List.mem_of_getElem? hget⟩

/-- That nothing printed at a node uses a value is so for what is printed inside it, and lasts. -/
theorem spreads_shuns (w : ValueId) : Spreads fun m j => (∃ n, m.live? j = some n) ∧
    m.Plainly Label.isAlwaysInline w ∧ m.Shuns Label.isAlwaysInline w j where
  step {m m' id j} hs _ hstep hj := by
    obtain ⟨⟨n, hn⟩, hplain, hshuns⟩ := hj
    obtain ⟨g, o, hcovers⟩ := hstep.exists_covers hs.toWellFormed
    obtain ⟨hg, n', hn', -⟩ := hcovers.old hn
    exact ⟨⟨n', hn'⟩, hcovers.plainly hplain, hcovers.shuns hstep.sound.toWellFormed hplain
      (hg.symm ▸ hshuns)⟩
  inner {m id j} hs hid hinner := by
    obtain ⟨-, hplain, hshuns⟩ := hid
    obtain ⟨hin, n, hn, hop, v, hv, i, hdef⟩ := hinner
    obtain ⟨nj, hnj, hopj, hres⟩ := exists_live_of_isInline hs hn hv hdef hin
    have hpasted : m.PastedIn Label.isAlwaysInline j id := ⟨nj, n, v, ⟨hnj, hopj⟩, ⟨hn, hop⟩, hres, hv⟩
    exact ⟨⟨nj, hnj⟩, hplain, fun k nk hk => hshuns k nk (hk.tail hpasted)⟩

theorem InlinesBy.uses_iff (h : InlinesBy (fun m j => (∃ n, m.live? j = some n) ∧
    m.Plainly Label.isAlwaysInline w ∧ m.Shuns Label.isAlwaysInline w j) m m') (hs : Sound m) :
    m'.Uses u w ↔ m.Uses u w := by
  induction h with
  | refl => exact Iff.rfl
  | step hid hstep _ ih =>
    obtain ⟨⟨n, hn⟩, hplain, hshuns⟩ := hid
    exact (ih hstep.sound).trans
      (hstep.uses_iff_of_not_mem hs.toWellFormed hn hplain (hshuns _ n .refl hn))

/-- Settling operands does not touch the uses of a value that is not used in what is printed for them. -/
theorem SettlesOperands.uses_iff (h : SettlesOperands ids m m') (hs : Sound m)
    (hplain : m.Plainly Label.isAlwaysInline w) (hids : ∀ j ∈ ids, ∃ n, m.live? j = some n ∧
      ∀ v ∈ n.operands, m.Avoids Label.isAlwaysInline w v) : m'.Uses u w ↔ m.Uses u w := by
  induction h with
  | nil => exact Iff.rfl
  | @cons id n ids m m₁ m' hn h _ ih =>
    have hall := h.inlines
    have hs₁ := hall.sound hs
    obtain ⟨g, o, hcovers⟩ := hall.exists_covers hs
    refine (ih hs₁ (hcovers.plainly hplain) fun j hj => ?_).trans ?_
    · obtain ⟨nj, hnj, hops⟩ := hids j (List.mem_cons_of_mem _ hj)
      obtain ⟨n₁, hn₁, -, -, hops₁⟩ := hcovers.exists_live hnj
      exact ⟨n₁, hn₁, fun v hv => hcovers.avoids hs₁.toWellFormed hplain
        (hops _ (hops₁ ▸ List.mem_map_of_mem hv))⟩
    · obtain ⟨n₀, hn₀, hops⟩ := hids id List.mem_cons_self
      obtain rfl := Option.some.inj (hn.symm.trans hn₀)
      refine (h.inlinesBy (spreads_shuns w) hs fun j hj => ?_).uses_iff hs
      obtain ⟨hin, v, hv, i, hdef⟩ := hj
      obtain ⟨nj, hnj, hop, hres⟩ := exists_live_of_isInline hs hn hv hdef hin
      exact ⟨⟨nj, hnj⟩, hplain, hops v hv j nj hnj hop hres⟩

/-! ## Finite depth -/

/-- What is printed for a value has some depth. -/
def Shallow (p : Label → Bool) (m : Module) (v : ValueId) : Prop :=
  ∃ r, ∀ j n, m.live? j = some n → p (m.label n) = true → v ∈ n.results → m.Below p r j

/-- The operands of a node that is there are of finite depth. -/
def ShallowNode (p : Label → Bool) (m : Module) (j : NodeId) : Prop :=
  ∃ n, m.live? j = some n ∧ ∀ v ∈ n.operands, m.Shallow p v

namespace Covers

variable (h : m.Covers p m' g o)

include h

theorem shallow (hv : m.Shallow p (o v)) : m'.Shallow p v := by
  obtain ⟨r, hr⟩ := hv
  refine ⟨r, fun j n' hj hp hmem => ?_⟩
  obtain ⟨n, hn, hlabel, hres, -⟩ := h.node hj
  exact h.below (hr _ n hn (hlabel ▸ hp) (hres ▸ List.mem_map_of_mem hmem))

theorem shallowNode (hj : m.ShallowNode p j) : m'.ShallowNode p j := by
  obtain ⟨n, hn, hops⟩ := hj
  obtain ⟨n', hn', -, -, hmap⟩ := h.exists_live hn
  exact ⟨n', hn', fun v hv => h.shallow (hops _ (hmap ▸ List.mem_map_of_mem hv))⟩

theorem singlePasted (hsingle : m.SinglePasted p) : m'.SinglePasted p := by
  intro j n' hj hp
  obtain ⟨n, hn, hlabel, hres, -⟩ := h.node hj
  obtain ⟨v, hv⟩ := hsingle hn (hlabel ▸ hp)
  obtain ⟨w, hw, -⟩ := List.map_eq_singleton_iff.1 (hres.trans hv)
  exact ⟨w, hw⟩

end Covers

/-- A value is ready to be settled: the node that defines it, if it must be printed at each of its uses,
is used, and what is printed for it has some depth. -/
structure Ready (p : Label → Bool) (m : Module) (v : ValueId) : Prop where
  usable : m.Usable v
  held : ∀ {j i}, m.def? v = some (.result j i) → m.Pasted p j → m.Held p j ∧ ∃ r, m.Below p r j

/-- The operands of a node are ready, if they are of finite depth. -/
theorem ready_of_mem (hw : WellFormed m) (hsingle : m.SinglePasted p) (hj : m.live? j = some nj)
    (hv : v ∈ nj.operands) (hshallow : m.Shallow p v) : m.Ready p v where
  usable := hw.usable_operand hj hv
  held {k i} hdef hk := by
    obtain ⟨nk, hnk, hp⟩ := hk
    obtain ⟨nk', hnk', hget⟩ := hw.definition hdef
    obtain rfl := Option.some.inj ((core_of_live? hnk).symm.trans hnk')
    obtain ⟨w, hres⟩ := hsingle hnk hp
    obtain rfl : v = w := by simpa [hres] using List.mem_of_getElem? hget
    obtain ⟨q, hq⟩ := exists_uses_of_mem hj hv
    obtain ⟨r, hr⟩ := hshallow
    exact ⟨⟨nk, v, ⟨j, q⟩, hnk, hp, hres, hq⟩, r, hr k nk hnk hp (List.mem_of_getElem? hget)⟩

namespace Unshares

variable (h : Unshares p m m') (hs : Sound m)

include h

theorem kept : m.Kept m' := by
  induction h with
  | refl => exact .refl _
  | step h _ _ ih => exact h.kept.trans ih

include hs

theorem held (hj : m.Held p j) : m'.Held p j := by
  induction h with
  | refl => exact hj
  | step h _ _ ih => exact ih h.sound (h.held hs.toWellFormed hj)

theorem ready (hv : m.Ready p v) : m'.Ready p v := by
  obtain ⟨d, hd, hlive⟩ := hv.usable
  obtain ⟨g, o, hcovers⟩ := h.exists_covers hs
  refine ⟨hv.usable.mono h.kept fun hj => ?_, fun {j i} hdef hj => ?_⟩
  · obtain ⟨n', hn', -⟩ := hcovers.exists_live hj
    exact ⟨n', hn'⟩
  · obtain rfl := Option.some.inj ((h.kept.def? hd).symm.trans hdef)
    obtain ⟨n, hn⟩ := hlive rfl
    obtain ⟨n', hn', -, hlabel, -⟩ := hcovers.exists_live hn
    obtain ⟨nj, hnj, hp⟩ := hj
    obtain rfl := Option.some.inj (hn'.symm.trans hnj)
    obtain ⟨hheld, r, hr⟩ := hv.held hd ⟨n, hn, hlabel ▸ hp⟩
    exact ⟨h.held hs hheld, r, h.keeps_below hs hn hr⟩

end Unshares

end Module

namespace Prep

variable {p : Label → Bool} {s : State} {id : NodeId} {n : Node} {v : ValueId}

/-! ## Settling ends -/

/-- Where there is no room once some copies are made, there is none for all of them. -/
theorem Crowds.of_unshares {m m' : Module} (h : m.Unshares p m') (hcrowds : Crowds p m') :
    Crowds p m := by
  obtain ⟨m'', h', hfits⟩ := hcrowds
  exact ⟨m'', h.trans h', hfits⟩

/-- A node that is used and of finite depth is settled. -/
theorem inlineEverywhere_ends {r : Nat} (hs : Sound s.module) (hsingle : s.module.SinglePasted p)
    (hheld : s.module.Held p id) (hr : s.module.Below p r id) :
    Ends p (fun _ => inlineEverywhere id) s (fun _ s' => s.module.Unshares p s'.module)
      (Crowds p s.module) := by
  obtain ⟨n, v, u, hn, hp, hv, hu⟩ := hheld
  have hstage := stage_of_uses hs hsingle hn hp (by simp [hv]) hu
  have hdepth : ∀ k ∈ [id], s.module.Below p r k := fun k hk => List.mem_singleton.1 hk ▸ hr
  simp only [inlineEverywhere]
  refine .fuel (settleAllInline_ends (W := []) hstage hdepth ?_)
  intro s' T' _ hunshares _
  simp only [settleAllInline]
  exact .pure hunshares

/-- Values that are ready are settled one after another. -/
theorem settleValues_ends {vs : List ValueId} (hs : Sound s.module)
    (hsingle : s.module.SinglePasted p) (hvs : ∀ v ∈ vs, s.module.Ready p v) :
    Ends p (fun _ => vs.forM fun v => do
      match ← query (·.definingNode? v) with
      | some operand => if ← isAlwaysInline operand then inlineEverywhere operand
      | none => pure ()) s (fun _ s' => s.module.Unshares p s'.module) (Crowds p s.module) := by
  induction vs generalizing s with
  | nil => exact .pure (.refl _)
  | cons v vs ih =>
    have hv := hvs v List.mem_cons_self
    have hfirst : Ends p (fun _ => do
        match ← query (·.definingNode? v) with
        | some operand => if ← isAlwaysInline operand then inlineEverywhere operand
        | none => pure ()) s (fun _ s' => s.module.Unshares p s'.module) (Crowds p s.module) := by
      obtain ⟨d, hd, hlive⟩ := hv.usable
      cases d with
      | port i => exact .query (Module.definingNode?_eq_none_iff.2 ⟨i, hd⟩) (.pure (.refl _))
      | result j i =>
        refine .query (Module.definingNode?_eq_some_iff.2 ⟨i, hd⟩) ?_
        obtain ⟨n, hn⟩ := hlive rfl
        obtain ⟨nd, hnd, -, rfl⟩ := Module.exists_of_live? hn
        refine .step (fun env hp => runs_isAlwaysInline.2 ⟨hp hnd, rfl⟩) ?_
        cases hp : p (s.module.label nd) with
        | false => exact .pure (.refl _)
        | true =>
          obtain ⟨hheld, r, hr⟩ := hv.held hd ⟨_, hn, hp⟩
          exact inlineEverywhere_ends hs hsingle hheld hr
    refine hfirst.bind fun _ s₁ h₁ => ?_
    obtain ⟨g, o, hcovers⟩ := h₁.exists_covers hs
    have hrest := ih (h₁.sound hs) (hcovers.singlePasted hsingle) fun w hw =>
      h₁.ready hs (hvs w (List.mem_cons_of_mem _ hw))
    exact (hrest.mono fun _ _ h => h₁.trans h).relax (.of_unshares h₁)

theorem inlineOperands_ends (hs : Sound s.module) (hsingle : s.module.SinglePasted p)
    (hid : s.module.ShallowNode p id) :
    Ends p (fun _ => inlineOperands id) s (fun _ s' => s.module.Unshares p s'.module)
      (Crowds p s.module) := by
  obtain ⟨n, hn, hops⟩ := hid
  obtain ⟨nd, hnd, -, rfl⟩ := Module.exists_of_live? hn
  simp only [inlineOperands]
  refine .step (fun _ _ => runs_node.2 ⟨hnd, rfl⟩) (settleValues_ends hs hsingle fun v hv => ?_)
  exact Module.ready_of_mem hs.toWellFormed hsingle hn hv (hops v hv)

/-- So are the operands of several nodes. -/
theorem settleOperands_ends {ids : List NodeId} (hs : Sound s.module)
    (hsingle : s.module.SinglePasted p) (hids : ∀ j ∈ ids, s.module.ShallowNode p j) :
    Ends p (fun _ => ids.forM inlineOperands) s (fun _ s' => s.module.Unshares p s'.module)
      (Crowds p s.module) := by
  induction ids generalizing s with
  | nil => exact .pure (.refl _)
  | cons id ids ih =>
    refine (inlineOperands_ends hs hsingle (hids id List.mem_cons_self)).bind fun _ s₁ h₁ => ?_
    obtain ⟨g, o, hcovers⟩ := h₁.exists_covers hs
    have hrest := ih (h₁.sound hs) (hcovers.singlePasted hsingle) fun j hj =>
      hcovers.shallowNode (hids j (List.mem_cons_of_mem _ hj))
    exact (hrest.mono fun _ _ h => h₁.trans h).relax (.of_unshares h₁)

end Prep

end NetPrep
