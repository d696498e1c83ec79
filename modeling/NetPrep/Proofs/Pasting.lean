import Mathlib
import NetPrep.Proofs.Crowding
import NetPrep.Proofs.Ending
import NetPrep.Proofs.Exempting
import NetPrep.Proofs.Frame
import NetPrep.Proofs.Terms

/-!
# Putting a node before its user

A node that must be printed at each of its uses is put right before a user: a copy of it if there are
other users, and the node itself otherwise. `Module.Puts` says of both what changes and what stays.
-/

namespace NetPrep

namespace Module

variable {p : Label → Bool} {m m' : Module} {id x j k : NodeId} {n nj n' : Node} {v w y : ValueId}
  {u q : Use} {b c : BlockId}

/-- A node that must be printed at each of its uses. -/
def Pasted (p : Label → Bool) (m : Module) (j : NodeId) : Prop :=
  ∃ n, m.live? j = some n ∧ p (m.label n) = true

/-- A node defines an operand of another one, and both must be printed at each of their uses. -/
def PastedIn (p : Label → Bool) (m : Module) (j k : NodeId) : Prop :=
  ∃ n nk v, (m.live? j = some n ∧ p (m.label n) = true) ∧
    (m.live? k = some nk ∧ p (m.label nk) = true) ∧ v ∈ n.results ∧ v ∈ nk.operands

/-- A node that must be printed at each of its uses has one use, and stands in the block of its user,
before it, with only such nodes between the two. -/
def BesideUser (p : Label → Bool) (m : Module) (j : NodeId) : Prop :=
  ∃ n v u nu, m.live? j = some n ∧ p (m.label n) = true ∧ n.results = [v] ∧ m.OnlyUse v u ∧
    m.live? u.node = some nu ∧ nu.parent = n.parent ∧ Precedes (m.nodesOf n.parent) j u.node ∧
    ∀ k, Precedes (m.nodesOf n.parent) j k → Precedes (m.nodesOf n.parent) k u.node → m.Pasted p k

/-- The node `x` with the result `w` is put before the user of a value of the node `id`, which then
refers to `w`: the node itself if there is no other use, and a copy of it otherwise. -/
structure Puts (m m' : Module) (id : NodeId) (n : Node) (v : ValueId) (u : Use) (b : BlockId)
    (x : NodeId) (w : ValueId) : Prop where
  sound : Sound m'
  kept : m.Kept m'
  source : m.live? id = some n
  results : n.results = [v]
  apart : v ∉ n.operands
  slot : m.Uses u v
  user : ∃ nu, m.live? u.node = some nu ∧ nu.parent = b
  node : (x = id ∧ w = v ∧ m.OnlyUse v u) ∨
    (m.live? x = none ∧ m.def? w = none ∧ ∃ q, q ≠ u ∧ m.Uses q v)
  live? : ∀ j, m'.live? j = if j = x then some { n with results := [w], parent := b } else
    (m.live? j).map fun nj => { nj with operands := pointAt u w j nj.operands }
  type? : m'.type? w = m.type? v
  nodes_size : m'.nodes.size = m.nodes.size + if x = id then 0 else 1
  nodesOf : ∀ c, m'.nodesOf c = if c = b then insertBefore u.node x ((m.nodesOf c).erase x) else
    (m.nodesOf c).erase x

end Module

/-- A node with a result owns no blocks. -/
theorem Nested.regions_of_results {m : Module} {id : NodeId} {n : Node} {v : ValueId} (h : Nested m)
    (hn : m.live? id = some n) (hv : n.results = [v]) : n.regions = [] := by
  by_contra hne
  exact List.cons_ne_nil v [] (hv.symm.trans (h.owner hn hne))

namespace Sound

variable {m m' m₁ m₂ : Module} {id x : NodeId} {n nu : Node} {v w : ValueId} {u : Use} {type : TypeId}

/-- A copy that was made can take the place of the value at one of several uses. -/
theorem exists_puts_of_clone (hs : Sound m) (hn : m.live? id = some n) (hv : n.results = [v])
    (hapart : v ∉ n.operands) (hu : m.Uses u v) (hagain : ∃ q, q ≠ u ∧ m.Uses q v)
    (hnu : m.live? u.node = some nu) (hclone : m.cloneNode id (.before u.node) = .ok (x, m₁)) :
    ∃ w m₂, m₁.result x 0 = .ok w ∧ m₁.setOperand u.node u.operand w = .ok m₂ ∧
      m.Puts m₂ id n v u nu.parent x w := by
  have hregions := hs.regions_of_results hn hv
  obtain ⟨copy, type, htype, hc, hs₁⟩ := hs.cloneNode hn hv hregions (hs.in_before hnu)
    (hs.placed hnu) hclone
  have hcopy : m₁.result x 0 = .ok copy := by
    obtain ⟨nd, hnd, -, hcore⟩ := Module.exists_of_live? hc.live?_self
    have hres : nd.results = [copy] := congrArg Node.results hcore
    exact Prep.result_eq_ok_iff.2 ⟨nd, hnd, by rw [hres]; rfl⟩
  have husable : m₁.Usable copy := hc.usable_result (i := 0) rfl
  obtain ⟨m₂, hset⟩ := hs₁.exists_setOperand (hc.uses_iff.2 (Or.inl hu)) husable
  refine ⟨copy, m₂, hcopy, hset, ?_⟩
  have hfresh : m.live? x = none := Module.live?_eq_none_of_fresh (by rw [hc.fresh])
  obtain ⟨-, hr, hs₂⟩ := hs₁.setOperand (hc.live hnu) husable hset
  have hself : { Node.fresh n.op n.operands [copy] nu.parent n.loc with
      name := n.name, twoState := n.twoState } = { n with results := [copy], parent := nu.parent } := by
    obtain ⟨nd, -, he, rfl⟩ := Module.exists_of_live? hn
    simp only [Node.core] at hregions ⊢
    simp only [Node.fresh, hregions, he]
  have hxu : x ≠ u.node := fun he => by simp [he, hnu] at hfresh
  refine ⟨hs₂, hc.kept.trans hr.kept, hn, hv, hapart, hu, ⟨nu, hnu, rfl⟩, Or.inr ⟨hfresh, ?_, hagain⟩,
    fun j => ?_, ?_, ?_, fun c => ?_⟩
  · have hlt : m.values.size ≤ copy.index := hc.index_result (v := copy) List.mem_cons_self
    refine Option.eq_none_iff_forall_not_mem.2 fun d hd => ?_
    exact absurd (WellFormed.lt_of_def? hd) (by omega)
  · rw [hr.live?]
    by_cases hj : j = x
    · subst hj
      rw [if_pos rfl, hc.live?_self, hself, Option.map_some, pointAt, if_neg hxu]
    · rw [if_neg hj, hc.live?_of_ne hj]
  · rw [hr.type?, hc.type?_result (i := 0) rfl, htype]
    rfl
  · rw [if_neg fun he => by simp [he, hn] at hfresh, Module.nodes_size_of_setOperand hset,
      Module.nodes_size_of_cloneNode hclone]
  · have hnot : ∀ c, x ∉ m.nodesOf c := fun c hmem => by
      obtain ⟨nx, hnx, -⟩ := hs.mem_nodesOf_iff.1 hmem
      simp [hfresh] at hnx
    rw [hr.nodesOf, hc.nodesOf, List.erase_of_not_mem (hnot c)]
    split
    · next he => rw [he]; rfl
    · rfl

/-- The node is moved before its only user. -/
theorem puts_of_move (hs : Sound m) (hn : m.live? id = some n) (hv : n.results = [v])
    (hapart : v ∉ n.operands) (honly : m.OnlyUse v u) (hnu : m.live? u.node = some nu)
    (hmove : m.moveNode id (.before u.node) = .ok m') : m.Puts m' id n v u nu.parent id v := by
  have hregions := hs.regions_of_results hn hv
  have hu : m.Uses u v := (honly u).2 rfl
  have hne : u.node ≠ id := fun he => by
    obtain ⟨n', hn', hslot⟩ := hu
    rw [he, hn] at hn'
    obtain rfl := Option.some.inj hn'
    exact hapart (List.mem_of_getElem? hslot)
  obtain ⟨hm, hs'⟩ := hs.moveNode hn hregions (hs.in_before hnu) (hs.placed hnu)
    (by simp [hne]) (by simp) hmove
  refine ⟨hs', hm.kept, hn, hv, hapart, hu, ⟨nu, hnu, rfl⟩, Or.inl ⟨rfl, rfl, honly⟩, fun j => ?_,
    hm.type? v, ?_, fun c => ?_⟩
  · rw [hm.live?]
    by_cases hj : j = id
    · subst hj
      rw [if_pos rfl, hn, Option.map_some, if_pos rfl, ← hv]
    · rw [if_neg hj]
      refine Option.map_congr fun nj hnj => ?_
      rw [if_neg hj, pointAt]
      split
      · next he =>
        -- The operand already is the value.
        subst he
        obtain ⟨nj', hnj', hslot⟩ := hu
        obtain rfl := Option.some.inj (hnj'.symm.trans hnj)
        obtain ⟨hi, hget⟩ := List.getElem?_eq_some_iff.1 hslot
        rw [← hget, List.set_getElem_self]
      · rfl
  · rw [if_pos rfl, Module.nodes_size_of_moveNode hmove, Nat.add_zero]
  · rw [hm.nodesOf]
    split
    · next he => rw [he]; rfl
    · rfl

end Sound

namespace Module

theorem getElem?_pointAt_self {u : Use} {w : ValueId} {ops : List ValueId}
    (hlt : u.operand < ops.length) : (pointAt u w u.node ops)[u.operand]? = some w := by
  rw [pointAt, if_pos rfl, List.getElem?_set_self hlt]

theorem getElem?_pointAt_of_ne {u q : Use} {w : ValueId} {ops : List ValueId} (hq : q ≠ u) :
    (pointAt u w q.node ops)[q.operand]? = ops[q.operand]? := by
  unfold pointAt
  split
  · next he => exact List.getElem?_set_ne fun ho => hq (by cases q; cases u; simp_all)
  · rfl

theorem Kept.type?_eq {m m' : Module} {v : ValueId} (h : m.Kept m') (hv : m.Usable v) :
    m'.type? v = m.type? v := by
  obtain ⟨d, hd, -⟩ := hv
  obtain ⟨value, hvalue, -⟩ := Option.map_eq_some_iff.1 hd
  have htype : m.type? v = some value.type := by rw [Module.type?, hvalue, Option.map_some]
  exact (h.type? htype).trans htype.symm

end Module

namespace Module.Puts

variable {p : Label → Bool} {m m' : Module} {id x j k : NodeId} {n nj n' : Node} {v w y : ValueId}
  {u q : Use} {b c : BlockId}

section

variable (h : m.Puts m' id n v u b x w)

include h

theorem live?_self : m'.live? x = some { n with results := [w], parent := b } := by
  rw [h.live?, if_pos rfl]

theorem live (hj : m.live? j = some nj) (hne : j ≠ x) :
    m'.live? j = some { nj with operands := pointAt u w j nj.operands } := by
  rw [h.live?, if_neg hne, hj, Option.map_some]

theorem live_cases (hj : m'.live? j = some n') :
    (j = x ∧ n' = { n with results := [w], parent := b }) ∨
      j ≠ x ∧ ∃ nj, m.live? j = some nj ∧ n' = { nj with operands := pointAt u w j nj.operands } := by
  rw [h.live?] at hj
  split at hj
  · next he => exact Or.inl ⟨he, (Option.some.inj hj).symm⟩
  · next he =>
    obtain ⟨nj, hnj, rfl⟩ := Option.map_eq_some_iff.1 hj
    exact Or.inr ⟨he, nj, hnj, rfl⟩

/-- The node that is put somewhere is the source, unless it is new. -/
theorem eq_of_live (hx : m.live? x = some n') : x = id ∧ w = v ∧ m.OnlyUse v u := by
  obtain hself | ⟨hfresh, -⟩ := h.node
  · exact hself
  · simp [hx] at hfresh

theorem eq_of_usable (hw : m.Usable w) : x = id ∧ w = v ∧ m.OnlyUse v u := by
  obtain hself | ⟨-, hfresh, -⟩ := h.node
  · exact hself
  · obtain ⟨d, hd, -⟩ := hw
    simp [hd] at hfresh

theorem ne_user (hx : u.node = x) : False := by
  obtain ⟨nu, hnu, hslot⟩ := h.slot
  obtain ⟨rfl, -, -⟩ := h.eq_of_live (hx ▸ hnu)
  obtain rfl := Option.some.inj (h.source.symm.trans (hx ▸ hnu))
  exact h.apart (List.mem_of_getElem? hslot)

/-- A use refers to what it referred to before, except for the use that now refers to the new value; and
what is put before the user has the operands of the source. -/
theorem uses_iff : m'.Uses q y ↔ (q = u ∧ y = w) ∨
    (q ≠ u ∧ (m.Uses q y ∨ (q.node = x ∧ n.operands[q.operand]? = some y))) := by
  constructor
  · rintro ⟨n', hn', hget⟩
    obtain ⟨hx, rfl⟩ | ⟨-, nj, hnj, rfl⟩ := h.live_cases hn'
    · exact Or.inr ⟨fun hq => h.ne_user (hq ▸ hx), Or.inr ⟨hx, hget⟩⟩
    · by_cases hq : q = u
      · subst hq
        obtain ⟨nu, hnu, hslot⟩ := h.slot
        obtain rfl := Option.some.inj (hnu.symm.trans hnj)
        replace hget := getElem?_pointAt_self (List.getElem?_eq_some_iff.1 hslot).1 ▸ hget
        exact Or.inl ⟨rfl, (Option.some.inj hget).symm⟩
      · replace hget := getElem?_pointAt_of_ne hq ▸ hget
        exact Or.inr ⟨hq, Or.inl ⟨nj, hnj, hget⟩⟩
  · rintro (⟨rfl, rfl⟩ | ⟨hq, ⟨nj, hnj, hget⟩ | ⟨hx, hget⟩⟩)
    · obtain ⟨nu, hnu, hslot⟩ := h.slot
      exact ⟨_, h.live hnu h.ne_user, getElem?_pointAt_self (List.getElem?_eq_some_iff.1 hslot).1⟩
    · by_cases hx : q.node = x
      · obtain ⟨rfl, -, -⟩ := h.eq_of_live (hx ▸ hnj)
        obtain rfl := Option.some.inj (h.source.symm.trans (hx ▸ hnj))
        exact ⟨_, (congrArg _ hx).trans h.live?_self, hget⟩
      · exact ⟨_, h.live hnj hx, (getElem?_pointAt_of_ne hq).trans hget⟩
    · exact ⟨_, (congrArg _ hx).trans h.live?_self, hget⟩

theorem uses_of_ne (hq : q ≠ u) (hy : m.Uses q y) : m'.Uses q y :=
  h.uses_iff.2 (Or.inr ⟨hq, Or.inl hy⟩)

/-- What is put before the user has no other use. -/
theorem onlyUse (hw : WellFormed m) : m'.OnlyUse w u := by
  refine fun q => ⟨fun hq => ?_, fun hq => h.uses_iff.2 (Or.inl ⟨hq, rfl⟩)⟩
  obtain ⟨hq, -⟩ | ⟨-, hq | ⟨-, hget⟩⟩ := h.uses_iff.1 hq
  · exact hq
  · obtain ⟨-, rfl, honly⟩ := h.eq_of_usable (hw.usable hq)
    exact (honly q).1 hq
  · have hmem : w ∈ n.operands := List.mem_of_getElem? hget
    obtain ⟨-, rfl, -⟩ := h.eq_of_usable (hw.usable_operand h.source hmem)
    exact absurd hmem h.apart

/-- A value that no operand of the source refers to, other than the value itself, keeps its uses. -/
theorem uses_iff_of_not_mem (hy : m.Usable y) (hne : y ≠ v) (hmem : y ∉ n.operands) :
    m'.Uses q y ↔ m.Uses q y := by
  refine ⟨fun hq => ?_, fun hq => h.uses_of_ne ?_ hq⟩
  · obtain ⟨-, rfl⟩ | ⟨-, hq | ⟨-, hget⟩⟩ := h.uses_iff.1 hq
    · exact absurd (h.eq_of_usable hy).2.1 hne
    · exact hq
    · exact absurd (List.mem_of_getElem? hget) hmem
  · rintro rfl
    exact hne (hq.unique h.slot)

/-- A copy takes one use from its source. -/
theorem uses_source_iff (hw : WellFormed m) (hx : x ≠ id) : m'.Uses q v ↔ q ≠ u ∧ m.Uses q v := by
  refine ⟨fun hq => ?_, fun ⟨hne, hq⟩ => h.uses_of_ne hne hq⟩
  obtain ⟨-, rfl⟩ | ⟨hne, hq | ⟨-, hget⟩⟩ := h.uses_iff.1 hq
  · exact absurd (h.eq_of_usable (hw.usable h.slot)).1 hx
  · exact ⟨hne, hq⟩
  · exact absurd (List.mem_of_getElem? hget) h.apart

/-- A copy takes the use that is first in line. -/
theorem exists_uses_of_cons (hw : WellFormed m) (hx : x ≠ id) {value : Value} {us : List Use}
    (hvalue : m.value? v = some value) (huses : value.uses = u :: us) :
    ∃ value', m'.value? v = some value' ∧ value'.uses.length = us.length := by
  obtain ⟨d, hd, -⟩ := hw.usable h.slot
  obtain ⟨value', hvalue', -⟩ := Option.map_eq_some_iff.1 (h.kept.def? hd)
  have hnodup : (u :: us).Nodup := huses ▸ hw.uses_nodup hvalue
  refine ⟨value', hvalue', List.Perm.length_eq ?_⟩
  rw [List.perm_ext_iff_of_nodup (h.sound.uses_nodup hvalue') hnodup.of_cons]
  intro q
  rw [h.sound.mem_uses hvalue', h.uses_source_iff hw hx, ← hw.mem_uses hvalue, huses, List.mem_cons]
  constructor
  · rintro ⟨hne, hq⟩
    exact hq.resolve_left hne
  · exact fun hq => ⟨fun he => (List.nodup_cons.1 hnodup).1 (he ▸ hq), Or.inr hq⟩

/-- A node that is there keeps its result and whatever else a copy of it would have. -/
theorem exists_live (hw : WellFormed m) (hj : m.live? j = some nj) : ∃ n', m'.live? j = some n' ∧
    n'.results = nj.results ∧ m'.label n' = m.label nj ∧ (j ≠ x → n'.parent = nj.parent) := by
  have htypes : nj.results.map m'.type? = nj.results.map m.type? :=
    List.map_congr_left fun y hy => h.kept.type?_eq (hw.usable_of_mem_results hj hy)
  by_cases hne : j = x
  · subst hne
    obtain ⟨rfl, rfl, -⟩ := h.eq_of_live hj
    obtain rfl := Option.some.inj (h.source.symm.trans hj)
    refine ⟨_, h.live?_self, h.results.symm, ?_, fun hne => absurd rfl hne⟩
    rw [← h.results]
    simp only [label, htypes]
  · refine ⟨_, h.live hj hne, rfl, ?_, fun _ => rfl⟩
    simp only [label, htypes]

theorem label_self : m'.label { n with results := [w], parent := b } = m.label n := by
  simp only [label, h.results, List.map_cons, List.map_nil, h.type?]

/-! ### What is printed where it is used -/

theorem pasted (hw : WellFormed m) (hj : m.Pasted p j) : m'.Pasted p j := by
  obtain ⟨nj, hnj, hp⟩ := hj
  obtain ⟨n', hn', -, hlabel, -⟩ := h.exists_live hw hnj
  exact ⟨n', hn', hlabel ▸ hp⟩

theorem pasted_self (hp : p (m.label n) = true) : m'.Pasted p x :=
  ⟨_, h.live?_self, h.label_self ▸ hp⟩

theorem ne_of_plain (hj : m.live? j = some nj) (hpj : p (m.label nj) = false)
    (hp : p (m.label n) = true) : j ≠ x := by
  rintro rfl
  obtain ⟨rfl, -⟩ := h.eq_of_live hj
  rw [Option.some.inj (h.source.symm.trans hj), hpj] at hp
  exact absurd hp Bool.false_ne_true

/-- What is printed inside a node was so before, or is what is put there, or is printed inside the source
of a copy. -/
theorem pastedIn_cases (hw : WellFormed m) (hk : m'.PastedIn p k j) :
    k = x ∨ (j = x ∧ m.PastedIn p k id) ∨ m.PastedIn p k j := by
  obtain ⟨nk', nj', y, ⟨hnk', hpk⟩, ⟨hnj', hpj⟩, hres, hop⟩ := hk
  obtain ⟨rfl, -⟩ | ⟨hkx, nk, hnk, rfl⟩ := h.live_cases hnk'
  · exact Or.inl rfl
  refine Or.inr ?_
  have hlabel : ∀ {i ni ni'}, m.live? i = some ni → m'.live? i = some ni' → m'.label ni' = m.label ni :=
    fun hni hni' => by
      obtain ⟨n', hn', -, hlabel, -⟩ := h.exists_live hw hni
      rwa [Option.some.inj (hni'.symm.trans hn')]
  rw [hlabel hnk hnk'] at hpk
  obtain ⟨rfl, rfl⟩ | ⟨-, nj, hnj, rfl⟩ := h.live_cases hnj'
  · rw [h.label_self] at hpj
    exact Or.inl ⟨rfl, nk, n, y, ⟨hnk, hpk⟩, ⟨h.source, hpj⟩, hres, hop⟩
  · rw [hlabel hnj hnj'] at hpj
    obtain hop | rfl := mem_of_mem_pointAt hop
    · exact Or.inr ⟨nk, nj, y, ⟨hnk, hpk⟩, ⟨hnj, hpj⟩, hres, hop⟩
    · exact absurd (h.sound.toWellFormed.eq_of_mem_results hnk' h.live?_self hres (by simp)).1 hkx

/-- What was printed inside a node other than the source still is. -/
theorem pastedIn (hw : WellFormed m) (hk : m.PastedIn p k j) (hne : k ≠ id) : m'.PastedIn p k j := by
  obtain ⟨nk, nj, y, ⟨hnk, hpk⟩, ⟨hnj, hpj⟩, hres, hop⟩ := hk
  obtain ⟨nk', hnk', hres', hlk, -⟩ := h.exists_live hw hnk
  obtain ⟨nj', hnj', -, hlj, -⟩ := h.exists_live hw hnj
  obtain ⟨i, hi⟩ := exists_uses_of_mem hnj hop
  have hu : (⟨j, i⟩ : Use) ≠ u := by
    rintro rfl
    obtain rfl := hi.unique h.slot
    exact hne (hw.eq_of_mem_results hnk h.source hres (by simp [h.results])).1
  obtain ⟨n', hn', hget⟩ := h.uses_of_ne hu hi
  obtain rfl := Option.some.inj (hnj'.symm.trans hn')
  exact ⟨nk', nj', y, ⟨hnk', hlk ▸ hpk⟩, ⟨hnj', hlj ▸ hpj⟩, hres' ▸ hres, List.mem_of_getElem? hget⟩

/-- What is printed inside the source is printed inside a copy. -/
theorem pastedIn_self (hw : WellFormed m) (hk : m.PastedIn p k id) : m'.PastedIn p k x := by
  obtain ⟨nk, nj, y, ⟨hnk, hpk⟩, ⟨hnj, hpj⟩, hres, hop⟩ := hk
  obtain rfl := Option.some.inj (h.source.symm.trans hnj)
  obtain ⟨nk', hnk', hres', hlk, -⟩ := h.exists_live hw hnk
  exact ⟨nk', _, y, ⟨hnk', hlk ▸ hpk⟩, ⟨h.live?_self, h.label_self ▸ hpj⟩, hres' ▸ hres, hop⟩

/-! ### The order of the nodes -/

theorem mem_user (hw : WellFormed m) : u.node ∈ (m.nodesOf b).erase x := by
  obtain ⟨nu, hnu, rfl⟩ := h.user
  exact (List.mem_erase_of_ne h.ne_user).2 (hw.mem_nodesOf hnu)

/-- The other nodes keep their order. -/
theorem precedes_iff (hw : WellFormed m) (hj : j ≠ x) (hk : k ≠ x) :
    Precedes (m'.nodesOf c) j k ↔ Precedes (m.nodesOf c) j k := by
  have herase : Precedes ((m.nodesOf c).erase x) j k ↔ Precedes (m.nodesOf c) j k := by
    rw [Precedes.erase_iff (hw.nodup c)]
    exact ⟨fun h => h.2.2, fun h => ⟨hj, hk, h⟩⟩
  rw [h.nodesOf, ← herase]
  split
  · exact (Position.before u.node).precedes_insert_iff hj hk
  · rfl

/-- What is put before the user stands right before it. -/
theorem before (hw : WellFormed m) : Precedes (m'.nodesOf b) x u.node ∧
    ∀ k, Precedes (m'.nodesOf b) x k → ¬ Precedes (m'.nodesOf b) k u.node := by
  have hnodup := (hw.nodup b).erase x
  have hmem := h.mem_user hw
  have hx : x ∉ (m.nodesOf b).erase x := (hw.nodup b).not_mem_erase
  rw [h.nodesOf, if_pos rfl]
  refine ⟨(Precedes.insertBefore_iff hnodup hmem hx).2 (Or.inr (Or.inl ⟨rfl, Or.inl rfl⟩)),
    fun k hxk hku => ?_⟩
  rw [Precedes.insertBefore_iff hnodup hmem hx] at hxk hku
  have hself : ¬ Precedes ((m.nodesOf b).erase x) u.node u.node := fun h => h.ne hnodup rfl
  have hux : u.node ≠ x := h.ne_user
  obtain hxk | ⟨-, rfl | hxk⟩ | ⟨-, hxk⟩ := hxk
  · exact hx hxk.mem_left
  · obtain hku | ⟨hku, -⟩ | ⟨hku, -⟩ := hku
    · exact hself hku
    · exact hux hku
    · exact hux hku
  · obtain hku | ⟨rfl, -⟩ | ⟨hku, -⟩ := hku
    · exact hxk.not_symm hnodup hku
    · exact hx hxk.mem_right
    · exact hux hku
  · exact hx hxk.mem_left

/-! ### Standing beside the user -/

theorem beside_self (hw : WellFormed m) (hp : p (m.label n) = true) : m'.BesideUser p x := by
  obtain ⟨nu, hnu, rfl⟩ := h.user
  obtain ⟨hbefore, hnext⟩ := h.before hw
  exact ⟨_, w, u, _, h.live?_self, h.label_self ▸ hp, rfl, h.onlyUse hw, h.live hnu h.ne_user, rfl,
    hbefore, fun k hxk hku => absurd hku (hnext k hxk)⟩

/-- A node stays beside its user, unless it is the source or printed inside it. -/
theorem beside (hw : WellFormed m) (hp : p (m.label n) = true) (hj : m.BesideUser p j) (hne : j ≠ id)
    (hin : ¬ m.PastedIn p j id) : m'.BesideUser p j := by
  obtain ⟨nj, y, q, nq, hnj, hpj, hres, honly, hnq, hparent, hbefore, hbetween⟩ := hj
  have hy : y ∈ nj.results := by simp [hres]
  have hjx : j ≠ x := fun he => hne (he.trans (h.eq_of_live (he ▸ hnj)).1)
  have hyv : y ≠ v := fun he =>
    hne (hw.eq_of_mem_results hnj h.source (he ▸ hy) (by simp [h.results])).1
  have hmem : y ∉ n.operands := fun hop => hin ⟨nj, n, y, ⟨hnj, hpj⟩, ⟨h.source, hp⟩, hy, hop⟩
  have hqx : q.node ≠ x := fun he => by
    obtain ⟨nq', hnq', hget⟩ := (honly q).2 rfl
    obtain ⟨rfl, -, -⟩ := h.eq_of_live (he ▸ hnq')
    obtain rfl := Option.some.inj (h.source.symm.trans (he ▸ hnq'))
    exact hmem (List.mem_of_getElem? hget)
  obtain ⟨n', hn', hres', hlabel, hparent'⟩ := h.exists_live hw hnj
  obtain ⟨nq', hnq', -, -, hparentq⟩ := h.exists_live hw hnq
  have husable := hw.usable_of_mem_results hnj hy
  refine ⟨n', y, q, nq', hn', hlabel ▸ hpj, hres'.trans hres,
    fun r => (h.uses_iff_of_not_mem husable hyv hmem).trans (honly r), hnq',
    (hparentq hqx).trans (hparent.trans (hparent' hjx).symm), ?_, fun k hjk hkq => ?_⟩
  · rw [hparent' hjx]
    exact (h.precedes_iff hw hjx hqx).2 hbefore
  · rw [hparent' hjx] at hjk hkq
    by_cases hkx : k = x
    · exact hkx ▸ h.pasted_self hp
    · exact h.pasted hw (hbetween k ((h.precedes_iff hw hjx hkx).1 hjk)
        ((h.precedes_iff hw hkx hqx).1 hkq))

end

end Module.Puts

end NetPrep
