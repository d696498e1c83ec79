import Mathlib
import NetPrep.Proofs.Place

/-!
# Redirecting operands

What pointing operands at other values does to a well-formed module, and what the edits do that
change neither operands nor places.
-/

namespace NetPrep

/-- What changing operands leaves: each node has its operands changed by a function. -/
structure Module.Redirects (m m' : Module) (f : NodeId → List ValueId → List ValueId) : Prop where
  kept : Kept m m'
  live? : ∀ j, m'.live? j = (m.live? j).map fun n => { n with operands := f j n.operands }
  def? : ∀ v, m'.def? v = m.def? v
  type? : ∀ v, m'.type? v = m.type? v
  nodesOf : ∀ c, m'.nodesOf c = m.nodesOf c
  types : m'.types = m.types

/-- An edit of operands and use lists: what it leaves of nodes and values. -/
structure Module.Rewrites (m m' : Module) (f : NodeId → List ValueId → List ValueId) : Prop where
  rest : ∃ nodes values, m' = { m with nodes, values }
  nodes_size : m'.nodes.size = m.nodes.size
  values_size : m'.values.size = m.values.size
  node? : ∀ j, m'.node? j = (m.node? j).map fun n => { n with operands := f j n.operands }
  value? : ∀ v, ∃ uses : Value → List Use,
    m'.value? v = (m.value? v).map fun x => { x with uses := uses x }

namespace Module.Rewrites

variable {m m' : Module} {f : NodeId → List ValueId → List ValueId} {j : NodeId} {n : Node}

theorem core (h : m.Rewrites m' f) (j : NodeId) :
    m'.core j = (m.core j).map fun n => { n with operands := f j n.operands } := by
  simp only [Module.core, h.node?, Option.map_map]
  rfl

theorem core_of (h : m.Rewrites m' f) (hj : m.core j = some n) :
    m'.core j = some { n with operands := f j n.operands } := by
  rw [h.core, hj, Option.map_some]

theorem live? (h : m.Rewrites m' f) (j : NodeId) :
    m'.live? j = (m.live? j).map fun n => { n with operands := f j n.operands } := by
  simp only [Module.live?, h.core]
  cases m.core j with
  | none => rfl
  | some n => cases he : n.erased <;> simp [Option.filter, he]

theorem def? (h : m.Rewrites m' f) (v : ValueId) : m'.def? v = m.def? v := by
  obtain ⟨uses, hv⟩ := h.value? v
  simp [Module.def?, hv, Function.comp_def]

theorem type? (h : m.Rewrites m' f) (v : ValueId) : m'.type? v = m.type? v := by
  obtain ⟨uses, hv⟩ := h.value? v
  simp [Module.type?, hv, Function.comp_def]

theorem kept (h : m.Rewrites m' f) : m.Kept m' := by
  have hdef := h.def?
  have htype := h.type?
  have hcore := fun {j n} => h.core_of (j := j) (n := n)
  obtain ⟨⟨nodes, values, rfl⟩, hnsize, hvsize, -, -⟩ := h
  exact ⟨rfl, rfl, rfl, fun _ => rfl, rfl, hnsize.ge, hvsize.ge, fun h => h,
    fun {v d} hd => hdef v ▸ hd, fun {v t} ht => htype v ▸ ht,
    fun hj => ⟨_, hcore hj, rfl, rfl, rfl, rfl⟩⟩

end Module.Rewrites

/-- An edit of operands and use lists that keeps them in step leaves a well-formed module. -/
theorem WellFormed.redirect {m m' : Module} {f : NodeId → List ValueId → List ValueId}
    (hw : WellFormed m) (h : m.Rewrites m' f) (hr : Recorded m')
    (huse : ∀ u v, m'.Uses u v → m.Usable v) : m.Redirects m' f ∧ WellFormed m' := by
  have hlinked : Linked m' m.nodesOf none := by
    obtain ⟨⟨nodes, values, rfl⟩, -, -, hnode, -⟩ := h
    exact hw.linked.congr (fun j => by rw [hnode, Option.map_map]; rfl) fun b => rfl
  have htypes : m'.types = m.types := by
    obtain ⟨nodes, values, rfl⟩ := h.rest
    rfl
  refine ⟨⟨h.kept, h.live?, h.def?, h.type?, fun c => by rw [hlinked.nodesOf_eq], htypes⟩,
    hlinked.nodesOf_eq ▸ hlinked, hr.uses_nodup, hr.mem_uses, ?_, ?_, ?_⟩
  · intro u v hu
    obtain ⟨d, hd, hdl⟩ := huse u v hu
    refine ⟨d, h.kept.def? hd, fun he => ?_⟩
    obtain ⟨n, hn⟩ := hdl he
    exact ⟨_, by rw [h.live?, hn]; rfl⟩
  · intro j n i v hj hv
    rw [h.core] at hj
    obtain ⟨n₀, hn₀, rfl⟩ := Option.map_eq_some_iff.1 hj
    exact h.kept.def? (hw.result hn₀ hv)
  · intro v j i hd
    rw [h.def?] at hd
    obtain ⟨n, hn, hv⟩ := hw.definition hd
    exact ⟨_, h.core_of hn, hv⟩

/-- Pointing one operand of one node at a value. -/
def pointAt (u : Use) (v : ValueId) (id : NodeId) (ops : List ValueId) : List ValueId :=
  if id = u.node then ops.set u.operand v else ops

/-- Pointing all operands that are one value at another. -/
def substitute (old new : ValueId) (_ : NodeId) (ops : List ValueId) : List ValueId :=
  ops.map fun w => if w = old then new else w

section

variable {m m' : Module} {u w : Use} {v x y old new : ValueId}

/-- The uses once one operand of one node is pointed at a value. -/
theorem Module.uses_pointAt_iff
    (h : ∀ j, m'.live? j = (m.live? j).map fun n => { n with operands := pointAt u x j n.operands })
    (hu : m.Uses u y) : m'.Uses w v ↔ if w = u then v = x else m.Uses w v := by
  obtain ⟨nu, hnu, hy⟩ := hu
  obtain ⟨hlt, -⟩ := List.getElem?_eq_some_iff.1 hy
  obtain ⟨j, k⟩ := w
  obtain ⟨i, o⟩ := u
  unfold Module.Uses
  simp only [h, pointAt, Use.mk.injEq]
  by_cases hj : j = i
  · subst hj
    simp only [hnu, Option.map_some, Option.some.injEq, exists_eq_left', if_true, true_and,
      List.getElem?_set]
    by_cases hk : k = o
    · subst hk
      simp [hlt, eq_comm]
    · simp [hk, Ne.symm hk]
  · simp [hj]

/-- The uses once all operands that are one value are pointed at another. -/
theorem Module.uses_substitute_iff
    (h : ∀ j, m'.live? j =
      (m.live? j).map fun n => { n with operands := substitute old new j n.operands }) :
    m'.Uses w v ↔ (m.Uses w old ∧ v = new) ∨ (v ≠ old ∧ m.Uses w v) := by
  unfold Module.Uses
  rw [h]
  cases m.live? w.node with
  | none => simp
  | some n =>
    cases hk : n.operands[w.operand]? with
    | none => simp [substitute, hk]
    | some y =>
      by_cases hy : y = old
      · subst hy
        simp [substitute, hk, eq_comm]
      · simp only [substitute, Option.map_some, Option.some.injEq, exists_eq_left',
          List.getElem?_map, hk, hy, if_false, false_and, false_or]
        constructor
        · rintro rfl
          exact ⟨hy, rfl⟩
        · exact And.right

end

namespace Module.Redirects

variable {m m' : Module} {f : NodeId → List ValueId → List ValueId} {j : NodeId} {n n' : Node}

theorem live (h : m.Redirects m' f) (hj : m.live? j = some n) :
    m'.live? j = some { n with operands := f j n.operands } := by
  rw [h.live?, hj, Option.map_some]

theorem live_cases (h : m.Redirects m' f) (hj : m'.live? j = some n') :
    ∃ n, m.live? j = some n ∧ n' = { n with operands := f j n.operands } := by
  rw [h.live?] at hj
  obtain ⟨n, hn, rfl⟩ := Option.map_eq_some_iff.1 hj
  exact ⟨n, hn, rfl⟩

theorem usable {v : ValueId} (h : m.Redirects m' f) (hv : m.Usable v) : m'.Usable v :=
  hv.mono h.kept fun hj => ⟨_, h.live hj⟩

theorem uses_pointAt_iff {u w : Use} {v x y : ValueId} (h : m.Redirects m' (pointAt u x))
    (hu : m.Uses u y) : m'.Uses w v ↔ if w = u then v = x else m.Uses w v :=
  Module.uses_pointAt_iff h.live? hu

theorem uses_substitute_iff {w : Use} {v old new : ValueId}
    (h : m.Redirects m' (substitute old new)) :
    m'.Uses w v ↔ (m.Uses w old ∧ v = new) ∨ (v ≠ old ∧ m.Uses w v) :=
  Module.uses_substitute_iff h.live?

end Module.Redirects

theorem Module.Redirects.congr {m m' : Module} {f g : NodeId → List ValueId → List ValueId}
    (h : m.Redirects m' f) (hfg : ∀ j n, m.live? j = some n → f j n.operands = g j n.operands) :
    m.Redirects m' g where
  kept := h.kept
  live? j := by
    rw [h.live?]
    cases hj : m.live? j with
    | none => rfl
    | some n => simp [hfg j n hj]
  def? := h.def?
  type? := h.type?
  nodesOf := h.nodesOf
  types := h.types

/-- Pointing one operand at a value: where that is another one than before, the use moves from one use
list to another. -/
theorem Module.setOperand_eq_ok {m m' : Module} {id : NodeId} {n : Node} {i : Nat} {v : ValueId}
    (hn : m.live? id = some n) (h : m.setOperand id i v = .ok m') :
    ∃ old, n.operands[i]? = some old ∧ m.Rewrites m' (pointAt ⟨id, i⟩ v) ∧
      (m' = m ∨ old ≠ v ∧ ∀ w, m'.value? w = (m.value? w).map fun x => { x with
        uses := if v = w then x.uses ++ [⟨id, i⟩]
          else if old = w then x.uses.erase ⟨id, i⟩ else x.uses }) := by
  obtain ⟨nd, hid, -, rfl⟩ := Module.exists_of_live? hn
  have hnode : m.node id = .ok nd := by simpa using hid
  simp only [Module.setOperand, bind_eq_ok_iff] at h
  obtain ⟨old, hoperand, h⟩ := h
  have hold : nd.operands[i]? = some old := by
    simp only [Module.operand, hnode, bind, Except.bind] at hoperand
    split at hoperand
    · next w hw' =>
      cases hoperand
      exact hw'
    · cases hoperand
  refine ⟨old, hold, ?_⟩
  split at h
  · next heq =>
    cases h
    subst heq
    refine ⟨⟨⟨_, _, rfl⟩, rfl, rfl, fun j => ?_, fun w => ⟨(·.uses), by cases m.value? w <;> rfl⟩⟩,
      Or.inl rfl⟩
    unfold pointAt
    by_cases hj : j = id
    · subst hj
      obtain ⟨hlt, hget⟩ := List.getElem?_eq_some_iff.1 hold
      rw [hid, Option.map_some, if_pos rfl, ← hget, List.set_getElem_self]
    · simp only [if_neg hj]
      cases m.node? j <;> rfl
  · next hne =>
    simp only [bind_eq_ok_iff] at h
    obtain ⟨m₁, h₁, m₂, h₂, h₃⟩ := h
    have huses := (Module.removeUse_eq_ok h₁).trans (Module.addUse_eq_ok h₂)
    obtain ⟨nodes, rfl, hnsize, hnode₃⟩ := Module.modifyNode_eq_ok h₃
    obtain ⟨values, rfl⟩ := huses.rest
    have hvalue : ∀ w, Module.value? { m with nodes, values } w = _ := fun w => huses.value w
    refine ⟨⟨⟨nodes, values, rfl⟩, hnsize, huses.size, fun j => ?_, fun w => ⟨_, hvalue w⟩⟩,
      Or.inr ⟨hne, fun w => (hvalue w).trans ?_⟩⟩
    · refine (hnode₃ j).trans ?_
      change (if id = j then (m.node? j).map _ else m.node? j) = _
      by_cases hj : j = id
      · simp [pointAt, hj]
      · simp [pointAt, hj, Ne.symm hj]
    · by_cases hvw : v = w
      · subst hvw
        simp [hne]
      · simp [hvw]

/-- Moving a use from one use list to another keeps operands and use lists in step. -/
theorem Recorded.of_pointAt {m m' : Module} {q : Use} {old v : ValueId} (hr : Recorded m)
    (hq : m.Uses q old) (hne : old ≠ v)
    (huses : ∀ {u w}, m'.Uses u w ↔ if u = q then w = v else m.Uses u w)
    (hvalue : ∀ w, m'.value? w = (m.value? w).map fun x => { x with
      uses := if v = w then x.uses ++ [q] else if old = w then x.uses.erase q else x.uses }) :
    Recorded m' := by
  have honly : ∀ {w}, m.Uses q w → w = old := fun ⟨n, hn, hw⟩ => by
    obtain ⟨n', hn', hold⟩ := hq
    obtain rfl := Option.some.inj (hn.symm.trans hn')
    exact Option.some.inj (hw.symm.trans hold)
  constructor
  · intro w y hy
    rw [hvalue] at hy
    obtain ⟨x, hx, rfl⟩ := Option.map_eq_some_iff.1 hy
    have hnd := hr.uses_nodup hx
    dsimp only
    split
    · next hvw =>
      refine List.nodup_append.2 ⟨hnd, List.nodup_singleton q, fun u hu u' hu' he => ?_⟩
      rw [he, List.mem_singleton.1 hu', hr.mem_uses hx, ← hvw] at hu
      exact hne (honly hu).symm
    · split
      · exact hnd.erase _
      · exact hnd
  · intro w y u hy
    rw [hvalue] at hy
    obtain ⟨x, hx, rfl⟩ := Option.map_eq_some_iff.1 hy
    have hnd := hr.uses_nodup hx
    have hmem := hr.mem_uses (u := u) hx
    rw [huses]
    dsimp only
    by_cases hu : u = q
    · rw [if_pos hu]
      by_cases hvw : v = w
      · simp [hvw, hu]
      · rw [if_neg hvw]
        refine ⟨fun hm => ?_, fun hm => absurd hm.symm hvw⟩
        split at hm
        · exact absurd hu (hnd.mem_erase_iff.1 hm).1
        · next how => exact absurd (honly (hu ▸ hmem.1 hm)).symm how
    · rw [if_neg hu, ← hmem]
      by_cases hvw : v = w <;> by_cases how : old = w <;>
        simp [hvw, how, hu, hnd.mem_erase_iff]

/-- Pointing one operand at a value keeps operands and use lists in step. -/
theorem Recorded.setOperand {m m' : Module} {id : NodeId} {n : Node} {i : Nat} {v : ValueId}
    (hr : Recorded m) (hn : m.live? id = some n) (h : m.setOperand id i v = .ok m') :
    (∃ old, n.operands[i]? = some old) ∧ m.Rewrites m' (pointAt ⟨id, i⟩ v) ∧ Recorded m' ∧
      ∀ {u w}, m'.Uses u w ↔ if u = ⟨id, i⟩ then w = v else m.Uses u w := by
  obtain ⟨old, hold, hrewrites, hrest⟩ := Module.setOperand_eq_ok hn h
  have huses : ∀ {u w}, m'.Uses u w ↔ if u = ⟨id, i⟩ then w = v else m.Uses u w :=
    Module.uses_pointAt_iff hrewrites.live? ⟨n, hn, hold⟩
  refine ⟨⟨old, hold⟩, hrewrites, ?_, huses⟩
  obtain rfl | ⟨hne, hvalue⟩ := hrest
  · exact hr
  · exact hr.of_pointAt ⟨n, hn, hold⟩ hne huses hvalue

namespace WellFormed

variable {m m' : Module} {id : NodeId} {n : Node} {i : Nat} {v old new : ValueId}

/-- Pointing one operand at a value. -/
theorem setOperand (hw : WellFormed m) (hn : m.live? id = some n) (hv : m.Usable v)
    (h : m.setOperand id i v = .ok m') :
    (∃ old, n.operands[i]? = some old) ∧
    m.Redirects m' (pointAt ⟨id, i⟩ v) ∧ WellFormed m' := by
  obtain ⟨hold, hrewrites, hr, huses⟩ := hw.recorded.setOperand hn h
  refine ⟨hold, hw.redirect hrewrites hr fun u w hu => ?_⟩
  rw [huses] at hu
  split at hu
  · exact hu ▸ hv
  · exact hw.usable hu

end WellFormed

/-- The operands of a node once some uses refer to a value. -/
def setUses (v : ValueId) (id : NodeId) (uses : List Use) (ops : List ValueId) : List ValueId :=
  uses.foldl (fun ops u => if u.node = id then ops.set u.operand v else ops) ops

theorem length_setUses {v : ValueId} {id : NodeId} {uses : List Use} {ops : List ValueId} :
    (setUses v id uses ops).length = ops.length := by
  induction uses generalizing ops with
  | nil => rfl
  | cons u uses ih =>
    rw [setUses, List.foldl_cons, ← setUses, ih]
    split
    · exact List.length_set
    · rfl

theorem getElem?_setUses {v : ValueId} {id : NodeId} {uses : List Use} {ops : List ValueId}
    {k : Nat} : (setUses v id uses ops)[k]? =
      if ⟨id, k⟩ ∈ uses ∧ k < ops.length then some v else ops[k]? := by
  induction uses generalizing ops with
  | nil => simp [setUses]
  | cons u uses ih =>
    obtain ⟨j, i⟩ := u
    change (setUses v id uses (if j = id then ops.set i v else ops))[k]? = _
    rw [ih]
    by_cases hj : j = id
    · subst hj
      by_cases hk : k = i
      · subst hk
        by_cases hlt : k < ops.length <;> simp [hlt]
      · simp [hk, Ne.symm hk]
    · simp [hj, Ne.symm hj]

theorem Module.retarget_eq_ok {m m' : Module} {v : ValueId} {uses : List Use}
    (h : m.retarget v uses = .ok m') :
    (∃ nodes, m' = { m with nodes } ∧ nodes.size = m.nodes.size) ∧
    ∀ j, m'.node? j = (m.node? j).map fun n => { n with operands := setUses v j uses n.operands } := by
  induction uses generalizing m with
  | nil =>
    cases h
    refine ⟨⟨_, rfl, rfl⟩, fun j => ?_⟩
    cases Module.node? _ j <;> rfl
  | cons u uses ih =>
    simp only [retarget, bind_eq_ok_iff] at h
    obtain ⟨_, -, m₁, h₁, h₂⟩ := h
    obtain ⟨⟨nodes', rfl, hsize'⟩, hnode'⟩ := ih h₂
    obtain ⟨nodes, rfl, hsize, hnode⟩ := modifyNode_eq_ok h₁
    refine ⟨⟨nodes', rfl, hsize'.trans hsize⟩, fun j => ?_⟩
    rw [hnode' j, hnode j]
    by_cases hj : u.node = j
    · subst hj
      simp [setUses, Function.comp_def]
    · simp [setUses, hj]

theorem mem_of_mem_setUses {v w : ValueId} {id : NodeId} {uses : List Use} {ops : List ValueId}
    (hw : w ∈ setUses v id uses ops) : w = v ∨ w ∈ ops := by
  obtain ⟨k, hk⟩ := List.mem_iff_getElem?.1 hw
  rw [getElem?_setUses] at hk
  split at hk
  · exact Or.inl (Option.some.inj hk).symm
  · exact Or.inr (List.mem_of_getElem? hk)

/-- Redirecting every use of a value: where that is to another one, all uses move to the use list of
that. -/
theorem Module.replaceUses_eq_ok {m m' : Module} {old new : ValueId}
    (h : m.replaceUses old new = .ok m') : (old = new ∧ m' = m) ∨
    old ≠ new ∧ ∃ x, m.value? old = some x ∧ m.Rewrites m' (fun j => setUses new j x.uses) ∧
      ∀ w, m'.value? w = (m.value? w).map fun y => { y with
        uses := if new = w then y.uses ++ x.uses else if old = w then [] else y.uses } := by
  unfold Module.replaceUses at h
  split at h
  · next heq =>
    cases h
    exact Or.inl ⟨heq, rfl⟩
  · next hne =>
    simp only [bind_eq_ok_iff, Module.value_eq_ok_iff] at h
    obtain ⟨x, hx, m₁, h₁, m₂, h₂, h₃⟩ := h
    obtain ⟨⟨nodes, rfl, hnsize⟩, hnode⟩ := Module.retarget_eq_ok h₂
    have huses := Module.EditsUses.of_modifyValue (g := fun _ => []) h₁
    have hadd := Module.EditsUses.of_modifyValue (g := fun l => l ++ x.uses) h₃
    obtain ⟨values₁, rfl⟩ := huses.rest
    obtain ⟨values, rfl⟩ := hadd.rest
    have hvalue : ∀ w, Module.value? { m with nodes, values } w = (m.value? w).map fun y =>
        { y with uses := if new = w then y.uses ++ x.uses else if old = w then [] else y.uses } := by
      intro w
      have hw₁ := huses.value w
      have hw₂ := hadd.value w
      change _ = (Module.value? { m with values := values₁ } w).map _ at hw₂
      rw [hw₁, Option.map_map] at hw₂
      refine hw₂.trans ?_
      cases m.value? w with
      | none => rfl
      | some y =>
        by_cases hnw : new = w
        · subst hnw
          simp [hne]
        · simp [hnw]
    exact Or.inr ⟨hne, x, hx, ⟨⟨nodes, values, rfl⟩, hnsize, hadd.size.trans huses.size, hnode,
      fun w => ⟨_, hvalue w⟩⟩, hvalue⟩

/-- On the nodes that are not erased, the uses of the value are all that is redirected. -/
theorem Recorded.setUses_eq_substitute {m : Module} {old new : ValueId} {x : Value} {j : NodeId}
    {n : Node} (hr : Recorded m) (hx : m.value? old = some x) (hj : m.live? j = some n) :
    setUses new j x.uses n.operands = substitute old new j n.operands := by
  refine List.ext_getElem? fun k => ?_
  rw [getElem?_setUses, substitute, List.getElem?_map]
  have huse : m.Uses ⟨j, k⟩ old ↔ n.operands[k]? = some old :=
    ⟨fun ⟨n', hn', hk⟩ => Option.some.inj (hj.symm.trans hn') ▸ hk, fun hk => ⟨n, hj, hk⟩⟩
  simp only [hr.mem_uses hx, huse]
  cases hk : n.operands[k]? with
  | none => simp
  | some w =>
    obtain ⟨hlt, -⟩ := List.getElem?_eq_some_iff.1 hk
    by_cases hw' : w = old <;> simp [hlt, hw']

/-- Moving all uses of a value to the use list of another one keeps operands and use lists in step. -/
theorem Recorded.of_substitute {m m' : Module} {old new : ValueId} {x : Value} (hr : Recorded m)
    (hne : old ≠ new) (hx : m.value? old = some x)
    (huses : ∀ {u w}, m'.Uses u w ↔ (m.Uses u old ∧ w = new) ∨ (w ≠ old ∧ m.Uses u w))
    (hvalue : ∀ w, m'.value? w = (m.value? w).map fun y => { y with
      uses := if new = w then y.uses ++ x.uses else if old = w then [] else y.uses }) :
    Recorded m' := by
  constructor
  · intro w z hz
    rw [hvalue] at hz
    obtain ⟨y, hy, rfl⟩ := Option.map_eq_some_iff.1 hz
    have hnd := hr.uses_nodup hy
    dsimp only
    split
    · next hnw =>
      refine List.nodup_append.2 ⟨hnd, hr.uses_nodup hx, fun u hu u' hu' he => ?_⟩
      subst he
      obtain ⟨n, hn, hk⟩ := (hr.mem_uses hy).1 hu
      obtain ⟨n', hn', hk'⟩ := (hr.mem_uses hx).1 hu'
      obtain rfl := Option.some.inj (hn.symm.trans hn')
      rw [← hnw] at hk
      exact hne (Option.some.inj (hk'.symm.trans hk))
    · split
      · exact List.nodup_nil
      · exact hnd
  · intro w z u hz
    rw [hvalue] at hz
    obtain ⟨y, hy, rfl⟩ := Option.map_eq_some_iff.1 hz
    rw [huses, ← hr.mem_uses hx, ← hr.mem_uses hy]
    dsimp only
    by_cases hnw : new = w
    · subst hnw
      simp only [if_true, List.mem_append, and_true]
      constructor
      · rintro (hu | hu)
        · exact Or.inr ⟨Ne.symm hne, hu⟩
        · exact Or.inl hu
      · rintro (hu | ⟨-, hu⟩)
        · exact Or.inr hu
        · exact Or.inl hu
    · by_cases how : old = w
      · simp [hnw, how, eq_comm]
      · simp [hnw, how, eq_comm]

/-- Redirecting every use of a value keeps operands and use lists in step. -/
theorem Recorded.replaceUses {m m' : Module} {old new : ValueId} (hr : Recorded m)
    (h : m.replaceUses old new = .ok m') :
    (∃ f, m.Rewrites m' f ∧ (∀ j ops, ∀ w ∈ f j ops, w = new ∨ w ∈ ops) ∧
      ∀ j n, m.live? j = some n → f j n.operands = substitute old new j n.operands) ∧
    Recorded m' ∧
    ∀ {u w}, m'.Uses u w ↔ (m.Uses u old ∧ w = new) ∨ (w ≠ old ∧ m.Uses u w) := by
  obtain ⟨rfl, rfl⟩ | ⟨hne, x, hx, hrewrites, hvalue⟩ := Module.replaceUses_eq_ok h
  · have hsame : ∀ ops : List ValueId, (ops.map fun w => if w = old then old else w) = ops :=
      fun ops => by
        conv_rhs => rw [← List.map_id ops]
        exact List.map_congr_left fun w _ => by split <;> simp_all
    refine ⟨⟨fun _ ops => ops, ⟨⟨_, _, rfl⟩, rfl, rfl, fun j => ?_, fun w => ⟨(·.uses), ?_⟩⟩,
      fun _ _ _ hw => Or.inr hw, fun j n _ => (hsame _).symm⟩, hr, fun {u w} => ?_⟩
    · cases m'.node? j <;> rfl
    · cases m'.value? w <;> rfl
    · by_cases hw : w = old <;> simp [hw]
  · have hops : ∀ j n, m.live? j = some n →
        setUses new j x.uses n.operands = substitute old new j n.operands :=
      fun _ _ hj => hr.setUses_eq_substitute hx hj
    have huses : ∀ {u w}, m'.Uses u w ↔ (m.Uses u old ∧ w = new) ∨ (w ≠ old ∧ m.Uses u w) :=
      Module.uses_substitute_iff fun j => by
        rw [hrewrites.live?]
        cases hj : m.live? j with
        | none => rfl
        | some n => simp only [Option.map_some, hops j n hj]
    exact ⟨⟨_, hrewrites, fun _ _ _ hw => mem_of_mem_setUses hw, hops⟩,
      hr.of_substitute hne hx huses hvalue, huses⟩

/-- Redirecting every use of a value to another one. -/
theorem WellFormed.replaceUses {m m' : Module} {old new : ValueId} (hw : WellFormed m)
    (hnew : m.Usable new) (h : m.replaceUses old new = .ok m') :
    m.Redirects m' (substitute old new) ∧ WellFormed m' := by
  obtain ⟨⟨f, hrewrites, -, hf⟩, hr, huses⟩ := hw.recorded.replaceUses h
  obtain ⟨hredirects, hw'⟩ := hw.redirect hrewrites hr fun u w hu => by
    rcases huses.1 hu with ⟨-, rfl⟩ | ⟨-, hu⟩
    · exact hnew
    · exact hw.usable hu
  exact ⟨hredirects.congr hf, hw'⟩

/-! ## Labels and types -/

/-- What naming a node leaves. -/
structure Module.Relabels (m m' : Module) (id : NodeId) (name : Option Name → Option Name)
    (twoState : Bool → Bool) : Prop where
  kept : Kept m m'
  live? : ∀ j, m'.live? j = (m.live? j).map fun n => { n with
    name := if j = id then name n.name else n.name
    twoState := if j = id then twoState n.twoState else n.twoState }
  value? : ∀ v, m'.value? v = m.value? v
  nodesOf : ∀ c, m'.nodesOf c = m.nodesOf c
  types : m'.types = m.types

/-- What adding a type leaves. -/
structure Module.AddsType (m m' : Module) : Prop where
  kept : m.Kept m'
  rest : ∃ types, m' = { m with types }
  nodesOf : ∀ c, m'.nodesOf c = m.nodesOf c

theorem Module.AddsType.live? {m m' : Module} (h : m.AddsType m') (j : NodeId) :
    m'.live? j = m.live? j := by
  obtain ⟨types, rfl⟩ := h.rest
  rfl

theorem Module.AddsType.value? {m m' : Module} (h : m.AddsType m') (v : ValueId) :
    m'.value? v = m.value? v := by
  obtain ⟨types, rfl⟩ := h.rest
  rfl

namespace Module.Relabels

variable {m m' : Module} {id j : NodeId} {n n' : Node} {name : Option Name → Option Name}
  {twoState : Bool → Bool}

theorem live (h : m.Relabels m' id name twoState) (hj : m.live? j = some n) :
    m'.live? j = some { n with
      name := if j = id then name n.name else n.name
      twoState := if j = id then twoState n.twoState else n.twoState } := by
  rw [h.live?, hj, Option.map_some]

theorem live_cases (h : m.Relabels m' id name twoState) (hj : m'.live? j = some n') :
    ∃ n, m.live? j = some n ∧ n' = { n with
      name := if j = id then name n.name else n.name
      twoState := if j = id then twoState n.twoState else n.twoState } := by
  rw [h.live?] at hj
  obtain ⟨n, hn, rfl⟩ := Option.map_eq_some_iff.1 hj
  exact ⟨n, hn, rfl⟩

theorem usable {v : ValueId} (h : m.Relabels m' id name twoState) (hv : m.Usable v) :
    m'.Usable v := hv.mono h.kept fun hj => ⟨_, h.live hj⟩

theorem uses_iff {u : Use} {v : ValueId} (h : m.Relabels m' id name twoState) :
    m'.Uses u v ↔ m.Uses u v := by
  constructor
  · rintro ⟨nu, hnu, hv⟩
    obtain ⟨n, hn, rfl⟩ := h.live_cases hnu
    exact ⟨n, hn, hv⟩
  · rintro ⟨nu, hnu, hv⟩
    exact ⟨_, h.live hnu, hv⟩

theorem def? (h : m.Relabels m' id name twoState) (v : ValueId) : m'.def? v = m.def? v := by
  rw [Module.def?, h.value?, Module.def?]

theorem type? (h : m.Relabels m' id name twoState) (v : ValueId) : m'.type? v = m.type? v := by
  rw [Module.type?, h.value?, Module.type?]

end Module.Relabels

namespace WellFormed

variable {m m' : Module} {id : NodeId} {n : Node}

theorem modifyNode (hw : WellFormed m) {f : Option Name → Option Name} {g : Bool → Bool}
    (h : m.modifyNode id (fun n => { n with name := f n.name, twoState := g n.twoState })
      = .ok m') : m.Relabels m' id f g ∧ WellFormed m' := by
  obtain ⟨nodes, rfl, hsize, hnode⟩ := Module.modifyNode_eq_ok h
  have hnode' : ∀ j, Module.node? { m with nodes } j = (m.node? j).map fun n => { n with
      name := if j = id then f n.name else n.name
      twoState := if j = id then g n.twoState else n.twoState } := by
    intro j
    rw [hnode]
    by_cases hj : j = id
    · simp [hj]
    · cases m.node? j <;> simp [hj, Ne.symm hj]
  have hcore : ∀ j, Module.core { m with nodes } j = (m.core j).map fun n => { n with
      name := if j = id then f n.name else n.name
      twoState := if j = id then g n.twoState else n.twoState } := by
    intro j
    simp only [Module.core, hnode', Option.map_map]
    rfl
  have hlive : ∀ j, Module.live? { m with nodes } j = (m.live? j).map fun n => { n with
      name := if j = id then f n.name else n.name
      twoState := if j = id then g n.twoState else n.twoState } := by
    intro j
    simp only [Module.live?, hcore]
    cases m.core j with
    | none => rfl
    | some n => cases he : n.erased <;> simp [Option.filter, he]
  have hlinked : Linked { m with nodes } m.nodesOf none :=
    hw.linked.congr (fun j => by rw [hnode', Option.map_map]; rfl) fun b => rfl
  have huses : ∀ {u v}, Module.Uses { m with nodes } u v ↔ m.Uses u v := by
    intro u v
    unfold Module.Uses
    rw [hlive]
    cases m.live? u.node <;> simp
  refine ⟨⟨⟨rfl, rfl, rfl, fun _ => rfl, rfl, hsize.ge, le_rfl, fun h => h, fun h => h, fun h => h,
    ?_⟩, hlive, fun _ => rfl, fun c => ?_, rfl⟩, ?_⟩
  · intro j n hj
    rw [hcore, hj]
    exact ⟨_, rfl, rfl, rfl, rfl, rfl⟩
  · rw [hlinked.nodesOf_eq]
  · refine ⟨hlinked.nodesOf_eq ▸ hlinked, hw.uses_nodup, ?_, ?_, ?_, ?_⟩
    · intro v x u hx
      rw [huses]
      exact hw.mem_uses hx
    · intro u v hu
      obtain ⟨d, hd, hdl⟩ := hw.operand (huses.1 hu)
      refine ⟨d, hd, fun he => ?_⟩
      obtain ⟨n, hn⟩ := hdl he
      exact ⟨_, by rw [hlive, hn]; rfl⟩
    · intro j n i v hj hv
      rw [hcore] at hj
      obtain ⟨n₀, hn₀, rfl⟩ := Option.map_eq_some_iff.1 hj
      exact hw.result hn₀ hv
    · intro v j i hd
      obtain ⟨n, hn, hv⟩ := hw.definition hd
      exact ⟨{ n with
        name := if j = id then f n.name else n.name
        twoState := if j = id then g n.twoState else n.twoState },
        by rw [hcore, hn, Option.map_some], hv⟩

theorem setName (hw : WellFormed m) {name : Option Name} (h : m.setName id name = .ok m') :
    m.Relabels m' id (fun _ => name) (fun t => t) ∧ WellFormed m' :=
  hw.modifyNode (f := fun _ => name) (g := fun t => t) h

theorem setTwoState (hw : WellFormed m) {twoState : Bool} (h : m.setTwoState id twoState = .ok m') :
    m.Relabels m' id (fun n => n) (fun _ => twoState) ∧ WellFormed m' :=
  hw.modifyNode (f := fun n => n) (g := fun _ => twoState) h

/-- Interning a type. -/
theorem internType (hw : WellFormed m) (ty : HwType) :
    m.AddsType (m.internType ty).2 ∧ WellFormed (m.internType ty).2 := by
  have hlinked : Linked (m.internType ty).2 m.nodesOf none :=
    hw.linked.congr (fun _ => rfl) fun _ => rfl
  refine ⟨⟨⟨rfl, rfl, rfl, fun _ => rfl, rfl, le_rfl, le_rfl,
    fun h => TypeTable.get_intern_of_get h ty, fun h => h, fun h => h,
    fun h => ⟨_, h, rfl, rfl, rfl, rfl⟩⟩, ⟨_, rfl⟩, fun c => ?_⟩,
    ⟨hlinked.nodesOf_eq ▸ hlinked, hw.uses_nodup, hw.mem_uses, hw.operand, hw.result,
      hw.definition⟩⟩
  rw [hlinked.nodesOf_eq]

end WellFormed

end NetPrep
