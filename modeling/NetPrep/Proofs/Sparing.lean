import Mathlib
import NetPrep.Proofs.Answers
import NetPrep.Proofs.Settling

/-!
# Edits that spare what is printed where it is used

Operators that are made are not printed at their uses, and they take over the operands of the operators
that they replace. So what is printed where a value is used stays as it was, and takes as many copies.
-/

namespace NetPrep

open Prepare

namespace Module

variable {p : Label → Bool} {m m' m'' : Module} {id j k : NodeId} {n nj : Node} {b : BlockId}
  {pos : Position} {types : List TypeId} {v w old new : ValueId} {q : Use} {r : Nat}
  {f : ValueId → Nat} {name : Option Name → Option Name} {twoState : Bool → Bool}

/-- A value that is still to come is defined by no node yet. -/
theorem unpasted_of_le (hw : WellFormed m) (hv : m.values.size ≤ v.index) : m.Unpasted p v :=
  fun _ _ hj _ hmem => absurd (hw.lt_of_result (core_of_live? hj) hmem) (Nat.not_lt.2 hv)

theorem Unpasted.shallow (h : m.Unpasted p v) : m.Shallow p v :=
  ⟨0, fun j n hj hp hv => absurd hv (h j n hj hp)⟩

theorem shallow_of_acyclic (hacyclic : ∀ j, ¬ Relation.TransGen (m.PastedIn p) j j) (v : ValueId) :
    m.Shallow p v := ⟨_, fun j _ _ _ _ => below_of_acyclic hacyclic j⟩

/-- What must be printed at its uses has one result, and is printed inside nodes with greater numbers. -/
def pastesForward (m : Module) : Bool :=
  m.nodeIds.all fun j => (m.live? j).all fun n => !n.op.isAlwaysInline ||
    n.results.length == 1 && m.nodeIds.all fun k => (m.live? k).all fun nk =>
      n.results.all fun v => !nk.operands.contains v || decide (j.index < k.index)

/-- So it is printed in some place, and not inside itself. -/
theorem of_pastesForward (h : m.pastesForward = true) : m.SinglePasted Label.isAlwaysInline ∧
    ∀ j, ¬ Relation.TransGen (m.PastedIn Label.isAlwaysInline) j j := by
  have hnode : ∀ {j n}, m.live? j = some n → n.op.isAlwaysInline = true → n.results.length = 1 ∧
      ∀ {k nk v}, m.live? k = some nk → v ∈ n.results → v ∈ nk.operands → j.index < k.index := by
    intro j n hn hop
    have hj := List.all_eq_true.1 h j (mem_nodeIds_iff.2 (lt_of_live? hn))
    simp only [hn, Option.all_some, hop, Bool.not_true, Bool.false_or, Bool.and_eq_true,
      beq_iff_eq] at hj
    refine ⟨hj.1, fun {k nk v} hk hv hmem => ?_⟩
    have hjk := List.all_eq_true.1 hj.2 k (mem_nodeIds_iff.2 (lt_of_live? hk))
    simp only [hk, Option.all_some] at hjk
    simpa [hmem] using List.all_eq_true.1 hjk v hv
  refine ⟨fun hn hp => List.length_eq_one_iff.1 (hnode hn hp).1, acyclic_of_lt ?_⟩
  rintro j k ⟨nj, nk, v, ⟨hnj, hp⟩, ⟨hnk, -⟩, hv, hop⟩
  exact (hnode hnj hp).2 hnk hv hop

/-- The nodes that are printed at their uses stay. Their operands stay, but for values that are not
printed where they are used: these show alike. -/
structure Spares (p : Label → Bool) (m m' : Module) : Prop where
  live : ∀ {j n}, m.live? j = some n → p (m.label n) = true →
    ∃ n', m'.live? j = some n' ∧ p (m'.label n') = true ∧ n'.results = n.results
  node : ∀ {j n'}, m'.live? j = some n' → p (m'.label n') = true →
    ∃ n, m.live? j = some n ∧ p (m.label n) = true ∧ n'.results = n.results ∧
      ∀ f : ValueId → Nat, (∀ v, m.Unpasted p v → f v = 0) → n'.operands.map f = n.operands.map f

namespace Spares

theorem refl (p : Label → Bool) (m : Module) : m.Spares p m where
  live hj hp := ⟨_, hj, hp, rfl⟩
  node hj hp := ⟨_, hj, hp, rfl, fun _ _ => rfl⟩

theorem unpasted_iff (h : m.Spares p m') : m'.Unpasted p v ↔ m.Unpasted p v := by
  constructor
  · intro hv j n hj hp hmem
    obtain ⟨n', hn', hp', hres⟩ := h.live hj hp
    exact hv j n' hn' hp' (hres ▸ hmem)
  · intro hv j n' hj hp hmem
    obtain ⟨n, hn, hp', hres, -⟩ := h.node hj hp
    exact hv j n hn hp' (hres ▸ hmem)

theorem trans (h : m.Spares p m') (h' : m'.Spares p m'') : m.Spares p m'' where
  live hj hp := by
    obtain ⟨n', hn', hp', hres⟩ := h.live hj hp
    obtain ⟨n'', hn'', hp'', hres'⟩ := h'.live hn' hp'
    exact ⟨n'', hn'', hp'', hres'.trans hres⟩
  node hj hp := by
    obtain ⟨n', hn', hp', hres', hops'⟩ := h'.node hj hp
    obtain ⟨n, hn, hp, hres, hops⟩ := h.node hn' hp'
    refine ⟨n, hn, hp, hres'.trans hres, fun f hf => ?_⟩
    exact (hops' f fun v hv => hf v (h.unpasted_iff.1 hv)).trans (hops f hf)

variable (h : m.Spares p m')

include h

/-- What is printed inside a node was so before. -/
theorem pastedIn (hk : m'.PastedIn p k j) : m.PastedIn p k j := by
  obtain ⟨nk, nj, v, ⟨hnk, hpk⟩, ⟨hnj, hpj⟩, hv, hop⟩ := hk
  obtain ⟨nk', hnk', hpk', hres, -⟩ := h.node hnk hpk
  obtain ⟨nj', hnj', hpj', -, hops⟩ := h.node hnj hpj
  have hv' : v ∈ nk'.results := hres ▸ hv
  refine ⟨nk', nj', v, ⟨hnk', hpk'⟩, ⟨hnj', hpj'⟩, hv', ?_⟩
  -- The value itself is told apart from all others.
  have hzero : ∀ w, m.Unpasted p w → (if w = v then 1 else 0) = 0 := fun w hw => by
    refine if_neg ?_
    rintro rfl
    exact hw k nk' hnk' hpk' hv'
  have hsame := hops _ hzero
  have hmem : 1 ∈ nj.operands.map fun w => if w = v then 1 else 0 :=
    List.mem_map.2 ⟨v, hop, if_pos rfl⟩
  rw [hsame] at hmem
  obtain ⟨w, hw, hone⟩ := List.mem_map.1 hmem
  obtain rfl : w = v := by
    by_contra hne
    simp [hne] at hone
  exact hw

theorem below (hj : m.Below p r j) : m'.Below p r j := by
  induction r generalizing j with
  | zero => exact hj
  | succ r ih => exact fun k hk => ih (hj k (h.pastedIn hk))

theorem shallow (hv : m.Shallow p v) : m'.Shallow p v := by
  obtain ⟨r, hr⟩ := hv
  refine ⟨r, fun j n' hj hp hmem => ?_⟩
  obtain ⟨n, hn, hp', hres, -⟩ := h.node hj hp
  exact h.below (hr j n hn hp' (hres ▸ hmem))

theorem singlePasted (hsingle : m.SinglePasted p) : m'.SinglePasted p := by
  intro j n' hj hp
  obtain ⟨n, hn, hp', hres, -⟩ := h.node hj hp
  obtain ⟨v, hv⟩ := hsingle hn hp'
  exact ⟨v, hres.trans hv⟩

theorem countsPasted (hf : m.CountsPasted p f) : m'.CountsPasted p f where
  plain hv := hf.plain fun j n hj hp => h.unpasted_iff.1 hv j n hj hp
  node hj hp hv := by
    obtain ⟨n, hn, hp', hres, hops⟩ := h.node hj hp
    rw [hf.node hn hp' (hres ▸ hv), hops f fun w hw => hf.plain hw]

end Spares

/-! ## Edits of plain nodes -/

/-- Whether a node is printed at its uses does not change if only its operands do. -/
theorem Kept.label_eq (hk : m.Kept m') (hw : WellFormed m) (hj : m.live? j = some nj) :
    m'.label nj = m.label nj := by
  have htypes : nj.results.map m'.type? = nj.results.map m.type? :=
    List.map_congr_left fun y hy => hk.type?_eq (hw.usable_of_mem_results hj hy)
  simp only [label, htypes]

theorem Creates.spares (h : m.Creates m' b pos id n types) (hw : WellFormed m)
    (hp : p (m'.label n) = false) : m.Spares p m' where
  live hj hpj := ⟨_, h.live hj, (h.kept.label_eq hw hj).symm ▸ hpj, rfl⟩
  node hj hpj := by
    obtain ⟨-, rfl⟩ | ⟨-, hold⟩ := h.live_cases hj
    · simp [hp] at hpj
    · exact ⟨_, hold, h.kept.label_eq hw hold ▸ hpj, rfl, fun _ _ => rfl⟩

/-- A value that shows alike takes the place of another one. -/
theorem Redirects.spares (h : m.Redirects m' (substitute old new)) (hw : WellFormed m)
    (hold : m.Unpasted p old) (hnew : m.Unpasted p new) : m.Spares p m' where
  live hj hpj := ⟨_, h.live hj, (h.kept.label_eq hw hj).symm ▸ hpj, rfl⟩
  node hj hpj := by
    obtain ⟨n, hn, rfl⟩ := h.live_cases hj
    refine ⟨n, hn, h.kept.label_eq hw hn ▸ hpj, rfl, fun f hf => ?_⟩
    simp only [substitute, List.map_map]
    refine List.map_congr_left fun w _ => ?_
    simp only [Function.comp_apply]
    split
    · next he => rw [hf _ hnew, he, hf _ hold]
    · rfl

theorem Erases.spares (h : m.Erases m' id) (hw : WellFormed m) (hn : m.live? id = some n)
    (hp : p (m.label n) = false) : m.Spares p m' where
  live {j nj} hj hpj := by
    have hne : j ≠ id := by
      rintro rfl
      obtain rfl := Option.some.inj (hj.symm.trans hn)
      simp [hp] at hpj
    exact ⟨_, h.live hj hne, (h.kept.label_eq hw hj).symm ▸ hpj, rfl⟩
  node hj hpj := by
    obtain ⟨-, hold⟩ := h.live_cases hj
    exact ⟨_, hold, h.kept.label_eq hw hold ▸ hpj, rfl, fun _ _ => rfl⟩

/-- Names and marks have no part in it where the operation tells what is printed at its uses. -/
theorem Relabels.spares (h : m.Relabels m' id name twoState) :
    m.Spares Label.isAlwaysInline m' where
  live hj hpj := ⟨_, h.live hj, hpj, rfl⟩
  node hj hpj := by
    obtain ⟨nj, hnj, rfl⟩ := h.live_cases hj
    exact ⟨nj, hnj, hpj, rfl, fun _ _ => rfl⟩

/-! ## How many copies it takes -/

theorem Creates.length_usesOf (h : m.Creates m' b pos id n types) (hw : WellFormed m)
    (hw' : WellFormed m') (v : ValueId) :
    (m'.usesOf v).length = (m.usesOf v).length + n.operands.count v := by
  have hnew : ∀ {q}, q.node = id → ¬ m.Uses q v := fun {q} hq ⟨nq, hnq, _⟩ => h.ne hnq hq
  have hperm : (m'.usesOf v).Perm (m.usesOf v ++ usesAmong id v 0 n.operands) := by
    refine (List.perm_ext_iff_of_nodup (nodup_usesOf hw' v) (List.nodup_append.2
      ⟨nodup_usesOf hw v, nodup_usesAmong _ _ _ _, ?_⟩)).2 fun q => ?_
    · rintro q hq q' hq' rfl
      exact hnew (mem_usesAmong_iff.1 hq').1 ((mem_usesOf_iff hw).1 hq)
    · rw [mem_usesOf_iff hw', h.uses_iff, List.mem_append, mem_usesOf_iff hw, mem_usesAmong_iff]
      simp
  rw [hperm.length_eq, List.length_append, length_usesAmong]

theorem Erases.length_usesOf (h : m.Erases m' id) (hw : WellFormed m) (hw' : WellFormed m')
    (hn : m.live? id = some n) (v : ValueId) :
    (m'.usesOf v).length + n.operands.count v = (m.usesOf v).length := by
  have hperm : (m.usesOf v).Perm (m'.usesOf v ++ usesAmong id v 0 n.operands) := by
    refine (List.perm_ext_iff_of_nodup (nodup_usesOf hw v) (List.nodup_append.2
      ⟨nodup_usesOf hw' v, nodup_usesAmong _ _ _ _, ?_⟩)).2 fun q => ?_
    · rintro q hq q' hq' rfl
      exact (h.uses_iff.1 ((mem_usesOf_iff hw').1 hq)).2 (mem_usesAmong_iff.1 hq').1
    · rw [mem_usesOf_iff hw, List.mem_append, mem_usesOf_iff hw', h.uses_iff, mem_usesAmong_iff]
      constructor
      · intro hq
        by_cases he : q.node = id
        · obtain ⟨nq, hnq, hget⟩ := hq
          obtain rfl := Option.some.inj (hn.symm.trans (he ▸ hnq))
          exact Or.inr ⟨he, Nat.zero_le _, hget⟩
        · exact Or.inl ⟨hq, he⟩
      · rintro (⟨hq, -⟩ | ⟨he, -, hget⟩)
        · exact hq
        · exact ⟨n, he ▸ hn, hget⟩
  rw [hperm.length_eq, List.length_append, length_usesAmong]

theorem length_usesOf_congr (hw : WellFormed m) (hw' : WellFormed m')
    (h : ∀ q, m'.Uses q v ↔ m.Uses q v) : (m'.usesOf v).length = (m.usesOf v).length := by
  refine List.Perm.length_eq ((List.perm_ext_iff_of_nodup (nodup_usesOf hw' v)
    (nodup_usesOf hw v)).2 fun q => ?_)
  rw [mem_usesOf_iff hw', mem_usesOf_iff hw, h]

theorem count_substitute (hold : v ≠ old) (hnew : v ≠ new) (j : NodeId) (ops : List ValueId) :
    (substitute old new j ops).count v = ops.count v := by
  induction ops with
  | nil => rfl
  | cons w ops ih =>
    rw [substitute, List.map_cons, List.count_cons, List.count_cons]
    refine congrArg₂ _ ih ?_
    split
    · next he => simp [he, hold.symm, hnew.symm]
    · rfl

theorem Redirects.length_usesOf (h : m.Redirects m' (substitute old new)) (hw : WellFormed m)
    (hw' : WellFormed m') (hold : v ≠ old) (hnew : v ≠ new) :
    (m'.usesOf v).length = (m.usesOf v).length :=
  length_usesOf_congr hw hw' fun q => by simp [h.uses_substitute_iff, hold, hnew]

/-- The copies of what is printed at its uses are as many as its uses are. -/
theorem leftToCopy_congr (hk : m.Kept m') (hsame : ∀ v, f v = 0 ∨
    (m'.usesOf v).length = (m.usesOf v).length) : m'.leftToCopy f = m.leftToCopy f := by
  rw [leftToCopy_eq_sum hk.values_size, leftToCopy]
  refine Finset.sum_congr rfl fun i _ => ?_
  obtain hzero | hlen := hsame ⟨i⟩
  · rw [hzero, Nat.mul_zero, Nat.mul_zero]
  · rw [hlen]

/-! ## How many nodes there are -/

theorem Fits.of_le {a b : Nat} (h : m.Fits a) (hle : m'.nodes.size + b ≤ m.nodes.size + a) :
    m'.Fits b := lt_of_le_of_lt (Nat.mul_le_mul_right _ hle) h

theorem nodes_size_of_replaceUses (hr : Recorded m) (h : m.replaceUses old new = .ok m') :
    m'.nodes.size = m.nodes.size := by
  obtain ⟨⟨f, hf, -, -⟩, -, -⟩ := hr.replaceUses h
  exact hf.nodes_size

theorem nodes_size_of_setName {hint : Option Name} (h : m.setName id hint = .ok m') :
    m'.nodes.size = m.nodes.size := (Relinks.of_modifyNode h).nodes_size

theorem nodes_size_of_setTwoState {mark : Bool} (h : m.setTwoState id mark = .ok m') :
    m'.nodes.size = m.nodes.size := (Relinks.of_modifyNode h).nodes_size

theorem nodes_size_of_eraseNode (hn : m.live? id = some n) (hr : n.regions = [])
    (h : m.eraseNode id = .ok m') : m'.nodes.size = m.nodes.size := by
  obtain ⟨nd, hid, he, rfl⟩ := exists_of_live? hn
  obtain ⟨-, m₁, m₂, h₁, h₂, h₃⟩ := eraseNode_eq_ok hid he hr h
  obtain ⟨f, hf, -⟩ := removeUses_eq_ok h₁
  obtain ⟨values, hm₁⟩ := hf.rest
  have hid₁ : m₁.node? id = some nd := by
    rw [hm₁]
    exact hid
  rw [(Relinks.of_modifyNode h₃).nodes_size, (detach_eq_ok hid₁ h₂).relinks.nodes_size, hm₁]

end Module

namespace Prep

variable {β : Type} {p : Label → Bool} {m m' : Module} {names : NameTable} {stats : Stats}
  {anchor id : NodeId} {n na : Node}
  {op : Op} {operands : List ValueId} {type : TypeId} {loc : Loc} {old new : ValueId}
  {f : Nat → Unit → Prep β} {good : β → State → Prop} {short : Prop}

/-- There is room for all copies if it is enough for those that are left. -/
theorem Crowds.not_fits {f : ValueId → Nat} (h : Crowds p m) (hs : Sound m)
    (hf : m.CountsPasted p f) : ¬ m.Fits (m.leftToCopy f + 1) := by
  obtain ⟨m', hm', hcrowded⟩ := h
  obtain ⟨f', -, hsize⟩ := hm'.exists_countsPasted hs hf
  exact fun hfits => hcrowded (hfits.of_le (by omega))

/-- After edits that spare what is printed at its uses there is room for as many copies as before. -/
theorem Crowds.not_fits_of_spares {k : Nat} (h : Crowds p m') (hspares : m.Spares p m')
    (hs : Sound m) (hs' : Sound m') (hk : m.Kept m') (hsize : m'.nodes.size = m.nodes.size + k)
    (huses : ∀ v, ¬ m.Unpasted p v → (m'.usesOf v).length = (m.usesOf v).length)
    (hacyclic : ∀ j, ¬ Relation.TransGen (m.PastedIn p) j j) : ¬ m.Fits (m.copies p + k + 1) := by
  have hf := Module.countsPasted hs.toWellFormed hacyclic
  have hleft : m'.leftToCopy (m.pastedCount p (m.nodes.size + 1)) = m.copies p := by
    refine Module.leftToCopy_congr hk fun v => ?_
    by_cases hv : m.Unpasted p v
    · exact Or.inl (hf.plain hv)
    · exact Or.inr (huses v hv)
  refine fun hfits => h.not_fits hs' (hspares.countsPasted hf) (hfits.of_le ?_)
  omega

/-! ## Edits that end -/

namespace Ends

/-- A node with one result is made before another one. -/
theorem create {f : Nat → NodeId × ValueId → Prep β} (hs : Sound m)
    (ha : m.live? anchor = some na) (hop : op.regionKinds = [])
    (huse : ∀ v ∈ operands, m.Usable v) (hshort : ¬ m.Fits 1 → short)
    (hf : ∀ id value m', m.Creates m' na.parent (.before anchor) id
      (.fresh op operands [value] na.parent loc) [type] → Sound m' →
      m'.nodes.size = m.nodes.size + 1 →
      Ends p (fun k => f k (id, value)) ⟨m', names, stats⟩ good short) :
    Ends p (fun k => create (.before anchor) op operands type loc >>= f k) ⟨m, names, stats⟩
      good short := by
  simp only [Prep.create, bind_assoc, pure_bind]
  refine .editWith (hs.toWellFormed.createNode_before_safe ha huse fun h => h) hshort
    fun id m' hm => ?_
  obtain ⟨hc, hs'⟩ := hs.createNode (hs.in_before ha) (hs.placed ha) hop huse hm
  obtain ⟨nd, hnd, -, hcore⟩ := Module.exists_of_live? hc.live?_self
  have hresults : nd.results = [⟨m.values.size⟩] := congrArg Node.results hcore
  refine .query (result_eq_ok_iff.2 ⟨nd, hnd, by rw [hresults]; rfl⟩) ?_
  exact hf id _ m' hc hs' (Module.nodes_size_of_createNode hm)

theorem setTwoState {mark : Bool} (hs : Sound m) (hn : m.live? id = some n)
    (hf : ∀ m', m.Relabels m' id (fun name => name) (fun _ => mark) → Sound m' →
      m'.nodes.size = m.nodes.size →
      Ends p (fun k => f k ()) ⟨m', names, stats⟩ good short) :
    Ends p (fun k => Prep.edit (·.setTwoState id mark) >>= f k) ⟨m, names, stats⟩ good short := by
  obtain ⟨m', hm⟩ := Module.exists_modifyNode (f := fun n => { n with twoState := mark })
    (Module.lt_of_live? hn)
  obtain ⟨hr, hs'⟩ := hs.setTwoState hm
  exact .edit_ok hm (hf m' hr hs' (Module.nodes_size_of_setTwoState hm))

theorem setName {hint : Option Name} (hs : Sound m) (hn : m.live? id = some n)
    (hf : ∀ m', m.Relabels m' id (fun _ => hint) (fun t => t) → Sound m' →
      m'.nodes.size = m.nodes.size →
      Ends p (fun k => f k ()) ⟨m', names, stats⟩ good short) :
    Ends p (fun k => Prep.edit (·.setName id hint) >>= f k) ⟨m, names, stats⟩ good short := by
  obtain ⟨m', hm⟩ := Module.exists_modifyNode (f := fun n => { n with name := hint })
    (Module.lt_of_live? hn)
  obtain ⟨hr, hs'⟩ := hs.setName hm
  exact .edit_ok hm (hf m' hr hs' (Module.nodes_size_of_setName hm))

theorem replaceUses (hs : Sound m) (hold : m.type? old = some type)
    (hnew : m.Usable new)
    (hf : ∀ m', m.Redirects m' (substitute old new) → Sound m' →
      m'.nodes.size = m.nodes.size →
      Ends p (fun k => f k ()) ⟨m', names, stats⟩ good short) :
    Ends p (fun k => Prep.edit (·.replaceUses old new) >>= f k) ⟨m, names, stats⟩ good short := by
  obtain ⟨m', hm⟩ := hs.toWellFormed.exists_replaceUses (Module.lt_of_type? hold) hnew
  obtain ⟨hr, hs'⟩ := hs.replaceUses hnew hm
  exact .edit_ok hm (hf m' hr hs' (Module.nodes_size_of_replaceUses hs.toWellFormed.recorded hm))

/-- A node without regions is erased whose results are unused. -/
theorem eraseNode (hs : Sound m) (hn : m.live? id = some n) (hr : n.regions = [])
    (hunused : ∀ v ∈ n.results, ∀ u, ¬ m.Uses u v)
    (hf : ∀ m', m.Erases m' id → Sound m' → m'.nodes.size = m.nodes.size →
      Ends p (fun k => f k ()) ⟨m', names, stats⟩ good short) :
    Ends p (fun k => Prep.edit (·.eraseNode id) >>= f k) ⟨m, names, stats⟩ good short := by
  obtain ⟨m', hm⟩ := hs.toWellFormed.exists_eraseNode hn hr hunused
  obtain ⟨-, he, hs'⟩ := hs.eraseNode hn hr hm
  exact .edit_ok hm (hf m' he hs' (Module.nodes_size_of_eraseNode hn hr hm))

end Ends

end Prep

end NetPrep
