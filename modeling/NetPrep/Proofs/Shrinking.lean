import Mathlib
import NetPrep.Proofs.Spilling
import NetPrep.Proofs.Terms

/-!
# Edits that add no terms

Giving a node temporaries cuts expressions short: a use of its value becomes a read of a declaration,
which is one term. No value has more terms afterwards, and no value comes to depend on itself.
-/

namespace NetPrep

namespace Module

variable {m m' m'' : Module} {f f' : ValueId → Nat} {v w storage old : ValueId} {id : NodeId}
  {n : Node}

/-- Values stay usable and independent of themselves, and have no more terms than before. -/
structure Lessens (m m' : Module) : Prop where
  usable : ∀ {v}, m.Usable v → m'.Usable v
  wellFounded : WellFounded m.Feeds → WellFounded m'.Feeds
  terms : ∀ {f f'}, WellFounded m.Feeds → m.CountsTerms f → m'.CountsTerms f' →
    ∀ {v}, m.Usable v → f' v ≤ f v

theorem Lessens.trans (h : Lessens m m') (hw : WellFormed m') (h' : Lessens m' m'') :
    Lessens m m'' where
  usable hv := h'.usable (h.usable hv)
  wellFounded hfeeds := h'.wellFounded (h.wellFounded hfeeds)
  terms hfeeds hf hf'' _ hv := by
    obtain ⟨f', hf'⟩ := exists_countsTerms hw (h.wellFounded hfeeds)
    exact (h'.terms (h.wellFounded hfeeds) hf' hf'' (h.usable hv)).trans (h.terms hfeeds hf hf' hv)

/-- Nothing depends on itself afterwards if the nodes that are new or have new operands only bring in
values that do not. -/
theorem wellFounded_of_operands (hfeeds : WellFounded m.Feeds)
    (hnodes : ∀ {id n'}, m'.live? id = some n' → (∀ v ∈ n'.results, Acc m'.Feeds v) ∨
      ∃ n, m.live? id = some n ∧ n'.results = n.results ∧
        ∀ w ∈ n'.operands, w ∈ n.operands ∨ Acc m'.Feeds w) : WellFounded m'.Feeds := by
  refine ⟨fun v => ?_⟩
  induction v using hfeeds.induction with
  | _ v ih =>
    refine .intro v fun w => ?_
    rintro ⟨id, n', hn', hv, hw⟩
    obtain hacc | ⟨n, hn, hresults, hops⟩ := hnodes hn'
    · exact (hacc v hv).inv ⟨id, n', hn', hv, hw⟩
    · obtain hmem | hacc := hops w hw
      · exact ih w ⟨id, n, hn, hresults ▸ hv, hmem⟩
      · exact hacc

/-- There are no more terms if operands are only exchanged for values of one term. -/
theorem terms_le_of_operands (hw : WellFormed m) (hfeeds : WellFounded m.Feeds)
    (hf : m.CountsTerms f) (hf' : m'.CountsTerms f') (hk : m.Kept m')
    (hnodes : ∀ {id n}, m.live? id = some n → ∃ n', m'.live? id = some n' ∧
      n'.results = n.results ∧ List.Forall₂ (fun w w' => w' = w ∨ f' w' = 1) n.operands n'.operands)
    (hv : m.Usable v) : f' v ≤ f v := by
  induction v using hfeeds.induction with
  | _ v ih =>
    obtain ⟨d, hd, hlive⟩ := hv
    cases d with
    | port i => rw [hf.port hd, hf'.port (hk.def? hd)]
    | result id i =>
      obtain ⟨n, hn⟩ := hlive rfl
      obtain ⟨n', hn', hresults, hops⟩ := hnodes hn
      obtain ⟨n₁, hn₁, hi⟩ := hw.definition hd
      obtain rfl := Option.some.inj (hn₁.symm.trans (core_of_live? hn))
      have hv := List.mem_of_getElem? hi
      have hv' : v ∈ n'.results := hresults ▸ hv
      cases hnil : n₁.operands with
      | nil =>
        rw [hnil, List.forall₂_nil_left_iff] at hops
        rw [hf.leaf hn hv hnil, hf'.leaf hn' hv' hops]
      | cons w ws =>
        have hne : n₁.operands ≠ [] := by simp [hnil]
        have hne' : n'.operands ≠ [] := fun he => by
          rw [he, List.forall₂_nil_right_iff] at hops
          exact hne hops
        rw [hf.node hn hv hne, hf'.node hn' hv' hne']
        have hle : ∀ w ∈ n₁.operands, f' w ≤ f w ∧ 1 ≤ f w := fun w hmem =>
          have hw' := hw.usable_operand hn hmem
          ⟨ih w ⟨id, n₁, hn, hv, hmem⟩ hw', hf.one_le hw hfeeds hw'⟩
        refine List.Forall₂.sum_le_sum (List.forall₂_map_left_iff.2 (List.forall₂_map_right_iff.2 ?_))
        refine ((List.forall₂_and_left _ _).2 ⟨hle, hops⟩).flip.imp fun w' w hw => ?_
        obtain ⟨⟨hle, hone⟩, rfl | hone'⟩ := hw
        · exact hle
        · exact hone'.trans_le hone

/-- An edit after which every node has the same operands. -/
theorem lessens_of_live (hw : WellFormed m) (hk : m.Kept m')
    (hnodes : ∀ {id n}, m.live? id = some n → ∃ n', m'.live? id = some n' ∧
      n'.results = n.results ∧ n'.operands = n.operands)
    (hback : ∀ {id n'}, m'.live? id = some n' → ∃ n, m.live? id = some n ∧
      n'.results = n.results ∧ n'.operands = n.operands) : m.Lessens m' where
  usable hv := hv.mono hk fun hn => by
    obtain ⟨n', hn', -⟩ := hnodes hn
    exact ⟨n', hn'⟩
  wellFounded hfeeds := wellFounded_of_operands hfeeds fun hn' => by
    obtain ⟨n, hn, hresults, hops⟩ := hback hn'
    exact Or.inr ⟨n, hn, hresults, fun w hmem => Or.inl (hops ▸ hmem)⟩
  terms hfeeds hf hf' _ hv := terms_le_of_operands hw hfeeds hf hf' hk (fun hn => by
    obtain ⟨n', hn', hresults, hops⟩ := hnodes hn
    exact ⟨n', hn', hresults, hops ▸ List.forall₂_same.2 fun _ _ => Or.inl rfl⟩) hv

theorem Lessens.refl (hw : WellFormed m) : Lessens m m :=
  lessens_of_live hw (.refl m) (fun hn => ⟨_, hn, rfl, rfl⟩) fun hn => ⟨_, hn, rfl, rfl⟩

theorem Relabels.lessens {name : Option Name → Option Name} {twoState : Bool → Bool}
    (h : m.Relabels m' id name twoState) (hw : WellFormed m) : m.Lessens m' :=
  lessens_of_live hw h.kept (fun hn => ⟨_, h.live hn, rfl, rfl⟩) fun hn' => by
    obtain ⟨n, hn, rfl⟩ := h.live_cases hn'
    exact ⟨n, hn, rfl, rfl⟩

theorem Moves.lessens {b : BlockId} {pos : Position} (h : m.Moves m' b pos id)
    (hw : WellFormed m) : m.Lessens m' :=
  lessens_of_live hw h.kept (fun hn => ⟨_, h.live hn, rfl, rfl⟩) fun hn' => by
    obtain ⟨n, hn, rfl⟩ := h.live_cases hn'
    exact ⟨n, hn, rfl, rfl⟩

/-- A value of a node without operands. -/
def IsAtomic (m : Module) (v : ValueId) : Prop :=
  ∃ id n, m.live? id = some n ∧ v ∈ n.results ∧ n.operands = []

theorem IsAtomic.not_feeds (h : m.IsAtomic v) (hw : WellFormed m) : ¬ m.Feeds w v := by
  rintro ⟨id, n, hn, hv, hmem⟩
  obtain ⟨id', n', hn', hv', hnil⟩ := h
  obtain ⟨-, rfl⟩ := hw.eq_of_mem_results hn hn' hv hv'
  exact absurd (hnil ▸ hmem) List.not_mem_nil

/-- A new node without operands, or without results. -/
theorem Creates.lessens {b : BlockId} {pos : Position} {types : List TypeId}
    (h : m.Creates m' b pos id n types) (hw : WellFormed m) (hw' : WellFormed m')
    (hleaf : n.operands = [] ∨ n.results = []) : m.Lessens m' where
  usable hv := h.usable hv
  wellFounded hfeeds := wellFounded_of_operands hfeeds fun hj => by
    obtain ⟨rfl, rfl⟩ | ⟨-, hj⟩ := h.live_cases hj
    · refine Or.inl fun v hv => ?_
      obtain hnil | hnil := hleaf
      · have hv' : m'.IsAtomic v := ⟨_, _, h.live?_self, hv, hnil⟩
        exact .intro v fun w hfeed => absurd hfeed (hv'.not_feeds hw')
      · exact absurd (hnil ▸ hv) List.not_mem_nil
    · exact Or.inr ⟨_, hj, rfl, fun w hmem => Or.inl hmem⟩
  terms hfeeds hf hf' _ hv := terms_le_of_operands hw hfeeds hf hf' h.kept
    (fun hn => ⟨_, h.live hn, rfl, List.forall₂_same.2 fun _ _ => Or.inl rfl⟩) hv

theorem forall₂_pointAt {R : ValueId → ValueId → Prop} (hrefl : ∀ w, R w w) {u : Use}
    (hv : ∀ w, R w v) (j : NodeId) (ops : List ValueId) :
    List.Forall₂ R ops (pointAt u v j ops) := by
  unfold pointAt
  split
  · refine List.forall₂_iff_get.2 ⟨by simp, fun i h₁ h₂ => ?_⟩
    simp only [List.get_eq_getElem, List.getElem_set]
    split
    · exact hv _
    · exact hrefl _
  · exact List.forall₂_same.2 fun w _ => hrefl w

theorem mem_of_mem_pointAt {u : Use} {j : NodeId} {ops : List ValueId}
    (h : w ∈ pointAt u v j ops) : w ∈ ops ∨ w = v := by
  unfold pointAt at h
  split at h
  · exact List.mem_or_eq_of_mem_set h
  · exact Or.inl h

namespace ReadFor

variable {type : TypeId} {loc : Loc} {u : Use} {read : NodeId}

/-- What the nodes and the uses are after a use reads storage. -/
theorem exists_value (h : ReadFor old storage type loc u read m m') : ∃ value b,
    m.live? read = none ∧ ¬ m.Usable value ∧
    m'.live? read = some (.fresh .read [storage] [value] b loc) ∧
    (∀ {j n'}, m'.live? j = some n' → j ≠ read →
      ∃ n, m.live? j = some n ∧ n' = { n with operands := pointAt u value j n.operands }) ∧
    (∀ {j n}, m.live? j = some n →
      m'.live? j = some { n with operands := pointAt u value j n.operands }) ∧
    ∀ {w v}, m.Usable v → v ≠ storage → (m'.Uses w v ↔ w ≠ u ∧ m.Uses w v) := by
  obtain ⟨hu, hnu, hc, hs₁, hr, -⟩ := h
  rename_i nu value m₁
  have hread : m.live? read = none := hc.fresh ▸ live?_eq_none_of_fresh le_rfl
  have hvalue : ¬ m.Usable value := fun hv => by
    have hlt := WellFormed.lt_of_usable hv
    have hindex := hc.index_result (v := value) (List.mem_singleton_self _)
    omega
  have hne : read ≠ u.node := fun he => by
    rw [he, hnu] at hread
    cases hread
  refine ⟨value, nu.parent, hread, hvalue, ?_, fun hj hjr => ?_, fun hj => ?_, fun {w v} hv hvs => ?_⟩
  · rw [hr.live hc.live?_self]
    simp [pointAt, hne, Node.fresh]
  · obtain ⟨n, hn, rfl⟩ := hr.live_cases hj
    obtain ⟨rfl, -⟩ | ⟨-, hn⟩ := hc.live_cases hn
    · exact absurd rfl hjr
    · exact ⟨n, hn, rfl⟩
  · exact hr.live (hc.live hj)
  · have hcreated : ¬ (w.node = read ∧
        (Node.fresh .read [storage] [value] nu.parent loc).operands[w.operand]? = some v) := by
      rintro ⟨-, hops⟩
      exact hvs (List.mem_singleton.1 (List.mem_of_getElem? hops))
    rw [hr.uses_pointAt_iff (hc.uses_iff.2 (Or.inl hu)), hc.uses_iff, or_iff_left hcreated]
    split
    · next he => exact ⟨fun hv' => absurd (hv' ▸ hv) hvalue, fun h => absurd he h.1⟩
    · next hne => exact (and_iff_right hne).symm

theorem lessens (h : ReadFor old storage type loc u read m m') (hs : Sound m)
    (hleaf : m.IsAtomic storage) : m.Lessens m' ∧ m'.IsAtomic storage := by
  have hs' := h.sound
  have hk := h.kept
  obtain ⟨value, b, hread, hvalue, hself, hback, hlive, -⟩ := h.exists_value
  have hleaf' : m'.IsAtomic storage := by
    obtain ⟨id, n, hn, hv, hnil⟩ := hleaf
    refine ⟨id, _, hlive hn, hv, ?_⟩
    simp [hnil, pointAt]
  have hmem : value ∈ (Node.fresh .read [storage] [value] b loc).results := List.mem_singleton_self _
  have hacc : Acc m'.Feeds value := by
    refine .intro value fun w hfeed => ?_
    obtain ⟨id, n, hn, hv, hw⟩ := hfeed
    obtain ⟨rfl, rfl⟩ := hs'.toWellFormed.eq_of_mem_results hself hn hmem hv
    obtain rfl := List.mem_singleton.1 hw
    exact .intro w fun w' hfeed => absurd hfeed (hleaf'.not_feeds hs'.toWellFormed)
  have hone : ∀ {f'}, m'.CountsTerms f' → f' value = 1 := fun hf' => by
    obtain ⟨id, n, hn, hv, hnil⟩ := hleaf'
    rw [hf'.node hself hmem (List.cons_ne_nil _ _)]
    simp [Node.fresh, hf'.leaf hn hv hnil]
  refine ⟨⟨fun hv => hv.mono hk fun hn => ⟨_, hlive hn⟩, fun hfeeds => ?_,
    fun {f f'} hfeeds hf hf' v hv => ?_⟩, hleaf'⟩
  · refine wellFounded_of_operands hfeeds fun {id n'} hn' => ?_
    by_cases hid : id = read
    · subst hid
      obtain rfl := Option.some.inj (hself.symm.trans hn')
      exact Or.inl fun v hv => List.mem_singleton.1 hv ▸ hacc
    · obtain ⟨n, hn, rfl⟩ := hback hn' hid
      refine Or.inr ⟨n, hn, rfl, fun w hw => ?_⟩
      obtain hw | rfl := mem_of_mem_pointAt hw
      · exact Or.inl hw
      · exact Or.inr hacc
  · refine terms_le_of_operands hs.toWellFormed hfeeds hf hf' hk (fun hn => ⟨_, hlive hn, rfl, ?_⟩) hv
    exact forall₂_pointAt (fun w => Or.inl rfl) (fun w => Or.inr (hone hf')) _ _

end ReadFor

theorem ReadsFor.lessens {type : TypeId} {loc : Loc} {uses : List Use}
    (h : ReadsFor old storage type loc uses m m') (hs : Sound m) (hleaf : m.IsAtomic storage) :
    m.Lessens m' := by
  induction h with
  | nil => exact .refl hs.toWellFormed
  | cons h _ ih =>
    obtain ⟨hless, hleaf'⟩ := h.lessens hs hleaf
    exact hless.trans h.sound.toWellFormed (ih h.sound hleaf')

theorem SpillsResult.lessens {name : Option Name} {atFront : Bool}
    (h : m.SpillsResult id v name atFront m') (hs : Sound m) : m.Lessens m' := by
  obtain ⟨-, -, -, hdecl, -, hs₁, -, -, hreads, hconn, hs₃, hmove⟩ := h
  have hs₂ := hreads.sound hs₁
  have h₁ := hdecl.lessens hs.toWellFormed hs₁.toWellFormed (Or.inl rfl)
  have h₂ := hreads.lessens hs₁ ⟨_, _, hdecl.live?_self, List.mem_singleton_self _, rfl⟩
  have h₃ := hconn.lessens hs₂.toWellFormed hs₃.toWellFormed (Or.inr rfl)
  have h₁₃ := (h₁.trans hs₁.toWellFormed h₂).trans hs₂.toWellFormed h₃
  cases atFront with
  | true => exact hmove ▸ h₁₃
  | false => exact h₁₃.trans hs₃.toWellFormed (hmove.1.lessens hs₃.toWellFormed)

theorem SpillsResults.lessens {atFront : Bool} {vs : List ValueId}
    (h : SpillsResults id atFront vs m m') (hs : Sound m) : m.Lessens m' := by
  induction h with
  | nil => exact .refl hs.toWellFormed
  | cons h _ ih => exact (h.lessens hs).trans h.sound.toWellFormed (ih h.sound)

/-- Giving a node temporaries adds no terms. -/
theorem Spills.lessens {atFront : Bool} (h : m.Spills id atFront m') (hs : Sound m) :
    m.Lessens m' := by
  cases h with
  | single _ _ hl hs₁ h => exact (hl.lessens hs.toWellFormed).trans hs₁.toWellFormed (h.lessens hs₁)
  | all _ h => exact h.lessens hs

end Module

end NetPrep
