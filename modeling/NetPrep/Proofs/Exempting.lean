import Mathlib
import NetPrep.Prepare.Prettify
import NetPrep.Proofs.Legalizing
import NetPrep.Proofs.Shrinking

/-!
# Expressions that need no temporary

Some expressions are left alone: storage, reads, constants, and those whose only use names the value
anyway, directly or behind a bitcast. A node that is given a temporary is of the last kind afterwards,
since its value only flows into the temporary, and no other node leaves these kinds.
-/

namespace NetPrep

namespace Module

variable {m m' : Module} {v w result storage : ValueId} {id j : NodeId} {n n' : Node} {u : Use}

/-- The only use of a value. -/
def OnlyUse (m : Module) (v : ValueId) (u : Use) : Prop := ∀ w, m.Uses w v ↔ w = u

/-- The only use of a value is by an assignment or the end of the module. -/
def IsNamed (m : Module) (v : ValueId) : Prop :=
  ∃ u n, m.OnlyUse v u ∧ m.live? u.node = some n ∧ n.op.namesOperand = true

/-- A node that has no temporary: it has no result, what it computes is storage, or a read, or a
constant, or the only use of its value names it, or is an instance, or a bitcast whose value is
named. -/
def IsExempt (m : Module) (n : Node) : Prop :=
  n.results = [] ∨ n.op = .read ∨ n.op.isConstant = true ∨ ∃ v ∈ n.results,
    (∃ t, m.type? v = some t ∧ m.types.isStorage t = .ok true) ∨ m.IsNamed v ∨
    ∃ u user, m.OnlyUse v u ∧ m.live? u.node = some user ∧
      (user.op.isInstance = true ∨ user.op = .bitcast ∧ ∃ w ∈ user.results, m.IsNamed w)

theorem Uses.unique (h : m.Uses u v) (h' : m.Uses u w) : v = w := by
  obtain ⟨n, hn, hv⟩ := h
  obtain ⟨n', hn', hw⟩ := h'
  obtain rfl := Option.some.inj (hn.symm.trans hn')
  exact Option.some.inj (hv.symm.trans hw)

/-! ## A node that is given a temporary -/

/-- The uses of a value that is not the storage are gone if they read the storage now. -/
theorem ReadsFor.uses_iff {type : TypeId} {loc : Loc} {uses : List Use} {old : ValueId}
    (h : ReadsFor old storage type loc uses m m') (hv : m.Usable v) (hne : v ≠ storage) :
    m'.Uses u v ↔ u ∉ uses ∧ m.Uses u v := by
  induction h with
  | nil => simp
  | cons h _ ih =>
    obtain ⟨value, b, -, -, -, -, -, huses⟩ := h.exists_value
    rw [ih (h.usable hv), huses hv hne, List.mem_cons]
    tauto

theorem ReadsFor.back {type : TypeId} {loc : Loc} {uses : List Use} {old : ValueId}
    (h : ReadsFor old storage type loc uses m m') (hj : m'.live? j = some n') :
    (∃ n, m.live? j = some n) ∨ n'.op = .read ∧ n'.results.length = 1 ∧ n'.regions = [] := by
  induction h with
  | nil => exact Or.inl ⟨_, hj⟩
  | @cons u us read m m₁ m' h hrest ih =>
    obtain ⟨n₁, hn₁⟩ | hread := ih hj
    · obtain ⟨value, b, -, -, hself, hback, -⟩ := h.exists_value
      by_cases hjr : j = read
      · subst hjr
        obtain ⟨ops, hself'⟩ := hrest.live hself
        obtain rfl := Option.some.inj (hself'.symm.trans hj)
        exact Or.inr ⟨rfl, rfl, rfl⟩
      · obtain ⟨n, hn, -⟩ := hback hn₁ hjr
        exact Or.inl ⟨n, hn⟩
    · exact Or.inr hread

/-- What giving a node a temporary leaves of the nodes and of the uses. -/
structure Detours (m m' : Module) (id : NodeId) (result : ValueId) : Prop where
  sound : Sound m'
  kept : m.Kept m'
  lessens : m.Lessens m'
  live : ∀ {j n}, m.live? j = some n → ∃ n', m'.live? j = some n' ∧ n'.op = n.op ∧
    n'.results = n.results ∧ n'.parent = n.parent ∧ n'.regions = n.regions ∧
    (j ≠ id → n'.name = n.name)
  /-- The new nodes are reads, and others that are no expressions. -/
  back : ∀ {j n'}, m'.live? j = some n' → (∃ n, m.live? j = some n) ∨
    n'.regions = [] ∧ (n'.op.isExpression = true → n'.op = .read ∧ n'.results.length = 1)
  uses : ∀ {u v}, m.Usable v → v ≠ result → (m'.Uses u v ↔ m.Uses u v)
  named : m'.IsNamed result

theorem temporaryOps_isExpression (m : Module) (b : BlockId) :
    (m.temporaryOps b).1.isExpression = false ∧ (m.temporaryOps b).2.isExpression = false := by
  obtain h | h := m.temporaryOps_cases b <;> exact h ▸ ⟨rfl, rfl⟩

theorem temporaryOps_namesOperand (m : Module) (b : BlockId) :
    (m.temporaryOps b).2.namesOperand = true := by
  obtain h | h := m.temporaryOps_cases b <;> exact h ▸ rfl

theorem SpillsResult.detours {name : Option Name} {atFront : Bool}
    (h : m.SpillsResult id result name atFront m') (hs : Sound m) : m.Detours m' id result := by
  have hless := h.lessens hs
  have hs' := h.sound
  have hk := h.kept
  have hlive : ∀ {j n}, m.live? j = some n → ∃ ops, m'.live? j = some { n with operands := ops } :=
    fun hj => h.live hj
  obtain ⟨hn, hres, -, hdecl, -, hs₁, huses, -, hreads, hconn, hs₃, hmove⟩ := h
  rename_i n type stype decl conn storage uses m₁ m₂ m₃
  obtain ⟨hop₁, hop₂⟩ := m.temporaryOps_isExpression n.parent
  have hnames := m.temporaryOps_namesOperand n.parent
  have hstorage : ∀ {v}, m.Usable v → v ≠ storage := fun hv he => by
    have hlt := WellFormed.lt_of_usable hv
    have hindex := hdecl.index_result (List.mem_singleton_self storage)
    rw [he] at hlt
    omega
  have hresult : m.Usable result := hs.usable_of_mem_results hn hres
  -- Moving the declaration changes neither the uses nor what the nodes are.
  have huses₃ : ∀ {u v}, m'.Uses u v ↔ m₃.Uses u v := fun {u v} => by
    cases atFront with
    | true => exact hmove ▸ Iff.rfl
    | false => exact hmove.1.uses_iff
  have hlive₃ : ∀ {j n'}, m'.live? j = some n' → ∃ n₃, m₃.live? j = some n₃ ∧ n'.op = n₃.op ∧
      n'.results = n₃.results ∧ n'.regions = n₃.regions := fun hj => by
    cases atFront with
    | true => exact ⟨_, hmove ▸ hj, rfl, rfl, rfl⟩
    | false =>
      obtain ⟨n₃, hn₃, rfl⟩ := hmove.1.live_cases hj
      exact ⟨n₃, hn₃, rfl, rfl, rfl⟩
  have huses₂ : ∀ {u v}, m.Usable v → (m₂.Uses u v ↔ u ∉ uses ∧ m.Uses u v) := fun {u v} hv => by
    have hcreated : ¬ (u.node = decl ∧ ([] : List ValueId)[u.operand]? = some v) :=
      fun h => by cases h.2
    rw [hreads.uses_iff (hdecl.usable hv) (hstorage hv), hdecl.uses_iff]
    exact and_congr_right fun _ => or_iff_left hcreated
  have hgone : ∀ {u}, ¬ m₂.Uses u result := fun {u} hu => by
    obtain ⟨hnot, hu⟩ := (huses₂ hresult).1 hu
    exact hnot ((huses u).2 (hdecl.uses_iff.2 (Or.inl hu)))
  refine ⟨hs', hk, hless, fun hj => ?_, fun {j n'} hj => ?_, fun {u v} hv hne => ?_, ?_⟩
  · obtain ⟨ops, hj'⟩ := hlive hj
    exact ⟨_, hj', rfl, rfl, rfl, rfl, fun _ => rfl⟩
  · obtain ⟨n₃, hn₃, hop, hresults, hregions⟩ := hlive₃ hj
    rw [hop, hresults, hregions]
    obtain ⟨rfl, rfl⟩ | ⟨-, hn₂⟩ := hconn.live_cases hn₃
    · exact Or.inr ⟨rfl, fun he => absurd (hop₂.symm.trans he) Bool.false_ne_true⟩
    · obtain ⟨n₁, hn₁⟩ | ⟨hread, hone, hnil⟩ := hreads.back hn₂
      · obtain ⟨rfl, rfl⟩ | ⟨-, hold⟩ := hdecl.live_cases hn₁
        · obtain ⟨ops, hn₂'⟩ := hreads.live hn₁
          obtain rfl := Option.some.inj (hn₂'.symm.trans hn₂)
          exact Or.inr ⟨rfl, fun he => absurd (hop₁.symm.trans he) Bool.false_ne_true⟩
        · exact Or.inl ⟨n₁, hold⟩
      · exact Or.inr ⟨hnil, fun _ => ⟨hread, hone⟩⟩
  · have hcreated : ¬ (u.node = conn ∧ [storage, result][u.operand]? = some v) := by
      rintro ⟨-, hv'⟩
      have hmem : v ∈ [storage, result] := List.mem_of_getElem? hv'
      simp [hstorage hv, hne] at hmem
    rw [huses₃, hconn.uses_iff]
    refine (or_iff_left hcreated).trans ((huses₂ hv).trans (and_iff_right_of_imp fun hu hmem => ?_))
    exact hne (Uses.unique (hdecl.uses_iff.2 (Or.inl hu)) ((huses u).1 hmem))
  · obtain ⟨nconn, hnconn, hop⟩ : ∃ n', m'.live? conn = some n' ∧ n'.op.namesOperand = true := by
      cases atFront with
      | true => exact ⟨_, hmove ▸ hconn.live?_self, hnames⟩
      | false => exact ⟨_, hmove.1.live hconn.live?_self, hnames⟩
    refine ⟨⟨conn, 1⟩, nconn, fun u => ?_, hnconn, hop⟩
    rw [huses₃, hconn.uses_iff, or_iff_right hgone]
    obtain ⟨j, _ | _ | k⟩ := u
    · simp [Node.fresh, (hstorage hresult).symm]
    · simp [Node.fresh]
    · simp [Node.fresh]

theorem Spills.detours {atFront : Bool} (h : m.Spills id atFront m') (hs : Sound m)
    (hn : m.live? id = some n) (hresult : n.results = [result]) : m.Detours m' id result := by
  have hless := h.lessens hs
  cases h with
  | single hn₁ hv hl hs₁ h =>
    obtain rfl := Option.some.inj (hn.symm.trans hn₁)
    obtain rfl : result = _ := List.singleton_inj.1 (hresult.symm.trans hv)
    obtain ⟨hs', hk, -, hlive, hback, huses, hnamed⟩ := h.detours hs₁
    refine ⟨hs', hl.kept.trans hk, hless, fun {j n} hj => ?_, fun hj => ?_, fun hv hne => ?_, hnamed⟩
    · obtain ⟨n', hn', hop, hresults, hparent, hregions, hname⟩ := hlive (hl.live hj)
      refine ⟨n', hn', hop, hresults, hparent, hregions, fun hne => ?_⟩
      rw [hname hne, if_neg hne]
    · obtain ⟨n₁, hn₁⟩ | hnew := hback hj
      · obtain ⟨n, hn, -⟩ := hl.live_cases hn₁
        exact Or.inl ⟨n, hn⟩
      · exact Or.inr hnew
    · exact (huses (hl.usable hv) hne).trans hl.uses_iff
  | all hn₁ h =>
    obtain rfl := Option.some.inj (hn.symm.trans hn₁)
    rw [hresult] at h
    cases h with
    | cons h hrest =>
      cases hrest
      exact h.detours hs

namespace Detours

/-- A value that is named stays so. -/
theorem isNamed (h : m.Detours m' id result) (hv : m.Usable v) (hnamed : m.IsNamed v) :
    m'.IsNamed v := by
  by_cases he : v = result
  · exact he ▸ h.named
  · obtain ⟨u, n, honly, hn, hop⟩ := hnamed
    obtain ⟨n', hn', hop', -⟩ := h.live hn
    exact ⟨u, n', fun w => (h.uses hv he).trans (honly w), hn', hop' ▸ hop⟩

/-- A node that has no temporary stays so. -/
theorem isExempt (h : m.Detours m' id result) (hs : Sound m) (hn : m.live? j = some n)
    (hop : n'.op = n.op) (hresults : n'.results = n.results) (hexempt : m.IsExempt n) :
    m'.IsExempt n' := by
  unfold IsExempt
  rw [hop, hresults]
  refine hexempt.imp_right (Or.imp_right (Or.imp_right ?_))
  rintro ⟨v, hmem, hv⟩
  have husable := hs.usable_of_mem_results hn hmem
  refine ⟨v, hmem, ?_⟩
  obtain ⟨t, ht, hstorage⟩ | hnamed | ⟨u, user, honly, huser, hkind⟩ := hv
  · refine Or.inl ⟨t, h.kept.type? ht, ?_⟩
    obtain ⟨stored, hstored, his⟩ := bind_eq_ok_iff.1 hstorage
    obtain ⟨ty, hty, hstored⟩ := bind_eq_ok_iff.1 hstored
    exact bind_eq_ok_iff.2 ⟨stored, bind_eq_ok_iff.2 ⟨ty, h.kept.types hty, hstored⟩, his⟩
  · exact Or.inr (Or.inl (h.isNamed husable hnamed))
  · by_cases he : v = result
    · exact Or.inr (Or.inl (he ▸ h.named))
    · obtain ⟨user', huser', hop', hresults', -⟩ := h.live huser
      refine Or.inr (Or.inr ⟨u, user', fun w => (h.uses husable he).trans (honly w), huser', ?_⟩)
      rw [hop', hresults']
      refine hkind.imp_right (And.imp_right ?_)
      rintro ⟨w, hw, hnamed⟩
      exact ⟨w, hw, h.isNamed (hs.usable_of_mem_results huser hw) hnamed⟩

end Detours

end Module

end NetPrep
