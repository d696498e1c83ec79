import Mathlib
import NetPrep.Proofs.Anchoring
import NetPrep.Proofs.Keeping.Temporary

/-!
# Instance ports

Letting the ports of an instance flow through wires misuses nothing: the names of an instance and of its
ports have strings behind them, and what is listed of an instance beforehand stays there.
-/

namespace NetPrep

open Prepare Prep

namespace Prep

variable {env : Env} {s s' : State} {inst : NodeId} {n : Node} {result : ValueId}

/-! ## Names -/

theorem resolveAll_keeps {ports : List (Option Name)} (hs : s.Orderly)
    (hports : ∀ x ∈ ports.reduceOption, s.names.Knows x) : (ports.mapM resolve?).Keeps env s := by
  induction ports generalizing s with
  | nil => exact .pure hs []
  | cons port ports ih =>
    rw [List.mapM_cons]
    refine .bind (resolve?_keeps hs fun x hx => hports x (by simp [hx])) fun _ s₁ _ hl₁ => ?_
    refine .bind (ih hl₁.orderly fun x hx => hl₁.names (hports x ?_)) fun _ _ _ hl₂ =>
      .pure hl₂.orderly _
    cases port with
    | none => exact hx
    | some y => exact List.mem_cons_of_mem y hx

theorem portNames_keeps {choose : List (Option Name) → List (Option Name) → List (Option Name)}
    {op : Op} (hs : s.Orderly) (hchoose : ∀ inputs outputs, choose inputs outputs ⊆ inputs ++ outputs)
    (hop : ∀ x ∈ op.portNames, s.names.Knows x) : (portNames choose op).Keeps env s := by
  unfold portNames
  split
  · next target name inputs outputs =>
    refine .bind (.resolve hs (hop name (by simp [Op.portNames]))) fun _ s₁ _ hl₁ =>
      .bind (resolveAll_keeps hl₁.orderly fun x hx => hl₁.names (hop x ?_)) fun _ _ _ hl₂ =>
        .pure hl₂.orderly _
    rw [List.reduceOption_mem_iff] at hx
    exact List.mem_cons_of_mem _ (List.reduceOption_mem_iff.2 (hchoose inputs outputs hx))
  · exact .pure hs _

/-! ## Outputs -/

theorem flowsDirectly_keeps {uses : List Use} (hs : s.Orderly) (hn : s.module.live? inst = some n)
    (hop : n.op.isInstance = true) (huses : ∀ u ∈ uses, s.module.Uses u result) :
    (flowsDirectly inst n.parent uses).Keeps env s := by
  unfold flowsDirectly
  split
  · next u =>
    obtain ⟨nu', hnu', -⟩ := huses u (by simp)
    obtain ⟨nu, hnu, -, rfl⟩ := Module.exists_of_live? hnu'
    refine .node hnu ?_
    split
    · exact .pure hs true
    · next hopu =>
      split
      · have hne : inst ≠ u.node := by
          rintro rfl
          obtain rfl := Option.some.inj (hn.symm.trans hnu')
          rw [show nu.core.op = .assign from hopu] at hop
          cases hop
        have hkinds : nu.core.op.regionKinds = [] := by
          rw [show nu.core.op = .assign from hopu]
          rfl
        exact .moveNode hs hnu' (hs.regions_eq_nil hnu' hkinds) (hs.sound.in_after hn) (hs.placed hn)
          (by simp) (by simpa using hne) fun s₁ _ hl₁ => .pure hl₁.orderly true
      · exact .pure hs false
    · exact .pure hs false
  · exact .pure hs false

theorem anchorOutputs_keeps (ho : env.oracle = .systemVerilog) {names : PortNames} {index : Nat}
    {results : List ValueId} (hs : s.Orderly) (hn : s.module.live? inst = some n)
    (hop : n.op.isInstance = true) (hresults : ∀ v ∈ results, v ∈ n.results) :
    (anchorOutputs inst names index results).Keeps env s := by
  induction results generalizing s n index with
  | nil => exact .pure hs ()
  | cons result rest ih =>
    have hmem := hresults result (by simp)
    have husable := hs.usable_of_mem_results hn hmem
    obtain ⟨type, htype⟩ := husable.exists_type
    have hinline := Op.isAlwaysInline_of_isInstance hop
    have hrest : ∀ {t : State} {n' : Node}, t.Orderly → t.module.live? inst = some n' → n'.op = n.op →
        n'.results = n.results → (anchorOutputs inst names (index + 1) rest).Keeps env t :=
      fun ht hn' hop' hres' => ih ht hn' (hop' ▸ hop) fun v hv =>
        hres' ▸ hresults v (List.mem_cons_of_mem _ hv)
    obtain ⟨nd, hnd, -, rfl⟩ := Module.exists_of_live? hn
    refine .node hnd (.value hs husable fun x hx huses _ => ?_)
    have huses' : ∀ u ∈ x.uses, s.module.Uses u result := fun u hu => (huses u).1 hu
    refine .bind (flowsDirectly_keeps (n := nd.core) hs hn hop huses') fun direct s₁ hdirect hl => ?_
    rcases flowsDirectly_runs (n := nd.core) hs.sound hn hop huses hdirect with ⟨rfl, rfl⟩ | ⟨rfl, hanchor⟩
    · refine .valueType htype (.ask (.ok _) fun body hbody => ?_)
      cases hbody
      refine .bind (.intern hs _) fun name s₁ hname hl₁ => ?_
      simp only [runs_intern] at hname
      obtain ⟨rfl, rfl⟩ := hname
      have hs₁ := hl₁.orderly
      refine .declareFor (p := .front s.module.body) hs₁ rfl .body rfl htype
        (fun y hy => Option.some.inj hy ▸ NameTable.knows_intern _ _)
        fun decl storage stype s₂ hget hc hl₂ => ?_
      have hs₂ := hl₂.orderly
      have hstorage : s₂.module.Usable storage := hc.usable_result (i := 0) rfl
      have hn₂ := hc.live hn
      have huses₂ : ∀ u ∈ x.uses, s₂.module.Uses u result := fun u hu =>
        hc.uses_iff.2 (Or.inl (huses' u hu))
      have hnodup := hs.uses_nodup hx
      refine .bind (readsSettled_keeps ho hs₂ hn₂ hinline hmem huses₂ hnodup (hc.kept.type? htype)
        hstorage) fun _ s₃ hrun hl₃ => ?_
      obtain ⟨i, hdef⟩ := hs₂.exists_def hn₂ hmem
      have hreads := readsSettled_runs ho hs₂.sound hdef (Module.core_of_live? hn₂) hinline huses₂ hnodup
        hstorage hrun
      have hs₃ := hl₃.orderly
      obtain ⟨n₃, hn₃, hop₃, hres₃, hp₃⟩ := hreads.live hn₂
      refine .connect hs₃ (hs₃.sound.in_after hn₃) (hs₃.placed hn₃) (Or.inl rfl)
        (hreads.usable hstorage) (hreads.usable (hc.usable husable))
        (hreads.kept.type? (hc.type?_result (i := 0) rfl)) (hreads.kept.types hget)
        (hreads.kept.type? (hc.kept.type? htype)) fun conn s₄ hconn hl₄ => ?_
      exact .count hl₄.orderly fun hs₅ => hrest hs₅ (hconn.live hn₃) hop₃ hres₃
    · obtain ⟨n₁, hn₁, hop₁, hres₁, -⟩ := hanchor.live_inst hn hop
      exact hrest hl.orderly hn₁ hop₁ hres₁

theorem anchorInstanceOutputs_keeps (ho : env.oracle = .systemVerilog) (hs : s.Orderly)
    (hn : s.module.live? inst = some n) (hop : n.op.isInstance = true) :
    (anchorInstanceOutputs inst).Keeps env s := by
  obtain ⟨nd, hnd, -, rfl⟩ := Module.exists_of_live? hn
  refine .node hnd (.bind (portNames_keeps hs (fun _ _ => List.subset_append_right _ _)
    fun x hx => hs.inst hn hx) fun names s₁ hnames hl₁ => ?_)
  have hm := (Silent.portNames _ _).module_eq hnames
  exact anchorOutputs_keeps ho hl₁.orderly (hm ▸ hn) hop fun v hv => hv

/-! ## Inputs -/

theorem anchorInputs_keeps {names : PortNames} {index : Nat} {sources : List ValueId} (hs : s.Orderly)
    (hn : s.module.live? inst = some n)
    (hsources : ∀ i v, sources[i]? = some v → s.module.Uses ⟨inst, index + i⟩ v) :
    (anchorInputs inst names index sources).Keeps env s := by
  induction sources generalizing s n index with
  | nil => exact .pure hs ()
  | cons source rest ih =>
    have huse : s.module.Uses ⟨inst, index⟩ source := hsources 0 source rfl
    have husable := hs.usable huse
    obtain ⟨type, htype⟩ := husable.exists_type
    have hrest : ∀ i v, rest[i]? = some v → s.module.Uses ⟨inst, index + 1 + i⟩ v := fun i v hi => by
      have hv := hsources (i + 1) v (by simpa using hi)
      rwa [show index + (i + 1) = index + 1 + i by omega] at hv
    refine .ask (hs.isSimpleReadOrPort_tame husable) fun simple _ => ?_
    cases simple with
    | true => exact ih hs hn hrest
    | false =>
      obtain ⟨nd, hnd, -, rfl⟩ := Module.exists_of_live? hn
      refine .node hnd (.valueType htype (.ask (.ok _) fun body hbody => ?_))
      cases hbody
      refine .bind (.intern hs _) fun name s₁ hname hl₁ => ?_
      simp only [runs_intern] at hname
      obtain ⟨rfl, rfl⟩ := hname
      have hs₁ := hl₁.orderly
      refine .declareFor (p := .front s.module.body) hs₁ rfl .body rfl htype
        (fun y hy => Option.some.inj hy ▸ NameTable.knows_intern _ _)
        fun decl storage stype s₂ hget hc₂ hl₂ => ?_
      have hs₂ := hl₂.orderly
      have hn₂ := hc₂.live hn
      have hstorage : s₂.module.Usable storage := hc₂.usable_result (i := 0) rfl
      have htype₂ := hc₂.kept.type? htype
      refine .createRead hs₂ (hs₂.sound.in_before hn₂) (hs₂.placed hn₂) hstorage htype₂
        fun read value s₃ hc₃ hl₃ => ?_
      have hs₃ := hl₃.orderly
      have hn₃ := hc₃.live hn₂
      have htype₃ := hc₃.kept.type? htype₂
      refine .connect hs₃ (hs₃.sound.in_before hn₃) (hs₃.placed hn₃) (Or.inl rfl)
        (hc₃.usable hstorage) (hc₃.usable (hc₂.usable husable))
        (hc₃.kept.type? (hc₂.type?_result (i := 0) rfl)) (hc₃.kept.types hget) htype₃
        fun conn s₄ hc₄ hl₄ => ?_
      have hlift : ∀ {u w}, s.module.Uses u w → s₄.module.Uses u w := fun hw =>
        hc₄.uses_iff.2 (Or.inl (hc₃.uses_iff.2 (Or.inl (hc₂.uses_iff.2 (Or.inl hw)))))
      refine .setOperand hl₄.orderly (hlift huse) (hc₄.usable (hc₃.usable_result (i := 0) rfl)) ?_
        fun s₅ hr hl₅ => .count hl₅.orderly fun hs₆ => ?_
      · rw [hc₄.kept.type? htype₃]
        exact hc₄.kept.type? (hc₃.type?_result (i := 0) rfl)
      · refine ih hs₆ (hr.live (hc₄.live hn₃)) fun i v hi => ?_
        rw [hr.uses_pointAt_iff (hlift huse), if_neg (by simp; omega)]
        exact hlift (hrest i v hi)

theorem anchorInstanceInputs_keeps (hs : s.Orderly) (hn : s.module.live? inst = some n) :
    (anchorInstanceInputs inst).Keeps env s := by
  obtain ⟨nd, hnd, -, rfl⟩ := Module.exists_of_live? hn
  refine .node hnd (.bind (portNames_keeps hs (fun _ _ => List.subset_append_left _ _)
    fun x hx => hs.inst hn hx) fun names s₁ hnames hl₁ => ?_)
  have hm := (Silent.portNames _ _).module_eq hnames
  refine anchorInputs_keeps hl₁.orderly (hm ▸ hn) fun i v hi => ⟨_, hm ▸ hn, ?_⟩
  simpa [Node.core] using hi

end Prep

end NetPrep
