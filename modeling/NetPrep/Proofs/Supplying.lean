import Mathlib
import NetPrep.Proofs.Provision

/-!
# Ports, events and order

Anchoring ports, routing events, replacing expressions and putting a graph block in order leave every
node where those that take it find it. So a scan without local variables does.
-/

namespace NetPrep

open Prepare Prep

namespace Module

variable {m m' : Module} {a d e id inst process u : NodeId}
  {n na nd nu : Node} {b block : BlockId} {pos : Position} {types : List TypeId} {v w x y : ValueId}
  {ids : List NodeId} {vs : List ValueId}

theorem Creates.fitted (h : m.Creates m' b pos id n types) (hf : m.Fitted) (hn : n.Fits) :
    m'.Fitted := by
  intro j nj hj
  obtain ⟨-, rfl⟩ | ⟨-, hj⟩ := h.live_cases hj
  · exact hn
  · exact hf hj

theorem Redirects.fitted_substitute (h : m.Redirects m' (substitute y x)) (hf : m.Fitted) :
    m'.Fitted := by
  intro j nj hj
  obtain ⟨n, hn, rfl⟩ := h.live_cases hj
  exact (hf hn).congr rfl rfl (by simp [substitute])

theorem LeavesProcess.fed (h : m.LeavesProcess id m') (hs : Sound m) (hf : m.Fitted)
    (hn : m.live? id = some n) (hop : n.op = .logic) (hm : m.Fed []) : m'.Fed [] := by
  obtain ⟨hn', hprocess, hp, hmove, hs'⟩ := h
  obtain rfl := Option.some.inj (hn.symm.trans hn')
  have hg := hprocess.graph hp
  have hreg := hs.toNested.regions_eq_nil hn (by rw [hop]; rfl)
  refine hmove.fed hs.toWellFormed hn hreg hm (fun u _ _ => .of_free ⟨⟨_, hmove.live hn, ?_⟩,
    not_isInline_of_live (hmove.live hn) ?_⟩) fun d hd => absurd hd (hf.not_takes hn (by rw [hop]; rfl))
  · rw [hmove.kept.kind?, if_pos rfl, hg]
  · change n.op.isAlwaysInline = false
    rw [hop]
    rfl

/-! ## Ports -/

/-- A node that moves within its block is around what it was around. -/
theorem Moves.encloses (h : m.Moves m' b pos id) (hn : m.live? id = some n) (hreg : n.regions = [])
    (hb : n.parent = b) (hd : m.Encloses d u) : m'.Encloses d u := by
  obtain ⟨nd, nu, hnd, hnu, hin⟩ := hd
  have hparent : ∀ {j nj}, m.live? j = some nj → (if j = id then b else nj.parent) = nj.parent := by
    intro j nj hj
    split
    · next he =>
      subst he
      obtain rfl := Option.some.inj (hn.symm.trans hj)
      exact hb.symm
    · rfl
  refine ⟨_, _, h.live hnd, h.live hnu, ?_⟩
  rw [hparent hnd, hparent hnu]
  exact (h.sameTree hn hreg).inside hin

/-- A node moves right behind another one, and at most comes closer to it. -/
theorem Moves.closer (h : m.Moves m' n.parent (.after a) id) (hw : WellFormed m)
    (ha : m.live? a = some n) (hne : a ≠ id) (hu : u ≠ id) {c : BlockId}
    (had : Precedes (m.nodesOf c) a d) (hdu : Precedes (m.nodesOf c) d u) :
    Precedes (m'.nodesOf c) a d ∧ Precedes (m'.nodesOf c) d u := by
  by_cases hid : d = id
  · subst hid
    obtain ⟨na, hna, rfl⟩ := hw.mem_nodesOf_iff.1 had.mem_left
    obtain rfl := Option.some.inj (ha.symm.trans hna)
    have hnodup := (hw.nodup n.parent).erase d
    have hmem : a ∈ (m.nodesOf n.parent).erase d := (List.mem_erase_of_ne hne).2 had.mem_left
    have hnot : d ∉ (m.nodesOf n.parent).erase d := (hw.nodup n.parent).not_mem_erase
    have hau := (Precedes.erase_iff (hw.nodup n.parent)).2
      ⟨hne, hu, had.trans (hw.nodup n.parent) hdu⟩
    have hlist : m'.nodesOf n.parent = insertAfter a d ((m.nodesOf n.parent).erase d) :=
      (h.nodesOf _).trans (if_pos rfl)
    rw [hlist]
    exact ⟨(Precedes.insertAfter_iff hnodup hmem hnot).2 (Or.inr (Or.inr ⟨rfl, Or.inl rfl⟩)),
      (Precedes.insertAfter_iff hnodup hmem hnot).2 (Or.inr (Or.inl ⟨rfl, hau⟩))⟩
  · have hf := h.frame hw
    exact ⟨(hf.order hne hid had.mem_left had.mem_right).2 had,
      (hf.order hid hu hdu.mem_left hdu.mem_right).2 hdu⟩

/-- What comes after an instance stays there, in its order but for assignments that come closer to the
instance. -/
def Trails (inst : NodeId) (m m' : Module) : Prop :=
  ∀ ⦃a x c⦄, ¬ m.HasOp (· = .assign) x → Precedes (m.nodesOf c) inst a → Precedes (m.nodesOf c) a x →
    Precedes (m'.nodesOf c) inst a ∧ Precedes (m'.nodesOf c) a x

theorem Frame.trails (h : Frame (fun _ => False) m m') : Trails inst m m' := fun _ _ _ _ ha hax =>
  ⟨(h.order not_false not_false ha.mem_left ha.mem_right).2 ha,
    (h.order not_false not_false hax.mem_left hax.mem_right).2 hax⟩

/-- Only the assignment of an output is moved when the output is anchored. -/
theorem AnchorsOutput.frame (h : m.AnchorsOutput inst v m') (hs : Sound m)
    (hop : m.HasOp (·.isInstance = true) inst) :
    Frame (m.HasOp (· = .assign)) m m' ∧ Trails inst m m' := by
  have hfixed : Frame (fun _ => False) m m' → Frame (m.HasOp (· = .assign)) m m' ∧ Trails inst m m' :=
    fun hf => ⟨hf.mono (fun _ _ _ => False.elim) hs.toWellFormed, hf.trails⟩
  cases h with
  | ending h => exact hfixed (h ▸ .refl _ _)
  | @assigned n na assignment slot hn huses ha hopa hparent hmove hs' =>
    have hassign : m.HasOp (· = .assign) assignment := ⟨na, core_of_live? ha, hopa⟩
    have hne : inst ≠ assignment := by
      rintro rfl
      have hopi := hop.of_live ha
      rw [hopa] at hopi
      cases hopi
    exact ⟨(hmove.frame hs.toWellFormed).mono (fun _ _ _ ht => ht ▸ hassign) hs.toWellFormed,
      fun a x c hx => hmove.closer hs.toWellFormed hn hne fun (he : x = assignment) => hx (he ▸ hassign)⟩
  | wired hn hres htype hdecl hstype hs₁ huses hnd hreads hconn hs' =>
    have hs₂ := hreads.sound hs₁
    have hframe := (hreads.frame hs₁ (hdecl.usable_result (i := 0) rfl)
      (hdecl.shared hs.kind?_body rfl rfl)).1
    exact hfixed (((hdecl.frame hs.toWellFormed rfl).trans hframe hs.toWellFormed hs₁.toWellFormed
      fun _ _ _ ht => ht).trans (hconn.frame hs₂.toWellFormed rfl) hs.toWellFormed hs₂.toWellFormed
      fun _ _ _ ht => ht)

theorem AnchorsOutputs.frame (h : AnchorsOutputs inst vs m m') (hs : Sound m)
    (hop : m.HasOp (·.isInstance = true) inst) :
    Frame (m.HasOp (· = .assign)) m m' ∧ Trails inst m m' := by
  induction h with
  | nil => exact ⟨.refl _ _, fun _ _ _ _ ha hax => ⟨ha, hax⟩⟩
  | cons h _ ih =>
    obtain ⟨hf₁, ht₁⟩ := h.frame hs hop
    have hs₁ := h.sound hs
    obtain ⟨hf₂, ht₂⟩ := ih hs₁ (hop.mono hf₁.kept)
    refine ⟨hf₁.trans hf₂ hs.toWellFormed hs₁.toWellFormed fun j n hj ht => ht.of_kept hf₁.kept hj,
      fun a x c hx ha hax => ?_⟩
    obtain ⟨ha₁, hax₁⟩ := ht₁ hx ha hax
    obtain ⟨nx, hnx, -⟩ := hs.mem_nodesOf_iff.1 hax.mem_right
    exact ht₂ (fun ht => hx (ht.of_kept hf₁.kept hnx)) ha₁ hax₁

theorem AnchorsOutput.fed (h : m.AnchorsOutput inst v m') (hs : Sound m) (hf : m.Fitted)
    (hm : m.Fed []) : m'.Fed [] := by
  cases h with
  | ending h => exact h ▸ hm
  | @assigned n na assignment slot hn huses ha hop hparent hmove hs' =>
    have hcat : na.op.category = .connection := by rw [hop]; rfl
    have hnot : ∀ u, ¬ m.Takes u assignment := fun u => hf.not_takes_connection hs.toWellFormed ha hcat
    have hreg := hs.toNested.regions_eq_nil ha (by rw [hop]; rfl)
    refine hmove.fed hs.toWellFormed ha hreg hm (fun u hu _ => absurd hu (hnot u)) fun d hd => ?_
    have hne : d ≠ assignment := by
      rintro rfl
      exact hnot d hd
    obtain hfree | ⟨hW, -⟩ | hin := (hm hd).inside
    · exact .of_free (hfree.frame (hmove.frame hs.toWellFormed) hne)
    · cases hW
    · exact .of_assign ⟨_, core_of_live? (hmove.live ha), hop⟩ (hmove.encloses ha hreg hparent hin)
  | @wired n name type stype decl conn storage uses m₁ m₂ hn hres htype hdecl hstype hs₁ huses hnd
      hreads hconn hs' =>
    have hst₁ : m₁.Usable storage := hdecl.usable_result (i := 0) rfl
    have hsh₁ := hdecl.shared hs.kind?_body rfl rfl
    have hf₁ : m₁.Fitted := hdecl.fitted hf (.of_alone rfl rfl)
    obtain ⟨hm₂, -⟩ := hreads.fed hs₁ hf₁ hst₁ hsh₁.open (hdecl.fed hs hs₁ rfl hm nofun)
    have hs₂ := hreads.sound hs₁
    obtain ⟨hframe, hsh₂⟩ := hreads.frame hs₁ hst₁ hsh₁
    have hst₂ : m₂.Usable storage := hreads.usable hst₁
    obtain ⟨n₂, hn₂, hp₂⟩ := hframe.live (hdecl.live hn) not_false
    obtain ⟨i, hdef⟩ := hs.exists_def hn hres
    have hsh₃ := hsh₂.stay (T := fun _ => False) (hconn.frame hs₂.toWellFormed rfl) hst₂
      fun _ _ => not_false
    refine hconn.fed hs₂ hs' rfl hm₂ (List.forall_mem_cons.2 ⟨hsh₃.finds,
      List.forall_mem_singleton.2 (.of_def (hconn.kept.def? (hreads.kept.def?
        (hdecl.kept.def? hdef))) (.of_assign ⟨_,
        core_of_live? hconn.live?_self, rfl⟩ ⟨_, _, hconn.live hn₂, hconn.live?_self, ?_⟩))⟩)
    rw [hp₂]
    exact .self

theorem AnchorsOutputs.fed (h : AnchorsOutputs inst vs m m') (hs : Sound m)
    (hn : m.live? inst = some n) (hop : n.op.isInstance = true) (hf : m.Fitted) (hm : m.Fed []) :
    m'.Fed [] := by
  induction h generalizing n with
  | nil => exact hm
  | cons h _ ih =>
    obtain ⟨n₁, hn₁, hop₁, -⟩ := h.live_inst hn hop
    have hacts : Acts m.body (fun _ => False) _ _ := h.acts hs hn hop
    exact ih (h.sound hs) hn₁ (hop₁ ▸ hop) (Acts.fitted hacts hf) (h.fed hs hf hm)

theorem AnchorsInput.fed {index : Nat} (h : m.AnchorsInput inst index v m') (hs : Sound m)
    (hn : m.live? inst = some n) (hop : n.op.isInstance = true) (hm : m.Fed []) : m'.Fed [] := by
  cases h with
  | simple h => exact h ▸ hm
  | @wired n' name type stype decl read conn storage value m₁ m₂ m₃ hn' huse htype hdecl hstype hs₁
      hread hs₂ hconn hs₃ hr hs' =>
    obtain rfl := Option.some.inj (hn.symm.trans hn')
    have hassign : n.op ≠ .assign := by
      intro h
      rw [h] at hop
      cases hop
    have hinline := Op.isAlwaysInline_of_isInstance hop
    have hst₁ : m₁.Usable storage := hdecl.usable_result (i := 0) rfl
    have hsh₁ := hdecl.shared hs.kind?_body rfl rfl
    have hframe₁ : Frame (fun _ => False) m m₁ := hdecl.frame hs.toWellFormed rfl
    have hframe₂ : Frame (fun _ => False) m₁ m₂ := hread.frame hs₁.toWellFormed rfl
    have hframe₃ : Frame (fun _ => False) m₂ m₃ := hconn.frame hs₂.toWellFormed rfl
    have hn₁ := hdecl.live hn
    have hn₂ := hread.live hn₁
    have hsh₂ := hsh₁.stay hframe₂ hst₁ fun _ _ => not_false
    have hsource : m₂.Finds [] inst v := ((hm.finds huse).stay hframe₁ hdecl.sameTree hn
      (hs.usable huse)).stay hframe₂ hread.sameTree hn₁ (hdecl.usable (hs.usable huse))
    have hsource₂ := hread.usable (hdecl.usable (hs.usable huse))
    have hm₂ : m₂.Fed [] := hread.fed hs₁ hs₂ rfl (hdecl.fed hs hs₁ rfl hm nofun)
      (List.forall_mem_singleton.2 hsh₂.finds)
    have hm₃ : m₃.Fed [] := hconn.fed hs₂ hs₃ rfl hm₂ (List.forall_mem_cons.2
      ⟨(hsh₂.stay hframe₃ (hread.usable hst₁) fun _ _ => not_false).finds,
        List.forall_mem_singleton.2 (hconn.finds hs₂ hs₃ rfl hn₂ rfl hassign hinline hsource hsource₂)⟩)
    have hvalue : m₂.Finds [] inst value := by
      obtain ⟨b, hb⟩ := (hread.heralds hs₁.toWellFormed (hs₁.mem_nodesOf hn₁)).precedes
      exact .of_def (hread.def?_result (i := 0) rfl) (.of_precedes hb hs₂.toWellFormed)
    have huse₃ := hconn.uses_iff.2 (Or.inl (hread.uses_iff.2 (Or.inl (hdecl.uses_iff.2
      (Or.inl huse)))))
    exact hr.fed_pointAt hs₃.toWellFormed huse₃ hm₃ (hvalue.stay hframe₃ hconn.sameTree hn₂
      (hread.usable_result (i := 0) rfl))

theorem AnchorsInputs.fed {index : Nat} (h : AnchorsInputs inst index vs m m') (hs : Sound m)
    (hn : m.live? inst = some n) (hop : n.op.isInstance = true) (hm : m.Fed []) : m'.Fed [] := by
  induction h generalizing n with
  | nil => exact hm
  | cons h _ ih =>
    obtain ⟨n₁, hn₁, hop₁, -⟩ := AnchorsInputs.live (.cons h (.nil _ _)) hn
    exact ih (h.sound hs) hn₁ (hop₁ ▸ hop) (h.fed hs hn hop hm)

/-! ## Events -/

/-- What defines a value is around a node, or can be used from anywhere. -/
def Sights (m : Module) (u : NodeId) (v : ValueId) : Prop :=
  ∀ ⦃d i⦄, m.def? v = some (.result d i) → m.Free d ∨ m.Encloses d u

theorem Finds.sights (h : m.Finds [] u v) : m.Sights u v := fun _ _ hdef =>
  (h hdef).inside.imp_right fun h => h.resolve_left fun hW => by cases hW.1

theorem Sights.stay {vd : ValueDef} (h : m.Sights u v) (hf : Frame (fun _ => False) m m')
    (ht : SameTree m m') (hv : m.def? v = some vd) : m'.Sights u v := by
  intro d i hdef
  obtain rfl := Option.some.inj ((hf.kept.def? hv).symm.trans hdef)
  exact (h hv).imp (·.frame hf not_false) (·.frame hf ht not_false not_false)

/-- Routing an event moves no node, since the read is new and nothing is printed inside it. -/
theorem RoutesEvent.provides (h : m.RoutesEvent process v m') (hs : Sound m) :
    Frame (fun _ => False) m m' ∧
      (m.Fitted → m.Sights process v → m.Fed [] → m'.Fed [] ∧ m'.Fitted) := by
  cases h with
  | simple h => exact h ▸ ⟨.refl _ _, fun hf _ hm => ⟨hm, hf⟩⟩
  | @wired np type stype decl read conn d storage value i m₁ m₂ m₃ m₄ hp hevent htype hdecl hstype
      hs₁ hread hs₂ hr hs₃ hconn hs₄ hsettle =>
    have hst₁ : m₁.Usable storage := hdecl.usable_result (i := 0) rfl
    have hst₂ := hread.usable hst₁
    have hframe₁ : Frame (fun _ => False) m m₁ := hdecl.frame hs.toWellFormed rfl
    have hframe₂ : Frame (fun _ => False) m₁ m₂ := hread.frame hs₁.toWellFormed rfl
    have hframe₃ : Frame (fun _ => False) m₂ m₃ := hr.frame
    have hframe₄ : Frame (fun _ => False) m₃ m₄ := hconn.frame hs₃.toWellFormed rfl
    have hframe₂₄ : Frame (fun _ => False) m₂ m₄ :=
      hframe₃.trans hframe₄ hs₂.toWellFormed hs₃.toWellFormed fun _ _ _ ht => ht
    have hframe₀₂ : Frame (fun _ => False) m m₂ :=
      hframe₁.trans hframe₂ hs.toWellFormed hs₁.toWellFormed fun _ _ _ ht => ht
    have hsh₂ := (hdecl.shared hs.kind?_body rfl rfl).stay hframe₂ hst₁ fun _ _ => not_false
    have hsh₃ := hsh₂.stay hframe₃ hst₂ fun _ _ => not_false
    have hsh₄ := hsh₂.stay hframe₂₄ hst₂ fun _ _ => not_false
    have hread₂ := hread.live?_self
    -- The read takes the wire and nothing else.
    have hne : v ≠ storage := by
      rintro rfl
      exact (WellFormed.lt_of_def? hevent).not_ge (hdecl.index_result (List.mem_singleton_self _))
    have huses₂ : ∀ {k x}, m₂.Uses ⟨read, k⟩ x → x = storage := fun hx => by
      obtain ⟨n₁, hn₁, -⟩ | ⟨-, hx⟩ := hread.uses_iff.1 hx
      · exact absurd rfl (hread.ne hn₁)
      · exact List.mem_singleton.1 (List.mem_of_getElem? hx)
    have huses₃ : ∀ {k x}, m₃.Uses ⟨read, k⟩ x → x = storage := fun hx => by
      obtain ⟨hv, -⟩ | ⟨-, hx⟩ := hr.uses_substitute_iff.1 hx
      · exact absurd (huses₂ hv) hne
      · exact huses₂ hx
    have hbare : ∀ e, m₄.Takes read e → ¬ IsInline m₄ e := by
      rintro e ⟨k, x, i, hx, hdef⟩
      obtain hx | ⟨he, -⟩ := hconn.uses_iff.1 hx
      · exact (hsh₄ (huses₃ hx ▸ hdef)).2
      · exact absurd he (hconn.ne (hr.live hread₂))
    have hframe₀₄ : Frame (fun _ => False) m m₄ :=
      hframe₀₂.trans hframe₂₄ hs.toWellFormed hs₂.toWellFormed fun _ _ _ ht => ht
    have hframe : Frame (fun _ => False) m m' := by
      refine hframe₀₄.trans
        (hsettle.frame_of_bare hs₄ fun j hj => hj ▸ hbare) hs.toWellFormed hs₄.toWellFormed
        fun j n hj he => ?_
      exact hread.ne (hdecl.live hj) he
    refine ⟨hframe, fun hf hv hm => ?_⟩
    have hm₂ : m₂.Fed [] := hread.fed hs₁ hs₂ rfl (hdecl.fed hs hs₁ rfl hm nofun)
      (List.forall_mem_singleton.2 hsh₂.finds)
    have hroams₃ : m₃.Roams read := by
      refine ⟨(· = read), rfl, ?_⟩
      rintro _ rfl e ⟨k, x, i, hx, hdef⟩
      exact Or.inl (hsh₃ (huses₃ hx ▸ hdef))
    have hm₃ : m₃.Fed [read] := by
      refine (hm₂.mono (List.nil_subset _)).step hframe₃ hr.sameTree (fun _ _ he => he.elim)
        hs₂.toWellFormed (fun d hd _ _ _ => List.mem_singleton.1 hd ▸ hroams₃) fun u d hud => ?_
      obtain hud | ⟨k, i, hu, hdef⟩ := hr.takes_substitute hud
      · exact Or.inl ⟨hud, not_false, not_false⟩
      · obtain ⟨rfl, -⟩ : read = d ∧ 0 = i := by
          simpa using (hread.def?_result (i := 0) rfl).symm.trans hdef
        have hmem := List.mem_singleton_self read
        refine Or.inr ⟨Or.inr (Or.inl ⟨hmem, hroams₃⟩), Or.inr (Or.inr (Or.inr (Or.inl ⟨hmem, ?_⟩)))⟩
        rintro rfl
        exact hne (huses₂ hu)
    have hf₄ : m₄.Fitted := hconn.fitted (hr.fitted_substitute (hread.fitted
      (hdecl.fitted hf (.of_alone rfl rfl)) (.inline rfl nofun rfl))) (.of_connection rfl rfl rfl)
    have hm₄ : m₄.Fed [read] := by
      refine hconn.fed hs₃ hs₄ rfl hm₃ (List.forall_mem_cons.2 ⟨hsh₄.finds,
        List.forall_mem_singleton.2 fun d' i' hdef => ?_⟩)
      obtain hfree | ⟨nd, np', hnd, hnp, hin⟩ := (hv.stay hframe₀₄
        ((hdecl.sameTree.trans hread.sameTree).trans (hr.sameTree.trans hconn.sameTree)) hevent) hdef
      · exact .of_free hfree
      · obtain rfl := Option.some.inj (hnp.symm.trans (hconn.live (hr.live (hread.live (hdecl.live hp)))))
        exact .of_assign ⟨_, core_of_live? hconn.live?_self, rfl⟩ ⟨nd, _, hnd, hconn.live?_self, hin⟩
    have hinline : IsInline m₄ read := isInline_of_live (hconn.live (hr.live hread₂)) rfl
    exact ⟨hsettle.fed hs₄ hf₄ (fun d hd => hd ▸ hinline) hm₄ fun d hd =>
      have hd := List.mem_singleton.1 hd
      ⟨hd ▸ hinline, Or.inl hd⟩, hsettle.fitted hf₄⟩

theorem RoutesEvents.provides (h : RoutesEvents process vs m m') (hs : Sound m) :
    Frame (fun _ => False) m m' ∧ (m.Fitted →
      (∀ v ∈ vs, m.Sights process v ∧ ∃ d, m.def? v = some d) → m.Fed [] → m'.Fed []) := by
  induction h with
  | nil => exact ⟨.refl _ _, fun _ _ hm => hm⟩
  | cons h _ ih =>
    obtain ⟨hframe, hfed⟩ := h.provides hs
    obtain ⟨hrest, ih⟩ := ih (h.sound hs)
    refine ⟨hframe.trans hrest hs.toWellFormed (h.sound hs).toWellFormed fun _ _ _ ht => ht,
      fun hf hvs hm => ?_⟩
    obtain ⟨hm₁, hf₁⟩ := hfed hf (hvs _ List.mem_cons_self).1 hm
    refine ih hf₁ (fun w hw => ?_) hm₁
    obtain ⟨hsee, d, hd⟩ := hvs w (List.mem_cons_of_mem _ hw)
    exact ⟨hsee.stay hframe (h.edits hs).sameTree hd, d, hframe.kept.def? hd⟩

end Module

end NetPrep
