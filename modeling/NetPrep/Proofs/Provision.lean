import Mathlib
import NetPrep.Proofs.Feeding

/-!
# Rules leave operands in reach

Whatever rule is applied to a node, every node stands where those that take it find it, if it did so
before. A new node takes what the node beside it takes, and what it replaces is found where it is.
-/

namespace NetPrep

open Prepare Prep

namespace Module

variable {m m' : Module} {W : List NodeId} {T : NodeId → Prop} {a d e id r u : NodeId}
  {n na nd nu : Node} {b c : BlockId} {pos : Position} {t : TypeId} {types : List TypeId} {v w x y : ValueId}

/-- What defines a value stands where a node that takes it finds it. -/
def Finds (m : Module) (W : List NodeId) (u : NodeId) (v : ValueId) : Prop :=
  ∀ ⦃d i⦄, m.def? v = some (.result d i) → m.Supplies W d u

theorem Fed.finds {k : Nat} (hm : m.Fed W) (h : m.Uses ⟨u, k⟩ v) : m.Finds W u v :=
  fun _ _ hdef => hm ⟨_, _, _, h, hdef⟩

theorem Fed.finds_of_mem (hm : m.Fed W) (hu : m.live? u = some nu) (hv : v ∈ nu.operands) :
    m.Finds W u v := by
  obtain ⟨k, hk⟩ := exists_uses_of_mem hu hv
  exact hm.finds hk

theorem Finds.of_def {i : Nat} (hdef : m.def? v = some (.result d i)) (h : m.Supplies W d u) :
    m.Finds W u v := by
  intro d' i' hdef'
  obtain ⟨rfl, -⟩ : d = d' ∧ i = i' := by simpa using hdef.symm.trans hdef'
  exact h

/-- What a node finds without the help of a worklist it finds as long as neither is moved. -/
theorem Supplies.stay (h : m.Supplies [] d u) (hf : Frame T m m') (ht : SameTree m m')
    (hT : ∀ j n, T j → m.live? j = some n → n.regions = []) (hd : ¬ T d) (hu : ¬ T u)
    (hnu : m.live? u = some nu) : m'.Supplies [] d u := by
  obtain ⟨nd, hnd⟩ : ∃ nd, m.live? d = some nd := by
    obtain ⟨⟨nd, hnd, -⟩, -⟩ | ⟨hW, -⟩ | ⟨nd, -, hnd, -⟩ := h.inside
    · exact ⟨nd, hnd⟩
    · cases hW
    · exact ⟨nd, hnd⟩
  exact h.frame hf ht hT hd hu hnd hnu nofun

theorem Finds.stay (h : m.Finds [] u v) (hf : Frame (fun _ => False) m m') (ht : SameTree m m')
    (hnu : m.live? u = some nu) (hv : m.Usable v) : m'.Finds [] u v := by
  intro d i hdef
  obtain ⟨e, he, -⟩ := hv
  obtain rfl := Option.some.inj ((hf.kept.def? he).symm.trans hdef)
  exact (h he).stay hf ht (fun _ _ he => he.elim) not_false not_false hnu

/-! ## Nodes beside each other -/

/-- A node stands right before another one. -/
def Heralds (m : Module) (id a : NodeId) : Prop :=
  ∃ b, Precedes (m.nodesOf b) id a ∧ ∀ x, x ≠ id → Precedes (m.nodesOf b) x a →
    Precedes (m.nodesOf b) x id

theorem heralds_of_insertBefore {l : List NodeId} (hl : l.Nodup) (ha : a ∈ l) (hid : id ∉ l)
    (hlist : m.nodesOf b = insertBefore a id l) : m.Heralds id a := by
  have hiff := fun p q => Precedes.insertBefore_iff (p := p) (q := q) hl ha hid
  refine ⟨b, ?_, fun x hx hp => ?_⟩
  · rw [hlist, hiff]
    exact Or.inr (Or.inl ⟨rfl, Or.inl rfl⟩)
  · rw [hlist, hiff] at hp
    rw [hlist, hiff]
    obtain hp | ⟨hxid, -⟩ | ⟨haid, -⟩ := hp
    · exact Or.inr (Or.inr ⟨rfl, hp⟩)
    · exact absurd hxid hx
    · exact absurd (haid ▸ ha) hid

theorem Creates.heralds (h : m.Creates m' b (.before a) id n types) (hw : WellFormed m)
    (ha : a ∈ m.nodesOf b) : m'.Heralds id a := by
  refine heralds_of_insertBefore (hw.nodup b) ha (fun hmem => ?_)
    ((h.nodesOf b).trans (if_pos rfl))
  obtain ⟨n', hn', -⟩ := hw.mem_nodesOf_iff.1 hmem
  exact h.ne hn' rfl

theorem Moves.heralds (h : m.Moves m' b (.before a) id) (hw : WellFormed m) (ha : a ∈ m.nodesOf b)
    (hne : a ≠ id) : m'.Heralds id a :=
  heralds_of_insertBefore ((hw.nodup b).erase id) ((List.mem_erase_of_ne hne).2 ha)
    (hw.nodup b).not_mem_erase ((h.nodesOf b).trans (if_pos rfl))

/-- A node that comes right after another one. -/
theorem Creates.precedes_after (h : m.Creates m' b (.after a) id n types) (hw : WellFormed m)
    (ha : a ∈ m.nodesOf b) : Precedes (m'.nodesOf b) a id := by
  have hnot : id ∉ m.nodesOf b := fun hmem => by
    obtain ⟨n', hn', -⟩ := hw.mem_nodesOf_iff.1 hmem
    exact h.ne hn' rfl
  rw [h.nodesOf, if_pos rfl]
  exact (Precedes.insertAfter_iff (hw.nodup b) ha hnot).2 (Or.inr (Or.inr ⟨rfl, Or.inl rfl⟩))

namespace Heralds

variable (h : m.Heralds id a)
include h

theorem precedes : ∃ b, Precedes (m.nodesOf b) id a :=
  h.imp fun _ h => h.1

theorem parent (hw : WellFormed m) (hid : m.live? id = some n) (ha : m.live? a = some na) :
    n.parent = na.parent := by
  obtain ⟨b, hp⟩ := h.precedes
  obtain ⟨n', hn', hb⟩ := hw.mem_nodesOf_iff.1 hp.mem_left
  obtain ⟨na', hna', hb'⟩ := hw.mem_nodesOf_iff.1 hp.mem_right
  obtain rfl := Option.some.inj (hid.symm.trans hn')
  obtain rfl := Option.some.inj (ha.symm.trans hna')
  exact hb.trans hb'.symm

theorem live (hw : WellFormed m) : ∃ n na, m.live? id = some n ∧ m.live? a = some na := by
  obtain ⟨b, hp⟩ := h.precedes
  obtain ⟨n, hn, -⟩ := hw.mem_nodesOf_iff.1 hp.mem_left
  obtain ⟨na, hna, -⟩ := hw.mem_nodesOf_iff.1 hp.mem_right
  exact ⟨n, na, hn, hna⟩

theorem encloses (hw : WellFormed m) (hd : m.Encloses d a) : m.Encloses d id := by
  obtain ⟨n, na, hn, hna⟩ := h.live hw
  obtain ⟨nd, na', hnd, hna', hin⟩ := hd
  obtain rfl := Option.some.inj (hna.symm.trans hna')
  exact ⟨nd, n, hnd, hn, h.parent hw hn hna ▸ hin⟩

theorem dominates (hw : WellFormed m) (hd : m.Dominates d a) (hne : d ≠ id) :
    m.Dominates d id := by
  obtain ⟨c, x, hx, hp⟩ := hd
  obtain ⟨n, na, hn, hna⟩ := h.live hw
  cases hx with
  | self =>
    obtain ⟨b, hb, hall⟩ := h
    obtain ⟨na', hna', rfl⟩ := hw.mem_nodesOf_iff.1 hp.mem_right
    obtain rfl := Option.some.inj (hna.symm.trans hna')
    obtain ⟨na', hna', rfl⟩ := hw.mem_nodesOf_iff.1 hb.mem_right
    obtain rfl := Option.some.inj (hna.symm.trans hna')
    exact ⟨_, id, .self hn, hall d hne hp⟩
  | up hown hrest =>
    obtain ⟨na', nk, hna', hnk, hmem⟩ := hown
    obtain rfl := Option.some.inj (hna.symm.trans hna')
    exact ⟨c, x, .up ⟨n, nk, hn, hnk, h.parent hw hn hna ▸ hmem⟩ hrest, hp⟩

/-- What comes right before a node finds what that node finds, unless that one is exempt. -/
theorem feeds (hw : WellFormed m) (hd : m.Supplies [] d a) (hne : d ≠ id)
    (ha : m.live? a = some na) (hassign : na.op ≠ .assign)
    (hinline : na.op.isAlwaysInline = false) : m.Supplies [] d id where
  inside := hd.inside.imp_right (Or.imp_right (h.encloses hw))
  ahead := by
    obtain hg | hassign' | ⟨hinline', -⟩ | ⟨hW, -⟩ | hd := hd.ahead
    · exact Or.inl hg
    · exact absurd (hassign'.of_live ha) hassign
    · exact absurd hinline' (not_isInline_of_live ha hinline)
    · cases hW
    · exact Or.inr (Or.inr (Or.inr (Or.inr (h.dominates hw hd hne))))

end Heralds

/-- A node that comes before another one and is not printed at its uses is found by what finds that
one. -/
theorem Supplies.of_before (h : m.Supplies [] a u) (hs : Sound m) (hp : Precedes (m.nodesOf b) id a)
    (hinline : ¬ IsInline m id) : m.Supplies [] id u := by
  obtain ⟨n, hn, hpn⟩ := hs.mem_nodesOf_iff.1 hp.mem_left
  obtain ⟨na, hna, hpa⟩ := hs.mem_nodesOf_iff.1 hp.mem_right
  have hgraph : m.InGraph a → m.InGraph id := by
    rintro ⟨na', hna', hk⟩
    obtain rfl := Option.some.inj (hna.symm.trans hna')
    exact ⟨n, hn, hpn ▸ hpa ▸ hk⟩
  constructor
  · obtain ⟨hg, -⟩ | ⟨hW, -⟩ | ⟨na', nu, hna', hnu, hin⟩ := h.inside
    · exact Or.inl ⟨hgraph hg, hinline⟩
    · cases hW
    · obtain rfl := Option.some.inj (hna.symm.trans hna')
      exact Or.inr (Or.inr ⟨n, nu, hn, hnu, hpn ▸ hpa ▸ hin⟩)
  · obtain hg | hassign | ⟨hu, -⟩ | ⟨hW, -⟩ | ⟨c, x, hx, hax⟩ := h.ahead
    · exact Or.inl (hgraph hg)
    · exact Or.inr (Or.inl hassign)
    · exact Or.inr (Or.inr (Or.inl ⟨hu, hinline⟩))
    · cases hW
    · obtain ⟨na', hna', rfl⟩ := hs.mem_nodesOf_iff.1 hax.mem_left
      obtain rfl := Option.some.inj (hna.symm.trans hna')
      exact Or.inr (Or.inr (Or.inr (Or.inr
        ⟨_, x, hx, Precedes.trans (hs.nodup _) (hpa ▸ hp) hax⟩)))

/-! ## Edits -/

theorem Creates.roams (h : m.Creates m' b pos id n types) (hs : Sound m)
    (hmade : n.op.isMade = true) (hd : m.live? d = some nd) (hr : m.Roams d) : m'.Roams d := by
  have hf : Frame (fun _ => False) m m' := h.frame hs.toWellFormed hmade
  refine ⟨fun j => j ≠ id ∧ m.Roams j, ⟨h.ne hd, hr⟩, fun j ⟨hj, hr⟩ e hje => ?_⟩
  obtain hje | ⟨he, -⟩ := h.takes hs.toWellFormed hje
  · obtain ⟨ne, hne⟩ := hje.live_right hs.toWellFormed
    exact (hr.takes hje).imp (·.frame hf not_false) fun he => ⟨he.1.mono h.kept, h.ne hne, he.2⟩
  · exact absurd he hj

/-- A new node that finds its operands. -/
theorem Creates.fed (h : m.Creates m' b pos id n types) (hs : Sound m) (hs' : Sound m')
    (hmade : n.op.isMade = true) (hm : m.Fed W) (hops : ∀ v ∈ n.operands, m'.Finds W id v) :
    m'.Fed W := by
  refine hm.step (T := fun _ => False) (h.frame hs.toWellFormed hmade) (h.edits hs').sameTree
    (fun _ _ he => he.elim) hs.toWellFormed (fun d _ nd hd => h.roams hs hmade hd) fun u d hud => ?_
  obtain hud | ⟨rfl, v, hv, i, hdef⟩ := h.takes hs.toWellFormed hud
  · exact Or.inl ⟨hud, not_false, not_false⟩
  · exact Or.inr (hops v hv hdef)

/-- What is put right before a node finds what that one finds. -/
theorem Creates.finds (h : m.Creates m' b (.before a) id n types) (hs : Sound m) (hs' : Sound m')
    (hmade : n.op.isMade = true) (ha : m.live? a = some na) (hb : na.parent = b)
    (hassign : na.op ≠ .assign) (hinline : na.op.isAlwaysInline = false)
    (hv : m.Finds [] a v) (husable : m.Usable v) : m'.Finds [] id v := by
  have hstay := hv.stay (h.frame hs.toWellFormed hmade) (h.edits hs').sameTree ha husable
  intro d i hdef
  refine (h.heralds hs.toWellFormed (hb ▸ hs.mem_nodesOf ha)).feeds hs'.toWellFormed (hstay hdef)
    ?_ (h.live ha) hassign hinline
  rintro rfl
  obtain ⟨e, he, hlive⟩ := husable
  obtain rfl := Option.some.inj ((h.kept.def? he).symm.trans hdef)
  obtain ⟨n', hn'⟩ := hlive rfl
  exact h.ne hn' rfl

theorem Redirects.fed_pointAt {w : Use} (h : m.Redirects m' (pointAt w x)) (hw : WellFormed m)
    (hu : m.Uses w y) (hm : m.Fed []) (hx : m.Finds [] w.node x) : m'.Fed [] := by
  refine hm.step (T := fun _ => False) h.frame h.sameTree (fun _ _ he => he.elim) hw nofun
    fun u d hud => ?_
  obtain hud | ⟨rfl, i, hdef⟩ := h.takes_pointAt hu hud
  · exact Or.inl ⟨hud, not_false, not_false⟩
  · obtain ⟨nw, hnw, -⟩ := hu
    exact Or.inr ((hx hdef).stay (T := fun _ => False) h.frame h.sameTree (fun _ _ he => he.elim)
      not_false not_false hnw)

theorem Redirects.fed_substitute (h : m.Redirects m' (substitute y x)) (hw : WellFormed m)
    (hm : m.Fed []) (hx : ∀ u k, m.Uses ⟨u, k⟩ y → m.Finds [] u x) : m'.Fed [] := by
  refine hm.step (T := fun _ => False) h.frame h.sameTree (fun _ _ he => he.elim) hw nofun
    fun u d hud => ?_
  obtain hud | ⟨k, i, hu, hdef⟩ := h.takes_substitute hud
  · exact Or.inl ⟨hud, not_false, not_false⟩
  · obtain ⟨nu, hnu, -⟩ := id hu
    exact Or.inr ((hx u k hu hdef).stay (T := fun _ => False) h.frame h.sameTree (fun _ _ he => he.elim)
      not_false not_false hnu)

theorem Relabels.fed {name : Option Name → Option Name} {twoState : Bool → Bool}
    (h : m.Relabels m' id name twoState) (hw : WellFormed m) (hm : m.Fed []) : m'.Fed [] :=
  hm.step (T := fun _ => False) h.frame h.sameTree (fun _ _ he => he.elim) hw nofun fun _ _ hud =>
    Or.inl ⟨h.takes_iff.1 hud, not_false, not_false⟩

theorem Erases.fed (h : m.Erases m' id) (hs : Sound m) (hs' : Sound m') (hn : m.live? id = some n)
    (hreg : n.regions = []) (hm : m.Fed []) : m'.Fed [] := by
  refine hm.step (h.frame hs.toWellFormed) (h.sameTree hn hreg) (fun j nj hj hnj => ?_)
    hs.toWellFormed nofun fun u d hud => ?_
  · obtain rfl := hj
    obtain rfl := Option.some.inj (hn.symm.trans hnj)
    exact hreg
  · obtain ⟨hold, hne⟩ := h.takes hud
    refine Or.inl ⟨hold, hne, fun hd => ?_⟩
    -- Nothing takes a node that is gone.
    obtain ⟨nd, hnd⟩ := hud.live_right hs'.toWellFormed
    exact (h.live_cases hnd).1 hd

/-- A node that moves finds what it takes and is found by what takes it. -/
theorem Moves.fed (h : m.Moves m' b pos id) (hw : WellFormed m) (hn : m.live? id = some n)
    (hreg : n.regions = []) (hm : m.Fed []) (hto : ∀ u, m.Takes u id → u ≠ id → m'.Supplies [] id u)
    (hfrom : ∀ d, m.Takes id d → m'.Supplies [] d id) : m'.Fed [] := by
  refine hm.step (h.frame hw) (h.sameTree hn hreg) (fun j nj hj hnj => ?_) hw nofun
    fun u d hud => ?_
  · obtain rfl := hj
    obtain rfl := Option.some.inj (hn.symm.trans hnj)
    exact hreg
  · rw [h.takes_iff] at hud
    by_cases hu : u = id
    · exact Or.inr (hu ▸ hfrom d (hu ▸ hud))
    · by_cases hd : d = id
      · exact Or.inr (hd ▸ hto u (hd ▸ hud) hu)
      · exact Or.inl ⟨hud, hu, hd⟩

/-! ## Reads -/

/-- What defines a value can be used from anywhere, once all that is printed inside it is settled. -/
def Open (m : Module) (v : ValueId) : Prop :=
  ∀ ⦃d i⦄, m.def? v = some (.result d i) → m.Free d ∨ (IsInline m d ∧ m.Roams d)

theorem PutBefore.free {k : NodeId} (h : PutBefore id k u m m') (hd : m.Free d) : m'.Free d := by
  refine hd.frame h.frame ?_
  rintro rfl
  obtain ⟨rfl, -⟩ | hnone := h.node
  · exact hd.2 h.inline
  · obtain ⟨nd, hnd, -⟩ := hd.1
    rw [hnone] at hnd
    cases hnd

theorem Inlines.open (h : m.Inlines T m') (hs : Sound m) (hv : m.Usable v) (ho : m.Open v) :
    m'.Open v := by
  induction h with
  | refl => exact ho
  | step _ hstep _ ih =>
    obtain ⟨k, u, hput⟩ := hstep.exists_putBefore hs
    have hk := hstep.kept
    refine ih hstep.sound (hv.mono hk fun hj => ?_) fun d i hdef => ?_
    · obtain ⟨n', hn', -⟩ := hstep.live hj
      exact ⟨n', hn'⟩
    · obtain ⟨e, he, hlive⟩ := hv
      obtain rfl := Option.some.inj ((hk.def? he).symm.trans hdef)
      obtain ⟨nd, hnd⟩ := hlive rfl
      exact (ho he).imp hput.free fun hd => ⟨hd.1.mono hk, hput.roams hs hnd hd.2⟩

section

variable {old storage : ValueId} {type : TypeId} {loc : Loc} {us : List Use} {w : Use}
  {read : NodeId}

theorem ReadFor.frame (h : ReadFor old storage type loc w read m m') (hw : WellFormed m) :
    Frame T m m' := by
  obtain ⟨-, -, hc, hs₁, hr, -⟩ := h
  exact (hc.frame hw rfl).trans hr.frame hw hs₁.toWellFormed fun _ _ _ ht => ht

theorem ReadFor.ne (h : ReadFor old storage type loc w read m m') (hn : m.live? id = some n) :
    id ≠ read := by
  obtain ⟨-, -, hc, -⟩ := h
  exact hc.ne hn

theorem ReadFor.heralds (h : ReadFor old storage type loc w read m m') (hs : Sound m) :
    m'.Heralds read w.node := by
  obtain ⟨-, hnu, hc, -, hr, -⟩ := h
  obtain ⟨b, hb⟩ := hc.heralds hs.toWellFormed (hs.mem_nodesOf hnu)
  exact ⟨b, by simpa only [hr.nodesOf] using hb⟩

theorem ReadFor.takes (h : ReadFor old storage type loc w read m m') (hs : Sound m)
    (hst : m.Usable storage) (hud : m'.Takes u d) : m.Takes u d ∨
      (u = read ∧ ∃ i, m.def? storage = some (.result d i)) ∨ (u = w.node ∧ d = read) := by
  obtain ⟨hu, hnu, hc, hs₁, hr, -⟩ := h
  obtain hud | ⟨rfl, i, hdef⟩ := hr.takes_pointAt (hc.uses_iff.2 (Or.inl hu)) hud
  · obtain hud | ⟨rfl, v, hv, i, hdef⟩ := hc.takes hs.toWellFormed hud
    · exact Or.inl hud
    · obtain rfl := List.mem_singleton.1 hv
      obtain ⟨e, he, -⟩ := hst
      obtain rfl := Option.some.inj ((hc.kept.def? he).symm.trans hdef)
      exact Or.inr (Or.inl ⟨rfl, i, he⟩)
  · obtain ⟨rfl, -⟩ : read = d ∧ 0 = i := by
      simpa using (hc.def?_result (i := 0) rfl).symm.trans hdef
    exact Or.inr (Or.inr ⟨rfl, rfl⟩)

theorem ReadFor.takes_read (h : ReadFor old storage type loc w read m m') :
    m'.Takes w.node read ∧
      ∀ d i, m.def? storage = some (.result d i) → m'.Takes read d := by
  obtain ⟨hu, hnu, hc, hs₁, hr, -⟩ := h
  have hu₁ := hc.uses_iff.2 (Or.inl hu)
  refine ⟨⟨w.operand, _, 0, (hr.uses_pointAt_iff hu₁).2 (by rw [if_pos rfl]),
    (hr.def? _).trans (hc.def?_result (i := 0) rfl)⟩, fun d i hdef =>
    ⟨0, storage, i, (hr.uses_pointAt_iff hu₁).2 ?_, (hr.def? _).trans (hc.kept.def? hdef)⟩⟩
  have hne : (⟨read, 0⟩ : Use) ≠ w := fun he => hc.ne hnu (congrArg Use.node he).symm
  rw [if_neg hne]
  exact hc.uses_iff.2 (Or.inr ⟨rfl, rfl⟩)

variable (h : ReadFor old storage type loc w read m m') (hs : Sound m) (hst : m.Usable storage)
  (ho : m.Open storage)
include h hs hst ho

theorem ReadFor.roams (hd : d = read ∨ (d ≠ read ∧ m.Roams d)) : m'.Roams d := by
  have hf : Frame (fun _ => False) m m' := h.frame hs.toWellFormed
  refine ⟨fun j => j = read ∨ (j ≠ read ∧ m.Roams j), hd, fun j hj e hje => ?_⟩
  have hold : ∀ {ne}, m.live? e = some ne → m.Free e ∨ (IsInline m e ∧ m.Roams e) →
      m'.Free e ∨ (IsInline m' e ∧ (e = read ∨ (e ≠ read ∧ m.Roams e))) := fun hne he =>
    he.imp (·.frame hf not_false) fun he => ⟨he.1.mono hf.kept, Or.inr ⟨h.ne hne, he.2⟩⟩
  obtain hje | ⟨rfl, i, hdef⟩ | ⟨rfl, rfl⟩ := h.takes hs hst hje
  · obtain ⟨nj, hnj⟩ := hje.live_left
    obtain ⟨ne, hne⟩ := hje.live_right hs.toWellFormed
    exact hold hne ((hj.resolve_left (h.ne hnj)).2.takes hje)
  · obtain ⟨e', he', hlive⟩ := hst
    obtain rfl := Option.some.inj (he'.symm.trans hdef)
    obtain ⟨ne, hne⟩ := hlive rfl
    exact hold hne (ho hdef)
  · exact Or.inr ⟨h.isInline, Or.inl rfl⟩

theorem ReadFor.open : m'.Open storage := by
  intro d i hdef
  obtain ⟨e, he, hlive⟩ := id hst
  obtain rfl := Option.some.inj ((h.kept.def? he).symm.trans hdef)
  obtain ⟨nd, hnd⟩ := hlive rfl
  exact (ho he).imp (·.frame (h.frame (T := fun _ => False) hs.toWellFormed) not_false) fun hd =>
    ⟨hd.1.mono h.kept, h.roams hs hst ho (Or.inr ⟨h.ne hnd, hd.2⟩)⟩

/-- A use reads storage instead that is open, or on the worklist. -/
theorem ReadFor.fed (hm : m.Fed W)
    (hW : ∀ d i, m.def? storage = some (.result d i) → IsInline m d → d ∈ W) : m'.Fed W := by
  refine hm.step (T := fun _ => False) (h.frame hs.toWellFormed) h.edits.sameTree
    (fun _ _ he => he.elim) hs.toWellFormed (fun d _ nd hnd hd => h.roams hs hst ho (Or.inr ⟨h.ne hnd, hd⟩)) fun u d hud => ?_
  obtain hud | ⟨rfl, i, hdef⟩ | ⟨rfl, rfl⟩ := h.takes hs hst hud
  · exact Or.inl ⟨hud, not_false, not_false⟩
  · obtain ⟨e, he, hlive⟩ := id hst
    obtain rfl := Option.some.inj (he.symm.trans hdef)
    obtain ⟨nd, hnd⟩ := hlive rfl
    right
    obtain hfree | ⟨hin, hroams⟩ := ho hdef
    · exact .of_free (hfree.frame (h.frame (T := fun _ => False) hs.toWellFormed) not_false)
    · exact .of_inline (Or.inr (Or.inl ⟨hW d i hdef hin, h.roams hs hst ho (Or.inr ⟨h.ne hnd, hroams⟩)⟩))
        h.isInline fun _ => ⟨hW d i hdef hin, h.ne hnd⟩
  · obtain ⟨b, hb⟩ := (h.heralds hs).precedes
    exact Or.inr (.of_precedes hb h.sound.toWellFormed)

end

section

variable {old storage : ValueId} {type : TypeId} {loc : Loc} {us : List Use}

/-- What defines a value can be used from anywhere. -/
def Shared (m : Module) (v : ValueId) : Prop := ∀ ⦃d i⦄, m.def? v = some (.result d i) → m.Free d

theorem Shared.open (h : m.Shared v) : m.Open v := fun _ _ hdef => Or.inl (h hdef)

theorem Shared.finds (h : m.Shared v) : m.Finds W u v := fun _ _ hdef => .of_free (h hdef)

theorem Shared.stay (h : m.Shared v) (hf : Frame T m m') (hv : m.Usable v)
    (hT : ∀ d, m.Free d → ¬ T d) : m'.Shared v := by
  intro d i hdef
  obtain ⟨e, he, -⟩ := hv
  obtain rfl := Option.some.inj ((hf.kept.def? he).symm.trans hdef)
  exact (h he).frame hf (hT d (h he))

theorem ReadsFor.fed (h : ReadsFor old storage type loc us m m') (hs : Sound m)
    (hst : m.Usable storage) (hsh : m.Shared storage) (hm : m.Fed []) :
    m'.Fed [] ∧ m'.Shared storage := by
  induction h with
  | nil => exact ⟨hm, hsh⟩
  | cons h _ ih =>
    exact ih h.sound (h.usable hst)
      (hsh.stay (T := fun _ => False) (h.frame hs.toWellFormed) hst fun _ _ => not_false)
      (h.fed hs hst hsh.open hm fun d i hdef hin => absurd hin (hsh hdef).2)

/-- Letting uses read shared storage moves no node. -/
theorem ReadsSettled.frame (h : ReadsSettled old storage type loc us m m') (hs : Sound m)
    (hst : m.Usable storage) (hsh : m.Shared storage) :
    Frame (fun _ => False) m m' ∧ m'.Shared storage := by
  induction h with
  | nil => exact ⟨.refl _ _, hsh⟩
  | @cons w us read m m₁ m₂ m' h hsettle _ ih =>
    have hs₂ := hsettle.inlines.sound h.sound
    have hst₁ := h.usable hst
    have hframe : Frame (· = read) m₁ m₂ := hsettle.frame_of_bare h.sound fun j hj e hje => by
      subst hj
      obtain hje | ⟨-, i, hdef⟩ | ⟨he, -⟩ := h.takes hs hst hje
      · obtain ⟨n, hn⟩ := hje.live_left
        exact absurd rfl (h.ne hn)
      · exact ((hsh hdef).frame (h.frame (T := fun _ => False) hs.toWellFormed) not_false).2
      · obtain ⟨-, hnu, hc, -⟩ := h
        exact absurd he.symm (hc.ne hnu)
    have hframe₂ : Frame (fun _ => False) m m₂ :=
      (h.frame hs.toWellFormed).trans hframe hs.toWellFormed h.sound.toWellFormed
        fun j n hj he => h.ne hj he
    obtain ⟨hrest, hsh'⟩ := ih hs₂ (hst₁.mono hsettle.inlines.kept
      fun hj => (hsettle.inlines.live hj).imp fun _ h => h.1) (hsh.stay hframe₂ hst fun _ _ => not_false)
    exact ⟨hframe₂.trans hrest hs.toWellFormed hs₂.toWellFormed fun _ _ _ ht => ht, hsh'⟩

theorem ReadFor.fitted {w : Use} {read : NodeId} (h : ReadFor old storage type loc w read m m')
    (hf : m.Fitted) : m'.Fitted :=
  Acts.fitted (h.acts : Acts m.body (fun _ => False) m m') hf

theorem Settles.fitted {R : NodeId → Prop} (h : m.Settles R m') (hf : m.Fitted) : m'.Fitted :=
  Acts.fitted (h.inlines.acts : Acts m.body (fun _ => False) m m') hf

theorem ReadsSettled.fed (h : ReadsSettled old storage type loc us m m') (hs : Sound m)
    (hf : m.Fitted) (hst : m.Usable storage) (ho : m.Open storage) (hm : m.Fed []) :
    m'.Fed [] ∧ m'.Fitted := by
  induction h with
  | nil => exact ⟨hm, hf⟩
  | @cons w us read m m₁ m₂ m' h hsettle _ ih =>
    -- Storage that is printed at its uses is settled along with the read.
    obtain ⟨W, hW, hmem⟩ : ∃ W : List NodeId, (∀ d ∈ W, IsInline m d ∧
        ∃ i, m.def? storage = some (.result d i)) ∧
        ∀ d i, m.def? storage = some (.result d i) → IsInline m d → d ∈ W := by
      by_cases hin : ∃ d i, m.def? storage = some (.result d i) ∧ IsInline m d
      · obtain ⟨d, i, hdef, hin⟩ := hin
        refine ⟨[d], by simpa using ⟨hin, i, hdef⟩, fun d' i' hdef' _ => ?_⟩
        obtain ⟨rfl, -⟩ : d = d' ∧ i = i' := by simpa using hdef.symm.trans hdef'
        exact List.mem_singleton_self _
      · exact ⟨[], nofun, fun d i hdef hind => absurd ⟨d, i, hdef, hind⟩ hin⟩
    have hm₁ := h.fed hs hst ho (hm.mono (List.nil_subset W)) hmem
    have hf₁ : m₁.Fitted := h.fitted hf
    obtain ⟨htake, hread⟩ := h.takes_read
    have hne : w.node ≠ read := by
      obtain ⟨-, hnu, hc, -⟩ := h
      exact hc.ne hnu
    have hm₂ := hsettle.fed h.sound hf₁ (fun d hd => hd ▸ h.isInline) hm₁ fun d hd =>
      ⟨(hW d hd).1.mono h.kept, Or.inr ⟨read, rfl, (hW d hd).2.elim (hread d), w.node, hne, htake⟩⟩
    have hst₁ := h.usable hst
    have ho₁ := h.open hs hst ho
    exact ih (hsettle.inlines.sound h.sound) (hsettle.fitted hf₁) (hst₁.mono hsettle.inlines.kept
      fun hj => (hsettle.inlines.live hj).imp fun _ h => h.1)
      (hsettle.inlines.open h.sound hst₁ ho₁) hm₂

end

/-! ## Temporaries -/

/-- A node of a graph block that is not printed at its uses is shared. -/
theorem Creates.shared (h : m.Creates m' b pos id n [t]) (hk : m.kind? b = some .graph)
    (hop : n.op.isAlwaysInline = false) (hres : n.results = [v]) : m'.Shared v := by
  intro d i hdef
  obtain ⟨rfl, -⟩ : id = d ∧ 0 = i := by
    simpa using (h.def?_result (i := 0) (by rw [hres]; rfl)).symm.trans hdef
  exact ⟨⟨n, h.live?_self, by rw [h.kept.kind?, h.parent, hk]⟩, not_isInline_of_live h.live?_self hop⟩

theorem Fitted.not_takes (hf : m.Fitted) (hn : m.live? id = some n)
    (hop : n.op.standsAlone = true) : ¬ m.Takes id d := by
  rintro ⟨k, v, i, ⟨n', hn', hget⟩, -⟩
  obtain rfl := Option.some.inj (hn.symm.trans hn')
  rw [(hf hn).alone hop] at hget
  cases hget

/-- What connects others is not taken itself. -/
theorem Fitted.not_takes_connection (hf : m.Fitted) (hw : WellFormed m) (hn : m.live? id = some n)
    (hop : n.op.category = .connection) : ¬ m.Takes u id := by
  rintro ⟨k, v, i, -, hdef⟩
  obtain ⟨n', hn', hget⟩ := hw.definition hdef
  obtain rfl := Option.some.inj ((core_of_live? hn).symm.trans hn')
  rw [((hf hn).connection hop).2] at hget
  cases hget

theorem SpillsResult.fed {name : Option Name} {atFront : Bool}
    (h : m.SpillsResult id v name atFront m') (hs : Sound m) (hf : m.Fitted)
    (hn : m.live? id = some n) (hk : m.kind? n.parent = some .graph) (hm : m.Fed []) :
    m'.Fed [] ∧ m'.Fitted := by
  have hacts : Acts n.parent (fun _ => False) m m' := h.acts hs hn .self (Or.inl hk)
  have hf' : m'.Fitted := Acts.fitted hacts hf
  refine ⟨?_, hf'⟩
  obtain ⟨hn', hres, htype, hdecl, hstype, hs₁, huses, hnd, hreads, hconn, hs₃, hmove⟩ := h
  obtain rfl := Option.some.inj (hn.symm.trans hn')
  rename_i type stype decl conn storage uses m₁ m₂ m₃
  have hops : m.temporaryOps n.parent = (.wire, .assign) := if_neg (by simp [hk])
  simp only [hops] at hdecl hconn
  have hst₁ : m₁.Usable storage := hdecl.usable_result (i := 0) rfl
  obtain ⟨hm₂, hsh₂⟩ := hreads.fed hs₁ hst₁ (hdecl.shared hk rfl rfl)
    (hdecl.fed hs hs₁ rfl hm nofun)
  have hs₂ := hreads.sound hs₁
  obtain ⟨ops, hid₂⟩ := hreads.live (hdecl.live hn)
  have hconnFrame : Frame (fun _ => False) m₂ m₃ := hconn.frame hs₂.toWellFormed rfl
  have hsh₃ := hsh₂.stay hconnFrame (hreads.usable hst₁) fun _ _ => not_false
  have hk₃ : m₃.kind? n.parent = some .graph := by
    rw [hconn.kept.kind?, hreads.kept.kind?, hdecl.kept.kind?, hk]
  obtain ⟨i, hdef⟩ := hs.exists_def hn hres
  have hm₃ : m₃.Fed [] := hconn.fed hs₂ hs₃ rfl hm₂ (List.forall_mem_cons.2
    ⟨hsh₃.finds, List.forall_mem_singleton.2 (.of_def (hconn.kept.def? (hreads.kept.def?
      (hdecl.kept.def? hdef)))
      (.of_inGraph ⟨_, hconn.live hid₂, hk₃⟩ ⟨_, _, hconn.live hid₂, hconn.live?_self, .self⟩))⟩)
  cases atFront with
  | true => exact hmove ▸ hm₃
  | false =>
    obtain ⟨ops', hd⟩ := hreads.live hdecl.live?_self
    have hd₃ := hconn.live hd
    obtain ⟨hmove, hs'⟩ := hmove
    have hd' := hmove.live hd₃
    refine hmove.fed hs₃.toWellFormed hd₃ rfl hm₃ (fun u _ _ => .of_free ⟨⟨_, hd', ?_⟩,
      not_isInline_of_live hd' rfl⟩) fun d htake => absurd (hmove.takes_iff.2 htake) (hf'.not_takes hd' rfl)
    rw [hmove.kept.kind?, if_pos rfl, hk₃]

theorem SpillsResults.fed {atFront : Bool} {vs : List ValueId}
    (h : SpillsResults id atFront vs m m') (hs : Sound m) (hf : m.Fitted) (hn : m.live? id = some n)
    (hk : m.kind? n.parent = some .graph) (hm : m.Fed []) : m'.Fed [] ∧ m'.Fitted := by
  induction h generalizing n with
  | nil => exact ⟨hm, hf⟩
  | cons h _ ih =>
    obtain ⟨ops, hn₁⟩ := h.live hn
    obtain ⟨hm₁, hf₁⟩ := h.fed hs hf hn hk hm
    exact ih h.sound hf₁ hn₁ (h.kept.kind? _ ▸ hk) hm₁

theorem Spills.fed {atFront : Bool} (h : m.Spills id atFront m') (hs : Sound m) (hf : m.Fitted)
    (hn : m.live? id = some n) (hk : m.kind? n.parent = some .graph) (hm : m.Fed []) :
    m'.Fed [] := by
  cases h with
  | single hn' _ hl hs₁ h =>
    have hacts : Act m.body (fun _ => False) m _ := .relabel hl hs₁
    exact (h.fed hs₁ (hacts.fitted hf) (hl.live hn) ((hl.kept.kind? _).trans hk)
      (hl.fed hs.toWellFormed hm)).1
  | all hn' h => exact (h.fed hs hf hn hk hm).1

theorem Captures.fed (h : m.Captures id m') (hs : Sound m) (hn : m.live? id = some n)
    (hk : m.kind? n.parent = some .procedural) (hm : m.Fed []) : m'.Fed [] := by
  obtain ⟨hn', hv, htype, hprocess, hp, hdecl, hstype, hs₁, hread, hs₂, hr, hs₃, hconn, hs'⟩ := h
  obtain rfl := Option.some.inj (hn.symm.trans hn')
  rename_i np result value storage process decl read conn type stype m₁ m₂ m₃
  have hg := hprocess.graph hp
  have hsh₁ := hdecl.shared hg rfl rfl
  have hst₁ : m₁.Usable storage := hdecl.usable_result (i := 0) rfl
  have hreadFrame : Frame (fun _ => False) m₁ m₂ := hread.frame hs₁.toWellFormed rfl
  have hsh₂ := hsh₁.stay hreadFrame hst₁ fun _ _ => not_false
  have hm₂ : m₂.Fed [] := hread.fed hs₁ hs₂ rfl (hdecl.fed hs hs₁ rfl hm nofun)
    (List.forall_mem_singleton.2 hsh₂.finds)
  have hn₂ := hread.live (hdecl.live hn)
  have hk₂ : ∀ b, m₂.kind? b = m.kind? b := fun b =>
    (hread.kept.kind? b).trans (hdecl.kept.kind? b)
  have hresult : m₂.def? result = some (.result id 0) :=
    hread.kept.def? (hdecl.kept.def? (hs.result (core_of_live? hn) (by rw [hv]; rfl)))
  have hm₃ : m₃.Fed [] := by
    refine hr.fed_substitute hs₂.toWellFormed hm₂ fun u k hu =>
      .of_def (hread.def?_result (i := 0) rfl) (.of_inGraph ⟨_, hread.live?_self, (hk₂ _).trans hg⟩ ?_)
    -- The read is in a block around the node, and so around what takes the node.
    obtain ⟨⟨n', hn', hg'⟩, -⟩ | ⟨hW, -⟩ | ⟨n', nu, hn', hnu, hin⟩ := (hm₂ ⟨k, _, _, hu, hresult⟩).inside
    · obtain rfl := Option.some.inj (hn₂.symm.trans hn')
      rw [hk₂, hk] at hg'
      cases hg'
    · cases hW
    · obtain rfl := Option.some.inj (hn₂.symm.trans hn')
      exact ⟨_, nu, hread.live?_self, hnu, (hread.sameTree.inside (hdecl.sameTree.inside
        (hprocess.inside hn hp))).trans hin⟩
  have hconnFrame : Frame (fun _ => False) m₂ m' :=
    hr.frame.trans (hconn.frame hs₃.toWellFormed rfl) hs₂.toWellFormed hs₃.toWellFormed fun _ _ _ ht => ht
  have hp := hconn.precedes_after hs₃.toWellFormed (hs₃.mem_nodesOf_iff.2
    ⟨_, hr.live hn₂, rfl⟩)
  refine hconn.fed hs₃ hs' rfl hm₃ (List.forall_mem_cons.2
    ⟨(hsh₂.stay hconnFrame (hread.usable hst₁) fun _ _ => not_false).finds,
      List.forall_mem_singleton.2 (.of_def (hconnFrame.kept.def? hresult)
        (.of_precedes hp hs'.toWellFormed))⟩)

/-! ## Out of procedural code -/

/-- A block that is around the block of a node, but not that one, is around its owner. -/
theorem Inside.of_ne (h : m.Inside b n.parent) (hs : Sound m) (hn : m.live? id = some n)
    (hown : m.OwnedBy id a) (ha : m.live? a = some na) (hne : b ≠ n.parent) :
    m.Inside b na.parent := by
  obtain ⟨n', na', hn', ha', hmem⟩ := hown
  obtain rfl := Option.some.inj (hn.symm.trans hn')
  obtain rfl := Option.some.inj (ha.symm.trans ha')
  generalize hc : n.parent = c at h
  cases h with
  | self => exact absurd hc.symm hne
  | region hx hcx h =>
    obtain rfl := hs.region_unique ha hmem hx (hc ▸ hcx)
    obtain rfl := Option.some.inj (ha.symm.trans hx)
    exact h

/-- A graph block around a node is around the outermost node around that in procedural code. -/
theorem Outermost.inside (h : m.Outermost a id) (hs : Sound m) (hn : m.live? id = some n)
    (ha : m.live? a = some na) (hb : m.kind? b = some .graph) (hin : m.Inside b n.parent) :
    m.Inside b na.parent := by
  induction h generalizing n with
  | self =>
    obtain rfl := Option.some.inj (hn.symm.trans ha)
    exact hin
  | @up j k nj hj hk hown hrest ih =>
    obtain rfl := Option.some.inj (hn.symm.trans hj)
    obtain ⟨nk, hnk⟩ := hown.live
    exact ih hnk (hin.of_ne hs hn hown hnk fun he => by
      rw [he, hk] at hb
      cases hb)

theorem ProcessOf.inside_graph (h : m.ProcessOf id a) (hs : Sound m) (hn : m.live? id = some n)
    (hk : m.kind? n.parent = some .procedural) (ha : m.live? a = some na)
    (hb : m.kind? b = some .graph) (hin : m.Inside b n.parent) : m.Inside b na.parent := by
  obtain ⟨up, hown, hout⟩ := h
  obtain ⟨nu, hnu⟩ := hown.live
  exact hout.inside hs hnu ha hb (hin.of_ne hs hn hown hnu fun he => by
    rw [he, hk] at hb
    cases hb)

/-- What a node in procedural code takes without the help of a worklist is around it. -/
theorem Supplies.encloses (h : m.Supplies [] d u) (hn : m.live? d = some nd)
    (hk : m.kind? nd.parent = some .procedural) : m.Encloses d u := by
  obtain ⟨⟨nd', hnd', hg⟩, -⟩ | ⟨hW, -⟩ | h := h.inside
  · obtain rfl := Option.some.inj (hn.symm.trans hnd')
    rw [hk] at hg
    cases hg
  · cases hW
  · exact h

/-- The node that a hoisted one goes before is the process around it, if all that it takes is outside of
procedural code, and the owner of its block, if all that it takes is outside of that. -/
def ReachesPast (m : Module) (id a : NodeId) (n : Node) : Prop :=
  (reachOf m n.parent n.operands = .ok .graph ∧ m.ProcessOf id a) ∨
    (reachOf m n.parent n.operands = .ok .oneLevel ∧ m.OwnedBy id a)

section

variable (hs : Sound m) (hn : m.live? id = some n) (hk : m.kind? n.parent = some .procedural)
  (hreach : m.ReachesPast id a n)

include hs hn hk hreach

/-- What a hoisted node takes is not in its block, and if it leaves procedural code in one step, what it
takes is in none. -/
theorem ReachesPast.takes (hd : m.live? d = some nd) (h : m.Takes id d) : nd.parent ≠ n.parent ∧
    (reachOf m n.parent n.operands = .ok .graph → m.kind? nd.parent = some .graph) := by
  have husable : ∀ v ∈ n.operands, m.Usable v := fun v hv => by
    obtain ⟨i, hi⟩ := exists_uses_of_mem hn hv
    exact hs.usable hi
  obtain ⟨k, v, i, ⟨n', hn', hget⟩, hdef⟩ := h
  obtain rfl := Option.some.inj (hn.symm.trans hn')
  have hv := List.mem_of_getElem? hget
  refine ⟨fun hp => ?_, fun hr => (reachOf_eq_ok husable hk hr).2 rfl v hv d i nd hdef hd⟩
  obtain ⟨hr, -⟩ | ⟨hr, -⟩ := hreach <;>
    cases (reachOf_eq_ok husable hk hr).1.2 ⟨v, hv, d, i, nd, hdef, hd, hp⟩

omit hs hk in
theorem ReachesPast.exists_owner (ha : m.live? a = some na) :
    m.Inside na.parent n.parent ∧ ∃ up, m.OwnedBy id up ∧ m.Around a up := by
  refine ⟨hreach.elim (·.2.inside hn ha) (·.2.inside hn ha), ?_⟩
  obtain ⟨-, up, hown, hout⟩ | ⟨-, hown⟩ := hreach
  · exact ⟨up, hown, hout.around⟩
  · exact ⟨a, hown, .self ha⟩

omit hn hk in
theorem ReachesPast.ne (hn : m.live? id = some n) (ha : m.live? a = some na) : a ≠ id := by
  obtain ⟨-, up, hown, haround⟩ := hreach.exists_owner hn ha
  rintro rfl
  exact hs.not_around_owner hown haround

/-- A hoisted node still stands where those that take it find it. -/
theorem Moves.supplies_hoisted (h : m.Moves m' na.parent (.before a) id) (ht : SameTree m m')
    (ha : m.live? a = some na) (hsup : m.Supplies [] id u) (hu : m.live? u = some nu)
    (hne : u ≠ id) : m'.Supplies [] id u := by
  obtain ⟨hin, up, hown, haround⟩ := hreach.exists_owner hn ha
  have hu' := h.live hu
  rw [if_neg hne] at hu'
  constructor
  · obtain ⟨n', nu', hn', hnu', hinu⟩ := hsup.encloses hn hk
    obtain rfl := Option.some.inj (hn.symm.trans hn')
    obtain rfl := Option.some.inj (hu.symm.trans hnu')
    refine Or.inr (Or.inr ⟨_, _, h.live hn, hu', ?_⟩)
    rw [if_pos rfl]
    exact ht.inside (hin.trans hinu)
  · obtain ⟨n', hn', hg⟩ | hassign | ⟨hinl, hnot⟩ | ⟨hW, -⟩ | ⟨c, x, hxu, hp⟩ := hsup.ahead
    · obtain rfl := Option.some.inj (hn.symm.trans hn')
      rw [hk] at hg
      cases hg
    · exact Or.inr (Or.inl (hassign.mono h.kept))
    · exact Or.inr (Or.inr (Or.inl ⟨hinl.mono h.kept, fun hi => hnot (hi.of_kept h.kept hn)⟩))
    · cases hW
    · -- The node comes before its former owner, or one around that, and so before its user.
      obtain ⟨n', nup, hn', hnup, hmem⟩ := hown
      obtain rfl := Option.some.inj (hn.symm.trans hn')
      obtain ⟨n', hn', hpid⟩ := hs.mem_nodesOf_iff.1 hp.mem_left
      obtain rfl := Option.some.inj (hn.symm.trans hn')
      obtain ⟨nx, hnx, hpx⟩ := hs.mem_nodesOf_iff.1 hp.mem_right
      have haround' : m.Around a u :=
        hxu.trans (.up ⟨nx, nup, hnx, hnup, hpx.trans hpid.symm ▸ hmem⟩ haround)
      exact Or.inr (Or.inr (Or.inr (Or.inr ⟨_, a, haround'.of_sameTree ht ⟨nu, _, hu, hu', rfl⟩,
        h.precedes_before hs.toWellFormed (hs.mem_nodesOf ha) (hreach.ne hs hn ha)⟩)))

/-- What a hoisted node takes still stands where the node finds it. -/
theorem Moves.supplied_hoisted (h : m.Moves m' na.parent (.before a) id) (hs' : Sound m')
    (ht : SameTree m m') (hop : n.op.isExpression = true) (ha : m.live? a = some na)
    (hsup : m.Supplies [] d id) (hd : m.live? d = some nd) (htake : m.Takes id d) :
    m'.Supplies [] d id := by
  obtain ⟨hpne, hgraph⟩ := hreach.takes hs hn hk hd htake
  have hframe := h.frame hs.toWellFormed
  have hdne : d ≠ id := by
    rintro rfl
    obtain rfl := Option.some.inj (hn.symm.trans hd)
    exact hpne rfl
  have hd' := h.live hd
  rw [if_neg hdne] at hd'
  constructor
  · obtain hfree | ⟨hW, -⟩ | ⟨nd', n', hnd', hn', hind⟩ := hsup.inside
    · exact Or.inl (hfree.frame hframe hdne)
    · cases hW
    · obtain rfl := Option.some.inj (hd.symm.trans hnd')
      obtain rfl := Option.some.inj (hn.symm.trans hn')
      have hind' : m.Inside nd.parent na.parent := by
        obtain ⟨hr, hprocess⟩ | ⟨-, hown⟩ := hreach
        · exact hprocess.inside_graph hs hn hk ha (hgraph hr) hind
        · exact hind.of_ne hs hn hown ha hpne
      refine Or.inr (Or.inr ⟨_, _, hd', h.live hn, ?_⟩)
      rw [if_pos rfl]
      exact ht.inside hind'
  · have hne := hreach.ne hs hn ha
    obtain ⟨hr, -⟩ | ⟨-, hown⟩ := hreach
    · exact Or.inl ⟨_, hd', (h.kept.kind? _).trans (hgraph hr)⟩
    · obtain hg | hassign | ⟨hinl, hnot⟩ | ⟨hW, -⟩ | ⟨c, x, hxid, hp⟩ := hsup.ahead
      · exact Or.inl (hg.frame hframe hdne)
      · have hop' : n.op = .assign := hassign.of_live hn
        rw [hop'] at hop
        cases hop
      · exact Or.inr (Or.inr (Or.inl ⟨hinl.mono h.kept, fun hi => hnot (hi.of_kept h.kept hd)⟩))
      · cases hW
      · cases hxid with
        | self =>
          obtain ⟨nd', hnd', hpd⟩ := hs.mem_nodesOf_iff.1 hp.mem_left
          obtain ⟨n', hn', hpn⟩ := hs.mem_nodesOf_iff.1 hp.mem_right
          obtain rfl := Option.some.inj (hd.symm.trans hnd')
          obtain rfl := Option.some.inj (hn.symm.trans hn')
          exact absurd (hpd.trans hpn.symm) hpne
        | up hown' hrest =>
          obtain rfl := hs.ownedBy_unique hown hown'
          have hdom : m'.Dominates d a := Dominates.frame hframe ht
            (fun j nj hj hnj => by
              obtain rfl := hj
              obtain rfl := Option.some.inj (hn.symm.trans hnj)
              exact hs.toNested.regions_eq_nil hn (Op.regionKinds_of_isExpression hop))
            ⟨c, x, hrest, hp⟩ hdne hne ha
          exact Or.inr (Or.inr (Or.inr (Or.inr ((h.heralds hs.toWellFormed (hs.mem_nodesOf ha)
            hne).dominates hs'.toWellFormed hdom hdne))))

end

theorem Hoists.fed (h : m.Hoists id m') (hs : Sound m) (hn : m.live? id = some n)
    (hop : n.op.isExpression = true) (hk : m.kind? n.parent = some .procedural)
    (hm : m.Fed []) : m'.Fed [] := by
  obtain ⟨hn', ha, hreach, hmove, hs'⟩ := h
  obtain rfl := Option.some.inj (hn.symm.trans hn')
  have hreg := hs.toNested.regions_eq_nil hn (Op.regionKinds_of_isExpression hop)
  have htree := hmove.sameTree hn hreg
  refine hmove.fed hs.toWellFormed hn hreg hm (fun u hu hne => ?_) fun d hd => ?_
  · obtain ⟨nu, hnu⟩ := hu.live_left
    exact hmove.supplies_hoisted hs hn hk hreach htree ha (hm hu) hnu hne
  · obtain ⟨nd, hnd⟩ := hd.live_right hs.toWellFormed
    exact hmove.supplied_hoisted hs hn hk hreach hs' htree hop ha (hm hd) hnd hd

end Module

end NetPrep
