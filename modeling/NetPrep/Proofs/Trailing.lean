import Mathlib
import NetPrep.Proofs.Advancing
import NetPrep.Proofs.Sustaining

/-!
# What comes after a node

Without local variables nothing that comes after a node in procedural code is moved when the node is
handled, but for assignments of an instance. What is settled along with a node is printed inside it, and
so stands before it.
-/

namespace NetPrep

open Prepare Prep

namespace Module

variable {o : Options} {flow : Flow} {m m' m'' : Module} {T : NodeId → Prop} {a d e id inst j u x y : NodeId}
  {n na nd nu : Node} {b : BlockId} {v storage old : ValueId} {type : TypeId} {loc : Loc}
  {us : List Use} {vs : List ValueId}

/-! ## Temporaries and ports -/

theorem ReadsFor.frame (h : ReadsFor old storage type loc us m m') (hs : Sound m) : Frame T m m' := by
  induction h with
  | nil => exact .refl _ _
  | cons h _ ih =>
    exact (h.frame hs.toWellFormed).trans (ih h.sound) hs.toWellFormed h.sound.toWellFormed
      fun _ _ _ ht => ht

/-- Storing a result moves nothing that was there before. -/
theorem SpillsResult.frame {name : Option Name} {atFront : Bool}
    (h : m.SpillsResult id v name atFront m') (hs : Sound m) : Frame T m m' := by
  obtain ⟨-, -, -, hdecl, -, hs₁, -, -, hreads, hconn, hs₃, hmove⟩ := h
  rename_i n type stype decl conn storage uses m₁ m₂ m₃
  have hmade : (m.temporaryOps n.parent).1.isMade = true ∧ (m.temporaryOps n.parent).2.isMade = true := by
    obtain h | h := m.temporaryOps_cases n.parent <;> rw [h] <;> exact ⟨rfl, rfl⟩
  have hs₂ := hreads.sound hs₁
  have h₃ : Frame T m m₃ := ((hdecl.frame hs.toWellFormed hmade.1).trans (hreads.frame hs₁)
    hs.toWellFormed hs₁.toWellFormed fun _ _ _ ht => ht).trans (hconn.frame hs₂.toWellFormed hmade.2)
    hs.toWellFormed hs₂.toWellFormed fun _ _ _ ht => ht
  cases atFront with
  | true => exact hmove ▸ h₃
  | false =>
    exact h₃.trans (hmove.1.frame hs₃.toWellFormed) hs.toWellFormed hs₃.toWellFormed
      fun j nj hj (he : j = decl) => absurd he (hdecl.ne hj)

theorem SpillsResults.frame {atFront : Bool} (h : SpillsResults id atFront vs m m') (hs : Sound m) :
    Frame T m m' := by
  induction h with
  | nil => exact .refl _ _
  | cons h _ ih =>
    exact (h.frame hs).trans (ih h.sound) hs.toWellFormed h.sound.toWellFormed fun _ _ _ ht => ht

theorem Spills.frame {atFront : Bool} (h : m.Spills id atFront m') (hs : Sound m) : Frame T m m' := by
  cases h with
  | single _ _ hl hs₁ h =>
    exact hl.frame.trans (h.frame hs₁) hs.toWellFormed hs₁.toWellFormed fun _ _ _ ht => ht
  | all _ h => exact h.frame hs

theorem AnchorsInput.frame {index : Nat} (h : m.AnchorsInput inst index v m') (hs : Sound m) :
    Frame T m m' := by
  cases h with
  | simple h => exact h ▸ .refl _ _
  | wired _ _ _ hdecl _ hs₁ hread hs₂ hconn hs₃ hr _ =>
    exact (((hdecl.frame hs.toWellFormed rfl).trans (hread.frame hs₁.toWellFormed rfl) hs.toWellFormed
      hs₁.toWellFormed fun _ _ _ ht => ht).trans (hconn.frame hs₂.toWellFormed rfl) hs.toWellFormed
      hs₂.toWellFormed fun _ _ _ ht => ht).trans hr.frame hs.toWellFormed hs₃.toWellFormed
      fun _ _ _ ht => ht

theorem AnchorsInputs.frame {index : Nat} (h : AnchorsInputs inst index vs m m') (hs : Sound m) :
    Frame T m m' := by
  induction h with
  | nil => exact .refl _ _
  | cons h _ ih =>
    exact (h.frame hs).trans (ih (h.sound hs)) hs.toWellFormed (h.sound hs).toWellFormed
      fun _ _ _ ht => ht

theorem Captures.frame (h : m.Captures id m') (hs : Sound m) : Frame T m m' := by
  obtain ⟨-, -, -, -, -, hdecl, -, hs₁, hread, hs₂, hr, hs₃, hconn, -⟩ := h
  exact (((hdecl.frame hs.toWellFormed rfl).trans (hread.frame hs₁.toWellFormed rfl) hs.toWellFormed
    hs₁.toWellFormed fun _ _ _ ht => ht).trans hr.frame hs.toWellFormed hs₂.toWellFormed
    fun _ _ _ ht => ht).trans (hconn.frame hs₃.toWellFormed rfl) hs.toWellFormed hs₃.toWellFormed
    fun _ _ _ ht => ht

/-! ## Settling -/

/-- A node is printed inside another one, at any depth. -/
def PrintedIn (m : Module) : NodeId → NodeId → Prop :=
  Relation.ReflTransGen fun u d => m.Takes u d ∧ IsInline m d

/-- What is printed inside a node of procedural code, and in its block, stands before the node. -/
theorem Fed.precedes_of_printedIn (hm : m.Fed []) (hs : Sound m) (hn : m.live? id = some n)
    (hop : n.op.isAlwaysInline = true) (hk : m.kind? n.parent = some .procedural)
    (h : m.PrintedIn id y) : (IsInline m y ∧ m.Encloses y id) ∧
      (y ∈ m.nodesOf n.parent → y = id ∨ Precedes (m.nodesOf n.parent) y id) := by
  induction h with
  | refl => exact ⟨⟨isInline_of_live hn hop, n, n, hn, hn, .self⟩, fun _ => Or.inl rfl⟩
  | @tail y d _ hstep ih =>
    obtain ⟨⟨hiny, hy⟩, hprec⟩ := ih
    obtain ⟨htake, hind⟩ := hstep
    have hdy : m.Encloses d y := by
      obtain hfree | ⟨hW, -⟩ | hin := (hm htake).inside
      · exact absurd hind hfree.2
      · cases hW
      · exact hin
    obtain ⟨nd, ny, hnd, hny, hin⟩ := hdy
    obtain ⟨ny', n', hny', hn', hin'⟩ := hy
    obtain rfl := Option.some.inj (hny.symm.trans hny')
    obtain rfl := Option.some.inj (hn.symm.trans hn')
    refine ⟨⟨hind, nd, n, hnd, hn, hin.trans hin'⟩, fun hd => Or.inr ?_⟩
    obtain ⟨nd', hnd', hp⟩ := hs.mem_nodesOf_iff.1 hd
    obtain rfl := Option.some.inj (hnd.symm.trans hnd')
    -- The block of `y` is between two equal ones.
    have hpy : ny.parent = n.parent := hs.inside_antisymm hin' (hp ▸ hin)
    have hymem := hs.mem_nodesOf_iff.2 ⟨ny, hny, hpy⟩
    have hpre : Precedes (m.nodesOf n.parent) d y := by
      obtain ⟨nd', hnd', hg⟩ | ⟨ny', hny', hassign⟩ | ⟨-, hnot⟩ | ⟨hW, -⟩ | hdom := (hm htake).ahead
      · obtain rfl := Option.some.inj (hnd.symm.trans hnd')
        rw [hp, hk] at hg
        cases hg
      · obtain ⟨ny'', hny'', hopy⟩ := hiny
        obtain rfl := Option.some.inj (hny'.symm.trans hny'')
        rw [hassign] at hopy
        cases hopy
      · exact absurd hind hnot
      · cases hW
      · exact hdom.precedes hs hd hymem
    obtain rfl | hpy := hprec hymem
    · exact hpre
    · exact hpre.trans (hs.nodup _) hpy

/-- Settling moves only what is printed inside the nodes that are settled. -/
theorem Settles.frame_printedIn (h : m.Settles (· = id) m') (hs : Sound m) :
    Frame (m.PrintedIn id) m m' := by
  -- A node is old and printed inside the given one, or it is new; so is all that is printed inside it.
  let U (e : NodeId) : Prop := m.nodes.size ≤ e.index ∨ m.PrintedIn id e
  let P (m₁ : Module) (j : NodeId) : Prop := m.nodes.size ≤ m₁.nodes.size ∧ ∀ e, m₁.PrintedIn j e → U e
  have hspreads : Spreads P := by
    refine ⟨fun {m₁ m₂ k j} hs₁ hid hstep hj => ⟨hj.1.trans hstep.kept.nodes_size, ?_⟩,
      fun {m₁ k j} hs₁ hid hinner => ⟨hid.1, fun e he => hid.2 e ?_⟩⟩
    · obtain ⟨c, u, hput⟩ := hstep.exists_putBefore hs₁
      suffices ∀ e, m₂.PrintedIn j e → P m₁ e from fun e he => (this e he).2 e .refl
      intro e he
      induction he with
      | refl => exact hj
      | @tail y e _ hstep' ih =>
        obtain ⟨htake, hin⟩ := hstep'
        have hfrom : ∀ {y}, P m₁ y → m₁.Takes y e → P m₁ e := fun hy ht => by
          obtain ⟨ne, hne⟩ := ht.live_right hs₁.toWellFormed
          exact ⟨hy.1, fun e' he' => hy.2 e' (.head ⟨ht, hin.of_kept hstep.kept hne⟩ he')⟩
        obtain ⟨-, ht⟩ | ⟨-, rfl⟩ | ⟨-, -, ht⟩ := hput.takes_cases htake
        · exact hfrom hid ht
        · obtain ⟨rfl, -⟩ | hnone := hput.node
          · exact hid
          · -- The copy is new, and took nothing before.
            obtain ⟨ne, hne⟩ := htake.live_right hput.sound.toWellFormed
            have hfresh : m₁.nodes.size ≤ e.index := by
              obtain ⟨n, hn⟩ | ⟨hsize, -⟩ := hput.frame.old hne
              · simp [hnone] at hn
              · exact hsize
            refine ⟨hid.1, fun e' he' => Or.inl ?_⟩
            obtain rfl | ⟨y', ⟨ht, -⟩, -⟩ := Relation.ReflTransGen.cases_head_iff.1 he'
            · exact hid.1.trans hfresh
            · obtain ⟨n, hn⟩ := ht.live_left
              simp [hnone] at hn
        · exact hfrom ih ht
    · obtain ⟨hin, nk, hnk, -, v, hv, i, hdef⟩ := hinner
      obtain ⟨k', hk'⟩ := exists_uses_of_mem hnk hv
      exact .head ⟨⟨k', v, i, hk', hdef⟩, hin⟩ he
  refine (((h.inlinesBy hspreads hs ?_).frame (T := U) hs.toWellFormed) fun m₁ j hj => hj.2 j .refl).mono
    (fun j nj hj ht => ht.resolve_left (Nat.not_le.2 (lt_of_live? hj))) hs.toWellFormed
  rintro _ rfl
  exact ⟨le_rfl, fun e he => Or.inr he⟩

/-! ## The scan -/

section

variable {block : BlockId} {next : Option NodeId}

/-- The scan does not jump over a node that stays behind the ones that it came after. -/
theorem Follows.ahead (hf : Follows block id next m m') (hx : Precedes (m.nodesOf block) id x)
    (hmem : x ∈ m'.nodesOf block) (horder : ∀ a, Precedes (m.nodesOf block) id a →
      Precedes (m.nodesOf block) a x → Precedes (m'.nodesOf block) a x) :
    ∃ y, next = some y ∧ (y = x ∨ Precedes (m'.nodesOf block) y x) := by
  obtain ⟨l, y, r, hl, hy⟩ := hx.exists_next
  rcases hy with rfl | hy
  · exact ⟨y, hf l y r hl hmem, Or.inl rfl⟩
  · have hid : Precedes (m.nodesOf block) id y := by
      rw [hl]
      exact Precedes.append_iff.2 (Or.inr (Or.inl (Precedes.cons_iff.2 (Or.inl (by simp)))))
    have hprec := horder y hid hy
    exact ⟨y, hf l y r hl hprec.mem_left, Or.inr hprec⟩

theorem Frame.ahead (h : Frame T m m') (hs : Sound m) (hs' : Sound m')
    (hT : ∀ a, Precedes (m.nodesOf block) id a → ¬ T a) (hf : Follows block id next m m')
    (hx : Precedes (m.nodesOf block) id x) :
    ∃ y, next = some y ∧ (y = x ∨ Precedes (m'.nodesOf block) y x) :=
  hf.ahead hx (h.mem_nodesOf hs.toWellFormed hs'.toWellFormed hx.mem_right (hT x hx))
    fun a ha hax => h.precedes hax (hT a ha) (hT x hx)

/-- What comes after a node in procedural code is still ahead of the scan once the node is handled,
unless it is an assignment. -/
theorem Handled.ahead (h : m.Handled o id m' .next) (hm : m.Sustained) (hs' : Sound m')
    (hstrict : o.disallowLocalVariables = true) (hn : m.live? id = some n)
    (hk : m.kind? n.parent = some .procedural) (hf : Follows n.parent id next m m')
    (hassign : ¬ m.HasOp (· = .assign) x) (hx : Precedes (m.nodesOf n.parent) id x) :
    ∃ y, next = some y ∧ (y = x ∨ Precedes (m'.nodesOf n.parent) y x) := by
  have hs := hm.toSound
  have hself : ∀ a, Precedes (m.nodesOf n.parent) id a → ¬ a = id := fun a ha =>
    (ha.ne (hs.nodup n.parent)).symm
  have hnone : Frame (fun _ => False) m m' → ∃ y, next = some y ∧
      (y = x ∨ Precedes (m'.nodesOf n.parent) y x) := fun h =>
    h.ahead hs hs' (fun _ _ => not_false) hf hx
  have hmove : Frame (· = id) m m' → ∃ y, next = some y ∧
      (y = x ∨ Precedes (m'.nodesOf n.parent) y x) := fun h => h.ahead hs hs' hself hf hx
  cases h with
  | leave _ _ _ _ h =>
    obtain ⟨-, -, -, hm', -⟩ := h
    exact hmove (hm'.frame hs.toWellFormed)
  | route _ _ _ h => exact hnone (h.provides hs).1
  | @anchor n' n₁ m₁ hn' hop h hn₁ h' =>
    obtain rfl := Option.some.inj (hn.symm.trans hn')
    obtain ⟨hframe, htrails⟩ := h.frame hs ⟨n, core_of_live? hn, hop⟩
    have hs₁ := (h.edits hs).sound
    have hrest : Frame (fun _ => False) m₁ m' := by
      split at h'
      · exact h'.frame hs₁
      · exact h' ▸ .refl _ _
    refine hf.ahead hx (hrest.mem_nodesOf hs₁.toWellFormed hs'.toWellFormed
      (hframe.mem_nodesOf hs.toWellFormed hs₁.toWellFormed hx.mem_right hassign) not_false)
      fun a ha hax => hrest.precedes (htrails hassign ha hax).2 not_false not_false
  | other _ _ _ _ _ h => exact hnone (h ▸ .refl _ _)
  | hoist _ _ _ _ _ h =>
    obtain ⟨-, -, -, hm', -⟩ := h
    exact hmove (hm'.frame hs.toWellFormed)
  | capture _ _ _ _ _ h => exact hnone (h.frame hs)
  | erase _ _ _ _ h _ => exact hmove (h.frame hs.toWellFormed)
  | skip _ _ _ h => exact hnone (h ▸ .refl _ _)
  | settle hn' hop _ h =>
    obtain rfl := Option.some.inj (hn.symm.trans hn')
    refine (h.frame_printedIn hs).ahead hs hs' (fun a ha hin => ?_) hf hx
    obtain rfl | hpa := (hm.fed.precedes_of_printedIn hs hn hop hk hin).2 ha.mem_right
    · exact hself a ha rfl
    · exact (ha.trans (hs.nodup _) hpa).ne (hs.nodup _) rfl
  | withdraw hn' hop _ _ _ _ h h' =>
    obtain rfl := Option.some.inj (hn.symm.trans hn')
    have hs₁ := (h.edits hs hn (Op.regionKinds_of_isExpression hop)).sound
    obtain ⟨-, -, -, hm', -⟩ := h
    have hframe := hm'.frame hs.toWellFormed
    obtain rfl | ⟨-, h'⟩ := h'
    · exact hmove hframe
    · exact hmove (hframe.trans (h'.frame hs₁) hs.toWellFormed hs₁.toWellFormed fun _ _ _ ht => ht)
  | finish hn' _ _ _ _ hproc _ h =>
    obtain rfl := Option.some.inj (hn.symm.trans hn')
    obtain rfl := hproc hstrict hk
    obtain rfl | ⟨hg, -⟩ := h
    · exact hnone (.refl _ _)
    · rw [hk] at hg
      cases hg
  | vanish hn' _ _ _ hproc h =>
    obtain rfl := Option.some.inj (hn.symm.trans hn')
    obtain rfl := hproc hstrict hk
    exact hmove ((h.erases hn).2.1.frame hs.toWellFormed)

end

end Module

end NetPrep
