import Mathlib
import NetPrep.Proofs.Checking
import NetPrep.Proofs.Safety

/-!
# Drawing nodes from both ends

A cursor answers calls at either end of a block in any order. What it has not drawn yet is a stretch of
the nodes of the block: a call at the front takes the first node of the stretch, a call at the back the
last one. The links lead on behind the stretch, so it is the count of nodes left that ends the walk.

`Consistent` says what the links of one block have to be for this, and `Drawn` what draws from a list
come to, whatever the order of the calls.
-/

namespace NetPrep

/-- The end of a block at which a node is asked for. -/
inductive Side where
  | front
  | back
deriving DecidableEq, Repr

namespace BlockCursor

/-- A call at one end. -/
def draw? (m : Module) : Side → BlockCursor → Except Fault (Option (NodeId × BlockCursor))
  | .front => next? m
  | .back => nextBack? m

/-- What calls answer one after another. A call without an answer leaves the cursor as it is. -/
def answers (m : Module) : List Side → BlockCursor → Except Fault (List (Option NodeId))
  | [], _ => return []
  | side :: sides, c => do
    match ← c.draw? m side with
    | none => return none :: (← answers m sides c)
    | some (id, c) => return some id :: (← answers m sides c)

end BlockCursor

/-- What calls at the ends of a block answer, from a cursor over the whole block on. -/
def Module.draws (m : Module) (block : BlockId) (sides : List Side) :
    Except Fault (List (Option NodeId)) := do
  (← m.cursor block).answers m sides

/-- The links of a block are those of a list: the block knows the ends and the length of the list, and
each node of the list its neighbours there. -/
structure Module.Consistent (m : Module) (block : BlockId) (ids : List NodeId) : Prop where
  ends : ∃ b, m.block? block = some b ∧ b.first = ids.head? ∧ b.last = ids.getLast? ∧
    b.len = ids.length
  link : ∀ {l x r}, ids = l ++ x :: r →
    ∃ n, m.node? x = some n ∧ n.prev = l.getLast? ∧ n.next = r.head?

theorem Linked.consistent {m : Module} {lists : BlockId → List NodeId} (h : Linked m lists none)
    {block : BlockId} {b : Block} (hb : m.block? block = some b) :
    m.Consistent block (lists block) where
  ends := ⟨b, hb, h.first hb, h.last hb, h.len hb⟩
  link {l x r} hl := by
    obtain ⟨n, hn, -⟩ := h.exists_node (show x ∈ lists block by simp [hl])
    exact ⟨n, hn, h.link hl hn⟩

namespace Module.Consistent

variable {m : Module} {block : BlockId} {ids l l' r r' : List NodeId} {x : NodeId}

/-- Going back along the links from a node counts the nodes before it, so it has one place. -/
theorem place_unique (h : m.Consistent block ids) (hl : ids = l ++ x :: r)
    (hl' : ids = l' ++ x :: r') : l = l' := by
  induction l using List.reverseRecOn generalizing l' x r r' with
  | nil =>
    obtain ⟨n, hn, hprev, -⟩ := h.link hl
    obtain ⟨n', hn', hprev', -⟩ := h.link hl'
    obtain rfl := Option.some.inj (hn.symm.trans hn')
    exact (List.getLast?_eq_none_iff.1 (hprev'.symm.trans hprev)).symm
  | append_singleton l y ih =>
    obtain ⟨n, hn, hprev, -⟩ := h.link hl
    obtain ⟨n', hn', hprev', -⟩ := h.link hl'
    obtain rfl := Option.some.inj (hn.symm.trans hn')
    have hlast : l'.getLast? = some y := by rw [← hprev', hprev, List.getLast?_concat]
    obtain ⟨l', rfl⟩ := List.getLast?_eq_some_iff.1 hlast
    rw [List.append_assoc, List.singleton_append] at hl hl'
    rw [ih hl hl']

theorem nodup (h : m.Consistent block ids) : ids.Nodup := by
  rw [List.nodup_iff_sublist]
  intro x hx
  obtain ⟨l, r, hids, hl, hr⟩ := List.cons_sublist_iff.1 hx
  obtain ⟨l₁, l₂, rfl⟩ := List.append_of_mem hl
  obtain ⟨r₁, r₂, rfl⟩ := List.append_of_mem (List.singleton_sublist.1 hr)
  have hfirst : ids = l₁ ++ x :: (l₂ ++ (r₁ ++ x :: r₂)) := by simpa using hids
  have hsecond : ids = (l₁ ++ x :: (l₂ ++ r₁)) ++ x :: r₂ := by simpa using hids
  have hlength := congrArg List.length (h.place_unique hfirst hsecond)
  simp at hlength

end Module.Consistent

/-! ## Draws from a list -/

/-- Taking an entry out of a list at one end. -/
inductive Side.Takes {α : Type} : Side → List α → α → List α → Prop
  | front (x : α) (l : List α) : Takes .front (x :: l) x l
  | back (x : α) (l : List α) : Takes .back (l ++ [x]) x l

/-- What draws from a list come to: an entry each, as long as there is one. -/
inductive Drawn {α : Type} : List Side → List α → List (Option α) → Prop
  | nil (l : List α) : Drawn [] l []
  | stop (side : Side) {sides : List Side} {answers : List (Option α)} (h : Drawn sides [] answers) :
      Drawn (side :: sides) [] (none :: answers)
  | take {side : Side} {sides : List Side} {l rest : List α} {x : α} {answers : List (Option α)}
      (hx : side.Takes l x rest) (h : Drawn sides rest answers) :
      Drawn (side :: sides) l (some x :: answers)

/-- The place of an entry in a list of some length, counted from one end. -/
def Side.place : Side → Nat → Nat → Nat
  | .front, _, i => i
  | .back, length, i => length - 1 - i

namespace Side

variable {α : Type} {side : Side} {l rest : List α} {x : α}

/-- From a list with an entry there is one to take at either end. -/
theorem exists_takes (side : Side) (hl : l ≠ []) : ∃ x rest, side.Takes l x rest := by
  cases side with
  | front =>
    obtain ⟨x, rest, rfl⟩ := List.exists_cons_of_ne_nil hl
    exact ⟨x, rest, .front x rest⟩
  | back =>
    obtain rfl | ⟨rest, x, rfl⟩ := List.eq_nil_or_concat' l
    · exact absurd rfl hl
    · exact ⟨x, rest, .back x rest⟩

theorem Takes.perm (h : side.Takes l x rest) : l.Perm (x :: rest) := by
  cases h with
  | front => exact .refl _
  | back => exact List.perm_append_singleton _ _

theorem Takes.length (h : side.Takes l x rest) : l.length = rest.length + 1 := h.perm.length_eq

/-- What is taken is the first entry, counted from its end. -/
theorem Takes.getElem?_place_zero (h : side.Takes l x rest) :
    l[side.place l.length 0]? = some x := by
  cases h with
  | front => rfl
  | back => simp [place]

/-- The entries that are left are the next ones at that end, and keep their places from the other. -/
theorem Takes.getElem?_place (h : side.Takes l x rest) (other : Side) {i : Nat}
    (hi : i < rest.length) :
    l[other.place l.length (i + if side == other then 1 else 0)]? =
      rest[other.place rest.length i]? := by
  cases h with
  | front =>
    cases other with
    | front => simp [place]
    | back =>
      have hplace : rest.length - i = rest.length - 1 - i + 1 := by omega
      simp [place, hplace]
  | back =>
    cases other with
    | front => simp [place, List.getElem?_append_left hi]
    | back =>
      have hplace : rest.length - (i + 1) = rest.length - 1 - i := by omega
      have hlt : rest.length - 1 - i < rest.length := by omega
      simp [place, hplace, List.getElem?_append_left hlt]

end Side

namespace Drawn

variable {α : Type} {sides : List Side} {l : List α} {answers : List (Option α)} {n : Nat}

theorem length (h : Drawn sides l answers) : answers.length = sides.length := by
  induction h with
  | nil => rfl
  | stop _ _ ih => simp [ih]
  | take _ _ ih => simp [ih]

/-- When all entries have been drawn, there are no answers any more. -/
theorem answer_of_le (h : Drawn sides l answers) (hn : l.length ≤ n) (hlt : n < sides.length) :
    answers[n]? = some none := by
  induction h generalizing n with
  | nil => exact absurd hlt (Nat.not_lt_zero n)
  | stop side h ih =>
    cases n with
    | zero => rfl
    | succ n => exact ih (Nat.zero_le n) (Nat.lt_of_succ_lt_succ hlt)
  | take hx h ih =>
    rw [hx.length] at hn
    obtain ⟨n, rfl⟩ := Nat.exists_eq_add_one_of_ne_zero (by omega : n ≠ 0)
    exact ih (by omega) (Nat.lt_of_succ_lt_succ hlt)

/-- Until then, a call answers the entry behind those that were drawn at the same end. -/
theorem answer_of_lt (h : Drawn sides l answers) (hn : n < l.length) {side : Side}
    (hside : sides[n]? = some side) :
    ∃ x, l[side.place l.length ((sides.take n).count side)]? = some x ∧
      answers[n]? = some (some x) := by
  induction h generalizing n with
  | nil => cases hside
  | stop => exact absurd hn (Nat.not_lt_zero n)
  | @take side' sides l rest x answers hx h ih =>
    cases n with
    | zero =>
      obtain rfl : side' = side := by simpa using hside
      exact ⟨x, hx.getElem?_place_zero, rfl⟩
    | succ n =>
      rw [hx.length] at hn
      obtain ⟨y, hy, hanswer⟩ := ih (Nat.lt_of_succ_lt_succ hn) hside
      have hcount : (sides.take n).count side < rest.length :=
        (List.count_le_length.trans (List.length_take_le n sides)).trans_lt
          (Nat.lt_of_succ_lt_succ hn)
      refine ⟨y, ?_, hanswer⟩
      rw [List.take_succ_cons, List.count_cons, hx.getElem?_place side hcount, hy]

/-- What has been drawn, and what has not, are the entries of the list. -/
theorem exists_perm (h : Drawn sides l answers) :
    ∃ rest, (answers.reduceOption ++ rest).Perm l ∧ rest.length = l.length - sides.length := by
  induction h with
  | nil l => exact ⟨l, .refl l, rfl⟩
  | stop side h ih =>
    obtain ⟨rest, hperm, hlength⟩ := ih
    exact ⟨rest, by simpa using hperm, by simpa using hlength⟩
  | take hx h ih =>
    obtain ⟨rest, hperm, hlength⟩ := ih
    refine ⟨rest, ?_, ?_⟩
    · simpa using (hperm.cons _).trans hx.perm.symm
    · rw [hlength, hx.length, List.length_cons]
      omega

end Drawn

/-! ## Draws by a cursor -/

/-- A cursor over a stretch of a list, with some nodes before it and some behind it. -/
structure BlockCursor.Spans (c : BlockCursor) (before stretch behind : List NodeId) : Prop where
  remaining : c.remaining = stretch.length
  front : c.front = (stretch ++ behind).head?
  back : c.back = (before ++ stretch).getLast?

namespace Module.Consistent

variable {m : Module} {block : BlockId} {ids before stretch rest behind : List NodeId}
  {c : BlockCursor} {side : Side} {x : NodeId}

theorem exists_cursor (h : m.Consistent block ids) :
    ∃ c, m.cursor block = .ok c ∧ c.Spans [] ids [] := by
  obtain ⟨b, hb, hfirst, hlast, hlen⟩ := h.ends
  refine ⟨⟨b.first, b.last, b.len⟩, ?_, hlen, by simpa using hfirst, hlast⟩
  rw [cursor, block_eq_ok_iff.2 hb, ok_bind]
  rfl

/-- The count ends the walk, wherever the links lead. -/
theorem draw?_nil (hc : c.Spans before [] behind) : c.draw? m side = .ok none := by
  have hremaining : c.remaining = 0 := hc.remaining
  cases side with
  | front => simp only [BlockCursor.draw?, BlockCursor.next?, hremaining]; rfl
  | back => simp only [BlockCursor.draw?, BlockCursor.nextBack?, hremaining]; rfl

/-- A call takes a node from its end of the stretch, and the cursor spans what is left. -/
theorem exists_draw? (h : m.Consistent block (before ++ stretch ++ behind))
    (hc : c.Spans before stretch behind) (hx : side.Takes stretch x rest) :
    ∃ c' before' behind', c.draw? m side = .ok (some (x, c')) ∧ c'.Spans before' rest behind' ∧
      before' ++ rest ++ behind' = before ++ stretch ++ behind := by
  have hremaining : c.remaining = rest.length + 1 := hc.remaining.trans hx.length
  cases hx with
  | front =>
    obtain ⟨n, hn, -, hnext⟩ := h.link (l := before) (x := x) (r := rest ++ behind) (by simp)
    have hfront : c.front = some x := hc.front
    refine ⟨{ c with front := n.next, remaining := rest.length }, before ++ [x], behind, ?_,
      ⟨rfl, hnext, ?_⟩, by simp⟩
    · simp only [BlockCursor.draw?, BlockCursor.next?, hremaining, hfront, node_eq_ok_iff.2 hn]
      rfl
    · simpa using hc.back
  | back =>
    obtain ⟨n, hn, hprev, -⟩ := h.link (l := before ++ rest) (x := x) (r := behind) (by simp)
    have hback : c.back = some x := by
      rw [hc.back, ← List.append_assoc, List.getLast?_concat]
    refine ⟨{ c with back := n.prev, remaining := rest.length }, before, x :: behind, ?_,
      ⟨rfl, ?_, hprev⟩, by simp⟩
    · simp only [BlockCursor.draw?, BlockCursor.nextBack?, hremaining, hback, node_eq_ok_iff.2 hn]
      rfl
    · simpa using hc.front

/-- Calls draw from the stretch that a cursor spans. -/
theorem exists_answers (h : m.Consistent block ids) (hids : before ++ stretch ++ behind = ids)
    (hc : c.Spans before stretch behind) (sides : List Side) :
    ∃ answers, c.answers m sides = .ok answers ∧ Drawn sides stretch answers := by
  induction sides generalizing c before stretch behind with
  | nil => exact ⟨[], rfl, .nil stretch⟩
  | cons side sides ih =>
    by_cases hempty : stretch = []
    · subst hempty
      obtain ⟨answers, hrun, hdrawn⟩ := ih hids hc
      refine ⟨none :: answers, ?_, .stop side hdrawn⟩
      rw [BlockCursor.answers, draw?_nil hc, ok_bind]
      simp only [hrun]
      rfl
    · obtain ⟨x, rest, hx⟩ := side.exists_takes hempty
      obtain ⟨c', before', behind', hdraw, hc', heq⟩ := (hids ▸ h).exists_draw? hc hx
      obtain ⟨answers, hrun, hdrawn⟩ := ih (heq.trans hids) hc'
      refine ⟨some x :: answers, ?_, .take hx hdrawn⟩
      rw [BlockCursor.answers, hdraw, ok_bind]
      simp only [hrun]
      rfl

/-- Whatever the order of the calls, those at the front answer the nodes of a block from the first one
on, and those at the back from the last one on, until every node has been answered once; from then on
there is no answer at either end. -/
theorem draws_exact (h : m.Consistent block ids) (sides : List Side) :
    ∃ answers, m.draws block sides = .ok answers ∧ answers.length = sides.length ∧
      (∀ n, n < ids.length → sides[n]? = some .front →
        ∃ x, ids[(sides.take n).count .front]? = some x ∧ answers[n]? = some (some x)) ∧
      (∀ n, n < ids.length → sides[n]? = some .back →
        ∃ x, ids[ids.length - 1 - (sides.take n).count .back]? = some x ∧
          answers[n]? = some (some x)) ∧
      (∀ n, ids.length ≤ n → n < sides.length → answers[n]? = some none) ∧
      answers.reduceOption.Nodup ∧
      (ids.length ≤ sides.length → answers.reduceOption.Perm ids) := by
  obtain ⟨c, hcursor, hc⟩ := h.exists_cursor
  obtain ⟨answers, hrun, hdrawn⟩ := h.exists_answers (List.append_nil ids) hc sides
  obtain ⟨rest, hperm, hlength⟩ := hdrawn.exists_perm
  have hnodup := (hperm.nodup_iff.2 h.nodup).of_append_left
  refine ⟨answers, ?_, hdrawn.length, fun n hn hside => hdrawn.answer_of_lt hn hside,
    fun n hn hside => hdrawn.answer_of_lt hn hside, fun n hn hlt => hdrawn.answer_of_le hn hlt,
    hnodup, fun hle => ?_⟩
  · rw [draws, hcursor, ok_bind, hrun]
  · have hrest : rest = [] := List.eq_nil_of_length_eq_zero (by omega)
    simpa [hrest] using hperm

end Module.Consistent

namespace Module

/-- A block in which each node stands before the ones made earlier, but for the end of the module. -/
def stacked : Module :=
  .sketch [.int 8] [(.input, 0), (.output, 0)]
    [(.front ⟨0⟩, .add, [0, 0], [0]), (.front ⟨0⟩, .mul, [0, 0], [0]), (.front ⟨0⟩, .sub, [0, 0], [0]),
      (.back ⟨0⟩, .output, [1], [])]

theorem draws_stacked : stacked.Consistent ⟨0⟩ ([2, 1, 0, 3].map .mk) ∧
    ∃ answers, stacked.draws ⟨0⟩ [.back, .front, .front, .back, .front, .back] = .ok answers ∧
      answers = [some ⟨3⟩, some ⟨2⟩, some ⟨1⟩, some ⟨0⟩, none, none] ∧
      answers.reduceOption.Perm ([2, 1, 0, 3].map .mk) := by
  have hs : Sound stacked := sound_of_isSound (by decide +kernel)
  have hlist : stacked.nodesOf ⟨0⟩ = [2, 1, 0, 3].map .mk := by decide +kernel
  obtain ⟨b, hb⟩ : ∃ b, stacked.block? ⟨0⟩ = some b := ⟨_, rfl⟩
  have hcons := hlist ▸ hs.linked.consistent hb
  obtain ⟨answers, hrun, -, -, -, -, -, hperm⟩ :=
    hcons.draws_exact [.back, .front, .front, .back, .front, .back]
  have heq : stacked.draws ⟨0⟩ [.back, .front, .front, .back, .front, .back] =
      .ok [some ⟨3⟩, some ⟨2⟩, some ⟨1⟩, some ⟨0⟩, none, none] := by decide +kernel
  exact ⟨hcons, answers, hrun, Except.ok.inj (hrun.symm.trans heq), hperm (by decide)⟩

end Module

end NetPrep
