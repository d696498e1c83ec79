import Mathlib
import NetPrep.Proofs.Acts
import NetPrep.Proofs.Checking
import NetPrep.Proofs.Passes

/-!
# Declarations lead

When a block has been legalized, its variables come before its other nodes, and a block that is written
down as lines of the one around it declares none. Nothing that is done further out changes that: what is
put into the block later is put next to a node that is no variable.
-/

namespace NetPrep

open Prepare Prep

section

variable {l : List NodeId} {a x y : NodeId} {pos : Position}

/-- A node gets into a list next to a node that is in it. -/
theorem mem_of_mem_insertBefore (h : x ∈ insertBefore a x l) (hx : x ∉ l) : a ∈ l := by
  induction l with
  | nil => cases h
  | cons y l ih =>
    simp only [List.mem_cons, not_or] at hx
    unfold insertBefore at h
    split at h
    · next hy => exact hy ▸ List.mem_cons_self
    · exact List.mem_cons_of_mem _ (ih ((List.mem_cons.1 h).resolve_left hx.1) hx.2)

theorem mem_of_mem_insertAfter (h : x ∈ insertAfter a x l) (hx : x ∉ l) : a ∈ l := by
  induction l with
  | nil => cases h
  | cons y l ih =>
    simp only [List.mem_cons, not_or] at hx
    unfold insertAfter at h
    split at h
    · next hy => exact hy ▸ List.mem_cons_self
    · exact List.mem_cons_of_mem _ (ih ((List.mem_cons.1 h).resolve_left hx.1) hx.2)

/-- The nodes of a kind come before all others. -/
def Leads (p : NodeId → Prop) (l : List NodeId) : Prop :=
  ∀ x ∈ l, ∀ y ∈ l, p x → ¬ p y → Precedes l x y

variable {p q : NodeId → Prop}

theorem Leads.congr (h : Leads p l) (hpq : ∀ x ∈ l, p x ↔ q x) : Leads q l :=
  fun x hx y hy hqx hqy => h x hx y hy ((hpq x hx).2 hqx) (mt (hpq y hy).1 hqy)

theorem Leads.erase (h : Leads p l) (hl : l.Nodup) : Leads p (l.erase x) := by
  intro y hy z hz hpy hpz
  obtain ⟨hyx, hy⟩ := hl.mem_erase_iff.1 hy
  obtain ⟨hzx, hz⟩ := hl.mem_erase_iff.1 hz
  exact (Precedes.erase_iff hl).2 ⟨hyx, hzx, h y hy z hz hpy hpz⟩

theorem Leads.insertBefore (h : Leads p l) (hl : l.Nodup) (ha : a ∈ l) (hx : x ∉ l) (hpa : ¬ p a)
    (hpx : ¬ p x) : Leads p (insertBefore a x l) := by
  intro y hy z hz hpy hpz
  rw [Precedes.insertBefore_iff hl ha hx]
  have hy' := ((mem_insertBefore_iff ha).1 hy).resolve_left fun he => hpx (he ▸ hpy)
  rcases (mem_insertBefore_iff ha).1 hz with rfl | hz
  · exact Or.inr (Or.inr ⟨rfl, h y hy' a ha hpy hpa⟩)
  · exact Or.inl (h y hy' z hz hpy hpz)

theorem Leads.insertAfter (h : Leads p l) (hl : l.Nodup) (ha : a ∈ l) (hx : x ∉ l) (hpa : ¬ p a)
    (hpx : ¬ p x) : Leads p (insertAfter a x l) := by
  intro y hy z hz hpy hpz
  rw [Precedes.insertAfter_iff hl ha hx]
  have hy' := ((mem_insertAfter_iff ha).1 hy).resolve_left fun he => hpx (he ▸ hpy)
  rcases (mem_insertAfter_iff ha).1 hz with rfl | hz
  · exact Or.inr (Or.inr ⟨rfl, Or.inr (h y hy' a ha hpy hpa)⟩)
  · exact Or.inl (h y hy' z hz hpy hpz)

/-- Where a list is cut is settled by the entry before the cut. -/
theorem eq_of_getLast?_eq {l₁ l₂ r₁ r₂ : List NodeId} (hnodup : (l₁ ++ r₁).Nodup)
    (h : l₁ ++ r₁ = l₂ ++ r₂) (hlast : l₁.getLast? = l₂.getLast?) : l₁ = l₂ := by
  cases hp : l₁.getLast? with
  | none => rw [List.getLast?_eq_none_iff.1 hp, List.getLast?_eq_none_iff.1 (hlast.symm.trans hp)]
  | some p =>
    obtain ⟨a, rfl⟩ := List.getLast?_eq_some_iff.1 hp
    obtain ⟨b, rfl⟩ := List.getLast?_eq_some_iff.1 (hlast.symm.trans hp)
    have hp₁ : p ∉ a := fun hpa =>
      (List.nodup_append.1 (List.nodup_append.1 hnodup).1).2.2 p hpa p (by simp) rfl
    have hp₂ : p ∉ r₁ := fun hpr => (List.nodup_append.1 hnodup).2.2 p (by simp) p hpr rfl
    simp only [List.append_assoc, List.singleton_append] at h
    rw [((List.append_cons_inj_of_notMem hp₁ hp₂).1 h).1]

end

namespace Module

variable {m m' : Module} {block b c : BlockId} {F : NodeId → Prop} {id x : NodeId} {n : Node}
  {pos : Position}

/-- A node declares a variable. -/
def IsVariable (m : Module) (id : NodeId) : Prop := m.HasOp (· = .logic) id

/-- The variables of a procedural block come first, and where the block is no scope of its own there are
none. -/
def Led (m : Module) (b : BlockId) : Prop := m.kind? b = some .procedural →
  Leads m.IsVariable (m.nodesOf b) ∧ (m.Wrapped b → ∀ x ∈ m.nodesOf b, ¬ m.IsVariable x)

theorem SameTree.wrapped (h : SameTree m m') (hb : m.Wrapped b) : m'.Wrapped b := by
  obtain ⟨a, n, hn, hop, hmem⟩ := hb
  obtain ⟨n', hn', hop', hreg, -⟩ := h.owner hn (List.ne_nil_of_mem hmem)
  exact ⟨a, n', hn', hop' ▸ hop, hreg ▸ hmem⟩

/-- A node that is put next to code and is no variable comes after the variables. -/
theorem Beside.leads {p : NodeId → Prop} {l : List NodeId} (h : m.Beside pos) (hf : m.Fitted)
    (hp : ∀ {a na}, m.live? a = some na → p a → na.op = .logic) (hl : Leads p l) (hnodup : l.Nodup)
    (hmem : x ∈ pos.insert x l) (hx : x ∉ l) (hpx : ¬ p x) : Leads p (pos.insert x l) := by
  have hcode : ∀ {a}, (∃ n, m.live? a = some n ∧ (n.op = .logic → n.operands ≠ [])) → ¬ p a := by
    rintro a ⟨na, ha, hops⟩ hpa
    have hlogic := hp ha hpa
    exact hops hlogic ((hf ha).alone (by rw [hlogic]; rfl))
  cases pos with
  | before a => exact hl.insertBefore hnodup (mem_of_mem_insertBefore hmem hx) hx (hcode h) hpx
  | after a => exact hl.insertAfter hnodup (mem_of_mem_insertAfter hmem hx) hx (hcode h) hpx
  | front => exact h.elim
  | back => exact h.elim

/-- An edit leaves the order of a block that is not around the legalized one, and puts no variable
into it. -/
theorem Act.leads (h : Act block F m m') (hs : Sound m) (hf : m.Fitted) (hc : ¬ m.Inside c block)
    (hk : m.kind? c = some .procedural) (hl : Leads m.IsVariable (m.nodesOf c)) :
    Leads m'.IsVariable (m'.nodesOf c) ∧
      ∀ x ∈ m'.nodesOf c, m'.IsVariable x → x ∈ m.nodesOf c := by
  have he := h.edits hs
  have hkept := he.kept
  have hl' : Leads m'.IsVariable (m.nodesOf c) := hl.congr fun x hx => by
    obtain ⟨n, hn, -⟩ := hs.mem_nodesOf_iff.1 hx
    exact ⟨fun h => h.mono hkept, fun h => h.of_kept hkept hn⟩
  have hvar : ∀ {a na}, m.live? a = some na → m'.IsVariable a → na.op = .logic := fun ha h =>
    (h.of_kept hkept ha).of_live ha
  cases h with
  | relabel h =>
    rw [h.nodesOf]
    exact ⟨hl', fun x hx _ => hx⟩
  | redirect h =>
    rw [h.nodesOf]
    exact ⟨hl', fun x hx _ => hx⟩
  | erase h =>
    rw [h.nodesOf]
    exact ⟨hl'.erase (hs.nodup c), fun x hx _ => List.mem_of_mem_erase hx⟩
  | @create b pos id n types h hs' hmade hfits hplace hform =>
    have hlist := h.nodesOf c
    by_cases hcb : c = b
    · subst hcb
      rw [if_pos rfl] at hlist
      have hbeside := (hplace.resolve_left fun hg => by simp [hk] at hg).resolve_left
        fun hin => hc hin.2
      have hnot : ¬ m'.IsVariable id := fun hid => hbeside.1 (hid.of_live h.live?_self)
      have hfresh : id ∉ m.nodesOf c := fun hmem => by
        obtain ⟨n', hn', -⟩ := hs.mem_nodesOf_iff.1 hmem
        exact h.ne hn' rfl
      have hmem : id ∈ m'.nodesOf c := hs'.mem_nodesOf_iff.2 ⟨n, h.live?_self, h.parent⟩
      refine ⟨hlist ▸ hbeside.2.leads hf hvar hl' (hs.nodup c) (hlist ▸ hmem) hfresh hnot,
        fun x hx hxvar => ?_⟩
      obtain ⟨n', hn', hp⟩ := hs'.mem_nodesOf_iff.1 hx
      rcases h.live_cases hn' with ⟨rfl, -⟩ | ⟨-, hn'⟩
      · exact absurd hxvar hnot
      · exact hs.mem_nodesOf_iff.2 ⟨n', hn', hp⟩
    · rw [hlist, if_neg hcb]
      exact ⟨hl', fun x hx _ => hx⟩
  | @move b pos id n h hs' hn hreg hplace hform =>
    have hlist := h.nodesOf c
    by_cases hcb : c = b
    · subst hcb
      rw [if_pos rfl] at hlist
      have hbeside := (hplace.resolve_left fun hg => by simp [hk] at hg).resolve_left
        fun hin => hc hin.2
      have hnot : ¬ m'.IsVariable id := fun hid => hbeside.1 (hvar hn hid)
      have hmem : id ∈ m'.nodesOf c :=
        hs'.mem_nodesOf_iff.2 ⟨_, h.live hn, if_pos rfl⟩
      refine ⟨hlist ▸ hbeside.2.leads hf hvar (hl'.erase (hs.nodup c)) ((hs.nodup c).erase id)
        (hlist ▸ hmem) (hs.nodup c).not_mem_erase hnot, fun x hx hxvar => ?_⟩
      obtain ⟨n', hn', hp⟩ := hs'.mem_nodesOf_iff.1 hx
      obtain ⟨n₀, hn₀, rfl⟩ := h.live_cases hn'
      by_cases hxid : x = id
      · exact absurd (hxid ▸ hxvar) hnot
      · exact hs.mem_nodesOf_iff.2 ⟨n₀, hn₀, (if_neg hxid).symm.trans hp⟩
    · rw [hlist, if_neg hcb]
      exact ⟨hl'.erase (hs.nodup c), fun x hx _ => List.mem_of_mem_erase hx⟩

theorem Act.led (h : Act block F m m') (hs : Sound m) (hf : m.Fitted) (hc : ¬ m.Inside c block)
    (hl : m.Led c) : m'.Led c := by
  intro hk
  have he := h.edits hs
  rw [he.kept.kind?] at hk
  obtain ⟨hlead, hwrapped⟩ := hl hk
  obtain ⟨hlead', hmem⟩ := h.leads hs hf hc hk hlead
  refine ⟨hlead', fun hw x hx hvar => ?_⟩
  obtain ⟨n, hn, -⟩ := hs.mem_nodesOf_iff.1 (hmem x hx hvar)
  exact hwrapped (he.sameTree.symm.wrapped hw) x (hmem x hx hvar) (hvar.of_kept he.kept hn)

theorem Acts.led (h : Acts block F m m') (hs : Sound m) (hf : m.Fitted) (hc : ¬ m.Inside c block)
    (hl : m.Led c) : m'.Led c := by
  induction h with
  | refl => exact hl
  | tail h hstep ih =>
    have he := Acts.edits h hs
    exact hstep.led he.sound (Acts.fitted h hf) (fun hin => hc (he.sameTree.symm.inside hin)) ih

/-! ## Putting declarations in order -/

/-- What is in a scope after its declarations were moved was there before or is one of them. -/
theorem PlacesDeclarations.mem_nodesOf {scope : BlockId} {placed : Option NodeId} {ids : List NodeId}
    (h : PlacesDeclarations scope placed ids m m') (hs : Sound m) (hx : x ∈ m'.nodesOf b) :
    x ∈ m.nodesOf b ∨ (b = scope ∧ x ∈ ids) := by
  induction h with
  | nil => exact Or.inl hx
  | skip _ _ _ ih => exact (ih hs hx).imp_right fun h => ⟨h.1, List.mem_cons_of_mem _ h.2⟩
  | stay _ _ _ _ _ ih => exact (ih hs hx).imp_right fun h => ⟨h.1, List.mem_cons_of_mem _ h.2⟩
  | @move placed id rest n m m₁ m' hn hop hm hs₁ _ ih =>
    rcases ih hs₁ hx with hx | ⟨hb, hx⟩
    · obtain ⟨n₁, hn₁, hp⟩ := hs₁.mem_nodesOf_iff.1 hx
      obtain ⟨n₀, hn₀, rfl⟩ := hm.live_cases hn₁
      by_cases hxid : x = id
      · exact Or.inr ⟨hp.symm.trans (if_pos hxid), hxid ▸ List.mem_cons_self⟩
      · exact Or.inl (hs.mem_nodesOf_iff.2 ⟨n₀, hn₀, (if_neg hxid).symm.trans hp⟩)
    · exact Or.inr ⟨hb, List.mem_cons_of_mem _ hx⟩

/-- Declarations that were put at the front of a scope stay there, and the further ones come right
behind them. -/
theorem PlacesDeclarations.front {scope : BlockId} {placed : Option NodeId} {ids l r : List NodeId}
    (h : PlacesDeclarations scope placed ids m m') (hs : Sound m) (hlist : m.nodesOf scope = l ++ r)
    (hlast : l.getLast? = placed) (hl : ∀ x ∈ l, m.IsVariable x) (hnodup : (l ++ ids).Nodup) :
    ∃ l' r', m'.nodesOf scope = l' ++ r' ∧ (∀ x ∈ l', m'.IsVariable x) ∧
      ∀ x ∈ l ++ ids, m'.IsVariable x → x ∈ l' := by
  induction h generalizing l r with
  | nil => exact ⟨l, r, hlist, hl, fun x hx _ => List.append_nil l ▸ hx⟩
  | @skip placed id rest n m m' hn hop hrest ih =>
    obtain ⟨l', r', hlist', hl', hids⟩ := ih hs hlist hlast hl
      (hnodup.sublist ((List.sublist_cons_self id rest).append_left l))
    refine ⟨l', r', hlist', hl', fun x hx hvar => ?_⟩
    have hne : x ≠ id := by
      rintro rfl
      exact hop ((hvar.of_kept (hrest.edits hs).kept hn).of_live hn)
    exact hids x (by simpa [hne] using hx) hvar
  | @stay placed id rest n m m' hn hop hparent hprev hrest ih =>
    obtain ⟨l₁, r₁, hlist₁, hlast₁⟩ := hprev
    obtain rfl : l = l₁ := eq_of_getLast?_eq (hlist ▸ hs.nodup scope) (hlist.symm.trans hlist₁)
      (hlast.trans hlast₁.symm)
    have hvar : ∀ x ∈ l ++ [id], m.IsVariable x := List.forall_mem_append.2
      ⟨hl, List.forall_mem_singleton.2 ⟨n, core_of_live? hn, hop⟩⟩
    simpa using ih (l := l ++ [id]) (r := r₁) hs (by simp [hlist₁]) (by simp) hvar
      (by simpa using hnodup)
  | @move placed id rest n m m₁ m' hn hop hm hs₁ _ ih =>
    have hidl : id ∉ l := fun hmem => (List.nodup_append.1 hnodup).2.2 id hmem id (by simp) rfl
    have hlist₁ : m₁.nodesOf scope = (l ++ [id]) ++ r.erase id := by
      rw [hm.nodesOf, if_pos rfl, hlist, List.erase_append_right _ hidl]
      cases placed with
      | none =>
        rw [List.getLast?_eq_none_iff.1 hlast]
        rfl
      | some p =>
        obtain ⟨a, rfl⟩ := List.getLast?_eq_some_iff.1 hlast
        have hp : p ∉ a := fun hpa =>
          (List.nodup_append.1 (List.nodup_append.1 hnodup).1).2.2 p hpa p (by simp) rfl
        simpa [declarationPlace, Position.insert] using insertAfter_append hp
    have hvar : ∀ x ∈ l ++ [id], m₁.IsVariable x := List.forall_mem_append.2
      ⟨fun x hx => (hl x hx).mono hm.kept,
        List.forall_mem_singleton.2 (HasOp.mono ⟨n, core_of_live? hn, hop⟩ hm.kept)⟩
    simpa using ih hs₁ hlist₁ (by simp) hvar (by simpa using hnodup)

/-- The variables of a procedural block that is put in order come first in their scope. -/
theorem Orders.led (h : Orders block m m') (hs : Sound m) : m'.Led block := by
  intro hk
  have he := h.edits hs
  rw [he.kept.kind?] at hk
  cases h with
  | empty _ hnil h =>
    subst h
    simp [hnil, Leads]
  | definitions hg => simp [hk] at hg
  | @declarations scope first _ hfirst hscope h =>
    obtain ⟨n, hn, hp⟩ := hs.mem_nodesOf_iff.1 (List.mem_of_head? hfirst)
    obtain ⟨-, hwrapped⟩ := hs.scopeWithin_eq_ok hn hscope
    rw [hp] at hwrapped
    obtain ⟨l, r, hlist, hl, hids⟩ := h.front (l := []) (r := m.nodesOf scope) hs rfl rfl
      (by simp) (hs.nodup block)
    -- Whatever is in the block now was there before, and a variable of it went to the front of the scope.
    have hmem : ∀ x ∈ m'.nodesOf block, m'.IsVariable x → x ∈ l ∧ scope = block := fun x hx hvar => by
      have hxl := hids x ((h.mem_nodesOf hs hx).elim id And.right) hvar
      obtain ⟨n₁, hn₁, hp₁⟩ := he.sound.mem_nodesOf_iff.1 hx
      obtain ⟨n₂, hn₂, hp₂⟩ := he.sound.mem_nodesOf_iff.1 (hlist ▸ List.mem_append_left r hxl)
      obtain rfl := Option.some.inj (hn₁.symm.trans hn₂)
      exact ⟨hxl, hp₂.symm.trans hp₁⟩
    refine ⟨fun x hx y hy hpx hpy => ?_, fun hw x hx hvar => ?_⟩
    · obtain ⟨hxl, rfl⟩ := hmem x hx hpx
      rw [hlist] at hy ⊢
      exact Precedes.append_iff.2 (Or.inr (Or.inr
        ⟨hxl, (List.mem_append.1 hy).resolve_left fun h => hpy (hl y h)⟩))
    · exact hwrapped.1 (he.sameTree.symm.wrapped hw) (hmem x hx hvar).2

end Module

/-- In a legalized module the variables of a procedural block come first, and a block that is no scope
of its own has none. -/
theorem led_of_legalize {m m' : Module} {names names' : NameTable} {options : Options} {b : BlockId}
    (hs : Sound m) (hf : m.Fitted) (h : Yields .legalize options m names m' names')
    (hb : m'.Placed b) : m'.Led b := by
  obtain ⟨env, s, s', ho, -, rfl, -, rfl, -, hrun⟩ := h.runs
  have hlegal := Prep.legalize_runs ho hs hrun
  have he := hlegal.edits hs
  have hin := hb.inside
  rw [he.kept.body] at hin
  refine (hlegal.finishes (I := fun m => Sound m ∧ m.Fitted) (D := fun b m => m.Led b) And.left
    (fun hm hblock hscan horder => ?_) ⟨hs, hf⟩ (List.pairwise_singleton _ _)).2.2
    _ (List.mem_singleton_self _) _ (he.sameTree.symm.inside hin)
  obtain ⟨hs, hf⟩ := hm
  have hs₁ := (hscan.edits hs).sound
  have hacts := (hscan.acts hs).trans (horder.acts hs₁)
  exact ⟨⟨(Module.Acts.edits hacts hs).sound, Module.Acts.fitted hacts hf⟩, horder.led hs₁,
    fun c hc hD => Module.Acts.led hacts hs hf hc hD⟩

/-- A process in which a variable is declared under a conditional that is no scope of its own, behind a
statement. -/
def Module.conditional : Module :=
  .sketch [.int 8, .storage ⟨0⟩] [(.input, 0), (.output, 0)]
    [(.back ⟨0⟩, .initial, [], []), (.back ⟨1⟩, .fwrite "start", [], []),
      (.back ⟨1⟩, .proceduralIfdef ⟨2⟩, [], []), (.back ⟨2⟩, .fwrite "body", [], []),
      (.back ⟨2⟩, .logic, [], [1]), (.back ⟨2⟩, .blockingAssign, [1, 0], []),
      (.back ⟨0⟩, .output, [0], [])]

/-- The variable goes to the front of the process. -/
theorem led_conditional : Valid Module.conditional ∧ ∃ m' names',
    Yields .legalize .default .conditional Module.sketchNames m' names' ∧ m'.Placed ⟨1⟩ ∧
      m'.nodesOf ⟨1⟩ = [⟨4⟩, ⟨1⟩, ⟨2⟩] ∧ m'.kind? ⟨1⟩ = some .procedural ∧ m'.Led ⟨1⟩ := by
  have hv : Valid Module.conditional := valid_of_isValid (by decide +kernel)
  obtain ⟨m', names', h, hm'⟩ := exists_yields_of_leaves
    (p := fun m' _ => m'.reaches 1 ⟨1⟩ && m'.nodesOf ⟨1⟩ == [⟨4⟩, ⟨1⟩, ⟨2⟩] &&
      m'.kind? ⟨1⟩ == some .procedural)
    (show leaves .legalize .default .conditional Module.sketchNames _ = true by decide +kernel)
  simp only [Bool.and_eq_true, beq_iff_eq] at hm'
  obtain ⟨⟨hreach, hlist⟩, hk⟩ := hm'
  have hb := Module.placed_of_reaches hreach
  exact ⟨hv, m', names', h, hb, hlist, hk, led_of_legalize hv.toSound hv.fitted h hb⟩

end NetPrep
