import Mathlib
import NetPrep.Proofs.Legalization
import NetPrep.Proofs.Meaning
import NetPrep.Proofs.Plain

/-!
# Modules of graph blocks

A module without processes, where declarations are read and assigned as a whole. This holds of a
module throughout its preparation, and the edits of preparation keep the nodes with regions where
they are, so that the same blocks are compiled.
-/

namespace NetPrep

namespace TypeTable

/-- What the equations of the nodes rely on: the types of storage that is read or assigned, of words,
and of structs that are taken apart. -/
def Suits (t : TypeTable) (os rs : List TypeId) : Op → Prop
  | .wire | .reg | .logic => os = [] ∧ ∃ r, rs = [r] ∧ (t.elementOf? r).isSome
  | .read => ∃ s r, os = [s] ∧ rs = [r] ∧ t.elementOf? s = some r
  | .assign => ∃ d s, os = [d, s] ∧ rs = [] ∧ t.elementOf? d = some s
  | .constant _ => ∃ r w, rs = [r] ∧ t.intWidth? r = some w
  | .mul | .and | .or | .xor => ∃ r w, rs = [r] ∧ t.intWidth? r = some w ∧ ∀ o ∈ os, o = r
  | .add => ∃ r w, rs = [r] ∧ t.intWidth? r = some w ∧ (∀ o ∈ os, o = r) ∧ w ≤ 64
  | .sub => ∃ a b r w, os = [a, b] ∧ rs = [r] ∧ t.intWidth? r = some w
  | .structExtract field => ∃ a fields r, os = [a] ∧ rs = [r] ∧ t.fields? a = some fields ∧
    fields.lookup field = some r
  | .structExplode => ∃ a fields, os = [a] ∧ t.fields? a = some fields ∧ rs = fields.map (·.2) ∧
    (fields.map (·.1)).Nodup
  | _ => True

theorem Suits.mono {t t' : TypeTable} {os rs : List TypeId} {op : Op} (h : t.Suits os rs op)
    (ht : t'.Extends t) : t'.Suits os rs op := by
  have hstorage : ∀ {r}, (t.elementOf? r).isSome → (t'.elementOf? r).isSome := by
    intro r hr
    obtain ⟨e, he⟩ := Option.isSome_iff_exists.1 hr
    exact Option.isSome_iff_exists.2 ⟨e, ht.elementOf? he⟩
  cases op with
  | wire | reg | logic =>
    obtain ⟨hos, r, hrs, hr⟩ := h
    exact ⟨hos, r, hrs, hstorage hr⟩
  | read | assign =>
    obtain ⟨s, r, hos, hrs, hr⟩ := h
    exact ⟨s, r, hos, hrs, ht.elementOf? hr⟩
  | constant _ =>
    obtain ⟨r, w, hrs, hw⟩ := h
    exact ⟨r, w, hrs, ht.intWidth? hw⟩
  | mul | and | or | xor | add =>
    obtain ⟨r, w, hrs, hw, hos⟩ := h
    exact ⟨r, w, hrs, ht.intWidth? hw, hos⟩
  | sub =>
    obtain ⟨a, b, r, w, hos, hrs, hw⟩ := h
    exact ⟨a, b, r, w, hos, hrs, ht.intWidth? hw⟩
  | structExtract field =>
    obtain ⟨a, fields, r, hos, hrs, hf, hl⟩ := h
    exact ⟨a, fields, r, hos, hrs, ht.fields? hf, hl⟩
  | structExplode =>
    obtain ⟨a, fields, hos, hf, hrs, hnd⟩ := h
    exact ⟨a, fields, hos, ht.fields? hf, hrs, hnd⟩
  | _ => trivial

theorem Suits.of_declaration {t : TypeTable} {os rs : List TypeId} {op : Op} (h : t.Suits os rs op)
    (hop : op.isDeclaration = true) : os = [] ∧ ∃ r, rs = [r] ∧ (t.elementOf? r).isSome := by
  cases op <;> first | exact h | exact absurd hop Bool.false_ne_true

/-- What callers promise of the types includes what the equations rely on, for sums of at most 64
bits and structs without repeated fields. -/
theorem suits_of_fits {t : TypeTable} {os rs : List TypeId} {op : Op} (h : t.fits op os rs = true)
    (hadd : op = .add → ∀ r ∈ rs, ∀ w, t.intWidth? r = some w → w ≤ 64)
    (hfields : ∀ {a fields}, t.fields? a = some fields → (fields.map (·.1)).Nodup) :
    t.Suits os rs op := by
  have hint : ∀ {r}, t.isInt r = true → ∃ w, t.intWidth? r = some w := fun hr =>
    Option.isSome_iff_exists.1 hr
  match op, os, rs, h with
  | .wire, [], [r], h | .reg, [], [r], h | .logic, [], [r], h => exact ⟨rfl, r, rfl, h⟩
  | .read, [s], [r], h => exact ⟨s, r, rfl, rfl, by simpa [fits] using h⟩
  | .assign, [d, s], [], h => exact ⟨d, s, rfl, rfl, by simpa [fits] using h⟩
  | .constant _, [], [r], h =>
    obtain ⟨w, hw⟩ := hint h
    exact ⟨r, w, rfl, hw⟩
  | .mul, o :: os, [r], h | .and, o :: os, [r], h | .or, o :: os, [r], h
  | .xor, o :: os, [r], h =>
    obtain ⟨hr, hos⟩ := Bool.and_eq_true_iff.1 h
    obtain ⟨w, hw⟩ := hint hr
    exact ⟨r, w, rfl, hw, by simpa using hos⟩
  | .add, o :: os, [r], h =>
    obtain ⟨hr, hos⟩ := Bool.and_eq_true_iff.1 h
    obtain ⟨w, hw⟩ := hint hr
    exact ⟨r, w, rfl, hw, by simpa using hos, hadd rfl r (by simp) w hw⟩
  | .sub, [a, b], [r], h =>
    simp only [fits, Bool.and_eq_true] at h
    obtain ⟨w, hw⟩ := hint h.1.1
    exact ⟨a, b, r, w, rfl, rfl, hw⟩
  | .structExtract field, [a], [r], h =>
    simp only [fits, Bool.and_eq_true, beq_iff_eq, fieldType?] at h
    obtain ⟨fields, hf, hl⟩ := Option.bind_eq_some_iff.1 h.2
    exact ⟨a, fields, r, rfl, rfl, hf, hl⟩
  | .structExplode, [a], rs, h =>
    simp only [fits, Bool.and_eq_true, beq_iff_eq] at h
    obtain ⟨fields, hf, hrs⟩ := Option.map_eq_some_iff.1 h.2
    exact ⟨a, fields, rfl, hf, hrs.symm, hfields hf⟩
  | .blockingAssign, _, _, _ | .nonblockingAssign, _, _, _ | .inst .., _, _, _ | .output, _, _, _
  | .shl, _, _, _ | .shru, _, _, _ | .compare _, _, _, _ | .mux, _, _, _ | .concat, _, _, _
  | .extract _, _, _, _ | .replicate, _, _, _ | .bitcast, _, _, _ | .structCreate, _, _, _
  | .arrayGet, _, _, _ | .elementStorage, _, _, _ | .fieldStorage _, _, _, _
  | .systemCall .., _, _, _ | .verbatim .., _, _, _ | .always _, _, _, _ | .alwaysFF .., _, _, _
  | .alwaysComb, _, _, _ | .initial, _, _, _ | .cond, _, _, _ | .ifdef _, _, _, _
  | .proceduralIfdef _, _, _, _ | .fwrite _, _, _, _ | .foreign .., _, _, _ => trivial

end TypeTable

namespace Module

variable {m m' m'' : Module} {id d : NodeId} {n nd : Node} {b c : BlockId} {v old new : ValueId}
  {pos : Position} {types : List TypeId}

theorem Kept.extends (h : m.Kept m') : m'.types.Extends m.types := fun _ _ => h.types

/-- The operands and results of a node have types that the equation of the node can rely on. -/
def Suited (m : Module) (n : Node) : Prop :=
  ∃ os rs, n.operands.mapM m.type? = some os ∧ n.results.mapM m.type? = some rs ∧
    m.types.Suits os rs n.op

theorem mapM_type?_kept (h : m.Kept m') {vs : List ValueId} {ts : List TypeId}
    (hts : vs.mapM m.type? = some ts) : vs.mapM m'.type? = some ts := by
  induction vs generalizing ts with
  | nil => simpa using hts
  | cons v vs ih =>
    simp only [List.mapM_cons, Option.bind_eq_bind, Option.bind_eq_some_iff] at hts ⊢
    obtain ⟨t, ht, ts, hts, heq⟩ := hts
    exact ⟨t, h.type? ht, ts, ih hts, heq⟩

/-! ## The blocks that are compiled -/

namespace SameTree

theorem compiled {macros : Name → Prop} (h : SameTree m m') (hb : m.Compiled macros b) :
    m'.Compiled macros b := by
  induction hb with
  | body => exact h.body ▸ .body
  | yes hn hop hb hflag _ ih =>
    obtain ⟨n', hn', hop', hreg, hp⟩ := h.owner hn (List.ne_nil_of_mem (List.mem_of_getElem? hb))
    exact .yes hn' (hop'.trans hop) (hreg ▸ hb) hflag (hp ▸ ih)
  | no hn hop hb hflag _ ih =>
    obtain ⟨n', hn', hop', hreg, hp⟩ := h.owner hn (List.ne_nil_of_mem (List.mem_of_getElem? hb))
    exact .no hn' (hop'.trans hop) (hreg ▸ hb) hflag (hp ▸ ih)

theorem compiled_iff {macros : Name → Prop} (h : SameTree m m') :
    m'.Compiled macros b ↔ m.Compiled macros b := ⟨h.symm.compiled, h.compiled⟩

end SameTree

/-- A block around a block that is compiled is compiled. -/
theorem Compiled.of_inside {macros : Name → Prop} (hs : Sound m) (hc : m.Compiled macros c)
    (h : m.Inside b c) : m.Compiled macros b := by
  induction h with
  | self => exact hc
  | @region id n c hn hb _ ih =>
    obtain ⟨k, -, hblk⟩ := hs.toNested.blockCore_of_mem hn hb
    refine ih ?_
    -- The block belongs to the node that the compiled block is known to belong to.
    have howner : ∀ {j nj}, m.live? j = some nj → c ∈ nj.regions → nj = n := by
      intro j nj hj hcj
      obtain ⟨k', -, hblk'⟩ := hs.toNested.blockCore_of_mem hj hcj
      have heq := hblk.symm.trans hblk'
      simp only [Block.empty, Option.some.injEq, Block.mk.injEq] at heq
      obtain rfl : id = j := by simpa using heq.2.1
      exact Option.some.inj (hj.symm.trans hn)
    cases hc with
    | body =>
      have heq := hblk.symm.trans hs.body
      simp [Block.empty] at heq
    | yes hj _ hget _ hcomp => exact howner hj (List.mem_of_getElem? hget) ▸ hcomp
    | no hj _ hget _ hcomp => exact howner hj (List.mem_of_getElem? hget) ▸ hcomp

end Module

/-! ## The invariant -/

namespace Module

variable {m m' : Module} {b c : BlockId} {v : ValueId}

/-- What a node computes can be used in a block: the node sits in the block or in one around it. A
declaration can be used anywhere. -/
def Visible (m : Module) (v : ValueId) (b : BlockId) : Prop :=
  ∀ d i nd, m.def? v = some (.result d i) → m.live? d = some nd → nd.op.isDeclaration = false →
    m.Inside nd.parent b

theorem Visible.inside (h : m.Visible v b) (hc : m.Inside b c) : m.Visible v c :=
  fun d i nd hdef hd hop => (h d i nd hdef hd hop).trans hc

/-- What defines a value stays where it is. -/
theorem Visible.of_sameTree (h : m.Visible v b) (ht : m.SameTree m')
    (hdef : m'.def? v = m.def? v)
    (hlive : ∀ {d i nd}, m.def? v = some (.result d i) → m'.live? d = some nd →
      ∃ n, m.live? d = some n ∧ n.op = nd.op ∧ (n.op.isDeclaration = false → n.parent = nd.parent)) :
    m'.Visible v b := by
  intro d i nd hv hd hop
  rw [hdef] at hv
  obtain ⟨n, hn, hopn, hp⟩ := hlive hv hd
  rw [← hopn] at hop
  exact hp hop ▸ ht.inside (h d i n hv hn hop)

theorem lt_of_type? {t : TypeId} (h : m.type? v = some t) : v.index < m.values.size := by
  obtain ⟨x, hx, -⟩ := Option.map_eq_some_iff.1 h
  exact lt_of_value? hx

end Module

/-- A sound module of graph blocks, where declarations are read and assigned as a whole. -/
structure Wired (m : Module) : Prop extends Sound m where
  graph : ∀ {id n k}, m.live? id = some n → k ∈ n.op.regionKinds → k = .graph
  suited : ∀ {id n}, m.live? id = some n → m.Suited n
  inScope : ∀ {id n v}, m.live? id = some n → v ∈ n.operands → m.Visible v n.parent
  whole : ∀ {id n v}, m.live? id = some n → n.op = .read ∨ n.op = .assign →
    n.operands[0]? = some v → m.IsStorage v
  /-- No path leads through itself, and no struct is among its fields. -/
  distinct : ∀ {id n v}, m.live? id = some n →
    n.op.isAlwaysInline = true ∨ n.op = .structExplode → v ∈ n.results → v ∉ n.operands

namespace Module

variable {m m' : Module} {id j : NodeId} {n : Node} {b : BlockId} {v w old new : ValueId} {u : Use}
  {pos : Position} {types os : List TypeId} {P : NodeId → Prop}

theorem Suited.kept (h : m.Suited n) (hk : m.Kept m') : m'.Suited n := by
  obtain ⟨os, rs, hos, hrs, hsuits⟩ := h
  exact ⟨os, rs, mapM_type?_kept hk hos, mapM_type?_kept hk hrs, hsuits.mono hk.extends⟩

theorem exists_type_of_suited (h : m.Suited n) (hv : v ∈ n.operands) : ∃ t, m.type? v = some t := by
  obtain ⟨os, rs, hos, -, -⟩ := h
  obtain ⟨t, -, ht⟩ := exists_type_of_mem hos hv
  exact ⟨t, ht⟩

theorem mapM_eq_some_of_getElem? {α β : Type} {f : α → Option β} {vs : List α} {ts : List β}
    (hlen : vs.length = ts.length) (h : ∀ (i : Nat) v, vs[i]? = some v → f v = ts[i]?) :
    vs.mapM f = some ts := by
  induction vs generalizing ts with
  | nil =>
    obtain rfl := List.length_eq_zero_iff.1 hlen.symm
    rfl
  | cons v vs ih =>
    obtain ⟨t, ts, rfl⟩ := List.exists_cons_of_length_eq_add_one hlen.symm
    have hhead : f v = some t := h 0 v rfl
    have htail : vs.mapM f = some ts :=
      ih (by simpa using hlen) fun i w hw => h (i + 1) w hw
    simp [List.mapM_cons, hhead, htail]

/-! ### Creating -/

theorem Creates.mapM_results (h : m.Creates m' b pos id n types) :
    n.results.mapM m'.type? = some types := by
  refine mapM_eq_some_of_getElem? ?_ fun i v hv => h.type?_result hv
  rw [h.results, nextValues, List.length_map, List.length_range]

theorem Creates.visible {c : BlockId} (h : m.Creates m' b pos id n types) (hw : WellFormed m)
    (hv : m.Visible v c) (hlt : v.index < m.values.size) : m'.Visible v c := by
  refine hv.of_sameTree h.sameTree (h.def?_of_lt hlt) fun {d i nd} hdef hd => ?_
  have hne : d ≠ id := by
    rintro rfl
    obtain ⟨n₀, hn₀, -⟩ := hw.definition hdef
    obtain ⟨nd₀, hnd₀, -⟩ := Option.map_eq_some_iff.1 hn₀
    have hlt := lt_of_node? hnd₀
    rw [h.fresh] at hlt
    exact Nat.lt_irrefl _ hlt
  exact ⟨nd, by rwa [← h.live?_of_ne hne], rfl, fun _ => rfl⟩

/-- The results of a new node can be used where the node is. -/
theorem Creates.visible_result (h : m.Creates m' b pos id n types) (hv : v ∈ n.results) : m'.Visible v b := by
  intro d i nd hdef hd hop
  obtain ⟨k, hk⟩ := List.mem_iff_getElem?.1 hv
  have heq := (h.def?_result hk).symm.trans hdef
  simp only [Option.some.injEq, ValueDef.result.injEq] at heq
  obtain ⟨rfl, rfl⟩ := heq
  obtain rfl := Option.some.inj (h.live?_self.symm.trans hd)
  rw [h.parent]
  exact .self

theorem Creates.wired (h : m.Creates m' b pos id n types) (hw : Wired m) (hs' : Sound m')
    (hop : n.op.regionKinds = []) (hos : n.operands.mapM m.type? = some os)
    (hsuits : m'.types.Suits os types n.op) (hscope : ∀ v ∈ n.operands, m.Visible v b)
    (hwhole : n.op = .read ∨ n.op = .assign → ∀ v, n.operands[0]? = some v → m.IsStorage v) :
    Wired m' where
  toSound := hs'
  graph {j nj k} hj hk := by
    obtain ⟨-, rfl⟩ | ⟨-, hj⟩ := h.live_cases hj
    · rw [hop] at hk
      cases hk
    · exact hw.graph hj hk
  suited {j nj} hj := by
    obtain ⟨-, rfl⟩ | ⟨-, hj⟩ := h.live_cases hj
    · exact ⟨os, types, mapM_type?_kept h.kept hos, h.mapM_results, hsuits⟩
    · exact (hw.suited hj).kept h.kept
  inScope {j nj v} hj hv := by
    obtain ⟨-, rfl⟩ | ⟨-, hj⟩ := h.live_cases hj
    · obtain ⟨t, -, ht⟩ := exists_type_of_mem hos hv
      rw [h.parent]
      exact h.visible hw.toWellFormed (hscope v hv) (lt_of_type? ht)
    · obtain ⟨t, ht⟩ := exists_type_of_suited (hw.suited hj) hv
      exact h.visible hw.toWellFormed (hw.inScope hj hv) (lt_of_type? ht)
  whole {j nj v} hj hop' hv := by
    obtain ⟨-, rfl⟩ | ⟨-, hj⟩ := h.live_cases hj
    · exact (hwhole hop' v hv).mono h.kept
    · exact (hw.whole hj hop' hv).mono h.kept
  distinct {j nj v} hj hop' hv hmem := by
    obtain ⟨-, rfl⟩ | ⟨-, hj⟩ := h.live_cases hj
    · obtain ⟨t, -, ht⟩ := exists_type_of_mem hos hmem
      obtain ⟨i, hi⟩ := List.mem_iff_getElem?.1 hv
      rw [h.results] at hi
      obtain ⟨-, rfl⟩ := getElem?_nextValues.1 hi
      have hlt := lt_of_type? ht
      exact absurd hlt (by simp)
    · exact hw.distinct hj hop' hv hmem

/-! ### Redirecting -/

/-- Some of the operands that are one value become another, in nodes of some kind; what is read or
assigned stays. -/
structure Reroutes (m m' : Module) (P : NodeId → Prop) (old new : ValueId) : Prop where
  redirects : ∃ f, m.Redirects m' f
  live : ∀ {j n}, m.live? j = some n → ∃ ops, m'.live? j = some { n with operands := ops } ∧
    List.Forall₂ (fun w v => v = w ∨ (P j ∧ w = old ∧ v = new)) n.operands ops ∧
    (n.op = .read ∨ n.op = .assign → ops[0]? = n.operands[0]?)

theorem Reroutes.live_cases (h : m.Reroutes m' P old new) {n' : Node}
    (hj : m'.live? j = some n') : ∃ n, m.live? j = some n ∧
      n' = { n with operands := n'.operands } ∧
      List.Forall₂ (fun w v => v = w ∨ (P j ∧ w = old ∧ v = new)) n.operands n'.operands ∧
      (n.op = .read ∨ n.op = .assign → n'.operands[0]? = n.operands[0]?) := by
  obtain ⟨f, hr⟩ := h.redirects
  obtain ⟨n, hn, -⟩ := hr.live_cases hj
  obtain ⟨ops, hops, hall, hhead⟩ := h.live hn
  obtain rfl := Option.some.inj (hops.symm.trans hj)
  exact ⟨n, hn, rfl, hall, hhead⟩

theorem Reroutes.kept (h : m.Reroutes m' P old new) : m.Kept m' :=
  let ⟨_, hr⟩ := h.redirects; hr.kept

theorem Reroutes.sameTree (h : m.Reroutes m' P old new) : SameTree m m' :=
  let ⟨_, hr⟩ := h.redirects; hr.sameTree

theorem Reroutes.def? (h : m.Reroutes m' P old new) (v : ValueId) : m'.def? v = m.def? v :=
  let ⟨_, hr⟩ := h.redirects; hr.def? v

theorem Reroutes.type? (h : m.Reroutes m' P old new) (v : ValueId) : m'.type? v = m.type? v :=
  let ⟨_, hr⟩ := h.redirects; hr.type? v

theorem Reroutes.types_eq (h : m.Reroutes m' P old new) : m'.types = m.types :=
  let ⟨_, hr⟩ := h.redirects; hr.types

/-- Pointing one operand at another value. -/
theorem Redirects.reroutes_pointAt (h : m.Redirects m' (pointAt u new)) (hu : m.Uses u old)
    (hkeep : ∀ n, m.live? u.node = some n → n.op = .read ∨ n.op = .assign → u.operand ≠ 0) :
    m.Reroutes m' (· = u.node) old new where
  redirects := ⟨_, h⟩
  live {j n} hj := by
    refine ⟨_, h.live hj, ?_, fun hop => ?_⟩
    · unfold pointAt
      split
      · next heq =>
        obtain ⟨nu, hnu, hget⟩ := hu
        subst heq
        obtain rfl := Option.some.inj (hj.symm.trans hnu)
        refine List.forall₂_iff_get.2 ⟨by simp, fun i hi hi' => ?_⟩
        rw [List.get_eq_getElem, List.get_eq_getElem, List.getElem_set]
        split
        · next hi =>
          subst hi
          exact Or.inr ⟨rfl, by simpa using (List.getElem?_eq_some_iff.1 hget).2, rfl⟩
        · exact Or.inl rfl
      · exact List.forall₂_same.2 fun _ _ => Or.inl rfl
    · unfold pointAt
      split
      · next heq =>
        subst heq
        exact List.getElem?_set_ne (hkeep n hj hop)
      · rfl

/-- Redirecting every use of a value that is not storage. -/
theorem Redirects.reroutes_substitute (h : m.Redirects m' (substitute old new)) (hw : Wired m)
    (hold : ¬ m.IsStorage old) : m.Reroutes m' (fun _ => True) old new where
  redirects := ⟨_, h⟩
  live {j n} hj := by
    refine ⟨_, h.live hj, ?_, fun hop => ?_⟩
    · rw [substitute, List.forall₂_map_right_iff]
      refine List.forall₂_same.2 fun w _ => ?_
      split
      · next hw => exact Or.inr ⟨trivial, hw, rfl⟩
      · exact Or.inl rfl
    · rw [substitute, List.getElem?_map]
      cases hget : n.operands[0]? with
      | none => rfl
      | some w =>
        have hne : w ≠ old := fun he => hold (he ▸ hw.whole hj hop hget)
        simp [hne]

theorem Reroutes.mapM_type? (h : m.Reroutes m' P old new) (htype : m.type? new = m.type? old)
    {vs ws : List ValueId} (hvs : List.Forall₂ (fun w v => v = w ∨ (P j ∧ w = old ∧ v = new)) vs ws) :
    ws.mapM m'.type? = vs.mapM m.type? := by
  induction hvs with
  | nil => rfl
  | @cons w v vs ws hv _ ih =>
    have hwv : m'.type? v = m.type? w := by
      rw [h.type?]
      obtain rfl | ⟨-, rfl, rfl⟩ := hv
      · rfl
      · exact htype
    rw [List.mapM_cons, List.mapM_cons, hwv, ih]

theorem Reroutes.visible {c : BlockId} (h : m.Reroutes m' P old new) (hv : m.Visible v c) :
    m'.Visible v c := by
  refine hv.of_sameTree h.sameTree (h.def? v) fun {d i nd} _ hd => ?_
  obtain ⟨n, hn, heq, -⟩ := h.live_cases hd
  exact ⟨n, hn, by rw [heq], fun _ => by rw [heq]⟩

theorem Reroutes.wired (h : m.Reroutes m' P old new) (hw : Wired m) (hs' : Sound m')
    (htype : m.type? new = m.type? old)
    (hscope : ∀ {j n}, m.live? j = some n → P j → old ∈ n.operands → m.Visible new n.parent)
    (hself : ∀ {j n}, m.live? j = some n → n.op.isAlwaysInline = true ∨ n.op = .structExplode →
      P j → old ∈ n.operands → new ∉ n.results) : Wired m' where
  toSound := hs'
  graph {j nj k} hj hk := by
    obtain ⟨n, hn, heq, -⟩ := h.live_cases hj
    rw [heq] at hk
    exact hw.graph hn hk
  suited {j nj} hj := by
    obtain ⟨n, hn, heq, hops, -⟩ := h.live_cases hj
    obtain ⟨os, rs, hos, hrs, hsuits⟩ := hw.suited hn
    refine ⟨os, rs, (h.mapM_type? htype hops).trans hos, ?_, ?_⟩
    · rw [heq]
      exact mapM_type?_kept h.kept hrs
    · rw [heq]
      exact hsuits.mono h.kept.extends
  inScope {j nj v} hj hv := by
    obtain ⟨n, hn, heq, hops, -⟩ := h.live_cases hj
    have hp : nj.parent = n.parent := by rw [heq]
    rw [hp]
    obtain ⟨i, hi, rfl⟩ := List.getElem_of_mem hv
    have hi' : i < n.operands.length := hops.length_eq ▸ hi
    obtain hsame | ⟨hP, hold, hnew⟩ := hops.get hi' hi
    · rw [List.get_eq_getElem, List.get_eq_getElem] at hsame
      rw [hsame]
      exact h.visible (hw.inScope hn (List.getElem_mem hi'))
    · rw [List.get_eq_getElem] at hold hnew
      rw [hnew]
      exact h.visible (hscope hn hP (hold ▸ List.getElem_mem hi'))
  whole {j nj v} hj hop hv := by
    obtain ⟨n, hn, heq, -, hhead⟩ := h.live_cases hj
    rw [heq] at hop
    exact (hw.whole hn hop (hhead hop ▸ hv)).mono h.kept
  distinct {j nj v} hj hop hv hmem := by
    obtain ⟨n, hn, heq, hops, -⟩ := h.live_cases hj
    rw [heq] at hop hv
    obtain ⟨i, hi, rfl⟩ := List.getElem_of_mem hmem
    have hi' : i < n.operands.length := hops.length_eq ▸ hi
    obtain hsame | ⟨hP, hold, hnew⟩ := hops.get hi' hi
    · rw [List.get_eq_getElem, List.get_eq_getElem] at hsame
      exact hw.distinct hn hop hv (hsame ▸ List.getElem_mem hi')
    · rw [List.get_eq_getElem] at hold hnew
      exact hself hn hop hP (hold ▸ List.getElem_mem hi') (hnew ▸ hv)

/-! ### Moving, erasing, naming -/

theorem Moves.wired (h : m.Moves m' b pos id) (hw : Wired m) (hs' : Sound m')
    (hn : m.live? id = some n) (hr : n.regions = []) (hin : ∀ v ∈ n.operands, m.Visible v b)
    (hout : n.op.isDeclaration = true ∨
      ∀ {u v nu}, v ∈ n.results → m.Uses u v → m.live? u.node = some nu → u.node ≠ id →
        m.Inside b nu.parent) : Wired m' := by
  have htree := h.sameTree hn hr
  refine ⟨hs', fun {j nj k} hj hk => ?_, fun {j nj} hj => ?_, fun {j nj v} hj hv => ?_,
    fun {j nj v} hj hop hv => ?_, fun {j nj v} hj hop hv => ?_⟩
  · obtain ⟨n₀, hn₀, rfl⟩ := h.live_cases hj
    exact hw.graph hn₀ hk
  · obtain ⟨n₀, hn₀, rfl⟩ := h.live_cases hj
    exact (hw.suited hn₀).kept h.kept
  · obtain ⟨n₀, hn₀, rfl⟩ := h.live_cases hj
    intro d i nd hdef hd hop
    rw [h.def?] at hdef
    obtain ⟨nd₀, hd₀, rfl⟩ := h.live_cases hd
    -- Either end of the use may be the node that moves.
    by_cases hdid : d = id
    · subst hdid
      obtain rfl := Option.some.inj (hn.symm.trans hd₀)
      by_cases hjd : j = d
      · simpa [hjd] using Inside.self
      · obtain hdecl | hout := hout
        · rw [hdecl] at hop
          cases hop
        · obtain ⟨k, hk⟩ := exists_uses_of_mem hn₀ hv
          obtain ⟨n₁, hn₁, hres⟩ := hw.definition hdef
          obtain rfl := Option.some.inj ((core_of_live? hn).symm.trans hn₁)
          have := hout (List.mem_of_getElem? hres) hk hn₀ hjd
          simpa [hjd] using htree.inside this
    · by_cases hjid : j = id
      · subst hjid
        obtain rfl := Option.some.inj (hn.symm.trans hn₀)
        simpa [hdid] using htree.inside (hin v hv d i nd₀ hdef hd₀ hop)
      · simpa [hdid, hjid] using htree.inside (hw.inScope hn₀ hv d i nd₀ hdef hd₀ hop)
  · obtain ⟨n₀, hn₀, rfl⟩ := h.live_cases hj
    exact (hw.whole hn₀ hop hv).mono h.kept
  · obtain ⟨n₀, hn₀, rfl⟩ := h.live_cases hj
    show v ∉ n₀.operands
    exact hw.distinct hn₀ hop hv

/-- Moving a node within its block. -/
theorem Moves.wired_of_parent (h : m.Moves m' b pos id) (hw : Wired m) (hs' : Sound m')
    (hn : m.live? id = some n) (hr : n.regions = []) (hb : b = n.parent) : Wired m' := by
  subst hb
  refine h.wired hw hs' hn hr (fun v hv => hw.inScope hn hv) (or_iff_not_imp_left.2 fun hop => ?_)
  intro u v nu hv hu hnu _
  obtain ⟨i, hdef⟩ := hw.exists_def hn hv
  obtain ⟨nu', hnu', hget⟩ := hu
  obtain rfl := Option.some.inj (hnu.symm.trans hnu')
  exact hw.inScope hnu (List.mem_of_getElem? hget) id i n hdef hn
    (Bool.eq_false_of_not_eq_true hop)

theorem Erases.wired (h : m.Erases m' id) (hw : Wired m) (hs' : Sound m')
    (hn : m.live? id = some n) (hr : n.regions = []) : Wired m' where
  toSound := hs'
  graph hj hk := hw.graph (h.live_cases hj).2 hk
  suited hj := (hw.suited (h.live_cases hj).2).kept h.kept
  inScope {j nj v} hj hv := by
    refine Visible.of_sameTree (hw.inScope (h.live_cases hj).2 hv) (h.sameTree hn hr) (h.def? v)
      fun {d i nd} _ hd => ⟨nd, (h.live_cases hd).2, rfl, fun _ => rfl⟩
  whole hj hop hv := (hw.whole (h.live_cases hj).2 hop hv).mono h.kept
  distinct hj hop hv := hw.distinct (h.live_cases hj).2 hop hv

theorem Relabels.wired {name : Option Name → Option Name} {twoState : Bool → Bool}
    (h : m.Relabels m' id name twoState) (hw : Wired m) (hs' : Sound m') : Wired m' where
  toSound := hs'
  graph hj hk := by
    obtain ⟨n, hn, rfl⟩ := h.live_cases hj
    exact hw.graph hn hk
  suited hj := by
    obtain ⟨n, hn, rfl⟩ := h.live_cases hj
    exact (hw.suited hn).kept h.kept
  inScope {j nj v} hj hv := by
    obtain ⟨n, hn, rfl⟩ := h.live_cases hj
    show m'.Visible v n.parent
    refine Visible.of_sameTree (hw.inScope hn hv) h.sameTree (h.def? v) fun {d i nd} _ hd => ?_
    obtain ⟨n', hn', rfl⟩ := h.live_cases hd
    exact ⟨n', hn', rfl, fun _ => rfl⟩
  whole hj hop hv := by
    obtain ⟨n, hn, rfl⟩ := h.live_cases hj
    exact (hw.whole hn hop hv).mono h.kept
  distinct {_ _ v} hj hop hv := by
    obtain ⟨n, hn, rfl⟩ := h.live_cases hj
    show v ∉ n.operands
    exact hw.distinct hn hop hv

end Module

end NetPrep
