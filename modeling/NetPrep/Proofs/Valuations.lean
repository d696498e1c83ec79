import Mathlib
import NetPrep.Proofs.Wired

/-!
# Valuations under edits

How the valuations that satisfy a module change with an edit. A node that is created gets what it
computes; one that is erased, or leaves the blocks that are compiled, is given it back; and a use may
be redirected where the two values are equal anyway.
-/

namespace NetPrep

theorem Op.not_isFunction_of_isDeclaration {op : Op} (h : op.isDeclaration = true) :
    ¬ (op = .read ∨ op.isFunction = true) := by
  cases op <;> first | exact absurd h Bool.false_ne_true | simp [isFunction, category]

namespace Meaning

variable {I : Meaning} {t t' : TypeTable} {op : Op} {twoState : Bool} {os rs : List TypeId}
  {ds : List Datum} {i : Nat} {type r : TypeId} {w : Nat}

/-! ## What is computed has its type -/

theorem width_singleton (h : t.intWidth? r = some w) : width t [r] = w := by
  simp [width, h]

theorem fieldNames_singleton {fields : List (Name × TypeId)} (h : t.fields? r = some fields) :
    fieldNames t [r] = fields.map (·.1) := by
  simp [fieldNames, h]

/-- The component of a struct that belongs to a field has the type of the field. -/
theorem has_component {fields : List (Name × TypeId)} {field : Name} {d : Datum}
    (hall : List.Forall₂ I.has (fields.map (·.2)) d.components)
    (hl : fields.lookup field = some r) : I.has r (d.component (fields.map (·.1)) field) := by
  unfold Datum.component
  generalize d.components = ds at hall
  induction fields generalizing ds with
  | nil => simp at hl
  | cons f fs ih =>
    obtain ⟨name, ty⟩ := f
    cases ds with
    | nil => simp at hall
    | cons d ds =>
      rw [List.map_cons, List.forall₂_cons] at hall
      rw [List.lookup_cons] at hl
      rw [List.map_cons, List.zip_cons_cons, List.lookup_cons]
      cases hf : field == name with
      | true =>
        rw [hf] at hl
        obtain rfl : ty = r := by simpa using hl
        exact hall.1
      | false =>
        rw [hf] at hl
        exact ih hl ds hall.2

theorem eq_of_getElem?_singleton {α : Type} {a b : α} (h : [a][i]? = some b) : i = 0 ∧ b = a := by
  cases i with
  | zero => exact ⟨rfl, by simpa using h.symm⟩
  | succ i => simp at h

theorem Fits.has_word (hI : I.Fits t) (hrs : rs = [r]) (hw : t.intWidth? r = some w)
    (hr : rs[i]? = some type) (x : BitVec (width t rs)) : I.has type (.ofWord x) := by
  subst hrs
  obtain ⟨-, rfl⟩ := eq_of_getElem?_singleton hr
  have hwidth := width_singleton hw
  rw [hI.int hw]
  exact ⟨x.cast hwidth, by simp [Datum.ofWord]⟩

theorem Fits.has_result (hI : I.Fits t) (hs : t.Suits os rs op) (hds : List.Forall₂ I.has os ds)
    (hr : rs[i]? = some type) : I.has type (I.result t op twoState os rs ds i) := by
  cases op with
  | constant _ =>
    obtain ⟨r, w, hrs, hw⟩ := hs
    exact hI.has_word hrs hw hr _
  | mul | and | or | xor | add =>
    obtain ⟨r, w, hrs, hw, -⟩ := hs
    exact hI.has_word hrs hw hr _
  | sub =>
    obtain ⟨_, _, r, w, -, hrs, hw⟩ := hs
    exact hI.has_word hrs hw hr _
  | structExtract field =>
    obtain ⟨a, fields, r, rfl, rfl, hf, hl⟩ := hs
    obtain ⟨-, rfl⟩ := eq_of_getElem?_singleton hr
    obtain ⟨d, hd, rfl⟩ : ∃ d, I.has a d ∧ ds = [d] := by
      obtain ⟨d, _, hd, hnil, rfl⟩ := List.forall₂_cons_left_iff.1 hds
      obtain rfl := List.forall₂_nil_left_iff.1 hnil
      exact ⟨d, hd, rfl⟩
    obtain ⟨xs, rfl, hxs⟩ := (hI.record hf d).1 hd
    show I.has type (Datum.component (fieldNames t [a]) field (.tuple xs))
    rw [fieldNames_singleton hf]
    exact has_component hxs hl
  | structExplode =>
    obtain ⟨a, fields, rfl, hf, rfl, -⟩ := hs
    obtain ⟨d, hd, rfl⟩ : ∃ d, I.has a d ∧ ds = [d] := by
      obtain ⟨d, _, hd, hnil, rfl⟩ := List.forall₂_cons_left_iff.1 hds
      obtain rfl := List.forall₂_nil_left_iff.1 hnil
      exact ⟨d, hd, rfl⟩
    obtain ⟨xs, rfl, hxs⟩ := (hI.record hf d).1 hd
    obtain ⟨hi, rfl⟩ := List.getElem?_eq_some_iff.1 hr
    have hi' : i < xs.length := hxs.length_eq ▸ hi
    show I.has _ ((xs[i]?).getD default)
    rw [List.getElem?_eq_getElem hi']
    exact hxs.get hi hi'
  | _ => exact hI.apply hr

/-- A larger table makes no difference to what is computed. -/
theorem result_extends (ht : t'.Extends t) (hs : t.Suits os rs op) :
    I.result t' op twoState os rs ds i = I.result t op twoState os rs ds i := by
  have hwidth : ∀ {r w}, rs = [r] → t.intWidth? r = some w → width t' rs = width t rs := by
    rintro r w rfl hw
    rw [width_singleton hw, width_singleton (ht.intWidth? hw)]
  -- The width and the fields matter to the operations that the table suits.
  cases op with
  | constant _ =>
    obtain ⟨r, w, hrs, hw⟩ := hs
    unfold result
    rw [hwidth hrs hw]
    rfl
  | mul | and | or | xor | add =>
    obtain ⟨r, w, hrs, hw, -⟩ := hs
    unfold result
    rw [hwidth hrs hw]
    rfl
  | sub =>
    obtain ⟨_, _, r, w, -, hrs, hw⟩ := hs
    unfold result
    rw [hwidth hrs hw]
    rfl
  | structExtract field =>
    obtain ⟨a, fields, r, rfl, -, hf, -⟩ := hs
    unfold result
    rw [fieldNames_singleton hf, fieldNames_singleton (ht.fields? hf)]
    rfl
  | _ => rfl

/-! ## Nodes with the same equation -/

/-- Two nodes compute the same under two valuations. -/
structure Alike (m m' : Module) (σ σ' : Valuation) (n n' : Node) : Prop where
  op : n'.op = n.op
  twoState : n'.twoState = n.twoState
  types : m'.typesOf n'.operands = m.typesOf n.operands
  resultTypes : m'.typesOf n'.results = m.typesOf n.results
  operands : n'.operands.map σ'.value = n.operands.map σ.value
  content : n.op = .read ∨ n.op = .assign →
    n'.operands[0]?.map σ'.content = n.operands[0]?.map σ.content

variable {m m' : Module} {σ σ' : Valuation} {n n' : Node} {v : ValueId}

theorem exists_pair_of_map {α β : Type} {f g : α → β} {l : List α} {a b : α}
    (h : l.map f = [a, b].map g) : ∃ c d, l = [c, d] ∧ f d = g b := by
  obtain ⟨c, l, rfl, -, h⟩ := List.map_eq_cons_iff.1 h
  obtain ⟨d, l, rfl, hd, h⟩ := List.map_eq_cons_iff.1 h
  obtain rfl := List.map_eq_nil_iff.1 h
  exact ⟨c, d, rfl, hd⟩

theorem typesOf_eq {vs : List ValueId} {ts : List TypeId} (h : vs.mapM m.type? = some ts) :
    m.typesOf vs = ts := by
  induction vs generalizing ts with
  | nil =>
    obtain rfl : ts = [] := by simpa using h
    rfl
  | cons v vs ih =>
    simp only [List.mapM_cons, Option.bind_eq_bind, Option.bind_eq_some_iff] at h
    obtain ⟨t, ht, ts, hts, heq⟩ := h
    obtain rfl : t :: ts = _ := Option.some.inj heq
    rw [Module.typesOf, List.filterMap_cons_some ht, ← Module.typesOf, ih hts]

theorem typesOf_kept (hk : m.Kept m') {vs : List ValueId} {ts : List TypeId}
    (h : vs.mapM m.type? = some ts) : m'.typesOf vs = m.typesOf vs := by
  rw [typesOf_eq h, typesOf_eq (Module.mapM_type?_kept hk h)]

theorem Alike.computed (h : Alike m m' σ σ' n n') (hs : m.Suited n) (hk : m.Kept m') :
    I.computed m' σ' n' i = I.computed m σ n i := by
  unfold Meaning.computed
  rw [h.op]
  split
  · next hop => rw [h.content (Or.inl hop)]
  · obtain ⟨os, rs, hos, hrs, hsuits⟩ := hs
    rw [h.twoState, h.types, h.resultTypes, h.operands, typesOf_eq hos, typesOf_eq hrs,
      result_extends hk.extends hsuits]

theorem Alike.holds_iff (h : Alike m m' σ σ' n n') (hs : m.Suited n) (hk : m.Kept m')
    (hres : n'.results = n.results) (hvalues : ∀ v ∈ n.results, σ'.value v = σ.value v) :
    I.Holds m' σ' n' ↔ I.Holds m σ n := by
  have hvalue : ∀ {i v}, n.results[i]? = some v →
      (σ'.value v = I.computed m' σ' n' i ↔ σ.value v = I.computed m σ n i) := by
    intro i v hv
    rw [h.computed hs hk, hvalues v (List.mem_of_getElem? hv)]
  constructor
  · intro hn'
    refine ⟨fun hop i v hv => (hvalue hv).1 (hn'.results (h.op ▸ hop) i v (hres ▸ hv)), ?_⟩
    intro hop d s hds
    have hcontent := h.content (Or.inr hop)
    have hops := h.operands
    rw [hds] at hcontent hops
    obtain ⟨d', s', hds', hs'⟩ := exists_pair_of_map hops
    rw [hds'] at hcontent
    have hc : σ'.content d' = σ.content d := by simpa using hcontent
    rw [← hc, ← hs']
    exact hn'.assign (h.op ▸ hop) d' s' hds'
  · intro hn
    refine ⟨fun hop i v hv => ?_, ?_⟩
    · rw [hres] at hv
      exact (hvalue hv).2 (hn.results (h.op ▸ hop) i v hv)
    · intro hop d' s' hds'
      rw [h.op] at hop
      have hcontent := h.content (Or.inr hop)
      have hops := h.operands
      rw [hds'] at hcontent hops
      obtain ⟨d, s, hds, hs'⟩ := exists_pair_of_map hops.symm
      rw [hds] at hcontent
      have hc : σ'.content d' = σ.content d := by simpa using hcontent
      rw [hc, ← hs']
      exact hn.assign hop d s hds

/-- A node that stays as it is, where the valuations agree. -/
theorem Alike.of_agree (hs : m.Suited n) (hk : m.Kept m')
    (hvalue : ∀ v ∈ n.operands, σ'.value v = σ.value v)
    (hcontent : ∀ v ∈ n.operands, σ'.content v = σ.content v) : Alike m m' σ σ' n n where
  op := rfl
  twoState := rfl
  types := by
    obtain ⟨os, -, hos, -⟩ := hs
    exact typesOf_kept hk hos
  resultTypes := by
    obtain ⟨-, rs, -, hrs, -⟩ := hs
    exact typesOf_kept hk hrs
  operands := List.map_congr_left fun v hv => hvalue v hv
  content _ := by
    cases hget : n.operands[0]? with
    | none => rfl
    | some v => simp [hcontent v (List.mem_of_getElem? hget)]

/-! ## What is computed by a valuation has its type -/

section Shows

variable {macros : Name → Prop} {ins : Nat → Datum} {outs : NodeId → List Datum} {id : NodeId}
  {b : BlockId} {pos : Position} {types : List TypeId} {old new : ValueId} {P : NodeId → Prop}

/-- Storage that is read holds data of its element type. -/
theorem Respects.has_content (hσ : I.Respects m σ) (hw : Wired m) {u : Use}
    {element : TypeId} (hu : m.Uses u v) (hst : m.IsStorage v) (htype : m.type? v = some type)
    (he : m.types.elementOf? type = some element) : I.has element (σ.content v) := by
  obtain ⟨d, k, n, hdef, hcore, hop⟩ := hst
  obtain ⟨x, hx, hlive⟩ := hw.operand hu
  obtain ⟨n', hn'⟩ := hlive (Option.some.inj (hx.symm.trans hdef))
  obtain rfl := Option.some.inj ((Module.core_of_live? hn').symm.trans hcore)
  obtain ⟨n₀, hn₀, hres⟩ := hw.definition hdef
  obtain rfl := Option.some.inj (hn₀.symm.trans hcore)
  exact hσ.content hn' hop (List.mem_of_getElem? hres) htype he

theorem forall₂_has (hvalue : ∀ {v type}, m.type? v = some type → I.has type (σ.value v))
    {vs : List ValueId} {ts : List TypeId} (h : vs.mapM m.type? = some ts) :
    List.Forall₂ I.has ts (vs.map σ.value) := by
  have hall := Module.forall₂_of_mapM_type? h
  induction hall with
  | nil => exact .nil
  | cons hv hrest ih => exact .cons (hvalue hv) (ih (by
      simp only [List.mapM_cons, Option.bind_eq_bind, Option.bind_eq_some_iff] at h
      obtain ⟨_, _, _, hts, heq⟩ := h
      rw [hts]
      exact congrArg some (List.cons.inj (Option.some.inj heq)).2))

/-- The type of a value at a place. -/
theorem getElem?_of_mapM_type? {vs : List ValueId} {ts : List TypeId}
    (h : vs.mapM m.type? = some ts) (hv : vs[i]? = some v) (htype : m.type? v = some type) :
    ts[i]? = some type := by
  have hall := Module.forall₂_of_mapM_type? h
  obtain ⟨hi, rfl⟩ := List.getElem?_eq_some_iff.1 hv
  have hi' : i < ts.length := hall.length_eq ▸ hi
  have hget := hall.get hi hi'
  rw [List.get_eq_getElem, List.get_eq_getElem, htype] at hget
  rw [List.getElem?_eq_getElem hi', ← hget]

theorem Respects.has_computed (hσ : I.Respects m σ) (hw : Wired m) (hI : I.Fits m.types)
    (hn : m.live? id = some n) (hv : n.results[i]? = some v) (htype : m.type? v = some type) :
    I.has type (I.computed m σ n i) := by
  obtain ⟨os, rs, hos, hrs, hsuits⟩ := hw.suited hn
  have hr := getElem?_of_mapM_type? hrs hv htype
  unfold computed
  split
  · next hop =>
    rw [hop] at hsuits
    obtain ⟨s, r, rfl, rfl, he⟩ := hsuits
    obtain ⟨-, rfl⟩ := eq_of_getElem?_singleton hr
    obtain ⟨w, hw', hws⟩ : ∃ w, n.operands = [w] ∧ m.type? w = some s := by
      have hall := Module.forall₂_of_mapM_type? hos
      obtain ⟨w, ws, hws, hnil, heq⟩ := List.forall₂_cons_right_iff.1 hall
      obtain rfl := List.forall₂_nil_right_iff.1 hnil
      exact ⟨w, heq, hws⟩
    have hget : n.operands[0]? = some w := by rw [hw']; rfl
    rw [hget]
    exact hσ.has_content hw (u := ⟨id, 0⟩) ⟨n, hn, hget⟩ (hw.whole hn (Or.inl hop) hget) hws he
  · rw [typesOf_eq hos, typesOf_eq hrs]
    exact hI.has_result hsuits (forall₂_has hσ.value hos) hr

/-! ## Creating a node -/

/-- A value of a module with a new node is old, or a result of the node. -/
theorem lt_or_mem_of_creates (h : m.Creates m' b pos id n types) (hv : v.index < m'.values.size) :
    v.index < m.values.size ∨ v ∈ n.results := by
  rw [h.values_size] at hv
  refine (lt_or_ge v.index m.values.size).imp_right fun hge => ?_
  rw [h.results]
  refine List.mem_of_getElem? (i := v.index - m.values.size) (Module.getElem?_nextValues.2 ⟨?_, ?_⟩)
  · omega
  · obtain ⟨k⟩ := v
    simp only [ValueId.mk.injEq] at hge ⊢
    omega

theorem lt_of_mem_operands (hw : Wired m) (hn : m.live? id = some n) (hv : v ∈ n.operands) :
    v.index < m.values.size := by
  obtain ⟨t, ht⟩ := Module.exists_type_of_suited (hw.suited hn) hv
  exact Module.lt_of_type? ht

theorem lt_of_mem_results (hw : Wired m) (hn : m.live? id = some n) (hv : v ∈ n.results) :
    v.index < m.values.size := by
  obtain ⟨-, rs, -, hrs, -⟩ := hw.suited hn
  obtain ⟨t, -, ht⟩ := Module.exists_type_of_mem hrs hv
  exact Module.lt_of_type? ht

/-- A new node may be forgotten. -/
theorem Shows.of_creates (hσ : I.Shows macros ins outs m' σ) (h : m.Creates m' b pos id n types)
    (hw : Wired m) : I.Shows macros ins outs m σ where
  value ht := hσ.value (h.kept.type? ht)
  content hj hop hv ht he :=
    hσ.content (h.live hj) hop hv (h.kept.type? ht) (h.kept.extends.elementOf? he)
  holds hj hc := by
    have hsuited := hw.suited hj
    exact (Alike.of_agree hsuited h.kept (fun _ _ => rfl) fun _ _ => rfl).holds_iff hsuited
      h.kept rfl (fun _ _ => rfl) |>.1 (hσ.holds (h.live hj) (h.sameTree.compiled hc))
  input hd := hσ.input (h.kept.def? hd)
  output hj hop hc := hσ.output (h.live hj) hop (h.sameTree.compiled hc)

/-- A new node is satisfied by giving its results what it computes. -/
theorem Shows.creates (hσ : I.Shows macros ins outs m σ) (h : m.Creates m' b pos id n types)
    (hw : Wired m) (hop : n.op ≠ .output)
    (hvalue : ∀ v : ValueId, v.index < m.values.size → σ'.value v = σ.value v)
    (hcontent : ∀ v : ValueId, v.index < m.values.size → σ'.content v = σ.content v)
    (hresult : ∀ v ∈ n.results, ∀ type, m'.type? v = some type → I.has type (σ'.value v))
    (hdecl : n.op.isDeclaration = true → ∀ v ∈ n.results, ∀ type element,
      m'.type? v = some type → m'.types.elementOf? type = some element →
        I.has element (σ'.content v))
    (hholds : m.Compiled macros b → I.Holds m' σ' n) : I.Shows macros ins outs m' σ' where
  value {v type} ht := by
    obtain hlt | hmem := lt_or_mem_of_creates h (Module.lt_of_type? ht)
    · rw [hvalue v hlt]
      exact hσ.value ((h.type?_of_lt hlt).symm.trans ht)
    · exact hresult v hmem type ht
  content {j nj v type element} hj hopj hv ht he := by
    obtain ⟨-, rfl⟩ | ⟨-, hj⟩ := h.live_cases hj
    · exact hdecl hopj v hv type element ht he
    · have hlt := lt_of_mem_results hw hj hv
      rw [hcontent v hlt]
      have ht₀ := (h.type?_of_lt hlt).symm.trans ht
      obtain ⟨os, rs, -, hrs, hsuits⟩ := hw.suited hj
      -- The declaration was declared with storage that was in the table.
      obtain ⟨-, r, rfl, hr⟩ := hsuits.of_declaration hopj
      obtain ⟨t, hmem, ht'⟩ := Module.exists_type_of_mem hrs hv
      obtain rfl := List.mem_singleton.1 hmem
      obtain rfl := Option.some.inj (ht₀.symm.trans ht')
      obtain ⟨e, he'⟩ := Option.isSome_iff_exists.1 hr
      obtain rfl := Option.some.inj ((h.kept.extends.elementOf? he').symm.trans he)
      exact hσ.content hj hopj hv ht₀ he'
  holds {j nj} hj hc := by
    obtain ⟨-, rfl⟩ | ⟨-, hj⟩ := h.live_cases hj
    · rw [h.parent] at hc
      exact hholds (h.sameTree.compiled_iff.1 hc)
    · have hsuited := hw.suited hj
      exact (Alike.of_agree hsuited h.kept (fun v hv => hvalue v (lt_of_mem_operands hw hj hv))
        fun v hv => hcontent v (lt_of_mem_operands hw hj hv)).holds_iff hsuited h.kept rfl
          (fun v hv => hvalue v (lt_of_mem_results hw hj hv)) |>.2
            (hσ.holds hj (h.sameTree.compiled_iff.1 hc))
  input {v k} hd := by
    obtain ⟨x, hx, -⟩ := Option.map_eq_some_iff.1 hd
    obtain hlt | hmem := lt_or_mem_of_creates h (Module.lt_of_value? hx)
    · rw [hvalue v hlt]
      exact hσ.input ((h.def?_of_lt hlt).symm.trans hd)
    · obtain ⟨i, hi⟩ := List.mem_iff_getElem?.1 hmem
      cases (h.def?_result hi).symm.trans hd
  output {j nj} hj hopj hc := by
    obtain ⟨-, rfl⟩ | ⟨-, hj⟩ := h.live_cases hj
    · exact absurd hopj hop
    · rw [← hσ.output hj hopj (h.sameTree.compiled_iff.1 hc)]
      exact List.map_congr_left fun v hv => hvalue v (lt_of_mem_operands hw hj hv)

/-! ## Edits that keep the valuations -/

/-- Modules with the same values, and with the same equations in the blocks that are compiled, have
the same valuations. -/
theorem Shows.of_holds (hσ : I.Shows macros ins outs m σ) (htype : ∀ v, m'.type? v = m.type? v)
    (hdef : ∀ v, m'.def? v = m.def? v) (htypes : m'.types = m.types)
    (hlive : ∀ {id n'}, m'.live? id = some n' → ∃ n, m.live? id = some n ∧ n'.op = n.op ∧
      n'.results = n.results ∧ (n.op.isDeclaration = false → m'.Compiled macros n'.parent →
        m.Compiled macros n.parent ∧ (I.Holds m σ n → I.Holds m' σ n') ∧
          n'.operands.map σ.value = n.operands.map σ.value)) :
    I.Shows macros ins outs m' σ where
  value ht := hσ.value ((htype _).symm.trans ht)
  content {id n' v type element} hn' hop hv ht he := by
    obtain ⟨n, hn, hop', hres, -⟩ := hlive hn'
    rw [htypes] at he
    exact hσ.content hn (hop' ▸ hop) (hres ▸ hv) ((htype _).symm.trans ht) he
  holds {id n'} hn' hc := by
    obtain ⟨n, hn, hop, -, hrest⟩ := hlive hn'
    cases hdecl : n.op.isDeclaration with
    | false =>
      obtain ⟨hc', hholds, -⟩ := hrest hdecl hc
      exact hholds (hσ.holds hn hc')
    | true =>
      -- A declaration has no equation.
      rw [← hop] at hdecl
      constructor
      · intro hfun
        exact absurd hfun (Op.not_isFunction_of_isDeclaration hdecl)
      · intro hassign
        rw [hassign] at hdecl
        cases hdecl
  input hd := hσ.input ((hdef _).symm.trans hd)
  output {id n'} hn' hop hc := by
    obtain ⟨n, hn, hop', -, hrest⟩ := hlive hn'
    obtain ⟨hc', -, hops⟩ := hrest (by rw [← hop', hop]; rfl) hc
    rw [hops]
    exact hσ.output hn (hop' ▸ hop) hc'

/-- Uses may be redirected to a value that is equal where the user is compiled. -/
theorem shows_reroutes_iff (h : m.Reroutes m' P old new) (hw : Wired m)
    (htype : m.type? new = m.type? old)
    (heq : ∀ {j n}, m.live? j = some n → P j → old ∈ n.operands → m.Compiled macros n.parent →
      σ.value new = σ.value old) :
    I.Shows macros ins outs m' σ ↔ I.Shows macros ins outs m σ := by
  have hops : ∀ {j n ops}, m.live? j = some n → m.Compiled macros n.parent →
      List.Forall₂ (fun w v => v = w ∨ (P j ∧ w = old ∧ v = new)) n.operands ops →
      ops.map σ.value = n.operands.map σ.value := by
    intro j n ops hj hc hall
    have hold : old ∈ n.operands → P j → σ.value new = σ.value old := fun hmem hP =>
      heq hj hP hmem hc
    generalize n.operands = vs at hall hold
    induction hall with
    | nil => rfl
    | @cons w v ws vs hv _ ih =>
      rw [List.map_cons, List.map_cons, ih fun hmem => hold (List.mem_cons_of_mem _ hmem)]
      obtain rfl | ⟨hP, rfl, rfl⟩ := hv
      · rfl
      · rw [hold List.mem_cons_self hP]
  have halike : ∀ {j n n'}, m.live? j = some n → m'.live? j = some n' →
      m.Compiled macros n.parent → (I.Holds m' σ n' ↔ I.Holds m σ n) ∧
        n'.operands.map σ.value = n.operands.map σ.value := by
    intro j n n' hj hj' hc
    obtain ⟨n₀, hj₀, heq', hall, hhead⟩ := h.live_cases hj'
    obtain rfl := Option.some.inj (hj.symm.trans hj₀)
    obtain ⟨os, rs, hos, hrs, -⟩ := hw.suited hj
    have hres : n'.results = n.results := by rw [heq']
    have hsame : Alike m m' σ σ n n' := by
      refine ⟨by rw [heq'], by rw [heq'], ?_, ?_, hops hj hc hall, fun hop => ?_⟩
      · rw [typesOf_eq hos, typesOf_eq ((h.mapM_type? htype hall).trans hos)]
      · rw [hres, typesOf_kept h.kept hrs]
      · rw [hhead hop]
    exact ⟨hsame.holds_iff (hw.suited hj) h.kept hres fun _ _ => rfl, hsame.operands⟩
  constructor
  · intro hσ
    refine hσ.of_holds (fun v => (h.type? v).symm) (fun v => (h.def? v).symm) h.types_eq.symm
      fun {j n} hj => ?_
    obtain ⟨ops, hj', -⟩ := h.live hj
    refine ⟨_, hj', rfl, rfl, fun _ hc => ?_⟩
    obtain ⟨hholds, hvals⟩ := halike hj hj' hc
    exact ⟨h.sameTree.compiled hc, hholds.1, hvals.symm⟩
  · intro hσ
    refine hσ.of_holds h.type? h.def? h.types_eq fun {j n'} hj => ?_
    obtain ⟨n, hn, heq', -⟩ := h.live_cases hj
    refine ⟨n, hn, by rw [heq'], by rw [heq'], fun _ hc => ?_⟩
    have hp : n'.parent = n.parent := by rw [heq']
    rw [hp, h.sameTree.compiled_iff] at hc
    obtain ⟨hholds, hvals⟩ := halike hn hj hc
    exact ⟨hc, hholds.2, hvals⟩

/-- What an edit leaves of a node whose equation it leaves, and which it leaves in its block if that
matters. -/
structure SameNode (n n' : Node) : Prop where
  op : n'.op = n.op
  twoState : n'.twoState = n.twoState
  results : n'.results = n.results
  operands : n'.operands = n.operands
  parent : n.op.isDeclaration = false → n'.parent = n.parent

theorem SameNode.alike (h : SameNode n n') (hs : m.Suited n) (hk : m.Kept m') :
    Alike m m' σ σ n n' := by
  obtain ⟨os, rs, hos, hrs, -⟩ := hs
  exact ⟨h.op, h.twoState, by rw [h.operands, typesOf_kept hk hos],
    by rw [h.results, typesOf_kept hk hrs], by rw [h.operands], fun _ => by rw [h.operands]⟩

/-- An edit that leaves the equations leaves the valuations. -/
theorem shows_iff_of_live? {g : NodeId → Node → Node} (hw : Wired m) (hk : m.Kept m')
    (htree : m.SameTree m') (hlive : ∀ j, m'.live? j = (m.live? j).map (g j))
    (hsame : ∀ {j n}, m.live? j = some n → SameNode n (g j n))
    (htype : ∀ v, m'.type? v = m.type? v) (hdef : ∀ v, m'.def? v = m.def? v)
    (htypes : m'.types = m.types) :
    I.Shows macros ins outs m' σ ↔ I.Shows macros ins outs m σ := by
  have hholds : ∀ {j nj}, m.live? j = some nj → (I.Holds m' σ (g j nj) ↔ I.Holds m σ nj) :=
    fun hj => ((hsame hj).alike (hw.suited hj) hk).holds_iff (hw.suited hj) hk (hsame hj).results
      fun _ _ => rfl
  constructor
  · intro hσ
    refine hσ.of_holds (fun v => (htype v).symm) (fun v => (hdef v).symm) htypes.symm
      fun {j nj} hj => ⟨g j nj, by rw [hlive, hj, Option.map_some], (hsame hj).op.symm,
        (hsame hj).results.symm, fun hop hc => ⟨?_, (hholds hj).1, by rw [(hsame hj).operands]⟩⟩
    rw [(hsame hj).op] at hop
    rw [(hsame hj).parent hop]
    exact htree.compiled hc
  · intro hσ
    refine hσ.of_holds htype hdef htypes fun {j n'} hj => ?_
    rw [hlive] at hj
    obtain ⟨nj, hnj, rfl⟩ := Option.map_eq_some_iff.1 hj
    refine ⟨nj, hnj, (hsame hnj).op, (hsame hnj).results, fun hop hc =>
      ⟨?_, (hholds hnj).2, by rw [(hsame hnj).operands]⟩⟩
    rw [(hsame hnj).parent hop] at hc
    exact htree.compiled_iff.1 hc

/-- Moving a declaration, or a node within its block. -/
theorem shows_moves_iff (h : m.Moves m' b pos id) (hw : Wired m) (hn : m.live? id = some n)
    (hr : n.regions = []) (hcase : n.op.isDeclaration = true ∨ b = n.parent) :
    I.Shows macros ins outs m' σ ↔ I.Shows macros ins outs m σ := by
  refine shows_iff_of_live? hw h.kept (h.sameTree hn hr) h.live? (fun {j nj} hj =>
    ⟨rfl, rfl, rfl, rfl, fun hop => ?_⟩) h.type? h.def? h.types
  show (if j = id then b else nj.parent) = nj.parent
  split
  · next hji =>
    subst hji
    obtain rfl := Option.some.inj (hn.symm.trans hj)
    exact hcase.resolve_left (by rw [hop]; exact Bool.false_ne_true)
  · rfl

/-- Naming a node. -/
theorem shows_relabels_iff {name : Option Name → Option Name}
    (h : m.Relabels m' id name (fun t => t)) (hw : Wired m) :
    I.Shows macros ins outs m' σ ↔ I.Shows macros ins outs m σ :=
  shows_iff_of_live? hw h.kept h.sameTree h.live? (fun _ => ⟨rfl, ite_self _, rfl, rfl, fun _ => rfl⟩)
    h.type? h.def? h.types

/-! ## Nodes that go -/

/-- A valuation where the results of a node have what the node computes. -/
noncomputable def Valuation.settle (I : Meaning) (m : Module) (σ : Valuation) (n : Node) :
    Valuation where
  value v := if v ∈ n.results then I.computed m σ n (n.results.idxOf v) else σ.value v
  content := σ.content

theorem Valuation.settle_of_not_mem (hv : v ∉ n.results) :
    (Valuation.settle I m σ n).value v = σ.value v := if_neg hv

/-- A result of the node gets what it is computed to be. -/
theorem Valuation.settle_result (hw : WellFormed m) (hn : m.live? id = some n) {i : Nat}
    (hv : n.results[i]? = some v) : (Valuation.settle I m σ n).value v = I.computed m σ n i := by
  have hmem := List.mem_of_getElem? hv
  have hget : n.results[n.results.idxOf v]? = some v := by
    rw [List.getElem?_eq_getElem (List.idxOf_lt_length_of_mem hmem), List.getElem_idxOf]
  have hdef := (hw.result (Module.core_of_live? hn) hget).symm.trans
    (hw.result (Module.core_of_live? hn) hv)
  have hindex : n.results.idxOf v = i := by simpa using hdef
  show (if v ∈ n.results then _ else _) = _
  rw [if_pos hmem, hindex]

/-- What does not use the results of the node sees no difference. -/
theorem alike_settle {nj : Node} (hs : m.Suited nj) (hused : ∀ v ∈ nj.operands, v ∉ n.results) :
    Alike m m σ (Valuation.settle I m σ n) nj nj :=
  .of_agree hs (.refl m) (fun v hv => Valuation.settle_of_not_mem (hused v hv)) fun _ _ => rfl

/-- So the node satisfies its own equations. -/
theorem holds_settle (hw : Wired m) (hn : m.live? id = some n)
    (hop : n.op = .read ∨ n.op.isFunction = true) (hused : ∀ v ∈ n.operands, v ∉ n.results) :
    I.Holds m (Valuation.settle I m σ n) n := by
  have hsuited := hw.suited hn
  refine ⟨fun _ i v hv => ?_, fun hassign => ?_⟩
  · rw [Valuation.settle_result hw.toWellFormed hn hv,
      (alike_settle hsuited hused).computed hsuited (.refl m)]
  · rw [hassign] at hop
    simp [Op.isFunction, Op.category] at hop

theorem Respects.settle (hσ : I.Respects m σ) (hw : Wired m) (hI : I.Fits m.types)
    (hn : m.live? id = some n) : I.Respects m (Valuation.settle I m σ n) where
  value {v type} ht := by
    by_cases hv : v ∈ n.results
    · obtain ⟨i, hi⟩ := List.mem_iff_getElem?.1 hv
      rw [Valuation.settle_result hw.toWellFormed hn hi]
      exact hσ.has_computed hw hI hn hi ht
    · rw [Valuation.settle_of_not_mem hv]
      exact hσ.value ht
  content := hσ.content

/-- A node whose results no compiled node uses may be given what it computes: if a valuation satisfies
all the other nodes, some valuation satisfies all of them. -/
theorem Shows.settle {m₀ : Module} (hσ : I.Shows macros ins outs m₀ σ) (hw : Wired m)
    (hI : I.Fits m.types) (hn : m.live? id = some n) (hop : n.op = .read ∨ n.op.isFunction = true)
    (hfree : ∀ {u nu v}, v ∈ n.results → m.Uses u v → m.live? u.node = some nu →
      ¬ m.Compiled macros nu.parent) (hk : m.Kept m₀)
    (htype : ∀ v, m₀.type? v = m.type? v) (hdef : ∀ v, m₀.def? v = m.def? v)
    (htypes : m₀.types = m.types)
    (hlive : ∀ {j nj}, m.live? j = some nj → j ≠ id → ∃ n', m₀.live? j = some n' ∧
      SameNode nj n' ∧ n'.parent = nj.parent)
    (hcompiled : ∀ b, m₀.Compiled macros b ↔ m.Compiled macros b) :
    I.Shows macros ins outs m (Valuation.settle I m σ n) := by
  have hrespects : I.Respects m σ := by
    refine ⟨fun ht => hσ.value ((htype _).trans ht), fun {j nj v type element} hj hopj hv ht he => ?_⟩
    have hne : j ≠ id := by
      rintro rfl
      obtain rfl := Option.some.inj (hn.symm.trans hj)
      exact Op.not_isFunction_of_isDeclaration hopj hop
    obtain ⟨n', hn', hsame, -⟩ := hlive hj hne
    exact hσ.content hn' (hsame.op ▸ hopj) (hsame.results ▸ hv) ((htype v).trans ht) (htypes ▸ he)
  -- A value that a compiled node uses is not among the results.
  have hused : ∀ {j nj}, m.live? j = some nj → m.Compiled macros nj.parent →
      ∀ v ∈ nj.operands, v ∉ n.results := by
    intro j nj hj hc v hv hmem
    obtain ⟨k, hk⟩ := Module.exists_uses_of_mem hj hv
    exact hfree hmem hk hj hc
  refine ⟨hrespects.settle hw hI hn, fun {j nj} hj hc => ?_, fun {v k} hd => ?_,
    fun {j nj} hj hopj hc => ?_⟩
  · by_cases hji : j = id
    · subst hji
      obtain rfl := Option.some.inj (hn.symm.trans hj)
      exact holds_settle hw hn hop (hused hn hc)
    · obtain ⟨n', hn', hsame, hp⟩ := hlive hj hji
      have hsuited := hw.suited hj
      have hholds : I.Holds m σ nj := ((hsame.alike hsuited hk).holds_iff hsuited hk hsame.results
        fun _ _ => rfl).1 (hσ.holds hn' ((hcompiled _).2 (hp ▸ hc)))
      refine ((alike_settle hsuited (hused hj hc)).holds_iff hsuited (.refl m) rfl fun v hv =>
        Valuation.settle_of_not_mem fun hmem => hji ?_).2 hholds
      exact (hw.eq_of_mem_results hj hn hv hmem).1
  · have hv : v ∉ n.results := fun hv => by
      obtain ⟨i, hi⟩ := hw.exists_def hn hv
      cases hi.symm.trans hd
    rw [Valuation.settle_of_not_mem hv]
    exact hσ.input ((hdef v).trans hd)
  · have hji : j ≠ id := by
      rintro rfl
      obtain rfl := Option.some.inj (hn.symm.trans hj)
      rw [hopj] at hop
      simp [Op.isFunction, Op.category] at hop
    obtain ⟨n', hn', hsame, hp⟩ := hlive hj hji
    rw [← hσ.output hn' (hsame.op.trans hopj) ((hcompiled _).2 (hp ▸ hc)), hsame.operands]
    exact List.map_congr_left fun v hv => Valuation.settle_of_not_mem (hused hj hc v hv)

end Shows

end Meaning

end NetPrep
