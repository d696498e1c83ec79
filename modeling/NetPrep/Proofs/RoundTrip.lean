import Mathlib
import NetPrep.Design
import NetPrep.Proofs.JsonText
import NetPrep.Proofs.Checking

/-!
# Designs survive serialization

A design whose numbers are in their ranges is read back from its text exactly
(`design_roundTrip`). Each type of the module graph has one lemma that its encoder and its decoder
agree (`ReadsBack`), put together along the record or the variant that the type is written as.

The table of names is read by interning one string of a list after another. Every string comes back at
its place (`NameTable.ofList?_eq_some_iff`), and a list in which a string occurs twice is no table.
-/

namespace NetPrep

/-! ## Encoders and decoders -/

/-- A text holds the encoded form of `a` in full, and the form decodes to `a`. -/
structure ReadsBack {α : Type} (encode : α → Json) (decode : Json → Option α) (a : α) : Prop where
  exact : (encode a).isExact = true
  decodes : decode (encode a) = some a

namespace ReadsBack

variable {α β : Type} {encode : α → Json} {decode : Json → Option α}

/-- A field that is there is decoded. -/
theorem required {a : α} (h : ReadsBack encode decode a) :
    Json.required decode (some (encode a)) = some a := h.decodes

/-- A field that may be null is decoded. -/
theorem optional {o : Option α}
    (h : ReadsBack (Json.ofOption encode) (Json.toOption? decode) o) :
    Json.optional decode (some (Json.ofOption encode o)) = some o := h.decodes

theorem ofNat {limit n : Nat} (h : n < limit) : ReadsBack Json.ofNat (Json.toNat? limit) n :=
  ⟨rfl, if_pos h⟩

theorem int {n : Int} (h : fitsInt64 n = true) : ReadsBack Json.int Json.toInt64? n :=
  ⟨rfl, if_pos h⟩

theorem bool (b : Bool) : ReadsBack Json.bool Json.toBool? b := ⟨rfl, rfl⟩

theorem str (s : String) : ReadsBack Json.str Json.toString? s := ⟨rfl, rfl⟩

/-- A value that is written as the number of its place. -/
theorem index {mk : Nat → α} {place : α → Nat} {limit : Nat} {a : α} (hmk : mk (place a) = a)
    (h : place a < limit) : ReadsBack (fun a => Json.ofNat (place a))
      (fun x => (Json.toNat? limit x).map mk) a :=
  ⟨rfl, by simp only [(ofNat h).decodes, Option.map_some, hmk]⟩

theorem option {o : Option α} (hne : ∀ a, encode a ≠ .null)
    (h : ∀ a, o = some a → ReadsBack encode decode a) :
    ReadsBack (Json.ofOption encode) (Json.toOption? decode) o := by
  cases o with
  | none => exact ⟨rfl, rfl⟩
  | some a =>
    refine ⟨(h a rfl).exact, ?_⟩
    have hsome : ∀ x : Json, x ≠ .null → Json.toOption? decode x = (decode x).map some := by
      intro x hx
      cases x <;> first | rfl | exact absurd rfl hx
    rw [Json.ofOption, hsome _ (hne a), (h a rfl).decodes, Option.map_some]

theorem list {as : List α} (h : ∀ a ∈ as, ReadsBack encode decode a) :
    ReadsBack (Json.ofList encode) (Json.toList? decode) as := by
  induction as with
  | nil => exact ⟨rfl, rfl⟩
  | cons a as ih =>
    obtain ⟨hexact, hdecodes⟩ := ih fun b hb => h b (List.mem_cons_of_mem _ hb)
    obtain ⟨haexact, hadecodes⟩ := h a List.mem_cons_self
    refine ⟨?_, ?_⟩
    · simp only [Json.ofList, List.map_cons, Json.isExact, Json.areExact, haexact] at hexact ⊢
      exact hexact
    · simp only [Json.ofList, Json.toList?, List.map_cons, List.mapM_cons, hadecodes] at hdecodes ⊢
      simp [hdecodes]

theorem pair {encode' : β → Json} {decode' : Json → Option β} {a : α} {b : β}
    (ha : ReadsBack encode decode a) (hb : ReadsBack encode' decode' b) :
    ReadsBack (fun p : α × β => Json.arr [encode p.1, encode' p.2])
      (Json.toPair? decode decode') (a, b) :=
  ⟨by simp [Json.isExact, Json.areExact, ha.exact, hb.exact],
    by simp [Json.toPair?, ha.decodes, hb.decodes]⟩

end ReadsBack

namespace Json

theorem variant?_tagged (tag : String) (fields : List (String × Json)) :
    (tagged tag fields).variant? = some (tag, some (.obj fields)) := rfl

theorem entriesOf_eq_nil {key : String} {entries : List (String × Json)}
    (h : key ∉ entries.map (·.1)) : entriesOf key entries = [] := by
  simp only [entriesOf, List.map_eq_nil_iff, List.filter_eq_nil_iff, beq_iff_eq]
  exact fun e he hkey => h (List.mem_map.2 ⟨e, he, hkey⟩)

theorem entriesOf_of_mem {key : String} {x : Json} {entries : List (String × Json)}
    (hkeys : (entries.map (·.1)).Nodup) (h : (key, x) ∈ entries) : entriesOf key entries = [x] := by
  induction entries with
  | nil => cases h
  | cons e entries ih =>
    obtain ⟨hnot, hkeys⟩ := List.nodup_cons.1 hkeys
    rcases List.mem_cons.1 h with rfl | h
    · have hrest := entriesOf_eq_nil hnot
      simp only [entriesOf] at hrest
      simp [entriesOf, hrest]
    · have hne : e.1 ≠ key := by
        rintro rfl
        exact hnot (List.mem_map.2 ⟨_, h, rfl⟩)
      have hrest := ih hkeys h
      simp only [entriesOf] at hrest
      simp [entriesOf, hne, hrest]

theorem mapM_entriesOf {entries : List (String × Json)} (hnodup : (entries.map (·.1)).Nodup)
    (es : List (String × Json)) (hes : ∀ e ∈ es, e ∈ entries) :
    (es.map (·.1)).mapM (fun name => match entriesOf name entries with
      | [] => some none
      | [x] => some (some x)
      | _ => none) = some (es.map fun e => some e.2) := by
  induction es with
  | nil => rfl
  | cons e es ih =>
    rw [List.map_cons, List.mapM_cons, entriesOf_of_mem hnodup (hes e List.mem_cons_self),
      ih fun e he => hes e (List.mem_cons_of_mem _ he)]
    rfl

/-- An object with an entry for each field. -/
theorem fields?_obj {names : List String} {entries : List (String × Json)}
    (hnames : entries.map (·.1) = names) (hnodup : names.Nodup) :
    fields? names (.obj entries) = some (entries.map fun e => some e.2) := by
  subst hnames
  exact mapM_entriesOf hnodup entries fun _ => id

/-- A record is decoded from the values of its entries. -/
theorem bind_fields?_obj {α : Type} {names : List String} {entries : List (String × Json)}
    {build : List (Option Json) → Option α} {a : α} (hnames : entries.map (·.1) = names)
    (hnodup : names.Nodup) (h : build (entries.map fun e => some e.2) = some a) :
    (fields? names (.obj entries) >>= build) = some a := by
  rw [fields?_obj hnames hnodup]
  exact h

end Json

/-! ## Ranges -/

def Name.inRange (n : Name) : Bool := n.index < limit32
def NodeId.inRange (n : NodeId) : Bool := n.index < limit32
def ValueId.inRange (v : ValueId) : Bool := v.index < limit32
def BlockId.inRange (b : BlockId) : Bool := b.index < limit32
def TypeId.inRange (t : TypeId) : Bool := t.index < limit32

def Loc.inRange (l : Loc) : Bool :=
  l.file.all Name.inRange && l.line < limit32 && l.col < limit32

/-- The names and numbers among the attributes of the operation are in their ranges. -/
def Op.inRange : Op → Bool
  | .inst target name inputs outputs =>
    target.inRange && name.inRange && inputs.all (·.all Name.inRange)
      && outputs.all (·.all Name.inRange)
  | .constant value => fitsInt64 value
  | .extract low => low < limit32
  | .structExtract field | .fieldStorage field => field.inRange
  | .systemCall function _ => function.inRange
  | .ifdef flag | .proceduralIfdef flag => flag.inRange
  | _ => true

def HwType.inRange : HwType → Bool
  | .int width => width < limit32
  | .storage element => element.inRange
  | .array element length => element.inRange && length < limit32
  | .record fields => fields.all fun f => f.1.inRange && f.2.inRange

def TypeTable.inRange (t : TypeTable) : Bool := t.entries.toList.all HwType.inRange

def ValueDef.inRange : ValueDef → Bool
  | .port index => index < limit32
  | .result node index => node.inRange && index < limit32

def Use.inRange (u : Use) : Bool := u.node.inRange && u.operand < limit32

def Value.inRange (v : Value) : Bool :=
  v.type.inRange && v.definition.inRange && v.uses.all Use.inRange

def Node.inRange (n : Node) : Bool :=
  n.op.inRange && n.operands.all ValueId.inRange && n.results.all ValueId.inRange
    && n.regions.all BlockId.inRange && n.name.all Name.inRange && n.parent.inRange
    && n.loc.inRange && n.prev.all NodeId.inRange && n.next.all NodeId.inRange
    && n.order < limit64

def Block.inRange (b : Block) : Bool :=
  b.parent.all NodeId.inRange && b.first.all NodeId.inRange && b.last.all NodeId.inRange
    && b.len < limit64

def Port.inRange (p : Port) : Bool :=
  p.name.inRange && p.type.inRange && p.value.all ValueId.inRange

def Module.inRange (m : Module) : Bool :=
  m.name.inRange && m.loc.inRange && m.ports.all Port.inRange && m.types.inRange
    && m.nodes.toList.all Node.inRange && m.values.toList.all Value.inRange
    && m.blocks.toList.all Block.inRange && m.body.inRange

/-- The numbers of the design are in the ranges of the fields that they are kept in. -/
def Design.inRange (d : Design) : Bool := d.modules.toList.all Module.inRange

/-! ## Each type reads back -/

namespace ReadsBack

theorem name {n : Name} (h : n.inRange = true) : ReadsBack Name.toJson Name.ofJson? n :=
  index rfl (of_decide_eq_true h)

theorem node {n : NodeId} (h : n.inRange = true) : ReadsBack NodeId.toJson NodeId.ofJson? n :=
  index rfl (of_decide_eq_true h)

theorem value {v : ValueId} (h : v.inRange = true) : ReadsBack ValueId.toJson ValueId.ofJson? v :=
  index rfl (of_decide_eq_true h)

theorem block {b : BlockId} (h : b.inRange = true) : ReadsBack BlockId.toJson BlockId.ofJson? b :=
  index rfl (of_decide_eq_true h)

theorem type {t : TypeId} (h : t.inRange = true) : ReadsBack TypeId.toJson TypeId.ofJson? t :=
  index rfl (of_decide_eq_true h)

theorem name? {o : Option Name} (h : o.all Name.inRange = true) :
    ReadsBack (Json.ofOption Name.toJson) (Json.toOption? Name.ofJson?) o :=
  option (fun _ => nofun) fun n hn => name (by simpa [hn] using h)

theorem node? {o : Option NodeId} (h : o.all NodeId.inRange = true) :
    ReadsBack (Json.ofOption NodeId.toJson) (Json.toOption? NodeId.ofJson?) o :=
  option (fun _ => nofun) fun n hn => node (by simpa [hn] using h)

theorem value? {o : Option ValueId} (h : o.all ValueId.inRange = true) :
    ReadsBack (Json.ofOption ValueId.toJson) (Json.toOption? ValueId.ofJson?) o :=
  option (fun _ => nofun) fun v hv => value (by simpa [hv] using h)

/-- A list whose elements are all in range. -/
theorem all {α : Type} {encode : α → Json} {decode : Json → Option α} {inRange : α → Bool}
    {as : List α} (h : as.all inRange = true)
    (heach : ∀ a, inRange a = true → ReadsBack encode decode a) :
    ReadsBack (Json.ofList encode) (Json.toList? decode) as :=
  list fun a ha => heach a (List.all_eq_true.1 h a ha)

theorem loc {l : Loc} (h : l.inRange = true) : ReadsBack Loc.toJson Loc.ofJson? l := by
  simp only [Loc.inRange, Bool.and_eq_true, decide_eq_true_eq] at h
  obtain ⟨⟨hfile, hline⟩, hcol⟩ := h
  constructor
  · simp [Loc.toJson, Json.isExact, Json.entriesAreExact, (name? hfile).exact, Json.ofNat]
  · refine Json.bind_fields?_obj rfl (by decide) ?_
    simp [(name? hfile).optional, Json.toNat32?, (ofNat hline).required, (ofNat hcol).required]

theorem edge (e : Edge) : ReadsBack Edge.toJson Edge.ofJson? e := by
  cases e <;> exact ⟨rfl, rfl⟩

theorem resetKind (k : ResetKind) : ReadsBack ResetKind.toJson ResetKind.ofJson? k := by
  cases k <;> exact ⟨rfl, rfl⟩

theorem regionKind (k : RegionKind) : ReadsBack RegionKind.toJson RegionKind.ofJson? k := by
  cases k <;> exact ⟨rfl, rfl⟩

theorem direction (d : PortDirection) : ReadsBack PortDirection.toJson PortDirection.ofJson? d := by
  cases d <;> exact ⟨rfl, rfl⟩

theorem comparison (c : Comparison) : ReadsBack Comparison.toJson Comparison.ofJson? c := by
  cases c <;> exact ⟨rfl, rfl⟩

theorem reset (r : Reset) : ReadsBack Reset.toJson Reset.ofJson? r := by
  constructor
  · simp [Reset.toJson, Json.isExact, Json.entriesAreExact, (resetKind r.kind).exact,
      (edge r.edge).exact]
  · refine Json.bind_fields?_obj rfl (by decide) ?_
    simp [(resetKind r.kind).required, (edge r.edge).required]

theorem portNames {names : List (Option Name)} (h : (names.all (·.all Name.inRange)) = true) :
    ReadsBack Op.portNamesToJson Op.portNamesOfJson? names :=
  all h fun _ => name?

/-- An operation without attributes is its tag. -/
theorem plainOp {op : Op} {tag : String} (hjson : op.toJson = .str tag)
    (htag : Op.tags.lookup tag = some op) : ReadsBack Op.toJson Op.ofJson? op := by
  constructor
  · rw [hjson, Json.isExact]
  · rw [hjson]
    simp [Op.ofJson?, Json.variant?, htag, Json.bare]

/-- An operation with attributes is a record beside its tag. -/
theorem recordOp {op : Op} {tag : String} {fields : List (String × Json)}
    (hjson : op.toJson = .tagged tag fields) (hexact : Json.entriesAreExact fields = true)
    (htag : Op.tags.lookup tag = none) (h : Op.ofRecord? tag (.obj fields) = some op) :
    ReadsBack Op.toJson Op.ofJson? op := by
  constructor
  · rw [hjson]
    simp [Json.tagged, Json.isExact, Json.entriesAreExact, hexact]
  · rw [hjson]
    simp [Op.ofJson?, Json.variant?_tagged, htag, h]

theorem op {op : Op} (h : op.inRange = true) : ReadsBack Op.toJson Op.ofJson? op := by
  cases op with
  | inst target instName inputs outputs =>
    simp only [Op.inRange, Bool.and_eq_true] at h
    obtain ⟨⟨⟨htarget, hname⟩, hinputs⟩, houtputs⟩ := h
    refine recordOp rfl ?_ (by decide) (Json.bind_fields?_obj rfl (by decide) ?_)
    · simp [Json.entriesAreExact, (name htarget).exact, (name hname).exact,
        (portNames hinputs).exact, (portNames houtputs).exact]
    · simp [(name htarget).required, (name hname).required, (portNames hinputs).required,
        (portNames houtputs).required]
  | constant value =>
    refine recordOp rfl rfl (by decide) (Json.bind_fields?_obj rfl (by decide) ?_)
    simp [(int h).required]
  | compare c =>
    refine recordOp rfl ?_ (by decide) (Json.bind_fields?_obj rfl (by decide) ?_)
    · simp [Json.entriesAreExact, (comparison c).exact]
    · simp [(comparison c).required]
  | extract low =>
    refine recordOp rfl rfl (by decide) (Json.bind_fields?_obj rfl (by decide) ?_)
    simp [Json.toNat32?, (ofNat (of_decide_eq_true h)).required]
  | structExtract field =>
    refine recordOp rfl rfl (by decide) (Json.bind_fields?_obj rfl (by decide) ?_)
    simp [(name h).required]
  | fieldStorage field =>
    refine recordOp rfl rfl (by decide) (Json.bind_fields?_obj rfl (by decide) ?_)
    simp [(name h).required]
  | systemCall function sideEffects =>
    refine recordOp rfl rfl (by decide) (Json.bind_fields?_obj rfl (by decide) ?_)
    simp [(name h).required, (bool sideEffects).required]
  | verbatim text sideEffects =>
    refine recordOp rfl rfl (by decide) (Json.bind_fields?_obj rfl (by decide) ?_)
    simp [(str text).required, (bool sideEffects).required]
  | always edges =>
    have hedges : ReadsBack (Json.ofList Edge.toJson) (Json.toList? Edge.ofJson?) edges :=
      list fun e _ => edge e
    refine recordOp rfl ?_ (by decide) (Json.bind_fields?_obj rfl (by decide) ?_)
    · simp [Json.entriesAreExact, hedges.exact]
    · simp [hedges.required]
  | alwaysFF clock r =>
    have hreset : ReadsBack (Json.ofOption Reset.toJson) (Json.toOption? Reset.ofJson?) r :=
      option (fun _ h => by cases h) fun r _ => reset r
    refine recordOp rfl ?_ (by decide) (Json.bind_fields?_obj rfl (by decide) ?_)
    · simp [Json.entriesAreExact, (edge clock).exact, hreset.exact]
    · simp [(edge clock).required, hreset.optional]
  | ifdef flag =>
    refine recordOp rfl rfl (by decide) (Json.bind_fields?_obj rfl (by decide) ?_)
    simp [(name h).required]
  | proceduralIfdef flag =>
    refine recordOp rfl rfl (by decide) (Json.bind_fields?_obj rfl (by decide) ?_)
    simp [(name h).required]
  | fwrite format =>
    refine recordOp rfl rfl (by decide) (Json.bind_fields?_obj rfl (by decide) ?_)
    simp [(str format).required]
  | foreign dialect name =>
    refine recordOp rfl rfl (by decide) (Json.bind_fields?_obj rfl (by decide) ?_)
    simp [(str dialect).required, (str name).required]
  | _ => exact plainOp rfl rfl

theorem hwType {ty : HwType} (h : ty.inRange = true) : ReadsBack HwType.toJson HwType.ofJson? ty := by
  cases ty with
  | int width =>
    refine ⟨rfl, ?_⟩
    simp only [HwType.ofJson?, HwType.toJson, Json.variant?_tagged, Option.bind_eq_bind,
      Option.bind_some]
    refine Json.bind_fields?_obj rfl (by decide) ?_
    simp [Json.toNat32?, (ofNat (of_decide_eq_true h)).required]
  | storage element =>
    refine ⟨rfl, ?_⟩
    simp only [HwType.ofJson?, HwType.toJson, Json.variant?_tagged, Option.bind_eq_bind,
      Option.bind_some]
    refine Json.bind_fields?_obj rfl (by decide) ?_
    simp [(type h).required]
  | array element length =>
    simp only [HwType.inRange, Bool.and_eq_true, decide_eq_true_eq] at h
    refine ⟨rfl, ?_⟩
    simp only [HwType.ofJson?, HwType.toJson, Json.variant?_tagged, Option.bind_eq_bind,
      Option.bind_some]
    refine Json.bind_fields?_obj rfl (by decide) ?_
    simp [(type h.1).required, Json.toNat32?, (ofNat h.2).required]
  | record fields =>
    have hfields : ReadsBack (Json.ofList fun p : Name × TypeId => .arr [p.1.toJson, p.2.toJson])
        (Json.toList? (Json.toPair? Name.ofJson? TypeId.ofJson?)) fields := by
      refine all h fun f hf => ?_
      rw [Bool.and_eq_true] at hf
      exact pair (name hf.1) (type hf.2)
    constructor
    · simp [HwType.toJson, Json.tagged, Json.isExact, Json.entriesAreExact, hfields.exact]
    · simp only [HwType.ofJson?, HwType.toJson, Json.variant?_tagged, Option.bind_eq_bind,
        Option.bind_some]
      refine Json.bind_fields?_obj rfl (by decide) ?_
      simp [hfields.required]

theorem typeTable {t : TypeTable} (h : t.inRange = true) :
    ReadsBack TypeTable.toJson TypeTable.ofJson? t := by
  have hentries := all h fun _ => hwType
  constructor
  · simp [TypeTable.toJson, Json.isExact, Json.entriesAreExact, hentries.exact]
  · refine Json.bind_fields?_obj rfl (by decide) ?_
    simp [hentries.required]

theorem definition {d : ValueDef} (h : d.inRange = true) :
    ReadsBack ValueDef.toJson ValueDef.ofJson? d := by
  cases d with
  | port index =>
    refine ⟨rfl, ?_⟩
    simp only [ValueDef.ofJson?, ValueDef.toJson, Json.variant?_tagged, Option.bind_eq_bind,
      Option.bind_some]
    refine Json.bind_fields?_obj rfl (by decide) ?_
    simp [Json.toNat32?, (ofNat (of_decide_eq_true h)).required]
  | result n index =>
    simp only [ValueDef.inRange, Bool.and_eq_true, decide_eq_true_eq] at h
    refine ⟨rfl, ?_⟩
    simp only [ValueDef.ofJson?, ValueDef.toJson, Json.variant?_tagged, Option.bind_eq_bind,
      Option.bind_some]
    refine Json.bind_fields?_obj rfl (by decide) ?_
    simp [(node h.1).required, Json.toNat32?, (ofNat h.2).required]

theorem use {u : Use} (h : u.inRange = true) : ReadsBack Use.toJson Use.ofJson? u := by
  simp only [Use.inRange, Bool.and_eq_true, decide_eq_true_eq] at h
  refine ⟨rfl, Json.bind_fields?_obj rfl (by decide) ?_⟩
  simp [(node h.1).required, Json.toNat32?, (ofNat h.2).required]

theorem valueRecord {v : Value} (h : v.inRange = true) :
    ReadsBack Value.toJson Value.ofJson? v := by
  simp only [Value.inRange, Bool.and_eq_true] at h
  obtain ⟨⟨htype, hdefinition⟩, huses⟩ := h
  have huses := all huses fun _ => use
  constructor
  · simp [Value.toJson, Json.isExact, Json.entriesAreExact, (type htype).exact,
      (definition hdefinition).exact, huses.exact]
  · refine Json.bind_fields?_obj rfl (by decide) ?_
    simp [(type htype).required, (definition hdefinition).required, huses.required]

theorem nodeRecord {n : Node} (h : n.inRange = true) : ReadsBack Node.toJson Node.ofJson? n := by
  simp only [Node.inRange, Bool.and_eq_true, decide_eq_true_eq] at h
  obtain ⟨⟨⟨⟨⟨⟨⟨⟨⟨hop, hoperands⟩, hresults⟩, hregions⟩, hname⟩, hparent⟩, hloc⟩, hprev⟩, hnext⟩,
    horder⟩ := h
  have hoperands := all hoperands fun _ => value
  have hresults := all hresults fun _ => value
  have hregions := all hregions fun _ => block
  constructor
  · simp [Node.toJson, Json.isExact, Json.entriesAreExact, (op hop).exact, hoperands.exact,
      hresults.exact, hregions.exact, (name? hname).exact, (block hparent).exact, (loc hloc).exact,
      (node? hprev).exact, (node? hnext).exact, Json.ofNat]
  · refine Json.bind_fields?_obj rfl (by decide) ?_
    simp [(op hop).required, hoperands.required, hresults.required, hregions.required,
      (name? hname).optional, (bool n.twoState).required, (block hparent).required,
      (loc hloc).required, (bool n.erased).required, (node? hprev).optional,
      (node? hnext).optional, Json.toNat64?, (ofNat horder).required]

theorem blockRecord {b : Block} (h : b.inRange = true) :
    ReadsBack Block.toJson Block.ofJson? b := by
  simp only [Block.inRange, Bool.and_eq_true, decide_eq_true_eq] at h
  obtain ⟨⟨⟨hparent, hfirst⟩, hlast⟩, hlen⟩ := h
  constructor
  · simp [Block.toJson, Json.isExact, Json.entriesAreExact, (regionKind b.kind).exact,
      (node? hparent).exact, (node? hfirst).exact, (node? hlast).exact, Json.ofNat]
  · refine Json.bind_fields?_obj rfl (by decide) ?_
    simp [(regionKind b.kind).required, (node? hparent).optional, (node? hfirst).optional,
      (node? hlast).optional, Json.toNat64?, (ofNat hlen).required]

theorem port {p : Port} (h : p.inRange = true) : ReadsBack Port.toJson Port.ofJson? p := by
  simp only [Port.inRange, Bool.and_eq_true] at h
  obtain ⟨⟨hname, htype⟩, hvalue⟩ := h
  constructor
  · simp [Port.toJson, Json.isExact, Json.entriesAreExact, (name hname).exact,
      (direction p.direction).exact, (type htype).exact, (value? hvalue).exact]
  · refine Json.bind_fields?_obj rfl (by decide) ?_
    simp [(name hname).required, (direction p.direction).required, (type htype).required,
      (value? hvalue).optional]

theorem store {α : Type} {encode : α → Json} {decode : Json → Option α} {inRange : α → Bool}
    {items : Array α} (h : items.toList.all inRange = true)
    (heach : ∀ a, inRange a = true → ReadsBack encode decode a) :
    ReadsBack (storeToJson encode) (storeOfJson? decode) items := by
  have hitems := all h heach
  constructor
  · simp [storeToJson, Json.isExact, Json.entriesAreExact, hitems.exact]
  · refine Json.bind_fields?_obj rfl (by decide) ?_
    simp [hitems.required]

theorem module {m : Module} (h : m.inRange = true) : ReadsBack Module.toJson Module.ofJson? m := by
  simp only [Module.inRange, Bool.and_eq_true] at h
  obtain ⟨⟨⟨⟨⟨⟨⟨hname, hloc⟩, hports⟩, htypes⟩, hnodes⟩, hvalues⟩, hblocks⟩, hbody⟩ := h
  have hports := all hports fun _ => port
  have hnodes := store hnodes fun _ => nodeRecord
  have hvalues := store hvalues fun _ => valueRecord
  have hblocks := store hblocks fun _ => blockRecord
  constructor
  · simp [Module.toJson, Json.isExact, Json.entriesAreExact, (name hname).exact, (loc hloc).exact,
      hports.exact, (typeTable htypes).exact, hnodes.exact, hvalues.exact, hblocks.exact,
      (block hbody).exact]
  · refine Json.bind_fields?_obj rfl (by decide) ?_
    simp [(name hname).required, (loc hloc).required, hports.required, (typeTable htypes).required,
      hnodes.required, hvalues.required, hblocks.required, (block hbody).required]

/-- A table of names reads back with every string at its place. -/
theorem names (t : NameTable) : ReadsBack NameTable.toJson NameTable.ofJson? t := by
  have hstrings : ReadsBack (Json.ofList Json.str) (Json.toList? Json.toString?) t.toList :=
    list fun s _ => str s
  refine ⟨hstrings.exact, ?_⟩
  rw [NameTable.ofJson?, NameTable.toJson, hstrings.decodes]
  exact NameTable.ofList?_eq_some_iff.2 rfl

theorem design {d : Design} (h : d.inRange = true) : ReadsBack Design.toJson Design.ofJson? d := by
  have hmodules := store h fun _ => module
  constructor
  · simp [Design.toJson, Json.isExact, Json.entriesAreExact, hmodules.exact, (names d.names).exact]
  · refine Json.bind_fields?_obj rfl (by decide) ?_
    simp [hmodules.required, (names d.names).required]

end ReadsBack

namespace NameTable

theorem ofJson?_of_not_nodup {strings : List String} (h : ¬ strings.Nodup) :
    NameTable.ofJson? (.ofList .str strings) = none := by
  have hstrings : ReadsBack (Json.ofList Json.str) (Json.toList? Json.toString?) strings :=
    .list fun s _ => .str s
  rw [NameTable.ofJson?, hstrings.decodes]
  refine Option.eq_none_iff_forall_ne_some.2 fun t ht => h ?_
  exact ofList?_eq_some_iff.1 ht ▸ t.nodup

end NameTable

/-- The text of a design whose numbers are in their ranges reads back as the design. A list in
which a string occurs twice is no table of names, and nothing with such a list is a design. -/
theorem design_roundTrip :
    (∀ d : Design, d.inRange = true →
      (Json.parse? d.toJson.compact).bind Design.ofJson? = some d) ∧
    (∀ strings : List String, ¬ strings.Nodup →
      NameTable.ofJson? (.ofList .str strings) = none ∧
      ∀ (x : Json) (modules : Option Json),
        x.fields? ["modules", "interner"] = some [modules, some (.ofList .str strings)] →
          Design.ofJson? x = none) := by
  refine ⟨fun d hd => ?_, fun strings hstrings => ⟨NameTable.ofJson?_of_not_nodup hstrings, ?_⟩⟩
  · obtain ⟨hexact, hdecodes⟩ := ReadsBack.design hd
    rw [Json.parse?_compact hexact]
    exact hdecodes
  · intro x modules hfields
    simp [Design.ofJson?, hfields, Json.required, NameTable.ofJson?_of_not_nodup hstrings]

/-- A flip-flop process with a reset, an instance with an unnamed port, and the least constant. -/
def Design.clocked : Design where
  modules := #[.sketch [.int 8, .array ⟨0⟩ 4, .record [(⟨1⟩, ⟨0⟩)], .storage ⟨0⟩]
    [(.input, 0), (.output, 0)]
    [(.back ⟨0⟩, .alwaysFF .posedge (some ⟨.async, .negedge⟩), [0, 0], []),
      (.back ⟨0⟩, .inst ⟨2⟩ ⟨3⟩ [none, some ⟨1⟩] [some ⟨2⟩], [0, 0], [0]),
      (.back ⟨0⟩, .constant (-9223372036854775808), [], [0]), (.back ⟨0⟩, .output, [1], [])]]
  names := Module.sketchNames

theorem design_roundTrip_clocked : Design.clocked.inRange = true ∧
    (Json.parse? Design.clocked.toJson.compact).bind Design.ofJson? = some Design.clocked ∧
    ¬ ["a", "b", "a"].Nodup ∧ NameTable.ofJson? (.ofList .str ["a", "b", "a"]) = none ∧
    Design.ofJson? (.arr [.null, .ofList .str ["a", "b", "a"]]) = none := by
  have hrange : Design.clocked.inRange = true := by decide +kernel
  have hrepeated : ¬ ["a", "b", "a"].Nodup := by decide
  obtain ⟨htable, hdesign⟩ := design_roundTrip.2 _ hrepeated
  exact ⟨hrange, design_roundTrip.1 _ hrange, hrepeated, htable, hdesign _ (some .null) rfl⟩

end NetPrep
