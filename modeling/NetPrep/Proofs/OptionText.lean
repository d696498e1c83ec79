import Mathlib
import NetPrep.Options.Text
import NetPrep.Proofs.JsonText
import NetPrep.Proofs.View

/-!
# Option strings read back

Reading and writing option strings are inverse to each other on the options that can be written at
all: those with usable thresholds in 64 bits and no heuristic twice (`Options.Proper`). Whatever an
option string gives is proper (`proper_of_parse`), and the option string of proper options gives
exactly them (`parse_text_of_proper`).

The text is taken apart first. The items hold neither a comma nor a blank, so splitting and trimming
give back the items that were joined; then each item is read on its own, and changes the one option
that it was written for.
-/

namespace NetPrep

/-! ## Cutting and trimming -/

namespace Text

variable {sep : Char} {part rest before after cs : List Char}

theorem splitAt_of_not_mem (h : sep ∉ part) : splitAt sep part = [part] := by
  induction part with
  | nil => rfl
  | cons c part ih =>
    rw [List.mem_cons, not_or] at h
    rw [splitAt, if_neg (Ne.symm h.1), ih h.2]

theorem splitAt_append (h : sep ∉ part) :
    splitAt sep (part ++ sep :: rest) = part :: splitAt sep rest := by
  induction part with
  | nil => rw [List.nil_append, splitAt, if_pos rfl]
  | cons c part ih =>
    rw [List.mem_cons, not_or] at h
    rw [List.cons_append, splitAt, if_neg (Ne.symm h.1), ih h.2]

/-- Splitting undoes joining if no part holds the separator. -/
theorem splitAt_intercalate {parts : List (List Char)} (hne : parts ≠ [])
    (h : ∀ part ∈ parts, sep ∉ part) : splitAt sep ([sep].intercalate parts) = parts := by
  induction parts with
  | nil => exact absurd rfl hne
  | cons part parts ih =>
    rw [List.forall_mem_cons] at h
    cases parts with
    | nil => rw [List.intercalate_singleton, splitAt_of_not_mem h.1]
    | cons next parts =>
      rw [List.intercalate_cons_cons, List.append_assoc, List.singleton_append,
        splitAt_append h.1, ih (List.cons_ne_nil next parts) h.2]

theorem cutAt?_of_not_mem (h : sep ∉ cs) : cutAt? sep cs = none := by
  induction cs with
  | nil => rfl
  | cons c cs ih =>
    rw [List.mem_cons, not_or] at h
    rw [cutAt?, if_neg (Ne.symm h.1), ih h.2, Option.map_none]

theorem cutAt?_append (h : sep ∉ before) :
    cutAt? sep (before ++ sep :: after) = some (before, after) := by
  induction before with
  | nil => rw [List.nil_append, cutAt?, if_pos rfl]
  | cons c before ih =>
    rw [List.mem_cons, not_or] at h
    rw [List.cons_append, cutAt?, if_neg (Ne.symm h.1), ih h.2, Option.map_some]

theorem dropWhile_eq_self (h : ∀ c ∈ cs, isBlank c = false) : cs.dropWhile isBlank = cs := by
  cases cs with
  | nil => rfl
  | cons c cs => rw [List.dropWhile_cons_of_neg (by simp [h c List.mem_cons_self])]

/-- There is nothing to trim where there are no blanks. -/
theorem trim_eq_self (h : ∀ c ∈ cs, isBlank c = false) : trim cs = cs := by
  have hback : ∀ c ∈ cs.reverse, isBlank c = false := fun c hc => h c (List.mem_reverse.1 hc)
  rw [trim, dropWhile_eq_self h, trimEnd, dropWhile_eq_self hback, List.reverse_reverse]

/-- A count reads back from its digits. -/
theorem readCount?_toDigits {limit n : Nat} (h : n < limit) :
    readCount? limit (Nat.toDigits 10 n) = some n := by
  obtain ⟨c, ds, hds⟩ := List.exists_cons_of_length_pos (@Nat.length_toDigits_pos 10 n)
  have hdigits : ∀ d ∈ c :: ds, isDigit d = true := fun d hd => isDigit_of_mem_toDigits (hds ▸ hd)
  have hplus : c ≠ '+' := by
    rintro rfl
    exact absurd (hdigits '+' List.mem_cons_self) (by decide)
  have hvalue : digitsValue 10 (c :: ds) = n := by rw [← hds, digitsValue_toDigits]
  have hall : (c :: ds).all isDigit = true := List.all_eq_true.2 hdigits
  unfold readCount?
  rw [hds]
  split
  · next heq => exact absurd (List.cons.inj heq).1 hplus
  · simp [hall, hvalue, h, guard]

theorem lt_of_readCount? {limit n : Nat} (h : readCount? limit cs = some n) : n < limit := by
  simp only [readCount?, Option.bind_eq_bind, Option.bind_eq_some_iff, Option.guard_eq_some',
    Option.pure_def, Option.some.injEq] at h
  obtain ⟨_, _, _, hlt, rfl⟩ := h
  exact hlt

end Text

namespace Options

variable {o p : Options} {key value head item : String}

/-! ## Items -/

/-- A character that an item may hold: no comma and no blank. -/
def isSolid (c : Char) : Bool := c != ',' && !Text.isBlank c

/-- A character that a key or a value may hold: no equals sign either. -/
def isPlain (c : Char) : Bool := isSolid c && c != '='

def Plain (s : String) : Prop := s.toList.all isPlain = true

/-- An item that comes back from a line of items. -/
def Solid (s : String) : Prop := (!s.toList.isEmpty && s.toList.all isSolid) = true

theorem Plain.isSolid (h : Plain value) {c : Char} (hc : c ∈ value.toList) : isSolid c = true :=
  (Bool.and_eq_true_iff.1 (List.all_eq_true.1 h c hc)).1

theorem Plain.trim_eq (h : Plain value) : Text.trim value.toList = value.toList :=
  Text.trim_eq_self fun c hc => by
    have hsolid := h.isSolid hc
    simpa [Options.isSolid] using (Bool.and_eq_true_iff.1 hsolid).2

theorem Plain.not_mem (h : Plain key) : '=' ∉ key.toList := fun hmem =>
  absurd (List.all_eq_true.1 h '=' hmem) (by decide)

theorem Solid.trim_eq (h : Solid item) : Text.trim item.toList = item.toList :=
  Text.trim_eq_self fun c hc => by
    have hall := List.all_eq_true.1 (Bool.and_eq_true_iff.1 h).2 c hc
    simpa [Options.isSolid] using (Bool.and_eq_true_iff.1 hall).2

theorem Solid.not_mem (h : Solid item) : ',' ∉ item.toList := fun hmem =>
  absurd (List.all_eq_true.1 (Bool.and_eq_true_iff.1 h).2 ',' hmem) (by decide)

theorem Solid.isEmpty_eq (h : Solid item) : item.toList.isEmpty = false := by
  simpa using (Bool.and_eq_true_iff.1 h).1

theorem Solid.append (h : Solid head) (hvalue : Plain value) : Solid (head ++ value) := by
  have hall := (Bool.and_eq_true_iff.1 h).2
  have hrest : value.toList.all Options.isSolid = true := List.all_eq_true.2 fun c => hvalue.isSolid
  have hne : head.toList ≠ [] := by simpa using h.isEmpty_eq
  unfold Solid
  rw [String.toList_append, List.all_append, hall, hrest]
  simp [hne]

theorem plain_toString (n : Nat) : Plain (toString n) := by
  refine List.all_eq_true.2 fun c hc => ?_
  have hdigit : Text.isDigit c = true := by
    rw [show (toString n).toList = Nat.toDigits 10 n from Nat.toList_repr] at hc
    exact Text.isDigit_of_mem_toDigits hc
  have hrange : 48 ≤ c.toNat ∧ c.toNat ≤ 57 := by
    simp only [Text.isDigit, Bool.and_eq_true, decide_eq_true_eq] at hdigit
    exact hdigit
  have hcomma : c ≠ ',' := by
    rintro rfl
    exact absurd hdigit (by decide)
  have hequals : c ≠ '=' := by
    rintro rfl
    exact absurd hdigit (by decide)
  -- The blanks are far from the digits.
  have hblank : Text.isBlank c = false := by
    simp [Text.isBlank]
    omega
  simp [isPlain, isSolid, hcomma, hequals, hblank]

theorem plain_heuristic (h : SpillHeuristic) : Plain h.text := by
  cases h
  rfl

theorem ofText?_text (h : SpillHeuristic) : SpillHeuristic.ofText? h.text = some h := by
  cases h
  rfl

/-- Solid items come back from the line that they are joined to. -/
theorem items_intercalate {strings : List String} (h : ∀ s ∈ strings, Solid s) :
    items (",".intercalate strings) = strings.map String.toList := by
  have hline : (",".intercalate strings).toList = [','].intercalate (strings.map String.toList) := by
    simp [String.toList_intercalate]
  have htrim : (strings.map String.toList).map Text.trim = strings.map String.toList := by
    rw [List.map_map]
    exact List.map_congr_left fun s hs => (h s hs).trim_eq
  have hfull : (strings.map String.toList).filter (!·.isEmpty) = strings.map String.toList := by
    refine List.filter_eq_self.2 fun cs hcs => ?_
    obtain ⟨s, hs, rfl⟩ := List.mem_map.1 hcs
    rw [(h s hs).isEmpty_eq]
    rfl
  unfold items
  rw [hline]
  by_cases hnil : strings = []
  · -- A text without items is split into one empty part.
    subst hnil
    rfl
  · rw [Text.splitAt_intercalate (by simpa using hnil), htrim, hfull]
    intro part hpart
    obtain ⟨s, hs, rfl⟩ := List.mem_map.1 hpart
    exact (h s hs).not_mem

/-- Every item that is written is solid. -/
theorem solid_of_mem_textItems (hitem : item ∈ o.textItems) : Solid item := by
  have hflag : ∀ {b : Bool} {key : String}, item ∈ (if b then [key] else []) → Solid key →
      Solid item := by
    intro b key hitem hkey
    split at hitem
    · rwa [List.mem_singleton.1 hitem]
    · exact absurd hitem List.not_mem_nil
  have hcount : ∀ {n usual : Nat} {head : String},
      item ∈ (if n = usual then [] else [head ++ toString n]) → Solid head → Solid item := by
    intro n usual head hitem hhead
    split at hitem
    · exact absurd hitem List.not_mem_nil
    · rw [List.mem_singleton.1 hitem]
      exact hhead.append (plain_toString n)
  simp only [textItems, List.mem_append, List.mem_map] at hitem
  obtain (((((hitem | hitem) | hitem) | hitem) | hitem) | ⟨h, -, rfl⟩) | hitem := hitem
  · exact hflag hitem rfl
  · exact hflag hitem rfl
  · exact hflag hitem rfl
  · exact hflag hitem rfl
  · exact hcount hitem rfl
  · have hhead : Solid "wireSpillingHeuristic=" := rfl
    exact hhead.append (plain_heuristic h)
  · exact hcount hitem rfl

/-- A key alone sets an option without a value. -/
theorem setItem_key (hkey : Plain key) : o.setItem key.toList = o.set key none := by
  unfold setItem
  rw [Text.cutAt?_of_not_mem hkey.not_mem, String.ofList_toList]

/-- A key, an equals sign and a value set the option with the key to the value. -/
theorem setItem_entry (hhead : head = key ++ "=") (hkey : Plain key) (hvalue : Plain value) :
    o.setItem (head ++ value).toList = o.set key (some value) := by
  have hitem : (head ++ value).toList = key.toList ++ '=' :: value.toList := by
    simp [hhead]
  unfold setItem
  rw [hitem, Text.cutAt?_append hkey.not_mem]
  simp only [hkey.trim_eq, hvalue.trim_eq, String.ofList_toList]

/-! ## Reading what was written -/

/-- Sets options from items, one after another. -/
def setItems (o : Options) (strings : List String) : Except OptionError Options :=
  (strings.map String.toList).foldlM setItem o

theorem setItems_append {strings more : List String} (h : o.setItems strings = .ok p) :
    o.setItems (strings ++ more) = p.setItems more := by
  unfold setItems at h ⊢
  rw [List.map_append, List.foldlM_append, h]
  rfl

theorem setItems_singleton : o.setItems [item] = o.setItem item.toList := by
  show o.setItem item.toList >>= pure = _
  rw [bind_pure]

theorem parse_text_eq (o : Options) : parse o.text = default.setItems o.textItems >>= validate := by
  unfold parse text
  rw [items_intercalate fun s hs => solid_of_mem_textItems hs]
  rfl

/-- A flag is written if it is set. `put` gives the options for either state of the flag. -/
theorem setItems_flag (key : String) (put : Bool → Options) (hkey : Plain key)
    (hset : (put false).set key none = .ok (put true)) (b : Bool) :
    (put false).setItems (if b then [key] else []) = .ok (put b) := by
  cases b with
  | false => rfl
  | true => rw [if_pos rfl, setItems_singleton, setItem_key hkey, hset]

theorem readCount_toString {n : Nat} (h : n < limit64) :
    readCount key (some (toString n)) = .ok n := by
  have hread : Text.readCount? limit64 (toString n).toList = some n := by
    rw [show (toString n).toList = Nat.toDigits 10 n from Nat.toList_repr]
    exact Text.readCount?_toDigits h
  simp only [readCount, hread]

/-- A count is written if it is not the usual one. `put` gives the options for each count. -/
theorem setItems_count (head key : String) (put : Nat → Options) (hhead : head = key ++ "=")
    (hkey : Plain key) {usual n : Nat}
    (hset : (put usual).set key (some (toString n)) = .ok (put n)) :
    (put usual).setItems (if n = usual then [] else [head ++ toString n]) = .ok (put n) := by
  split
  · next heq =>
    subst heq
    rfl
  · rw [setItems_singleton, setItem_entry hhead hkey (plain_toString n), hset]

/-- The heuristics are added in their order. -/
theorem setItems_heuristics (more : List SpillHeuristic) (h : (o.spillHeuristics ++ more).Nodup) :
    o.setItems (more.map fun x => "wireSpillingHeuristic=" ++ x.text) =
      .ok { o with spillHeuristics := o.spillHeuristics ++ more } := by
  induction more generalizing o with
  | nil =>
    rw [List.append_nil]
    rfl
  | cons x more ih =>
    have hx : x ∉ o.spillHeuristics := fun hmem =>
      List.disjoint_of_nodup_append h hmem List.mem_cons_self
    have hadd : o.set "wireSpillingHeuristic" (some x.text) =
        .ok { o with spillHeuristics := o.spillHeuristics ++ [x] } := by
      have hread : (some x.text).bind SpillHeuristic.ofText? = some x := ofText?_text x
      simp only [set, hread, if_neg hx]
    have hone : o.setItems ["wireSpillingHeuristic=" ++ x.text] =
        .ok { o with spillHeuristics := o.spillHeuristics ++ [x] } := by
      have hhead : "wireSpillingHeuristic=" = "wireSpillingHeuristic" ++ "=" := rfl
      rw [setItems_singleton, setItem_entry hhead rfl (plain_heuristic x), hadd]
    rw [List.map_cons, ← List.singleton_append, setItems_append hone, ih (by simpa using h)]
    simp

/-- Counts are 64-bit numbers, and no heuristic is there twice. -/
structure Fits (o : Options) : Prop where
  nodup : o.spillHeuristics.Nodup
  maximumTerms_lt : o.maximumTerms < limit64
  namehintTermLimit_lt : o.namehintTermLimit < limit64

/-- Options that an option string can give. -/
structure Proper (o : Options) : Prop extends o.Fits where
  validate : o.validate = .ok o

/-- The option string of proper options gives them back. -/
theorem parse_text_of_proper (h : o.Proper) : parse o.text = .ok o := by
  have hset : default.setItems o.textItems = .ok o := by
    obtain ⟨⟨hnodup, hterms, hhints⟩, -⟩ := h
    obtain ⟨locals, ports, events, muxes, terms, heuristics, hints⟩ := o
    -- One option after another takes its value, beginning with the defaults.
    have h₁ : default.setItems _ = .ok ⟨locals, false, false, false, 256, [], 3⟩ :=
      setItems_flag "disallowLocalVariables"
        (fun b => ⟨b, false, false, false, 256, [], 3⟩) rfl rfl locals
    have h₂ : setItems ⟨locals, false, false, false, 256, [], 3⟩ _ = _ :=
      setItems_flag "disallowExpressionInliningInPorts"
        (fun b => ⟨locals, b, false, false, 256, [], 3⟩) rfl rfl ports
    have h₃ : setItems ⟨locals, ports, false, false, 256, [], 3⟩ _ = _ :=
      setItems_flag "allowExprInEventControl"
        (fun b => ⟨locals, ports, b, false, 256, [], 3⟩) rfl rfl events
    have h₄ : setItems ⟨locals, ports, events, false, 256, [], 3⟩ _ = _ :=
      setItems_flag "disallowMuxInlining"
        (fun b => ⟨locals, ports, events, b, 256, [], 3⟩) rfl rfl muxes
    have h₅ : setItems ⟨locals, ports, events, muxes, 256, [], 3⟩ _ = _ :=
      setItems_count "maximumNumberOfTermsPerExpression=" "maximumNumberOfTermsPerExpression"
        (fun n => ⟨locals, ports, events, muxes, n, [], 3⟩) rfl rfl (n := terms) <| by
          simp only [set, readCount_toString hterms]
          rfl
    have h₆ : setItems ⟨locals, ports, events, muxes, terms, [], 3⟩ _ = _ :=
      setItems_heuristics heuristics hnodup
    have h₇ : setItems ⟨locals, ports, events, muxes, terms, heuristics, 3⟩ _ = _ :=
      setItems_count "wireSpillingNamehintTermLimit=" "wireSpillingNamehintTermLimit"
        (fun n => ⟨locals, ports, events, muxes, terms, heuristics, n⟩) rfl rfl (n := hints) <| by
          simp only [set, readCount_toString hhints]
          rfl
    simp only [textItems, List.append_assoc]
    exact (setItems_append h₁).trans <| (setItems_append h₂).trans <| (setItems_append h₃).trans <|
      (setItems_append h₄).trans <| (setItems_append h₅).trans <| (setItems_append h₆).trans h₇
  rw [parse_text_eq, hset]
  exact h.validate

/-! ## What is read -/

theorem lt_of_readCount {value : Option String} {n : Nat} (h : readCount key value = .ok n) :
    n < limit64 := by
  unfold readCount at h
  split at h
  · cases h
  · split at h
    · next hread =>
      obtain rfl := Except.ok.inj h
      exact Text.lt_of_readCount? hread
    · cases h

theorem Fits.set (h : o.Fits) {value : Option String} (hset : o.set key value = .ok p) :
    p.Fits := by
  obtain ⟨hnodup, hterms, hhints⟩ := h
  unfold Options.set at hset
  split at hset
  iterate 4
    · obtain ⟨b, -, hp⟩ := bind_eq_ok_iff.1 hset
      cases hp
      exact ⟨hnodup, hterms, hhints⟩
  · obtain ⟨n, hn, hp⟩ := bind_eq_ok_iff.1 hset
    cases hp
    exact ⟨hnodup, lt_of_readCount hn, hhints⟩
  · obtain ⟨n, hn, hp⟩ := bind_eq_ok_iff.1 hset
    cases hp
    exact ⟨hnodup, hterms, lt_of_readCount hn⟩
  · split at hset
    · cases hset
    · next x _ =>
      obtain rfl := Except.ok.inj hset
      split
      · exact ⟨hnodup, hterms, hhints⟩
      · next hx =>
        exact ⟨List.concat_eq_append ▸ hnodup.concat hx, hterms, hhints⟩
  · cases hset

theorem Fits.setItem (h : o.Fits) {cs : List Char} (hset : o.setItem cs = .ok p) : p.Fits := by
  unfold Options.setItem at hset
  split at hset
  · exact h.set hset
  · exact h.set hset

/-- Whatever an option string gives is proper. -/
theorem proper_of_parse {text : String} (h : parse text = .ok o) : o.Proper := by
  have hitems : ∀ (parts : List (List Char)) {o p : Options}, o.Fits →
      parts.foldlM Options.setItem o = .ok p → p.Fits := by
    intro parts
    induction parts with
    | nil =>
      intro o p ho hp
      cases hp
      exact ho
    | cons part parts ih =>
      intro o p ho hp
      rw [List.foldlM_cons] at hp
      obtain ⟨next, hnext, hp⟩ := bind_eq_ok_iff.1 hp
      exact ih (ho.setItem hnext) hp
  have hdefault : default.Fits := ⟨List.nodup_nil, by decide, by decide⟩
  obtain ⟨p, hp, hvalid⟩ := bind_eq_ok_iff.1 h
  obtain rfl : p = o := by
    unfold Options.validate at hvalid
    split at hvalid
    · cases hvalid
    · split at hvalid
      · cases hvalid
      · exact Except.ok.inj hvalid
  exact ⟨hitems _ hdefault hp, hvalid⟩

/-- Whether options are proper can be computed: their option string has to give them back. -/
theorem reparses_iff : o.reparses = true ↔ o.Proper := by
  unfold reparses
  constructor
  · intro h
    split at h
    · next o' hparse =>
      obtain rfl : o' = o := beq_iff_eq.1 h
      exact proper_of_parse hparse
    · cases h
  · intro h
    rw [parse_text_of_proper h]
    exact beq_self_eq_true o

/-- Proper options are those that some option string gives, and their own option string gives them
back. So their texts differ if they do, and writing what was read and reading it again changes
nothing. -/
theorem parse_text :
    (∀ o : Options, o.Proper ↔ ∃ s, parse s = .ok o) ∧
    (∀ o : Options, o.Proper → parse o.text = .ok o) ∧
    (∀ o o' : Options, o.Proper → o'.Proper → o.text = o'.text → o = o') ∧
    ∀ s o, parse s = .ok o → parse o.text = .ok o := by
  refine ⟨fun o => ⟨fun h => ⟨o.text, parse_text_of_proper h⟩, ?_⟩, fun o => parse_text_of_proper,
    fun o o' h h' heq => ?_, fun s o h => parse_text_of_proper (proper_of_parse h)⟩
  · rintro ⟨s, hs⟩
    exact proper_of_parse hs
  · have hread := parse_text_of_proper h
    rw [heq, parse_text_of_proper h'] at hread
    exact (Except.ok.inj hread).symm

theorem parse_text_spilling : ∃ o : Options,
    o = ⟨false, false, false, true, 12, [.largeTermsWithNamehints], 3⟩ ∧ o.Proper ∧
    o.text = "disallowMuxInlining,maximumNumberOfTermsPerExpression=12," ++
      "wireSpillingHeuristic=spillLargeTermsWithNamehints" ∧ parse o.text = .ok o ∧
    ∃ s, s = " disallowMuxInlining = true ,, maximumNumberOfTermsPerExpression=+012" ∧
      ∃ p, parse s = .ok p ∧ p.Proper ∧ parse p.text = .ok p := by
  have hproper : Proper ⟨false, false, false, true, 12, [.largeTermsWithNamehints], 3⟩ :=
    reparses_iff.1 (by decide +kernel)
  have hread : parse " disallowMuxInlining = true ,, maximumNumberOfTermsPerExpression=+012" =
      .ok ⟨false, false, false, true, 12, [], 3⟩ := rfl
  obtain ⟨hiff, hback, -, hstable⟩ := parse_text
  have hproper' := (hiff _).2 ⟨_, hread⟩
  exact ⟨_, rfl, hproper, by decide +kernel, hback _ hproper, _, rfl, _, hread, hproper',
    hstable _ _ hread⟩

end Options

end NetPrep
