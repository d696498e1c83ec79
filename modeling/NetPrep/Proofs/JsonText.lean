import Mathlib
import NetPrep.Json.Printer
import NetPrep.Json.Reader

/-!
# Written JSON reads back

What the printer writes on one line, the reader reads as the same value, whatever follows it
(`value?_compact`). The values that no text holds are left out (`isExact`).
-/

namespace NetPrep

/-! ## Numbers -/

namespace Text

theorem isDigit_of_mem_toDigits {n : Nat} {c : Char} (h : c ∈ Nat.toDigits 10 n) :
    isDigit c = true := by
  have hc := Nat.isDigit_of_mem_toDigits (by decide) (by decide) h
  simp only [Char.isDigit, Bool.and_eq_true, decide_eq_true_eq] at hc
  simp only [isDigit, Bool.and_eq_true, decide_eq_true_eq]
  exact hc

theorem hexValue?_of_isDigit {c : Char} (h : isDigit c = true) :
    hexValue? c = some (c.toNat - '0'.toNat) := by
  simp only [isDigit, Bool.and_eq_true, decide_eq_true_eq] at h
  exact if_pos h

/-- The digits of a number write it. -/
theorem digitsValue_toDigits (n : Nat) : digitsValue 10 (Nat.toDigits 10 n) = n := by
  have hfold : ∀ (ds : List Char) (k : Nat), (∀ c ∈ ds, isDigit c = true) →
      ds.foldl (fun n c => n * 10 + (hexValue? c).getD 0) k = Nat.ofDigitChars 10 ds k := by
    intro ds
    induction ds with
    | nil => exact fun _ _ => rfl
    | cons c ds ih =>
      intro k hds
      simp only [List.foldl_cons, Nat.ofDigitChars]
      rw [ih _ fun d hd => hds d (List.mem_cons_of_mem _ hd), Nat.ofDigitChars,
        hexValue?_of_isDigit (hds c List.mem_cons_self), Option.getD_some, Nat.mul_comm 10]
  rw [digitsValue, hfold _ _ fun c => isDigit_of_mem_toDigits, Nat.ofDigitChars_ten_toDigits]

/-- A number is written without leading zeros. -/
theorem toDigits_head (n : Nat) :
    (Nat.toDigits 10 n).length = 1 ∨ (Nat.toDigits 10 n).head? ≠ some '0' := by
  induction n using Nat.strongRecOn with
  | _ n ih =>
    by_cases hn : n < 10
    · exact Or.inl (by rw [Nat.toDigits_eq_if (by decide), if_pos hn]; rfl)
    · right
      rw [Nat.toDigits_of_base_le (by decide) (Nat.le_of_not_lt hn),
        List.head?_append_of_ne_nil _ (List.ne_nil_of_length_pos Nat.length_toDigits_pos)]
      rcases ih (n / 10) (by omega) with hone | hhead
      · -- One digit is left, and it is not zero.
        have hlt : n / 10 < 10 := by
          refine Nat.lt_of_not_le fun hle => ?_
          rw [Nat.toDigits_of_base_le (by decide) hle, List.length_append] at hone
          have := @Nat.length_toDigits_pos 10 (n / 10 / 10)
          simp only [List.length_singleton] at hone
          omega
        rw [Nat.toDigits_eq_if (by decide), if_pos hlt]
        have hall : ∀ d : Fin 10, d.val ≠ 0 → [Nat.digitChar d.val].head? ≠ some '0' := by decide
        exact hall ⟨n / 10, hlt⟩ (by simp only; omega)
      · exact hhead

end Text

namespace Json

/-- A text that ends a number: it begins neither with a digit nor with a fraction or an exponent. -/
def EndsNumber (rest : List Char) : Prop :=
  ∀ c, rest.head? = some c → Text.isDigit c = false ∧ c ≠ '.' ∧ c ≠ 'e' ∧ c ≠ 'E'

theorem EndsNumber.nil : EndsNumber [] := nofun

theorem EndsNumber.cons {c : Char} {rest : List Char}
    (h : Text.isDigit c = false ∧ c ≠ '.' ∧ c ≠ 'e' ∧ c ≠ 'E') : EndsNumber (c :: rest) := by
  rintro d ⟨⟩
  exact h

variable {rest : List Char}

theorem digits?_toDigits (n : Nat) (hrest : EndsNumber rest) :
    digits? (Nat.toDigits 10 n ++ rest) = some (Nat.toDigits 10 n, rest) := by
  have hspan : (Nat.toDigits 10 n ++ rest).span Text.isDigit = (Nat.toDigits 10 n, rest) := by
    have hall : ∀ c ∈ Nat.toDigits 10 n, Text.isDigit c = true :=
      fun c => Text.isDigit_of_mem_toDigits
    have htake : rest.takeWhile Text.isDigit = [] ∧ rest.dropWhile Text.isDigit = rest := by
      cases rest with
      | nil => exact ⟨rfl, rfl⟩
      | cons c rest => simp [(hrest c rfl).1]
    rw [List.span_eq_takeWhile_dropWhile, List.takeWhile_append_of_pos hall,
      List.dropWhile_append_of_pos hall, htake.1, htake.2, List.append_nil]
  have hne : Nat.toDigits 10 n ≠ [] := List.ne_nil_of_length_pos Nat.length_toDigits_pos
  unfold digits?
  rw [hspan]
  split
  · next h => exact absurd (Prod.mk.inj h).1 hne
  · rfl

theorem fraction?_of_endsNumber (hrest : EndsNumber rest) : fraction? rest = some (false, rest) := by
  cases rest with
  | nil => rfl
  | cons c rest =>
    unfold fraction?
    split
    · next h => exact absurd (List.cons.inj h).1 (hrest c rfl).2.1
    · rfl

theorem exponent?_of_endsNumber (hrest : EndsNumber rest) : exponent? rest = some (false, rest) := by
  cases rest with
  | nil => rfl
  | cons c rest =>
    obtain ⟨-, -, hlower, hupper⟩ := hrest c rfl
    simp [exponent?, hlower, hupper]

theorem number?_natural (n : Nat) (hrest : EndsNumber rest) :
    number? (Nat.toDigits 10 n ++ rest) = some (.int n, rest) := by
  obtain ⟨c, ds, hds⟩ := List.exists_cons_of_length_pos (@Nat.length_toDigits_pos 10 n)
  have hc : c ≠ '-' := by
    rintro rfl
    exact absurd (Text.isDigit_of_mem_toDigits (hds ▸ List.mem_cons_self)) (by decide)
  have hdigits := digits?_toDigits n hrest
  have hhead : ds = [] ∨ c ≠ '0' := by simpa [hds] using Text.toDigits_head n
  have hvalue := Text.digitsValue_toDigits n
  rw [hds] at hdigits hvalue ⊢
  simp only [List.cons_append] at hdigits ⊢
  simp [number?, hc, hdigits, hhead, hvalue, fraction?_of_endsNumber hrest,
    exponent?_of_endsNumber hrest, guard]

theorem number?_negative (n : Nat) (hn : n ≠ 0) (hrest : EndsNumber rest) :
    number? ('-' :: Nat.toDigits 10 n ++ rest) = some (.int (-n), rest) := by
  simp [number?, digits?_toDigits n hrest, Text.toDigits_head n, fraction?_of_endsNumber hrest,
    exponent?_of_endsNumber hrest, Text.digitsValue_toDigits, guard, hn]

/-- An integer reads back. -/
theorem number?_toString (n : Int) (hrest : EndsNumber rest) :
    number? ((toString n).toList ++ rest) = some (.int n, rest) := by
  rw [Int.toString_eq_repr, Int.repr_eq_if]
  split
  · next h =>
    have hn := number?_natural n.toNat hrest
    rw [Int.toNat_of_nonneg h] at hn
    simpa [Nat.repr] using hn
  · next h =>
    have hn := number?_negative (-n).toNat (by omega) hrest
    rw [Int.toNat_of_nonneg (by omega), Int.neg_neg] at hn
    simpa [Nat.repr] using hn

/-! ## Strings -/

theorem fourHex?_control {c : Char} (h : c.toNat < 0x20) :
    fourHex? '0' '0' (Text.hexDigit (c.toNat / 16)) (Text.hexDigit (c.toNat % 16)) =
      some c.toNat := by
  have hzero : Text.hexValue? '0' = some 0 := rfl
  simp only [fourHex?, hzero, Text.hexValue?_hexDigit (show c.toNat / 16 < 16 by omega),
    Text.hexValue?_hexDigit (show c.toNat % 16 < 16 by omega), Option.bind_eq_bind,
    Option.bind_some, Option.pure_def, Option.some.injEq]
  omega

/-- A character reads back from the way in which it is written. -/
theorem stringRest?_escapeChar (c : Char) (units : List Unit16) (cs : List Char) :
    stringRest? units (escapeChar c ++ cs) = stringRest? (.char c :: units) cs := by
  unfold escapeChar
  split
  iterate 7 rfl
  · next hquote hslash _ _ _ _ _ =>
    split
    · next h =>
      have hpush : Unit16.push units c.toNat = .char c :: units := by
        unfold Unit16.push
        rw [if_neg (by omega), if_neg (by omega), Char.ofNat_toNat]
      simp only [List.cons_append, List.nil_append, stringRest?, fourHex?_control h, hpush]
    · next h =>
      rw [List.cons_append, List.nil_append, stringRest?.eq_def]
      split
      · next heq => cases heq
      · next heq => exact absurd (List.cons.inj heq).1 hquote
      · next heq => exact absurd (List.cons.inj heq).1 hslash
      · next heq => exact absurd (List.cons.inj heq).1 hslash
      · next heq =>
        obtain ⟨rfl, rfl⟩ := List.cons.inj heq
        rw [if_neg h]

theorem stringRest?_escaped (cs : List Char) (units : List Unit16) (rest : List Char) :
    stringRest? units (cs.flatMap escapeChar ++ '"' :: rest) =
      some (Unit16.text? ((cs.map .char).reverse ++ units), rest) := by
  induction cs generalizing units with
  | nil => rw [List.flatMap_nil, List.nil_append, stringRest?]; rfl
  | cons c cs ih =>
    rw [List.flatMap_cons, List.append_assoc, stringRest?_escapeChar, ih, List.map_cons,
      List.reverse_cons, List.append_assoc, List.singleton_append]

theorem foldl_chars (cs tail : List Char) : (cs.map Unit16.char).reverse.foldl
    (fun chars unit => match chars, unit with
      | some cs, .char c => some (c :: cs)
      | _, _ => none) (some tail) = some (cs ++ tail) := by
  induction cs generalizing tail with
  | nil => rfl
  | cons c cs ih => simp [ih]

theorem text?_chars (cs : List Char) :
    Unit16.text? (cs.map .char).reverse = some (String.ofList cs) :=
  (congrArg (Option.map String.ofList) (foldl_chars cs [])).trans (by simp)

/-- A string reads back after its opening quote. -/
theorem stringRest?_quote (s : String) (rest : List Char) :
    stringRest? [] (s.toList.flatMap escapeChar ++ '"' :: rest) = some (some s, rest) := by
  rw [stringRest?_escaped, List.append_nil, text?_chars, String.ofList_toList]

theorem toList_quote (s : String) :
    (quote s).toList = '"' :: (s.toList.flatMap escapeChar ++ ['"']) := by
  simp [quote]

/-! ## Values -/

mutual

/-- A value that a text holds in full: no number that is not an integer, and no broken text. -/
def isExact : Json → Bool
  | .inexact | .unreadable => false
  | .arr xs => areExact xs
  | .obj es => entriesAreExact es
  | .null | .bool _ | .int _ | .str _ => true

/-- Each of the values is exact. -/
def areExact : List Json → Bool
  | [] => true
  | x :: xs => isExact x && areExact xs

/-- The value of each entry is exact. -/
def entriesAreExact : List (String × Json) → Bool
  | [] => true
  | (_, x) :: es => isExact x && entriesAreExact es

end

theorem skipBlanks_cons {c : Char} {cs : List Char} (h : c ≠ ' ' ∧ c ≠ '\n' ∧ c ≠ '\r' ∧ c ≠ '\t') :
    skipBlanks (c :: cs) = c :: cs := by
  simp [skipBlanks, h]

theorem afterWord?_append (word : String) (cs : List Char) :
    Text.afterWord? word (word.toList ++ cs) = some cs := by
  simp [Text.afterWord?]

/-- What is written begins with neither a blank nor a closing bracket. -/
theorem compact_head (x : Json) : ∃ c cs, x.compact.toList = c :: cs ∧
    (c ≠ ' ' ∧ c ≠ '\n' ∧ c ≠ '\r' ∧ c ≠ '\t') ∧ c ≠ ']' := by
  have hdigit : ∀ {c : Char}, Text.isDigit c = true →
      (c ≠ ' ' ∧ c ≠ '\n' ∧ c ≠ '\r' ∧ c ≠ '\t') ∧ c ≠ ']' := by
    intro c hc
    refine ⟨⟨?_, ?_, ?_, ?_⟩, ?_⟩ <;> (rintro rfl; exact absurd hc (by decide))
  cases x with
  | null => exact ⟨'n', _, by simp [compact]; rfl, by decide⟩
  | bool b => cases b with
    | true => exact ⟨'t', _, by simp [compact]; rfl, by decide⟩
    | false => exact ⟨'f', _, by simp [compact]; rfl, by decide⟩
  | int n =>
    obtain ⟨c, cs, hn⟩ := List.exists_cons_of_length_pos (@Nat.length_toDigits_pos 10 n.toNat)
    rw [compact, Int.toString_eq_repr, Int.repr_eq_if]
    split
    · exact ⟨c, cs, by simp [Nat.repr, hn],
        hdigit (Text.isDigit_of_mem_toDigits (hn ▸ List.mem_cons_self))⟩
    · exact ⟨'-', _, by simp [Nat.repr]; rfl, by decide⟩
  | inexact => exact ⟨'0', _, by simp [compact]; rfl, by decide⟩
  | str s => exact ⟨'"', _, by rw [compact, toList_quote], by decide⟩
  | arr xs => exact ⟨'[', _, by simp [compact]; rfl, by decide⟩
  | obj es => exact ⟨'\x7b', _, by simp [compact]; rfl, by decide⟩
  | unreadable => exact ⟨'"', _, by simp [compact]; rfl, by decide⟩

theorem length_compact_pos (x : Json) : 0 < x.compact.toList.length := by
  obtain ⟨c, cs, h, -⟩ := compact_head x
  simp [h]

/-- The elements of a list with the commas between them. -/
theorem toList_compactElements (x : Json) (xs : List Json) :
    (compactElements "," (x :: xs)).toList = ',' :: (compactElements "" (x :: xs)).toList := by
  simp [compactElements]

theorem toList_compactEntries (e : String × Json) (es : List (String × Json)) :
    (compactEntries "," (e :: es)).toList = ',' :: (compactEntries "" (e :: es)).toList := by
  simp [compactEntries]

/-- Written values are read back with so much fuel, whatever follows them. -/
def ReadsValues (fuel : Nat) : Prop := ∀ (x : Json) (rest : List Char), x.isExact = true →
  EndsNumber rest → 2 * x.compact.toList.length ≤ fuel →
    value? fuel (x.compact.toList ++ rest) = some (x, rest)

/-- The written elements of a list are read back with so much fuel. -/
def ReadsElements (fuel : Nat) : Prop := ∀ (x : Json) (xs : List Json) (rest : List Char),
  areExact (x :: xs) = true → 2 * (compactElements "" (x :: xs)).toList.length < fuel →
    elements? fuel ((compactElements "" (x :: xs)).toList ++ ']' :: rest) = some (x :: xs, rest)

/-- The written entries of an object are read back with so much fuel. -/
def ReadsEntries (fuel : Nat) : Prop := ∀ (e : String × Json) (es : List (String × Json))
  (rest : List Char), entriesAreExact (e :: es) = true →
  2 * (compactEntries "" (e :: es)).toList.length < fuel →
    entries? fuel ((compactEntries "" (e :: es)).toList ++ '\x7d' :: rest) =
      some (some (e :: es), rest)

variable {fuel : Nat}

theorem value?_int (n : Int) (hrest : EndsNumber rest) :
    value? (fuel + 1) ((toString n).toList ++ rest) = some (.int n, rest) := by
  have hread := number?_toString n hrest
  obtain ⟨c, cs, hn, hc⟩ : ∃ c cs, (toString n).toList = c :: cs ∧
      (c = '-' ∨ Text.isDigit c = true) := by
    rw [Int.toString_eq_repr, Int.repr_eq_if]
    obtain ⟨c, cs, hn⟩ := List.exists_cons_of_length_pos (@Nat.length_toDigits_pos 10 n.toNat)
    split
    · exact ⟨c, cs, by simp [Nat.repr, hn],
        Or.inr (Text.isDigit_of_mem_toDigits (hn ▸ List.mem_cons_self))⟩
    · exact ⟨'-', _, by simp [Nat.repr]; rfl, Or.inl rfl⟩
  rw [hn, List.cons_append] at hread ⊢
  have hne : ∀ d ∈ [' ', '\n', '\r', '\t', 'n', 't', 'f', '"', '[', '\x7b'], c ≠ d := by
    rintro d hd rfl
    revert hd
    rcases hc with rfl | hc
    · decide
    · intro hd
      fin_cases hd <;> exact absurd hc (by decide)
  simp only [List.mem_cons, List.not_mem_nil, or_false, forall_eq_or_imp, forall_eq] at hne
  obtain ⟨h₁, h₂, h₃, h₄, h₅, h₆, h₇, h₈, h₉, h₁₀⟩ := hne
  rw [value?, skipBlanks_cons ⟨h₁, h₂, h₃, h₄⟩]
  split <;> first | exact hread | next h => simp_all

theorem value?_step (helements : ReadsElements fuel) (hentries : ReadsEntries fuel) :
    ReadsValues (fuel + 1) := by
  intro x rest hx hrest hfuel
  cases x with
  | null =>
    have h : "null".toList = 'n' :: "ull".toList := by decide
    rw [compact, h, List.cons_append, value?, skipBlanks_cons (by decide)]
    simp only [afterWord?_append, Option.map_some]
  | bool b =>
    cases b with
    | true =>
      have h : "true".toList = 't' :: "rue".toList := by decide
      rw [compact, h, List.cons_append, value?, skipBlanks_cons (by decide)]
      simp only [afterWord?_append, Option.map_some]
    | false =>
      have h : "false".toList = 'f' :: "alse".toList := by decide
      rw [compact, h, List.cons_append, value?, skipBlanks_cons (by decide)]
      simp only [afterWord?_append, Option.map_some]
  | int n => exact value?_int n hrest
  | str s =>
    rw [compact, toList_quote, List.cons_append, value?, skipBlanks_cons (by decide)]
    simp only [List.append_assoc, List.singleton_append, stringRest?_quote, Option.map_some,
      Option.elim_some]
  | arr xs =>
    cases xs with
    | nil => simp [compact, compactElements, value?, skipBlanks]
    | cons x xs =>
      obtain ⟨c, cs, hhead, hblank, hclose⟩ := compact_head x
      have hlist : (compactElements "" (x :: xs)).toList =
          c :: (cs ++ (compactElements "," xs).toList) := by simp [compactElements, hhead]
      have hread := helements x xs rest hx (by simp [compact] at hfuel; omega)
      rw [hlist, List.cons_append] at hread
      have htext : (compact (.arr (x :: xs))).toList ++ rest =
          '[' :: c :: (cs ++ (compactElements "," xs).toList ++ ']' :: rest) := by
        simp [compact, hlist]
      rw [htext, value?, skipBlanks_cons (by decide)]
      simp only [skipBlanks_cons hblank]
      split
      · next h => exact absurd (List.cons.inj h).1 hclose
      · rw [hread, Option.map_some]
  | obj es =>
    cases es with
    | nil => simp [compact, compactEntries, value?, skipBlanks]
    | cons e es =>
      have hkey : ∃ cs, (compactEntries "" (e :: es)).toList = '"' :: cs :=
        ⟨_, by simp [compactEntries, toList_quote]; rfl⟩
      obtain ⟨cs, hlist⟩ := hkey
      have hread := hentries e es rest hx (by simp [compact] at hfuel; omega)
      rw [hlist, List.cons_append] at hread
      have htext : (compact (.obj (e :: es))).toList ++ rest =
          '\x7b' :: '"' :: (cs ++ '\x7d' :: rest) := by
        simp [compact, hlist]
      rw [htext, value?, skipBlanks_cons (by decide)]
      simp only [skipBlanks_cons (show '"' ≠ ' ' ∧ '"' ≠ '\n' ∧ '"' ≠ '\r' ∧ '"' ≠ '\t' by decide)]
      split
      · next h => exact absurd (List.cons.inj h).1 (by decide)
      · rw [hread, Option.map_some, Option.elim_some]
  | inexact => cases hx
  | unreadable => cases hx

theorem elements?_step (hvalues : ReadsValues fuel) (helements : ReadsElements fuel) :
    ReadsElements (fuel + 1) := by
  intro x xs rest hx hfuel
  rw [areExact, Bool.and_eq_true] at hx
  cases xs with
  | nil =>
    have hlist : (compactElements "" [x]).toList = x.compact.toList := by simp [compactElements]
    rw [hlist] at hfuel ⊢
    rw [elements?, hvalues x _ hx.1 (.cons (by decide)) (by omega)]
    simp only [skipBlanks_cons (show ']' ≠ ' ' ∧ ']' ≠ '\n' ∧ ']' ≠ '\r' ∧ ']' ≠ '\t' by decide)]
  | cons y ys =>
    have hlist : (compactElements "" (x :: y :: ys)).toList =
        x.compact.toList ++ ',' :: (compactElements "" (y :: ys)).toList := by
      rw [compactElements, ← toList_compactElements]
      simp
    rw [hlist] at hfuel ⊢
    simp only [List.length_append, List.length_cons] at hfuel
    have hread := helements y ys rest hx.2 (by omega)
    rw [List.append_assoc, List.cons_append, elements?,
      hvalues x _ hx.1 (.cons (by decide)) (by omega)]
    simp only [skipBlanks_cons (show ',' ≠ ' ' ∧ ',' ≠ '\n' ∧ ',' ≠ '\r' ∧ ',' ≠ '\t' by decide)]
    rw [hread, Option.map_some]

/-- A key, its colon, and the value that the rest of the object follows. -/
theorem entries?_entry (hvalues : ReadsValues fuel) {k : String} {x : Json}
    (hx : x.isExact = true) {tail : List Char} (htail : EndsNumber tail)
    (hlen : 2 * x.compact.toList.length ≤ fuel) :
    entries? (fuel + 1) ((quote k).toList ++ ':' :: (x.compact.toList ++ tail)) =
      match skipBlanks tail with
      | '\x7d' :: rest => some (some [(k, x)], rest)
      | ',' :: rest =>
        (entries? fuel rest).map fun (entries, rest) => (entries.map ((k, x) :: ·), rest)
      | _ => none := by
  rw [toList_quote, List.cons_append, entries?, skipBlanks_cons (by decide)]
  simp only [List.append_assoc, List.singleton_append, stringRest?_quote]
  simp only [skipBlanks_cons (show ':' ≠ ' ' ∧ ':' ≠ '\n' ∧ ':' ≠ '\r' ∧ ':' ≠ '\t' by decide),
    hvalues x tail hx htail hlen]
  rfl

theorem entries?_step (hvalues : ReadsValues fuel) (hentries : ReadsEntries fuel) :
    ReadsEntries (fuel + 1) := by
  intro e es rest hx hfuel
  obtain ⟨k, x⟩ := e
  rw [entriesAreExact, Bool.and_eq_true] at hx
  cases es with
  | nil =>
    have hlist : (compactEntries "" [(k, x)]).toList ++ '\x7d' :: rest =
        (quote k).toList ++ ':' :: (x.compact.toList ++ '\x7d' :: rest) := by
      simp [compactEntries]
    have hlen : (compactEntries "" [(k, x)]).toList.length =
        (quote k).toList.length + (x.compact.toList.length + 1) := by
      simp [compactEntries]
    rw [hlist, entries?_entry hvalues hx.1 (.cons (by decide)) (by omega),
      skipBlanks_cons (by decide)]
    rfl
  | cons e es =>
    have hlist : (compactEntries "" ((k, x) :: e :: es)).toList = (quote k).toList ++ ':' ::
        (x.compact.toList ++ ',' :: (compactEntries "" (e :: es)).toList) := by
      rw [compactEntries, ← toList_compactEntries]
      simp
    rw [hlist] at hfuel ⊢
    simp only [List.length_append, List.length_cons] at hfuel
    have hread := hentries e es rest hx.2 (by omega)
    simp only [List.append_assoc, List.cons_append]
    rw [entries?_entry hvalues hx.1 (.cons (by decide)) (by omega), skipBlanks_cons (by decide)]
    simp only [hread, Option.map_some]

theorem reads_compact (fuel : Nat) : ReadsValues fuel ∧ ReadsElements fuel ∧ ReadsEntries fuel := by
  induction fuel with
  | zero =>
    refine ⟨fun x rest _ _ h => ?_, fun x xs rest _ h => ?_, fun e es rest _ h => ?_⟩
    · have := length_compact_pos x
      omega
    · omega
    · omega
  | succ fuel ih =>
    obtain ⟨hvalues, helements, hentries⟩ := ih
    exact ⟨value?_step helements hentries, elements?_step hvalues helements,
      entries?_step hvalues hentries⟩

/-- A value that is written on one line is read back, whatever follows it. -/
theorem value?_compact {x : Json} (hx : x.isExact = true) (hrest : EndsNumber rest)
    (hfuel : 2 * x.compact.toList.length ≤ fuel) :
    value? fuel (x.compact.toList ++ rest) = some (x, rest) :=
  (reads_compact fuel).1 x rest hx hrest hfuel

/-- The text of a value is read as the value. -/
theorem parse?_compact {x : Json} (hx : x.isExact = true) : parse? x.compact = some x := by
  have hread := value?_compact hx .nil (show _ ≤ 2 * x.compact.toList.length + 2 by omega)
  rw [List.append_nil] at hread
  simp [parse?, hread, skipBlanks, guard]

end Json

end NetPrep
