import Mathlib
import NetPrep.Netlist.Dump

/-!
# Printed lines

Below the header, the text of a dump is cut into the lines of the nodes, each with a gap behind it that
opens and closes regions and ends the line. `Printed` says what stands on a line. A row of pieces is
`Laid` if something ends each line.
-/

namespace NetPrep.Dump

/-! ## Lines -/

/-- What stands on the line of a node. -/
structure Printed where
  depth : Nat
  results : List String
  mnemonic : String
  attributes : Option String
  operands : List String
  marks : List String
  types : List String

/-- The text of a line: the results, the operation, and the operands, with commas between them. -/
def Printed.text (p : Printed) : String :=
  String.ofList (List.replicate (2 * p.depth) ' ')
    ++ (if p.results = [] then "" else ", ".intercalate p.results ++ " = ")
    ++ p.mnemonic ++ p.attributes.elim "" (" " ++ ·)
    ++ (if p.operands = [] then "" else " " ++ ", ".intercalate p.operands)
    ++ (if p.marks = [] then "" else " \x7b" ++ ", ".intercalate p.marks ++ "\x7d")
    ++ (if p.types = [] then "" else " : " ++ ", ".intercalate p.types)

/-- A line as it is printed at some depth. -/
def Line.printed (depth : Nat) (l : Line) : Printed where
  depth := depth
  results := l.results.map Label.text
  mnemonic := l.mnemonic
  attributes := l.attributes
  operands := l.operands.map Label.text
  marks := l.marks
  types := l.types

theorem listed_eq (opening : String) (items : List String) :
    listed opening items = if items = [] then "" else opening ++ ", ".intercalate items := by
  simp only [listed, List.isEmpty_iff]

theorem text_line (depth : Nat) (l : Line) :
    (Piece.line depth l).text = (l.printed depth).text := by
  obtain ⟨results, mnemonic, attributes, operands, marks, types⟩ := l
  simp only [Piece.text, Line.text, Printed.text, Line.printed, listed_eq, List.isEmpty_iff,
    List.map_eq_nil_iff, indentation, String.append_assoc]
  cases attributes <;> rfl

/-- The line that a piece is, if it is one. -/
def Piece.printed? : Piece → Option Printed
  | .line depth l => some (l.printed depth)
  | _ => none

/-- The lines among the pieces of a text, from top to bottom. -/
def lines (pieces : List Piece) : List Printed := pieces.filterMap Piece.printed?

theorem lines_flatten (pieces : List (List Piece)) :
    lines pieces.flatten = pieces.flatMap lines := by
  rw [lines, List.filterMap_flatten, List.flatMap_def]
  rfl

/-! ## Gaps

Between two lines stand only blanks, braces and line ends, whatever the nesting. So the text is read as
lines with gaps, and each gap ends its line because a region is opened behind a line, or the line ends. -/

/-- What opens and closes regions and ends lines. -/
def IsGap (text : String) : Prop :=
  ∀ c ∈ text.toList, c = ' ' ∨ c = '\x7b' ∨ c = '\x7d' ∨ c = '\n'

theorem isGap_empty : IsGap "" := by simp [IsGap]

theorem IsGap.append {s t : String} (hs : IsGap s) (ht : IsGap t) : IsGap (s ++ t) := by
  intro c hc
  rw [String.toList_append, List.mem_append] at hc
  exact hc.elim (hs c) (ht c)

theorem isGap_text {p : Piece} (hp : p.printed? = none) : IsGap p.text := by
  have hbrace : ∀ depth, IsGap (Piece.regionClose depth).text := fun depth => by
    refine .append (fun c hc => Or.inl ?_) (by simp [IsGap])
    rw [indentation, String.toList_ofList] at hc
    exact List.eq_of_mem_replicate hc
  cases p with
  | line => cases hp
  | regionOpen => simp [IsGap, Piece.text]
  | regionClose depth => exact hbrace depth
  | lineEnd => simp [IsGap, Piece.text]

/-- Pieces in a row where a region is opened behind each line, or the line ends. -/
inductive Laid : List Piece → Prop where
  | nil : Laid []
  | line {depth : Nat} {l : Line} {next : Piece} {rest : List Piece}
      (h : next = .regionOpen ∨ next = .lineEnd) (hrest : Laid rest) :
      Laid (.line depth l :: next :: rest)
  | other {p : Piece} {rest : List Piece} (h : p.printed? = none) (hrest : Laid rest) :
      Laid (p :: rest)

namespace Laid

variable {ps qs : List Piece}

theorem append (hp : Laid ps) (hq : Laid qs) : Laid (ps ++ qs) := by
  induction hp with
  | nil => exact hq
  | line h _ ih => exact .line h ih
  | other h _ ih => exact .other h ih

theorem flatten {pieces : List (List Piece)} (h : ∀ ps ∈ pieces, Laid ps) :
    Laid pieces.flatten := by
  induction pieces with
  | nil => exact .nil
  | cons ps pieces ih =>
    rw [List.forall_mem_cons] at h
    exact h.1.append (ih h.2)

/-- The pieces of a region. -/
theorem region (h : Laid ps) (depth : Nat) :
    Laid (Piece.regionOpen :: ps ++ [.regionClose depth]) :=
  .other rfl (h.append (.other rfl .nil))

/-- The pieces of a node, with those of its regions. -/
theorem node {regions : List (List Piece)} (depth : Nat) (l : Line)
    (h : ∀ ps ∈ regions, ∃ depth inner, Laid inner ∧
      ps = Piece.regionOpen :: inner ++ [.regionClose depth]) :
    Laid (Piece.line depth l :: regions.flatten ++ [.lineEnd]) := by
  cases regions with
  | nil => exact .line (Or.inr rfl) .nil
  | cons ps regions =>
    rw [List.forall_mem_cons] at h
    obtain ⟨⟨depth', inner, hinner, rfl⟩, hregions⟩ := h
    have hrest : Laid regions.flatten := .flatten fun ps hps => by
      obtain ⟨depth, inner, hinner, rfl⟩ := hregions ps hps
      exact hinner.region depth
    simp only [List.flatten_cons, List.cons_append, List.append_assoc]
    exact .line (Or.inl rfl) (hinner.append (.other rfl (hrest.append (.other rfl .nil))))

/-- A text of such pieces that begins with a line is its lines, each with a gap behind it. -/
theorem exists_gaps (h : Laid ps) : ∃ lead gaps, IsGap lead ∧
    ((∀ p ∈ ps.head?, p.printed?.isSome) → lead = "") ∧ gaps.length = (lines ps).length ∧
      (∀ gap ∈ gaps, IsGap gap ∧ '\n' ∈ gap.toList) ∧
        String.join (ps.map Piece.text) =
          lead ++ String.join (List.zipWith (fun p gap => p.text ++ gap) (lines ps) gaps) := by
  induction h with
  | nil => exact ⟨"", [], isGap_empty, fun _ => rfl, rfl, by simp, rfl⟩
  | @line depth l next rest hnext _ ih =>
    obtain ⟨lead, gaps, hlead, -, hlength, hgaps, hjoin⟩ := ih
    -- What stands up to the next line becomes the gap behind this one.
    have hgap : IsGap (next.text ++ lead) ∧ '\n' ∈ (next.text ++ lead).toList := by
      obtain rfl | rfl := hnext
      all_goals exact ⟨(isGap_text rfl).append hlead, by simp [Piece.text]⟩
    have hlines : lines (.line depth l :: next :: rest) = l.printed depth :: lines rest := by
      obtain rfl | rfl := hnext <;> rfl
    refine ⟨"", (next.text ++ lead) :: gaps, isGap_empty, fun _ => rfl, ?_,
      List.forall_mem_cons.2 ⟨hgap, hgaps⟩, ?_⟩
    · rw [hlines, List.length_cons, List.length_cons, hlength]
    · rw [hlines, List.zipWith_cons_cons, List.map_cons, List.map_cons, String.join_cons,
        String.join_cons, String.join_cons, hjoin, text_line]
      simp only [String.append_assoc, String.empty_append]
  | @other p rest hp _ ih =>
    obtain ⟨lead, gaps, hlead, -, hlength, hgaps, hjoin⟩ := ih
    have hlines : lines (p :: rest) = lines rest := List.filterMap_cons_none hp
    refine ⟨p.text ++ lead, gaps, (isGap_text hp).append hlead, fun hhead => ?_, hlines ▸ hlength,
      hgaps, ?_⟩
    · exact absurd (hhead p rfl) (by simp [hp])
    · rw [hlines, List.map_cons, String.join_cons, hjoin, String.append_assoc]

end Laid

end NetPrep.Dump
