import Mathlib.Data.List.Nodup
import ExprLang.Diagnostic.Excerpt
import ExprLang.Proofs.Token.Tiling

/-!
# What an excerpt shows

An excerpt around one line has that line, the line before it and the line behind it, as far as there
are such lines. Each line stands behind its number, and the numbers end in one column. An arrow
stands before the line that the excerpt is about.

## Implementation notes

The rows are given for any text in place of the line that the excerpt is about. The same excerpt with
a mark and without one then differ in nothing but that text.
-/

namespace ExprLang

namespace Excerpt

/-- The number of the first line that is shown. -/
def firstNumber (marked : Nat) : Nat :=
  max 1 (marked - 1)

/-- The number of the last line that is shown, out of a count of lines. -/
def lastNumber (count marked : Nat) : Nat :=
  min count (marked + 1)

/-- The numbers of the lines that are shown. -/
def numbers (count marked : Nat) : List Nat :=
  List.range' (firstNumber marked) (lastNumber count marked + 1 - firstNumber marked)

/-- A number at the right end of a column. -/
def label (width number : Nat) : String :=
  String.ofList ((toString number).toList.leftpad width ' ')

/-- The width of the column of numbers. -/
def width (count marked : Nat) : Nat :=
  (toString (lastNumber count marked)).length

/-- One row: an arrow or a blank, the number of a line, and the line, with a text in place of the line
that the excerpt is about. -/
def row (lines : List (List Char)) (marked : Nat) (text : String) (number : Nat) : String :=
  (if number = marked then "-> " else "   ") ++ label (width lines.length marked) number ++ ". " ++
    if number = marked then text else String.ofList (lines.getD (number - 1) [])

/-- All rows of an excerpt. -/
def rows (lines : List (List Char)) (marked : Nat) (text : String) : List String :=
  (numbers lines.length marked).map (row lines marked text)

variable {lines : List (List Char)} {count marked number : Nat}

theorem mem_numbers :
    number ∈ numbers count marked ↔
      firstNumber marked ≤ number ∧ number ≤ lastNumber count marked := by
  rw [numbers, List.mem_range'_1]
  omega

theorem marked_mem_numbers (h₁ : 1 ≤ marked) (h : marked ≤ count) :
    marked ∈ numbers count marked := by
  rw [mem_numbers, firstNumber, lastNumber]
  omega

/-- The numbers end in one column. -/
theorem length_label (h : number ∈ numbers count marked) :
    (label (width count marked) number).length = width count marked := by
  have hle : number ≤ lastNumber count marked := (mem_numbers.mp h).2
  have hrepr : number.repr.length ≤ (lastNumber count marked).repr.length := by
    rw [Nat.length_repr_le_iff Nat.length_repr_pos]
    exact Nat.lt_of_le_of_lt hle ((Nat.length_repr_le_iff Nat.length_repr_pos).mp (Nat.le_refl _))
  rw [label, String.length_ofList, List.length_leftpad, String.length_toList]
  exact Nat.max_eq_left hrepr

/-- A row stands between two texts that do not depend on it. -/
theorem exists_intercalate (separator : String) (front behind : List String) :
    ∃ before after, ∀ text,
      separator.intercalate (front ++ text :: behind) = before ++ text ++ after := by
  induction front with
  | nil =>
      cases behind with
      | nil => exact ⟨"", "", by simp⟩
      | cons next rest =>
          exact ⟨"", separator ++ separator.intercalate (next :: rest),
            by simp [String.append_assoc]⟩
  | cons first front ih =>
      obtain ⟨before, after, h⟩ := ih
      refine ⟨first ++ separator ++ before, after, ?_⟩
      intro text
      rw [List.cons_append, String.intercalate_cons_of_ne_nil (by simp), h]
      simp only [String.append_assoc]

/-- The text in place of the line that an excerpt is about stands between two texts that do not depend
on it. -/
theorem exists_intercalate_rows (h : marked ∈ numbers lines.length marked) :
    ∃ before after, ∀ text,
      "\n".intercalate (rows lines marked text) = before ++ text ++ after := by
  obtain ⟨front, behind, hsplit⟩ := List.append_of_mem h
  have hnodup : (front ++ marked :: behind).Nodup := by
    rw [← hsplit]
    exact List.nodup_range'
  have hother : ∀ text, ∀ k ∈ front ++ behind, row lines marked text k = row lines marked "" k := by
    intro text k hk
    have hne : k ≠ marked := by
      rintro rfl
      rw [List.nodup_middle, List.nodup_cons] at hnodup
      exact hnodup.1 hk
    simp only [row, hne, if_false]
  have hrows : ∀ text, rows lines marked text =
      front.map (row lines marked "") ++ row lines marked text marked ::
        behind.map (row lines marked "") := by
    intro text
    rw [rows, hsplit, List.map_append, List.map_cons]
    congr 1
    · exact List.map_congr_left fun k hk => hother text k (List.mem_append_left _ hk)
    · congr 1
      exact List.map_congr_left fun k hk => hother text k (List.mem_append_right _ hk)
  obtain ⟨before, after, hjoin⟩ := exists_intercalate "\n" (front.map (row lines marked ""))
    (behind.map (row lines marked ""))
  refine ⟨before ++ ("-> " ++ label (width lines.length marked) marked ++ ". "), after, ?_⟩
  intro text
  rw [hrows, hjoin]
  simp only [row, if_true, String.append_assoc]

/-! ### Rendering -/

variable {n : Notice} {mark : Mark} {start stop : Nat}

/-- The lines that are shown are those whose numbers are shown. -/
theorem shownLines_eq (hb : n.linesBefore = 1) (ha : n.linesAfter = 1) (h₁ : 1 ≤ marked)
    (hm : marked ≤ lines.length) :
    n.shownLines lines (Span.onLine marked start stop) =
      (numbers lines.length marked).map fun number => lines.getD (number - 1) [] := by
  have hfrom : Text.bound lines.length (max 0 ((marked : Int) - 1 - 1)) = firstNumber marked - 1 := by
    simp only [Text.bound, firstNumber]
    split <;> omega
  have hto : Text.bound lines.length ((marked : Int) + 1) = lastNumber lines.length marked := by
    simp only [Text.bound, lastNumber]
    split <;> omega
  have hfirst : 1 ≤ firstNumber marked := Nat.le_max_left _ _
  have hlast : lastNumber lines.length marked ≤ lines.length := Nat.min_le_left _ _
  simp only [Notice.shownLines, hb, ha, Span.onLine, Text.slice, Text.before, hfrom, hto, numbers]
  apply List.ext_getElem
  · simp only [List.length_drop, List.length_take, List.length_map, List.length_range']
    omega
  · intro i hi hi'
    simp only [List.length_drop, List.length_take] at hi
    have hplace : firstNumber marked - 1 + i = firstNumber marked + 1 * i - 1 := by omega
    rw [List.getElem_drop, List.getElem_take, List.getElem_map, List.getElem_range',
      List.getElem_eq_getD [], hplace]

/-- Lines are numbered one by one. -/
theorem numberedLines_map (mark : Mark) (span : Span) (widest : Int) (f : Nat → List Char)
    (first count : Nat) :
    Notice.numberedLines mark span widest first ((List.range' first count).map f) =
      (List.range' first count).map fun number : Nat =>
        Notice.numberedLine mark span widest number (f number) := by
  induction count generalizing first with
  | zero => rfl
  | succ count ih =>
      rw [List.range'_succ, List.map_cons, List.map_cons, Notice.numberedLines]
      exact congrArg _ (ih (first + 1))

theorem paddedNumber_eq_label (widest number : Nat) :
    Notice.paddedNumber widest number = label (toString widest).length number := by
  rw [label, List.leftpad, String.ofList_append, String.length_toList, String.ofList_toList]
  rfl

/-- A line with a mark around the characters from one column up to another. -/
def markedText (mark : Mark) (start stop : Nat) (line : List Char) : String :=
  String.ofList (line.take start) ++ mark.around (String.ofList ((line.take stop).drop start)) ++
    String.ofList (line.drop stop)

theorem markedLine_eq {line : List Char} (hstart : start ≤ stop) (hstop : stop ≤ line.length) :
    Notice.markedLine mark (Span.onLine marked start stop) marked line =
      markedText mark start stop line := by
  have hsingle : (Span.onLine marked start stop).isMultiline = false := by
    simp [Span.isMultiline, Span.onLine]
  rw [Notice.markedLine, hsingle, markedText]
  simp [Span.onLine, Text.before, Text.since, Text.slice, Text.bound_natCast hstop,
    Text.bound_natCast (hstart.trans hstop)]

theorem numberedLine_eq_row {line : List Char} (hl : lines.getD (marked - 1) [] = line)
    (hstart : start ≤ stop) (hstop : stop ≤ line.length) (number : Nat) :
    Notice.numberedLine mark (Span.onLine marked start stop) (lastNumber lines.length marked) number
        (lines.getD (number - 1) []) =
      row lines marked (markedText mark start stop line) number := by
  rw [Notice.numberedLine, paddedNumber_eq_label, row, width]
  by_cases h : number = marked
  · subst h
    rw [if_pos ⟨Int.le_refl _, Int.le_refl _⟩, if_pos rfl, if_pos rfl, hl,
      markedLine_eq hstart hstop]
    simp only [String.append_assoc]
  · have hoff : ¬ ((Span.onLine marked start stop).startLine ≤ (number : Int) ∧
        (number : Int) ≤ (Span.onLine marked start stop).endLine) := by
      simp only [Span.onLine]
      omega
    rw [if_neg hoff, if_neg h, if_neg h]
    simp only [String.append_assoc]

/-- A notice about a part of one line shows the lines around it, and that part in its mark. -/
theorem render_eq {program : String} {line : List Char}
    (hb : n.linesBefore = 1) (ha : n.linesAfter = 1) (h₁ : 1 ≤ marked)
    (hl : (Text.lines program.toList)[marked - 1]? = some line) (hstart : start ≤ stop)
    (hstop : stop ≤ line.length) :
    n.render program (Span.onLine marked start stop) =
      n.heading ++ ": " ++ n.lead ++ "\n" ++
        "\n".intercalate (rows (Text.lines program.toList) marked
          (markedText n.mark start stop line)) ++
        (if n.trailer.isEmpty then "" else "\n" ++ n.trailer) := by
  have hm : marked ≤ (Text.lines program.toList).length := by
    obtain ⟨hlt, -⟩ := List.getElem?_eq_some_iff.mp hl
    omega
  have hline : (Text.lines program.toList).getD (marked - 1) [] = line := by
    rw [List.getD_eq_getElem?_getD, hl, Option.getD_some]
  have hfirst : n.firstNumber (Span.onLine marked start stop) = firstNumber marked := by
    simp only [Notice.firstNumber, hb, Span.onLine, firstNumber]
    omega
  have hwidest : ((firstNumber marked : Nat) : Int) +
      ((numbers (Text.lines program.toList).length marked).length : Nat) - 1 =
        lastNumber (Text.lines program.toList).length marked := by
    rw [numbers, List.length_range', firstNumber, lastNumber]
    omega
  simp only [Notice.render, shownLines_eq hb ha h₁ hm, List.length_map, hfirst, hwidest]
  rw [numbers, numberedLines_map]
  simp only [numberedLine_eq_row hline hstart hstop]
  rfl

end Excerpt

end ExprLang
