import ResidueMachine.Text.WhiteSpace

/-!
# Lines of a text

A text is cut into lines after each line end: a carriage return with a line feed, or one of them
alone, a vertical tab or a form feed.  A line keeps its end.  The texts of diagnostics are ASCII,
so offsets count characters and bytes alike.

* `lineAt` : the line that an offset belongs to;
* `TextLine.widths` : the widths of its columns on the screen.
-/

namespace ResidueMachine

/-- A line of a text. -/
structure TextLine where
  /-- The 1-based number of the line. -/
  number : Nat
  /-- The offset of its first character. -/
  start : Nat
  /-- Its characters, with its end. -/
  text : List Char
  deriving DecidableEq

/-- The characters that end a line. -/
def isLineEnd (c : Char) : Bool :=
  c = '\r' || c = '\n' || c = '\x0b' || c = '\x0c'

/-- The end of a line in front of a text. -/
def lineEnd : List Char → List Char
  | '\r' :: '\n' :: _ => ['\r', '\n']
  | c :: _ => [c]
  | [] => []

/-- The first line of a text, with its end. -/
def firstLine (text : List Char) : List Char :=
  text.takeWhile (!isLineEnd ·) ++ lineEnd (text.dropWhile (!isLineEnd ·))

theorem firstLine_ne_nil {text : List Char} (h : text ≠ []) : firstLine text ≠ [] := by
  obtain ⟨c, rest, rfl⟩ := List.exists_cons_of_ne_nil h
  by_cases hc : isLineEnd c = true
  · simp only [firstLine, List.takeWhile_cons, List.dropWhile_cons, hc]
    simp only [Bool.not_true, Bool.false_eq_true, if_false, List.nil_append]
    rw [lineEnd.eq_def]
    split <;> simp_all
  · simp [firstLine, hc]

/-- The line of an offset in a text that starts with the line of a given number and offset.  An
offset past the last line belongs to the last line. -/
def lineAtFrom (number start : Nat) (text : List Char) (offset : Nat) : TextLine :=
  let line := firstLine text
  let rest := text.drop line.length
  if rest = [] ∨ offset < start + line.length then ⟨number, start, line⟩
  else lineAtFrom (number + 1) (start + line.length) rest offset
termination_by text.length
decreasing_by
  rename_i h
  have hrest : text.drop (firstLine text).length ≠ [] := fun h' => h (.inl h')
  have htext : text ≠ [] := by
    rintro rfl
    simp at hrest
  have hline := List.length_pos_iff.2 (firstLine_ne_nil htext)
  have := List.length_pos_iff.2 htext
  simp only [List.length_drop]
  omega

/-- The line that an offset belongs to. -/
def lineAt (text : List Char) (offset : Nat) : TextLine :=
  lineAtFrom 1 0 text offset

/-- The width of columns that stand side by side. -/
def totalWidth (widths : List Nat) : Nat :=
  widths.foldr (· + ·) 0

namespace TextLine

/-- The number of characters, the line end included. -/
def length (l : TextLine) : Nat :=
  l.text.length

/-- The offset after the last character. -/
def stop (l : TextLine) : Nat :=
  l.start + l.length

/-- The characters without the white space at the end. -/
def visible (l : TextLine) : List Char :=
  trimEnd l.text

/-- The width of a character at a column.  A tab reaches to the next multiple of four. -/
def charWidth (c : Char) (column : Nat) : Nat :=
  if c = '\t' then 4 - column % 4 else 1

/-- The widths of the first `count` columns.  Past the visible characters columns are one wide. -/
def widths (l : TextLine) (count : Nat) : List Nat :=
  let drawn := l.visible.zipIdx.map fun (c, column) => charWidth c column
  (drawn ++ List.replicate (count - drawn.length) 1).take count

end TextLine

end ResidueMachine
