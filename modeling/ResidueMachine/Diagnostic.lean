import ResidueMachine.Diagnostic.Ink
import ResidueMachine.Diagnostic.Place
import ResidueMachine.Diagnostic.Remark
import ResidueMachine.Diagnostic.TextLine
import ResidueMachine.Source
import ResidueMachine.Text.Padding

/-!
# Diagnostics

A `Diagnostic` shows a failure in the text that it comes from: a heading, the place, the lines
around the marked range with a remark below it, and a hint.

* `Diagnostic.ofFailure` : the diagnostic of a failure of loaded code;
* `Diagnostic.rows` : its drawing;
* `Diagnostic.write` : the drawing as text, with or without colours.

A range within one line is underlined.  Of a longer range the first and the last line are shown,
with an arrow into each.

The text shown may be shorter than the one that the range was found in.  A mark stands in the line
that holds the end of the range, so there is no mark, and no remark, when the range ends past the
text.
-/

namespace ResidueMachine

/-- A failure to be shown in a text. -/
structure Diagnostic where
  /-- The failure. -/
  failure : Failure
  /-- The marked range of the text. -/
  span : Span
  /-- The name of the text. -/
  name : String
  /-- The text. -/
  text : List Char

namespace Diagnostic

/-- The diagnostic of a failure of loaded code, in a text with a name. -/
def ofFailure (failure : Failure) (loaded : LoadedCode) (source : Source) : Diagnostic where
  failure := failure
  span := failureSpan failure loaded source.text.toList
  name := source.name
  text := source.text.toList

variable (d : Diagnostic)

/-! ### Lines and columns -/

/-- The line in which the range starts. -/
def startLine : TextLine :=
  lineAt d.text d.span.start

/-- The line in which the range ends.  An empty range ends where it starts. -/
def endLine : TextLine :=
  if d.span.start < d.span.stop then lineAt d.text (d.span.stop - 1) else d.startLine

/-- The number of digits of the largest line number. -/
def numberWidth : Nat :=
  (toString d.endLine.number).length

/-- The range starts in the text, and its last character is at most one past the end. -/
def IsInText : Prop :=
  d.span.start ≤ d.text.length ∧
    (d.span.start < d.span.stop → d.span.stop - 1 ≤ d.text.length)

instance : Decidable d.IsInText :=
  inferInstanceAs (Decidable (_ ∧ _))

/-! ### Pieces -/

/-- A piece of marked text or of a mark. -/
def mark (text : String) : Piece :=
  .inked .mark text

/-- A mark of several columns, each a piece of its own. -/
def bar (width : Nat) : Row :=
  List.replicate width (mark "─")

/-- The gutter of a row with a line number. -/
def numbered (number : Nat) : Row :=
  [.plain " ", .inked .frame (alignRight d.numberWidth (toString number) ++ " │"), .plain " "]

/-- The gutter of a row without a line number. -/
def unnumbered (rule : String) : Row :=
  [.plain " ", .inked .gutter (blanks (d.numberWidth + 1) ++ rule), .plain " "]

/-- The visible text of a line, each screen column a piece of its own. -/
def drawnText (l : TextLine) : Row :=
  l.visible.zipIdx.flatMap fun (c, column) =>
    let offset := l.start + column
    let ink := if d.span.start ≤ offset ∧ offset < d.span.stop then Ink.mark else .text
    let shown := if isWhiteSpace c then " " else String.singleton c
    List.replicate (TextLine.charWidth c column) (.inked ink shown)

/-- Screen columns of the given widths, without ink. -/
def gap (widths : List Nat) : Row :=
  [.plain (blanks (totalWidth widths))]

/-! ### A range within one line -/

/-- The line below the text: the range underlined, with a branch in its middle. -/
def underline (l : TextLine) : Row :=
  let first := d.span.start - l.start
  let last := d.span.stop - l.start
  let middle := (first + last) / 2
  (l.widths (last + 2)).zipIdx.flatMap fun (width, column) =>
    if column = middle then
      if first = last then mark "│" :: List.replicate (width - 1) (mark " ")
      else mark "┬" :: bar (width - 1)
    else if first ≤ column ∧ column < last then bar width
    else gap [width]

/-- The line from the branch to the remark. -/
def pointer (l : TextLine) : Row :=
  let first := d.span.start - l.start
  let last := d.span.stop - l.start
  let middle := (first + last) / 2
  let widths := l.widths (last + 2)
  gap (widths.take middle) ++ [mark "╰"] ++ bar (totalWidth (widths.drop middle) - 1)

/-- The rows of a range within one line.  If the range ends past the text, its line is left
out. -/
def singleLine (l : TextLine) : List Row :=
  if l.stop < d.span.stop then [d.unnumbered "│"]
  else
    [d.numbered l.number ++ d.drawnText l,
      d.unnumbered "│" ++ d.underline l,
      d.unnumbered "│" ++ d.pointer l ++ [.plain s!" {d.failure.remark}"]]

/-! ### A range over several lines -/

/-- The arrow into a line, from a corner or a junction. -/
def arrow (corner : String) : Row :=
  [mark corner, mark "─", mark "▶", mark " "]

/-- The row that stands for all lines left out. -/
def ellipsis : Row :=
  d.unnumbered "┆" ++ [mark "┆", .plain "   "]

/-- The last line of a range over several lines, with the remark below it. -/
def lastLine (l : TextLine) : List Row :=
  let widths := l.widths (l.length + 2)
  [d.numbered l.number ++ arrow "├" ++ d.drawnText l,
    d.unnumbered "│" ++ [mark "│", .plain "   "] ++ gap widths,
    d.unnumbered "│" ++ [mark "╰"] ++ bar (3 + totalWidth widths) ++
      [.plain s!" {d.failure.remark}"]]

/-- The rows of a range over several lines.  If the range ends past the text, its last line is left
out as those in between are. -/
def severalLines (first last : TextLine) : List Row :=
  let top := d.numbered first.number ++ arrow "╭" ++ d.drawnText first
  if last.stop < d.span.stop then [top, d.ellipsis]
  else if first.number + 1 < last.number then top :: d.ellipsis :: d.lastLine last
  else top :: d.lastLine last

/-- What stands between the gutter and a hint.  Below a range of several lines that starts with
the second line of the text, its arrow is continued. -/
def hintIndent : Row :=
  if d.startLine.number = d.endLine.number then []
  else if d.startLine.number = 2 ∧ d.span.start = d.startLine.start then
    [mark "│", .plain "   "]
  else [.plain (blanks 4)]

/-! ### The whole drawing -/

/-- The heading. -/
def heading : Row :=
  [.inked .heading s!"[{d.failure.fault.code}] Error:", .plain s!" {d.failure.message}"]

/-- The row with the place. -/
def location : Row :=
  let column := d.span.start - d.startLine.start + 1
  [.plain (blanks (d.numberWidth + 2)), .inked .frame "╭", .inked .frame "─",
    .inked .frame "[", .plain s!" {d.name}:{d.startLine.number}:{column} ", .inked .frame "]"]

/-- The rows of the text. -/
def body : List Row :=
  if d.startLine.number = d.endLine.number then d.singleLine d.startLine
  else d.severalLines d.startLine d.endLine

/-- The rows of the hint, if there is one. -/
def hintRows : List Row :=
  match d.failure.fault.hint? with
  | some hint =>
    let indent := d.unnumbered "│" ++ d.hintIndent
    [indent, indent ++ [.inked .hint "Help", .plain s!": {hint}"]]
  | none => []

/-- The row that closes the frame. -/
def footer : Row :=
  [.inked .frame (String.join (List.replicate (d.numberWidth + 2) "─") ++ "╯")]

/-- The rows of the drawing.  Of a range outside the text only the heading is shown. -/
def rows : List Row :=
  if d.IsInText then
    [d.heading, d.location, [.plain (blanks (d.numberWidth + 2)), .inked .frame "│"]] ++
      d.body ++ d.hintRows ++ [d.footer]
  else [d.heading]

/-- The drawing as text. -/
def write (coloured : Bool) : String :=
  Row.writeAll coloured d.rows

end Diagnostic

end ResidueMachine
