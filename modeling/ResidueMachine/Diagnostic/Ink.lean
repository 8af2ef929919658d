/-!
# Inked pieces of text

A drawing is made of rows, and a row of pieces of text.  A piece may have an ink.  Rows are
written plain, or with each inked piece between the escape sequences of its colour.
-/

namespace ResidueMachine

/-- What a piece of a drawing is for, which decides its colour. -/
inductive Ink where
  /-- The code of the diagnostic. -/
  | heading
  /-- The frame and the line numbers. -/
  | frame
  /-- The gutter of rows without a line number. -/
  | gutter
  /-- Text that is not marked. -/
  | text
  /-- Marked text, and the marks. -/
  | mark
  /-- The word in front of a hint. -/
  | hint
  deriving DecidableEq, Repr

/-- The parameters of the escape sequence that selects the colour. -/
def Ink.selector : Ink → String
  | heading => "31"
  | frame => "38;5;246"
  | gutter => "38;5;240"
  | text => "38;5;249"
  | mark => "38;5;155"
  | hint => "38;5;115"

/-- A piece of text with the ink that it is drawn in, if it has one. -/
structure Piece where
  /-- The text. -/
  text : String
  /-- The ink. -/
  ink? : Option Ink := none
  deriving DecidableEq

/-- The pieces of a row, from the left to the right. -/
abbrev Row := List Piece

namespace Piece

/-- A piece in an ink. -/
def inked (ink : Ink) (text : String) : Piece :=
  ⟨text, some ink⟩

/-- A piece without ink. -/
def plain (text : String) : Piece :=
  ⟨text, none⟩

/-- The piece as it is written, with or without colours. -/
def write (coloured : Bool) (p : Piece) : String :=
  match p.ink?, coloured with
  | some ink, true => s!"\x1b[{ink.selector}m{p.text}\x1b[0m"
  | _, _ => p.text

end Piece

namespace Row

/-- The row as it is written, with a line feed at its end. -/
def write (coloured : Bool) (r : Row) : String :=
  String.join (r.map (Piece.write coloured)) ++ "\n"

/-- Rows one below the other. -/
def writeAll (coloured : Bool) (rows : List Row) : String :=
  String.join (rows.map (write coloured))

end Row

end ResidueMachine
