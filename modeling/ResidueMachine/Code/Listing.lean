import ResidueMachine.Code
import ResidueMachine.Text.Padding

/-!
# Listings

`Code.listing` writes code as lines: the modulus, the words of the table with their indices, and
the instructions with their numbers and with the values that each takes and leaves.
-/

namespace ResidueMachine

namespace Code

/-- The line of the word at an index of the table. -/
def wordLine (word : Int64) (index : Nat) : String :=
  s!"    [{index}] = {word}"

/-- The lines of a table. -/
def tableLines (t : Table) : List String :=
  if t.isEmpty then ["  table: []"]
  else "  table: [" :: (t.toList.zipIdx 1).map (fun (word, index) => wordLine word index) ++
    ["  ]"]

/-- The line of the instruction at a position. -/
def instructionLine (i : Instruction) (position : Nat) : String :=
  let number := alignRight 4 (toString position)
  let display := alignLeft 28 i.display
  s!"    {number}  {display} ; -{i.effect.pops} +{i.effect.pushes}"

/-- The lines of a listing. -/
def listingLines (c : Code) : List String :=
  ["Code \x7b", s!"  modulus: {c.modulus.display}"] ++ tableLines c.table ++
    ["  instructions:"] ++
    (c.program.zipIdx 1).map (fun (i, position) => instructionLine i position) ++ ["\x7d"]

/-- The listing, without a line feed at its end. -/
def listing (c : Code) : String :=
  "\n".intercalate c.listingLines

end Code

end ResidueMachine
