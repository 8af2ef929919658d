import ResidueMachine.Failure

/-!
# Remarks on failures

What a diagnostic says about a failure besides its text: a code, a remark on the marked place and
sometimes a hint.
-/

namespace ResidueMachine

/-- The code that stands for the kind of fault. -/
def Fault.code : Fault → String
  | emptyPop .. => "E001"
  | indexOutOfRange .. => "E002"
  | emptyResult => "E003"
  | overflow _ => "E004"

/-- A hint at how to avoid the fault. -/
def Fault.hint? : Fault → Option String
  | emptyPop .. => some "LOAD pushes one value; SWAP and COMBINE2 need two"
  | indexOutOfRange _ 0 => some "the table is empty, so no index is valid"
  | indexOutOfRange _ size => some s!"table indices are 1-based, from 1 to {size}"
  | emptyResult => some "a program with no instructions has no result"
  | overflow _ => none

/-- The remark on the place of a failure. -/
def Failure.remark (f : Failure) : String :=
  match f.fault with
  | .emptyPop needed available =>
    s!"instruction {f.position} pops {needed} value(s) here, but the stack holds {available}"
  | .indexOutOfRange index _ => s!"instruction {f.position} reads P[{index}]"
  | .emptyResult => "the program ends with nothing on the stack"
  | .overflow limit => s!"instruction {f.position} pushes past the depth limit of {limit}"

end ResidueMachine
