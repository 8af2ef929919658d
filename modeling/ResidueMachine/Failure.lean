/-!
# Failures of a run

A run that yields no value ends with one `Failure`: a `Fault`, which says what went wrong, and
the 1-based number of the instruction at which it did.
-/

namespace ResidueMachine

/-- What stops a run. -/
inductive Fault where
  /-- An instruction takes more values than the stack holds. -/
  | emptyPop (needed available : Nat)
  /-- An instruction names a word that a table of `size` words does not have. -/
  | indexOutOfRange (index : Int64) (size : Nat)
  /-- No value is left after the last instruction. -/
  | emptyResult
  /-- An instruction pushes onto a stack that already holds `limit` values. -/
  | overflow (limit : Nat)
  deriving DecidableEq

/-- The text of a fault. -/
def Fault.message : Fault → String
  | emptyPop needed available =>
    s!"empty stack pop: needed {needed} value(s), stack held {available}"
  | indexOutOfRange index size => s!"table index {index} out of range [1, {size}]"
  | emptyResult => "program finished with an empty stack"
  | overflow limit => s!"stack overflow: depth limit of {limit} exceeded"

/-- A fault and where it arises. -/
structure Failure where
  /-- What went wrong. -/
  fault : Fault
  /-- The 1-based number of the failing instruction, one past the last for an empty result. -/
  position : Nat
  deriving DecidableEq

/-- The text of a failure. -/
def Failure.message (f : Failure) : String :=
  s!"{f.fault.message} (at instruction {f.position})"

/-- The fault, located at an instruction. -/
def Fault.at (fault : Fault) (position : Nat) : Failure :=
  ⟨fault, position⟩

end ResidueMachine
