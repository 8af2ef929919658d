import ResidueMachine.Modulus
import ResidueMachine.Program
import ResidueMachine.Table

/-!
# Code

A `Code` is all that a run needs: a modulus, a table and a program.
-/

namespace ResidueMachine

/-- A program with the modulus and the table that it runs on. -/
structure Code where
  /-- The modulus of all arithmetic. -/
  modulus : Modulus
  /-- The table that instructions read. -/
  table : Table
  /-- The instructions. -/
  program : Program
  deriving DecidableEq

end ResidueMachine
