import ResidueMachine.Machine
import ResidueMachine.Program.Profile

/-!
# Runs

* `Code.run` : the value of a run from the empty stack, or the failure that ends it;
* `Code.check` : the depths of that run, found without running;
* `runPrograms`, `runCodes` : the results of several runs, in order.
-/

namespace ResidueMachine

/-- The value of a run. -/
def Code.run (c : Code) (limit : Option Nat) : Except Failure Int64 :=
  (Machine.start c limit).run.1

/-- The depths of a run, found without running. -/
def Code.check (c : Code) (limit : Option Nat) : Except Failure Profile :=
  c.program.check c.table.size limit

/-- The results of programs that share a modulus and a table, in order. -/
def runPrograms (modulus : Modulus) (table : Table) (programs : List Program)
    (limit : Option Nat) : List (Except Failure Int64) :=
  programs.map fun program => Code.run ⟨modulus, table, program⟩ limit

/-- The results of several codes, in order. -/
def runCodes (codes : List Code) (limit : Option Nat) : List (Except Failure Int64) :=
  codes.map (·.run limit)

end ResidueMachine
