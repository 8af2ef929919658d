import ResidueMachine.Machine.Execute

/-!
# The machine

A `Machine` executes the instructions of a program one after the other on a stack of words.

* `Machine.step` : execute the next instruction;
* `Machine.result` : the top of the stack, or why there is none;
* `Machine.run` : step to the end, then give the result.

The first failure is kept: from then on every operation answers with it.  An empty result is no
failure of the machine, and is not kept.
-/

namespace ResidueMachine

/-- The room of a stack whose depth is not limited: the largest 64-bit count. -/
def unlimitedDepth : Nat := UInt64.size - 1

/-- A program being executed. -/
structure Machine where
  /-- The modulus of all arithmetic. -/
  modulus : Modulus
  /-- The table that instructions read. -/
  table : Table
  /-- The instructions that have not been executed, in order. -/
  pending : Program
  /-- The 1-based number of the next instruction. -/
  position : Nat
  /-- The stack. -/
  stack : Stack Int64
  /-- The failure that stopped the machine. -/
  failure? : Option Failure
  deriving DecidableEq

namespace Machine

/-- A machine that has executed nothing, with a limit for the depth of its stack. -/
def start (c : Code) (limit : Option Nat) : Machine where
  modulus := c.modulus
  table := c.table
  pending := c.program
  position := 1
  stack := .empty (limit.getD unlimitedDepth)
  failure? := none

/-- All instructions have been executed. -/
def isFinished (m : Machine) : Bool :=
  m.pending.isEmpty

/-- Execute the next instruction.  The answer is whether there was one. -/
def step (m : Machine) : Except Failure Bool × Machine :=
  match m.failure?, m.pending with
  | some failure, _ => (.error failure, m)
  | none, [] => (.ok false, m)
  | none, i :: rest =>
    match execute m.modulus m.table i m.stack with
    | .ok _ stack => (.ok true, { m with pending := rest, position := m.position + 1, stack })
    | .error fault stack =>
      let failure := fault.at m.position
      (.error failure, { m with stack, failure? := some failure })

/-- The machine after one step. -/
def advance (m : Machine) : Machine :=
  m.step.2

/-- The machine after a number of steps. -/
def advanceBy : Nat → Machine → Machine
  | 0, m => m
  | n + 1, m => advanceBy n m.advance

/-- The value that the machine has computed so far. -/
def result (m : Machine) : Except Failure Int64 :=
  match m.failure?, m.stack.top? with
  | some failure, _ => .error failure
  | none, some value => .ok value
  | none, none => .error (Fault.emptyResult.at m.position)

/-- Step until the machine has failed or no instruction is pending, then give the result.  Each
step but a failing one executes a pending instruction, so their number bounds the steps. -/
def run (m : Machine) : Except Failure Int64 × Machine :=
  let last := m.advanceBy m.pending.length
  (last.result, last)

theorem advanceBy_add (k n : Nat) (m : Machine) :
    m.advanceBy (k + n) = (m.advanceBy k).advanceBy n := by
  induction k generalizing m with
  | zero => simp [advanceBy]
  | succ k ih => rw [Nat.succ_add, advanceBy, advanceBy, ih]

/-- Stepping a machine that has failed changes nothing. -/
theorem advance_of_failure {m : Machine} {failure : Failure} (h : m.failure? = some failure) :
    m.advance = m := by
  simp only [advance, step, h]

/-- Stepping a machine without pending instructions changes nothing. -/
theorem advance_of_pending_eq_nil {m : Machine} (h : m.pending = []) : m.advance = m := by
  cases hf : m.failure? <;> simp only [advance, step, h, hf]

end Machine

end ResidueMachine
