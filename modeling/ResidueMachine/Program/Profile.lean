import ResidueMachine.Failure
import ResidueMachine.Program

/-!
# Static checking

Whether a run of a program fails, and where, depends on the kinds of its instructions, their
indices and the size of the table alone, not on any value.  `Program.check` decides it with a
counter for the depth of the stack, and reports the depths that a run reaches.

* `Profile` : the deepest and the final depth;
* `Program.check` : the profile of a program, or the failure that a run ends with.

An instruction is tested for the values that it takes, then for its index, then for the depth
that it leaves.
-/

namespace ResidueMachine

/-- The depths of the stack during a run. -/
structure Profile where
  /-- The depth where the stack is deepest. -/
  maxDepth : Nat
  /-- The depth after the last instruction. -/
  finalDepth : Nat
  deriving DecidableEq, Repr

/-- The index names a word of a table with `size` words. -/
def InTable (size : Nat) (index : Int64) : Prop :=
  1 ≤ index.toInt ∧ index.toInt ≤ size

instance (size : Nat) (index : Int64) : Decidable (InTable size index) :=
  inferInstanceAs (Decidable (_ ∧ _))

/-- The depth after an instruction, or the reason why it cannot be executed. -/
def Instruction.depthAfter (size : Nat) (limit : Option Nat) (depth : Nat) (i : Instruction) :
    Except Fault Nat :=
  if depth < i.effect.pops then .error (.emptyPop i.effect.pops depth)
  else if let some index := i.tableIndex?.filter (¬ InTable size ·) then
    .error (.indexOutOfRange index size)
  else
    let after := depth - i.effect.pops + i.effect.pushes
    if let some bound := limit.filter (· < after) then .error (.overflow bound)
    else .ok after

namespace Program

/-- Check the instructions that follow the first `executed` ones, at a given depth of the stack,
`maxDepth` being the deepest so far. -/
def checkFrom (size : Nat) (limit : Option Nat) :
    Program → (executed depth maxDepth : Nat) → Except Failure Profile
  | [], executed, depth, maxDepth =>
    if depth = 0 then .error (Fault.emptyResult.at (executed + 1)) else .ok ⟨maxDepth, depth⟩
  | i :: rest, executed, depth, maxDepth =>
    match i.depthAfter size limit depth with
    | .error fault => .error (fault.at (executed + 1))
    | .ok depth => checkFrom size limit rest (executed + 1) depth (max maxDepth depth)

/-- Check a program against a table of `size` words and a limit for the depth of the stack. -/
def check (p : Program) (size : Nat) (limit : Option Nat) : Except Failure Profile :=
  p.checkFrom size limit 0 0 0

end Program

end ResidueMachine
