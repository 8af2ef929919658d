import ResidueMachine.Instruction

/-!
# Programs

A program is a list of instructions, executed in order and numbered from `1`.
-/

namespace ResidueMachine

/-- The instructions of a program in order. -/
abbrev Program := List Instruction

namespace Program

/-- The instruction with a 1-based number. -/
def at? (p : Program) : Nat → Option Instruction
  | 0 => none
  | offset + 1 => p[offset]?

end Program

end ResidueMachine
