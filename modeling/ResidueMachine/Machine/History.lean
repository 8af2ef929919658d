import ResidueMachine.Machine

/-!
# Histories of calls on a machine

The operations of a machine as data.  `Machine.history` answers calls one after the other, in any
order and number, also after the machine has finished or failed.
-/

namespace ResidueMachine

namespace Machine

/-- A call on a machine. -/
inductive Call where
  /-- Execute the next instruction. -/
  | step
  /-- Execute all pending instructions and give the result. -/
  | run
  /-- Give the result. -/
  | result
  deriving DecidableEq, Repr

/-- What a call answers. -/
inductive Reply where
  /-- Whether there was an instruction to execute. -/
  | stepped (more : Bool)
  /-- The value computed. -/
  | computed (value : Int64)
  /-- The failure that stopped the machine, or an empty result. -/
  | failed (failure : Failure)
  deriving DecidableEq

/-- The answer that gives a result. -/
def Reply.ofResult : Except Failure Int64 → Reply
  | .ok value => .computed value
  | .error failure => .failed failure

/-- Answer a call. -/
def call (m : Machine) : Call → Reply × Machine
  | .step =>
    match m.step with
    | (.ok more, m') => (.stepped more, m')
    | (.error failure, m') => (.failed failure, m')
  | .run =>
    let (result, m') := m.run
    (.ofResult result, m')
  | .result => (.ofResult m.result, m)

/-- The answers to calls one after the other, each with the machine after the call. -/
def history (m : Machine) : List Call → List (Reply × Machine)
  | [] => []
  | c :: rest =>
    let (reply, m') := m.call c
    (reply, m') :: m'.history rest

end Machine

end ResidueMachine
