import ResidueMachine.Code
import ResidueMachine.Failure
import ResidueMachine.Stack

/-!
# Executing one instruction

`execute` is what one instruction does to a stack of words.  It is put together from the
operations of the stack and the reading of the table, each of which ends in a fault when it cannot
be carried out.

The order of the parts decides which of two faults is met: an instruction first needs the values
that it takes, then the word that it reads, then room for the value that it pushes.  The lemmas
`execute_load`, `execute_swap`, `execute_combine2` and `execute_combineIndexed` spell it out.
-/

namespace ResidueMachine

/-! ### Work on a stack -/

/-- Work on a stack of words that may end in a fault.  The stack is then as the work left it. -/
abbrev StackWork := EStateM Fault (Stack Int64)

namespace StackWork

/-- Give up because the stack holds fewer than `needed` values. -/
def underflow {α : Type} (needed : Nat) : StackWork α := do
  throw (.emptyPop needed (← get).depth)

/-- Put a value on top, unless the stack is full. -/
def push (value : Int64) : StackWork Unit := do
  let stack ← get
  match stack.push value with
  | .ok stack => set stack
  | .error _ => throw (.overflow stack.maxSize)

/-- Take the two topmost values. -/
def popPair : StackWork (Int64 × Int64) := do
  let (pair?, stack) := (← get).popPair
  set stack
  match pair? with
  | some pair => return pair
  | none => underflow 2

/-- Exchange the two topmost values. -/
def swapTop : StackWork Unit := do
  match (← get).swapTop? with
  | some stack => set stack
  | none => underflow 2

/-- The topmost value, which stays where it is. -/
def top : StackWork Int64 := do
  match (← get).top? with
  | some value => return value
  | none => underflow 1

/-- Drop the topmost value, if there is one. -/
def drop : StackWork Unit :=
  modify fun stack => stack.pop.2

/-- The word of the table at an index. -/
def lookup (table : Table) (index : Int64) : StackWork Int64 :=
  match table.get? index with
  | some word => return word
  | none => throw (.indexOutOfRange index table.size)

end StackWork

/-! ### The instructions -/

open StackWork in
/-- What an instruction does to the stack. -/
def execute (modulus : Modulus) (table : Table) : Instruction → StackWork Unit
  | .load index => do
    push (← lookup table index)
  | .swap => swapTop
  | .combine2 a b c => do
    let (x, y) ← popPair
    push (modulus.combine a x b y c)
  | .combineIndexed index a b c => do
    let y ← top
    let x ← lookup table index
    drop
    push (modulus.combine a x b y c)

section Execute

variable (m : Modulus) (t : Table) (index a b c : Int64) (s : Stack Int64)

theorem StackWork.push_apply (value : Int64) :
    StackWork.push value s =
      match s.push value with
      | .ok s' => .ok () s'
      | .error _ => .error (.overflow s.maxSize) s := by
  change (match s.push value with
    | .ok s' => set s'
    | .error _ => throw (.overflow s.maxSize) : StackWork Unit) s = _
  cases s.push value <;> rfl

theorem execute_load :
    execute m t (.load index) s =
      match t.get? index with
      | none => .error (.indexOutOfRange index t.size) s
      | some word =>
        match s.push word with
        | .ok s' => .ok () s'
        | .error _ => .error (.overflow s.maxSize) s := by
  simp only [execute, StackWork.lookup]
  cases t.get? index with
  | none => rfl
  | some word => exact StackWork.push_apply s word

theorem execute_swap :
    execute m t .swap s =
      match s.swapTop? with
      | none => .error (.emptyPop 2 s.depth) s
      | some s' => .ok () s' := by
  obtain ⟨_ | ⟨x, _ | ⟨y, rest⟩⟩, _, _, _⟩ := s <;> rfl

theorem execute_combine2 :
    execute m t (.combine2 a b c) s =
      match s.popPair with
      | (none, s') => .error (.emptyPop 2 s'.depth) s'
      | (some (x, y), rest) =>
        match rest.push (m.combine a x b y c) with
        | .ok s' => .ok () s'
        | .error _ => .error (.overflow s.maxSize) rest := by
  obtain ⟨_ | ⟨x, _ | ⟨y, rest⟩⟩, _, _, rfl⟩ := s
  · rfl
  · rfl
  · exact StackWork.push_apply _ _

theorem execute_combineIndexed :
    execute m t (.combineIndexed index a b c) s =
      match s.pop with
      | (none, s') => .error (.emptyPop 1 s'.depth) s'
      | (some y, rest) =>
        match t.get? index with
        | none => .error (.indexOutOfRange index t.size) s
        | some x =>
          match rest.push (m.combine a x b y c) with
          | .ok s' => .ok () s'
          | .error _ => .error (.overflow s.maxSize) rest := by
  obtain ⟨_ | ⟨y, rest⟩, _, _, _⟩ := s
  · rfl
  · simp only [execute, StackWork.lookup, Stack.pop]
    cases t.get? index with
    | none => rfl
    | some x => exact StackWork.push_apply _ _

end Execute

end ResidueMachine
