/-!
# Instructions

The four instructions of the machine, and how a tag and a list of operands decode to one.

* `Opcode` : the kinds of instruction, each with a tag from `1` to `4` and an operand count;
* `Instruction` : an instruction with its operands;
* `Instruction.decode` : the instruction written by a tag and operands, or why there is none;
* `Instruction.effect` : how many values an instruction takes from the stack and leaves on it.
-/

namespace ResidueMachine

/-- The kinds of instruction. -/
inductive Opcode where
  /-- Push a word of the table. -/
  | load
  /-- Exchange the two topmost values. -/
  | swap
  /-- Replace the two topmost values by a combination of them. -/
  | combine2
  /-- Replace the topmost value by a combination of it and a word of the table. -/
  | combineIndexed
  deriving DecidableEq, Repr

namespace Opcode

/-- The number that stands for the kind in written code. -/
def tag : Opcode → Nat
  | load => 1
  | swap => 2
  | combine2 => 3
  | combineIndexed => 4

/-- The number of operands that follow the tag. -/
def arity : Opcode → Nat
  | load => 1
  | swap => 0
  | combine2 => 3
  | combineIndexed => 4

/-- The name of the kind in listings. -/
def mnemonic : Opcode → String
  | load => "LOAD"
  | swap => "SWAP"
  | combine2 => "COMBINE2"
  | combineIndexed => "COMBINE_INDEXED"

/-- The four kinds, in the order of their tags. -/
def all : List Opcode :=
  [load, swap, combine2, combineIndexed]

/-- The kind that a tag stands for. -/
def ofTag? (tag : Int64) : Option Opcode :=
  all.find? fun op => (op.tag : Int) = tag.toInt

theorem ofTag?_eq_some_iff {tag : Int64} {op : Opcode} :
    ofTag? tag = some op ↔ tag.toInt = op.tag := by
  simp only [ofTag?, all, List.find?]
  cases op <;> grind [Opcode.tag]

end Opcode

/-- How many values an instruction takes from the stack, and how many it leaves in their place. -/
structure StackEffect where
  /-- Values taken. -/
  pops : Nat
  /-- Values left. -/
  pushes : Nat
  deriving DecidableEq, Repr

/-- The change of the depth of the stack. -/
def StackEffect.net (e : StackEffect) : Int :=
  e.pushes - e.pops

/-- An instruction with its operands. -/
inductive Instruction where
  /-- Push the table's word at `index`, as it is. -/
  | load (index : Int64)
  /-- Exchange the two topmost values. -/
  | swap
  /-- Take `x` from the top, then `y`, and push the residue of `a * x + b * y + c`. -/
  | combine2 (a b c : Int64)
  /-- Take `y` from the top and push the residue of `a * x + b * y + c`, where `x` is the table's
  word at `index`. -/
  | combineIndexed (index a b c : Int64)
  deriving DecidableEq

/-- Why a tag and operands are no instruction. -/
inductive DecodeError where
  /-- No kind of instruction has this tag. -/
  | unknownTag (tag : Int64)
  /-- The kind of instruction takes another number of operands. -/
  | operandCount (opcode : Opcode) (found : Nat)
  deriving DecidableEq

/-- The text of a decoding error. -/
def DecodeError.message : DecodeError → String
  | unknownTag tag => s!"unknown instruction tag {tag} (expected 1-4)"
  | operandCount op found =>
    s!"instruction tag {op.tag} takes {op.arity} operand(s), got {found}"

namespace Instruction

/-- The kind of an instruction. -/
def opcode : Instruction → Opcode
  | load _ => .load
  | swap => .swap
  | combine2 .. => .combine2
  | combineIndexed .. => .combineIndexed

/-- The operands in the order in which they are written. -/
def operands : Instruction → List Int64
  | load index => [index]
  | swap => []
  | combine2 a b c => [a, b, c]
  | combineIndexed index a b c => [index, a, b, c]

/-- The number that stands for the instruction's kind in written code. -/
def tag (i : Instruction) : Nat :=
  i.opcode.tag

/-- The number of operands that an instruction with this tag takes. -/
def arity? (tag : Int64) : Option Nat :=
  (Opcode.ofTag? tag).map Opcode.arity

/-- The instruction of a given kind with the given operands, if their number is right. -/
def ofOperands? : Opcode → List Int64 → Option Instruction
  | .load, [index] => some (load index)
  | .swap, [] => some swap
  | .combine2, [a, b, c] => some (combine2 a b c)
  | .combineIndexed, [index, a, b, c] => some (combineIndexed index a b c)
  | _, _ => none

/-- The instruction written by a tag and operands.  A bad tag is reported before a wrong number
of operands. -/
def decode (tag : Int64) (operands : List Int64) : Except DecodeError Instruction :=
  match Opcode.ofTag? tag with
  | none => .error (.unknownTag tag)
  | some op =>
    match ofOperands? op operands with
    | some i => .ok i
    | none => .error (.operandCount op operands.length)

/-- The values that an instruction takes from the stack and leaves on it. -/
def effect : Instruction → StackEffect
  | load _ => ⟨0, 1⟩
  | swap => ⟨2, 2⟩
  | combine2 .. => ⟨2, 1⟩
  | combineIndexed .. => ⟨1, 1⟩

/-- The index of the word that the instruction reads from the table, if it reads one. -/
def tableIndex? : Instruction → Option Int64
  | load index => some index
  | swap => none
  | combine2 .. => none
  | combineIndexed index .. => some index

/-- The mnemonic and the operands, separated by single blanks. -/
def display (i : Instruction) : String :=
  " ".intercalate (i.opcode.mnemonic :: i.operands.map toString)

@[simp] theorem length_operands (i : Instruction) : i.operands.length = i.opcode.arity := by
  cases i <;> rfl

@[simp] theorem ofOperands?_operands (i : Instruction) :
    ofOperands? i.opcode i.operands = some i := by
  cases i <;> rfl

end Instruction

end ResidueMachine
