import ResidueMachine.Code
import ResidueMachine.Source.Token

/-!
# Loading code

A source is a sequence of numbers: the modulus, the size of the table and the number of
instructions, then the words of the table, then for each instruction its tag and its operands.
Its layout carries no meaning.

* `LoadedCode` : code, and where in the source each instruction is written;
* `load` : the code that a source writes, or the first reason why it writes none.

The two counts come from the source and may be far larger than it.  A loop ends at the latest
where the tokens do, and no more room is reserved than there are tokens left (`reserve`).

The reader is written for every monad in which tokens can be taken (`Reader`), so that what it does
on the way can be observed in one monad and is of no cost in another.  Loading reads in `Reading`.
-/

namespace ResidueMachine

/-- Code with the place of each instruction in its source. -/
structure LoadedCode where
  /-- The code. -/
  code : Code
  /-- The bytes of each instruction, from its tag to its last operand. -/
  spans : List Span
  deriving DecidableEq

/-- The bytes of the instruction with a 1-based number. -/
def LoadedCode.instructionSpan? (l : LoadedCode) : Nat → Option Span
  | 0 => none
  | offset + 1 => l.spans[offset]?

/-- An instruction and the bytes that it is written with. -/
structure PlacedInstruction where
  /-- The instruction. -/
  instruction : Instruction
  /-- Its place in the source. -/
  span : Span
  deriving DecidableEq

/-! ### Reading tokens -/

/-- What the reader does besides taking tokens. -/
inductive ReaderEvent where
  /-- A round of the loop that reads the table starts. -/
  | tableRound
  /-- A word has been stored, which makes `count` of them. -/
  | word (count : Nat)
  /-- A round of the loop that reads the program starts. -/
  | programRound
  /-- An instruction has been stored, which makes `count` of them. -/
  | instruction (count : Nat)

/-- A row of tokens to read, the next one first. -/
class Reader (m : Type → Type) where
  /-- Take the next token, if there is one. -/
  next? : m (Option Token)
  /-- Look at the next token, if there is one. -/
  peek? : m (Option Token)
  /-- The number of tokens left. -/
  remaining : m Nat
  /-- Ask for storage that has room for some things, and holds none yet. -/
  storage (α : Type) (room : Nat) : m (Array α)
  /-- Note an event, which has no part in what is read. -/
  note : ReaderEvent → m Unit

/-- The room to reserve for `count` things that are each written with at least one token. -/
def reserve (count remaining : Nat) : Nat :=
  min count remaining

namespace Reader

variable (m : Type → Type) [Monad m] [MonadExceptOf LoadError m] [Reader m]

/-- The next token.  The source has `size` bytes, and where it ends the item is missed. -/
def token (size : Nat) (item : Item) : m Token := do
  match ← next? with
  | none => throw ⟨.unexpectedEnd item, .emptyAt size⟩
  | some t => return t

/-- The modulus. -/
def modulus (size : Nat) : m Modulus := do
  let t ← token m size .modulus
  match Modulus.ofWord? t.value with
  | some modulus => return modulus
  | none => throw ⟨.nonPositiveModulus t.value, t.span⟩

/-- A count, which must not be negative. -/
def count (size : Nat) (item : Item) : m Nat := do
  let t ← token m size item
  if t.value.toInt < 0 then throw ⟨.negativeCount item t.value, t.span⟩
  else return t.value.toInt.toNat

/-- Storage for `count` things, with no more room than there are tokens left. -/
def allocate (α : Type) (count : Nat) : m (Array α) := do
  storage α (reserve count (← remaining))

/-- The words of the table, after those stored before. -/
def words (size : Nat) : (count : Nat) → Array Int64 → m (Array Int64)
  | 0, found => return found
  | count + 1, found => do
    note .tableRound
    let t ← token m size (.tableWord (found.size + 1))
    let found := found.push t.value
    note (.word found.size)
    words size count found

/-- The operands of the instruction at `position`, the next one being operand `number`. -/
def operands (size position : Nat) : (count number : Nat) → m (List Token)
  | 0, _ => return []
  | count + 1, number => do
    let t ← token m size (.operand number position)
    let others ← operands size position count (number + 1)
    return t :: others

/-- The instruction at `position`.  A bad tag is reported before its operands are read. -/
def instruction (size position : Nat) : m PlacedInstruction := do
  let tag ← token m size (.tag position)
  match Instruction.arity? tag.value with
  | none => throw ⟨.instruction (.unknownTag tag.value), tag.span⟩
  | some arity =>
    let operands ← operands m size position arity 1
    let span := tag.span.through (operands.getLastD tag).span
    match Instruction.decode tag.value (operands.map Token.value) with
    | .ok i => return ⟨i, span⟩
    | .error error => throw ⟨.instruction error, span⟩

/-- The instructions, after those stored before. -/
def instructions (size : Nat) :
    (count : Nat) → Array PlacedInstruction → m (Array PlacedInstruction)
  | 0, found => return found
  | count + 1, found => do
    note .programRound
    let i ← instruction m size (found.size + 1)
    let found := found.push i
    note (.instruction found.size)
    instructions size count found

/-- Nothing is left. -/
def finish (size : Nat) : m Unit := do
  match ← peek? with
  | none => return
  | some t => throw ⟨.trailingInput, ⟨t.span.start, size⟩⟩

/-- The code, from its first token to its last. -/
def code (size : Nat) : m LoadedCode := do
  let modulus ← modulus m size
  let tableSize ← count m size .tableSize
  let instructionCount ← count m size .instructionCount
  let words ← words m size tableSize (← allocate m Int64 tableSize)
  let placed ← instructions m size instructionCount
    (← allocate m PlacedInstruction instructionCount)
  finish m size
  let placed := placed.toList
  return ⟨⟨modulus, ⟨words⟩, placed.map (·.instruction)⟩, placed.map (·.span)⟩

end Reader

/-- Reading something from the front of the tokens, which keeps the tokens left. -/
abbrev Reading := StateT (List Token) (Except LoadError)

instance : Reader Reading where
  next?
    | [] => .ok (none, [])
    | t :: rest => .ok (some t, rest)
  peek? tokens := .ok (tokens.head?, tokens)
  remaining tokens := .ok (tokens.length, tokens)
  storage _ room := pure (.emptyWithCapacity room)
  note _ := pure ()

/-- The code that a source writes. -/
def load (source : String) : Except LoadError LoadedCode := do
  let tokens ← tokenize source.toList
  (Reader.code Reading source.utf8ByteSize).run' tokens

end ResidueMachine
