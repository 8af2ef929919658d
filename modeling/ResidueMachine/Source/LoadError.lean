import ResidueMachine.Instruction
import ResidueMachine.Source.Span

/-!
# Why a source is no code

A source that cannot be loaded has a `LoadFault`, at a range of its bytes.  When the source ends
too early, the fault names the `Item` that was due.
-/

namespace ResidueMachine

/-- What a number of a source stands for. -/
inductive Item where
  /-- The modulus, the first number. -/
  | modulus
  /-- The number of words in the table. -/
  | tableSize
  /-- The number of instructions. -/
  | instructionCount
  /-- The word of the table at a 1-based index. -/
  | tableWord (index : Nat)
  /-- The tag of the instruction with a 1-based number. -/
  | tag (position : Nat)
  /-- An operand, counted from `1`, of the instruction with a 1-based number. -/
  | operand (number position : Nat)
  deriving DecidableEq, Repr

/-- The item in words. -/
def Item.describe : Item → String
  | modulus => "the modulus M"
  | tableSize => "the table size N"
  | instructionCount => "the instruction count L"
  | tableWord index => s!"table value P[{index}]"
  | tag position => s!"the tag of instruction {position}"
  | operand number position => s!"operand {number} of instruction {position}"

/-- What is wrong with a source. -/
inductive LoadFault where
  /-- A lexeme is no numeral of a 64-bit word. -/
  | invalidInteger (lexeme : List Char)
  /-- The source ends where an item is due. -/
  | unexpectedEnd (item : Item)
  /-- The modulus is zero or negative. -/
  | nonPositiveModulus (value : Int64)
  /-- A count is negative. -/
  | negativeCount (item : Item) (value : Int64)
  /-- A tag and its operands are no instruction. -/
  | instruction (error : DecodeError)
  /-- Something follows the last instruction. -/
  | trailingInput
  deriving DecidableEq

namespace LoadFault

/-- The text of a fault. -/
def message : LoadFault → String
  | invalidInteger lexeme => "`" ++ String.ofList lexeme ++ "` is not a 64-bit integer"
  | unexpectedEnd item => s!"input ended early: expected {item.describe}"
  | nonPositiveModulus value => s!"modulus must be positive, got {value}"
  | negativeCount item value => s!"{item.describe} must not be negative, got {value}"
  | instruction error => error.message
  | trailingInput => "unexpected input after the last instruction"

/-- A hint at what may have gone wrong. -/
def help? : LoadFault → Option String
  | unexpectedEnd _ =>
    some "the header `M N L` promises N table values and L instructions"
  | instruction (.unknownTag _) =>
    some "tags are 1 (LOAD), 2 (SWAP), 3 (COMBINE2) and 4 (COMBINE_INDEXED)"
  | trailingInput => some "L in the header may be smaller than the number of instructions"
  | _ => none

end LoadFault

/-- A fault and the bytes of the source that it is about. -/
structure LoadError where
  /-- What is wrong. -/
  fault : LoadFault
  /-- Where it is. -/
  span : Span
  deriving DecidableEq

end ResidueMachine
