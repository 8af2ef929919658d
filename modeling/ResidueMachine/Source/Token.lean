import ResidueMachine.Source.Lexeme
import ResidueMachine.Source.LoadError
import ResidueMachine.Source.Numeral

/-!
# Tokens

A `Token` is a lexeme that writes a 64-bit word.  `tokenize` reads all lexemes of a text before
anything else is decided about it, so that the leftmost bad one is reported whatever comes
before or after it.
-/

namespace ResidueMachine

/-- A number of a source. -/
structure Token where
  /-- The number. -/
  value : Int64
  /-- Where it is written. -/
  span : Span
  deriving DecidableEq

/-- The token that a lexeme writes. -/
def Token.ofLexeme (l : Lexeme) : Except LoadError Token :=
  match Numeral.word? l.text with
  | some value => .ok ⟨value, l.span⟩
  | none => .error ⟨.invalidInteger l.text, l.span⟩

/-- The tokens of a text in order, or the leftmost lexeme that is none. -/
def tokenize (text : List Char) : Except LoadError (List Token) :=
  (lexemes text).mapM Token.ofLexeme

end ResidueMachine
