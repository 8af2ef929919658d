import ResidueMachine.Source.LoadedCode

/-!
# Named sources

A `Source` is a text to load, under the name that reports give to it.
-/

namespace ResidueMachine

/-- A text with a name. -/
structure Source where
  /-- The name in reports. -/
  name : String
  /-- The text. -/
  text : String
  deriving DecidableEq

namespace Source

/-- The name of a source that is not a file. -/
def anonymousName : String := "<input>"

/-- A source that is not a file. -/
def anonymous (text : String) : Source :=
  ⟨anonymousName, text⟩

/-- The code that the source writes. -/
def load (s : Source) : Except LoadError LoadedCode :=
  ResidueMachine.load s.text

end Source

end ResidueMachine
