import ResidueMachine.Failure
import ResidueMachine.Source.LoadedCode
import ResidueMachine.Text.WhiteSpace

/-!
# The place of a failure

A failure is shown at the instruction that it names, or, when it names none, at the last
character of the text that is not white space.

* `lastVisible` : the bytes of that character;
* `failureSpan` : the bytes at which a failure is shown.
-/

namespace ResidueMachine

/-- The bytes of the last character that is not white space.  A text without such a character
has the empty range at its start. -/
def lastVisible (text : List Char) : Span :=
  match text.reverse.dropWhile isWhiteSpace with
  | [] => .emptyAt 0
  | c :: before =>
    let start := byteLength before.reverse
    ⟨start, start + c.utf8Size⟩

/-- The bytes of a text at which a failure of loaded code is shown. -/
def failureSpan (failure : Failure) (loaded : LoadedCode) (text : List Char) : Span :=
  match failure.fault with
  | .emptyResult => lastVisible text
  | _ => (loaded.instructionSpan? failure.position).getD (lastVisible text)

end ResidueMachine
