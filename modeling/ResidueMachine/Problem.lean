import ResidueMachine.Run
import ResidueMachine.Source

/-!
# Problems

A `Problem` is anything that keeps a source from having a value: it cannot be read, it cannot be
loaded, or its run fails.
-/

namespace ResidueMachine

/-- Why a source has no value. -/
inductive Problem where
  /-- There is no text under this name. -/
  | unreadable (name : String)
  /-- The text under this name is no code. -/
  | load (name : String) (error : LoadError)
  /-- The run fails. -/
  | execution (failure : Failure)
  deriving DecidableEq

namespace Problem

/-- The text of a problem. -/
def message : Problem → String
  | unreadable name => s!"could not read {name}"
  | load _ error => error.fault.message
  | execution failure => s!"run failed: {failure.message}"

/-- The code that stands for the kind of problem. -/
def code : Problem → String
  | unreadable _ => "modstack::io"
  | load .. => "modstack::load"
  | execution _ => "modstack::run"

/-- A hint at what may have gone wrong. -/
def help? : Problem → Option String
  | load _ error => error.fault.help?
  | _ => none

/-- The part of the text to mark, with the remark on it.  Only a loading problem is shown with
its text. -/
def label? : Problem → Option (String × Span)
  | load _ error => some ("here", error.span)
  | _ => none

end Problem

/-- The value of the code that a source writes. -/
def Source.evaluate (s : Source) (limit : Option Nat) : Except Problem Int64 := do
  let loaded ← s.load.mapError (.load s.name)
  (loaded.code.run limit).mapError .execution

end ResidueMachine
