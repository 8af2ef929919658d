import ResidueMachine.Problem

/-!
# Inputs of the command line

An `Input` is a name with the bytes found under it.  Its text is a `Source`, and with the code that
the text writes it is a `LoadedSource`.
-/

namespace ResidueMachine

/-- The bytes found under a name. -/
structure Input where
  /-- The name in reports. -/
  name : String
  /-- The bytes, if they could be read. -/
  bytes? : Option ByteArray

/-- The source of an input.  Bytes that are no UTF-8 text cannot be read. -/
def Input.source (i : Input) : Except Problem Source :=
  match i.bytes?.bind String.fromUTF8? with
  | some text => .ok ⟨i.name, text⟩
  | none => .error (.unreadable i.name)

/-- A source with the code that it writes. -/
structure LoadedSource where
  /-- The source. -/
  source : Source
  /-- The code. -/
  loaded : LoadedCode

end ResidueMachine
