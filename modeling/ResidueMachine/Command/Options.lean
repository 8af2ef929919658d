import ResidueMachine.Source.Numeral

/-!
# Command line options

`Options.ofArguments?` reads the arguments of the command line.  Options and paths may be mixed.
After `--` every argument is a path, and a lone `-` is one anywhere.  Every option but the one for
verbosity may be given once.
-/

namespace ResidueMachine

/-- What the command line asks for. -/
structure Options where
  /-- Check the codes instead of running them. -/
  check : Bool := false
  /-- List the codes first. -/
  listing : Bool := false
  /-- The limit for the depth of the stack. -/
  limit : Option Nat := none
  /-- How often more verbosity is asked for. -/
  verbosity : Nat := 0
  /-- The paths, in order. -/
  paths : List String := []
  deriving DecidableEq, Repr

/-- What a single argument is. -/
inductive Argument where
  /-- Ask for a check. -/
  | check
  /-- Ask for listings. -/
  | listing
  /-- Set the limit to the next argument. -/
  | limit
  /-- Set the limit to the attached text. -/
  | limitTo (text : String)
  /-- Ask for more verbosity. -/
  | verbose (times : Nat)
  /-- All further arguments are paths. -/
  | endOfOptions
  /-- Name an input. -/
  | path (text : String)
  /-- Something that looks like an option and is none. -/
  | unknown
  deriving DecidableEq, Repr

namespace Argument

/-- The argument that starts with two hyphens and goes on with a text. -/
def ofLong (text : List Char) : Argument :=
  let name := String.ofList (text.takeWhile (· ≠ '='))
  match name, text.dropWhile (· ≠ '=') with
  | "", [] => endOfOptions
  | "check", [] => check
  | "listing", [] => listing
  | "verbose", [] => verbose 1
  | "max-stack-depth", [] => limit
  | "max-stack-depth", _ :: value => limitTo (String.ofList value)
  | _, _ => unknown

/-- The argument that starts with one hyphen and goes on with some letters. -/
def ofShort (letters : List Char) : Argument :=
  if letters.all (· = 'v') then verbose letters.length else unknown

/-- What an argument is. -/
def ofText (text : String) : Argument :=
  match text.toList with
  | '-' :: '-' :: rest => ofLong rest
  | '-' :: c :: rest => ofShort (c :: rest)
  | _ => path text

end Argument

/-- The count that a text writes: digits, perhaps after a plus sign, of a number of 64 bits. -/
def countOf? (text : String) : Option Nat :=
  let value? := match text.toList with
    | '+' :: digits => Numeral.digits? digits
    | digits => Numeral.digits? digits
  value?.filter (· < UInt64.size)

namespace Options

/-- Set the limit, unless it is set or the text is no count. -/
def setLimit? (o : Options) (text : String) : Option Options :=
  match o.limit, countOf? text with
  | none, some n => some { o with limit := some n }
  | _, _ => none

/-- Add what the arguments ask for, unless one of them is wrong. -/
def addArguments? : Options → List String → Option Options
  | o, [] => some o
  | o, text :: rest =>
    match Argument.ofText text with
    | .check => if o.check then none else addArguments? { o with check := true } rest
    | .listing => if o.listing then none else addArguments? { o with listing := true } rest
    | .limit =>
      match rest with
      | [] => none
      | value :: rest => (o.setLimit? value).bind (addArguments? · rest)
    | .limitTo value => (o.setLimit? value).bind (addArguments? · rest)
    | .verbose times => addArguments? { o with verbosity := o.verbosity + times } rest
    | .endOfOptions => some { o with paths := o.paths ++ rest }
    | .path path => addArguments? { o with paths := o.paths ++ [path] } rest
    | .unknown => none

/-- What the arguments ask for, unless one of them is wrong. -/
def ofArguments? (arguments : List String) : Option Options :=
  addArguments? {} arguments

/-- The paths of the inputs.  Without a path the standard input is read. -/
def inputPaths (o : Options) : List String :=
  if o.paths.isEmpty then ["-"] else o.paths

end Options

end ResidueMachine
