import ResidueMachine.Code.Listing
import ResidueMachine.Command.Input
import ResidueMachine.Command.Options
import ResidueMachine.Diagnostic

/-!
# The command line

`Command.answer` is all that the command line does, as a function of its arguments, the files and
the standard input.

All inputs are loaded first (`loadAll`).  Then those that could be loaded are listed, if that is
asked for (`listAll`).  At last each of them is checked (`checkAll`), or all of them are run and
their results told one by one (`runAll`).  What goes wrong with an input is reported and counted, in
a `Session` that all these loops go on with, and the other inputs are not affected.
-/

namespace ResidueMachine

/-- What is reported about an input that fails. -/
inductive Report where
  /-- The input cannot be loaded. -/
  | problem (problem : Problem)
  /-- The code fails. -/
  | diagnostic (diagnostic : Diagnostic)

namespace Report

/-- The code that stands for the kind of report. -/
def code : Report → String
  | problem p => p.code
  | diagnostic d => d.failure.fault.code

/-- The report as it is printed. -/
def write : Report → String
  | problem p =>
    let hint := match p.help? with
      | some hint => s!"  help: {hint}\n"
      | none => ""
    s!"[{p.code}] {p.message}\n{hint}"
  | diagnostic d => d.write true

end Report

namespace Command

/-- What the command line prints, and how it exits. -/
structure Answer where
  /-- The text on the standard output. -/
  stdout : String
  /-- The exit code. -/
  exitCode : Nat
  /-- How many inputs failed, in words, if any did. -/
  failed? : Option String
  /-- The reports, in order. -/
  reports : List Report

/-- The answer to arguments that are wrong. -/
def usageError : Answer where
  stdout := ""
  exitCode := 2
  failed? := none
  reports := []

/-- The text in front of what is printed about an input.  A single input needs none. -/
def label (o : Options) (name : String) : String :=
  if 1 < o.inputPaths.length then s!"{name}: " else ""

/-! ### Work on inputs -/

/-- What the command line keeps while it works. -/
structure Session where
  /-- The bytes left on the standard input. -/
  stdin : ByteArray
  /-- The inputs that have been loaded, in order. -/
  loaded : Array LoadedSource := #[]
  /-- How many inputs have failed. -/
  failures : Nat := 0
  /-- What has been reported, in order. -/
  reports : Array Report := #[]
  /-- What has been printed. -/
  stdout : String := ""

/-- Work that goes on with a session. -/
abbrev Work := StateM Session

/-- Print a line. -/
def print (line : String) : Work Unit :=
  modify fun s => { s with stdout := s.stdout ++ (line ++ "\n") }

/-- Report what is wrong with an input. -/
def report (r : Report) : Work Unit :=
  modify fun s => { s with reports := s.reports.push r }

/-- Count an input that fails. -/
def countFailure : Work Unit :=
  modify fun s => { s with failures := s.failures + 1 }

/-- Keep an input that has been loaded. -/
def keep (l : LoadedSource) : Work Unit :=
  modify fun s => { s with loaded := s.loaded.push l }

/-- Read what is left of the standard input. -/
def readStdin : Work ByteArray :=
  modifyGet fun s => (s.stdin, { s with stdin := .empty })

/-- The input that a path names, where `read` finds the bytes of a file. -/
def readInput (read : String → Option ByteArray) (path : String) : Work Input := do
  if path = "-" then return ⟨Source.anonymousName, some (← readStdin)⟩
  else return ⟨path, read path⟩

/-- Load an input. -/
def loadInput (i : Input) : Work Unit := do
  match i.source with
  | .error problem =>
    report (.problem problem)
    countFailure
  | .ok source =>
    match source.load with
    | .ok loaded => keep ⟨source, loaded⟩
    | .error error =>
      report (.problem (.load source.name error))
      countFailure

/-- List a loaded input. -/
def listInput (o : Options) (l : LoadedSource) : Work Unit :=
  print (label o l.source.name ++ l.loaded.code.listing)

/-- Report the failure of a loaded input. -/
def reportFailure (l : LoadedSource) (failure : Failure) : Work Unit :=
  report (.diagnostic (.ofFailure failure l.loaded l.source))

/-- Check a loaded input. -/
def checkInput (o : Options) (l : LoadedSource) : Work Unit := do
  match l.loaded.code.check o.limit with
  | .ok profile =>
    print (label o l.source.name ++
      s!"ok max_depth={profile.maxDepth} final_depth={profile.finalDepth}")
  | .error failure =>
    reportFailure l failure
    countFailure

/-- Tell the result of the run of a loaded input. -/
def tellResult (o : Options) (l : LoadedSource) (result : Except Failure Int64) : Work Unit := do
  match result with
  | .ok value => print (label o l.source.name ++ toString value)
  | .error failure =>
    reportFailure l failure
    countFailure

/-- Load all inputs. -/
def loadAll (o : Options) (read : String → Option ByteArray) : Work Unit :=
  o.inputPaths.forM fun path => do loadInput (← readInput read path)

/-- List all loaded inputs. -/
def listAll (o : Options) : Work Unit := do
  (← get).loaded.toList.forM (listInput o)

/-- Check all loaded inputs, one after the other. -/
def checkAll (o : Options) : Work Unit := do
  (← get).loaded.toList.forM (checkInput o)

/-- Run the codes of all loaded inputs, and tell each input its result. -/
def runAll (o : Options) : Work Unit := do
  let loaded := (← get).loaded.toList
  let results := runCodes (loaded.map (·.loaded.code)) o.limit
  (loaded.zip results).forM fun (l, result) => tellResult o l result

/-- All the work that the options ask for. -/
def work (o : Options) (read : String → Option ByteArray) : Work Unit := do
  loadAll o read
  if o.listing then listAll o
  if o.check then checkAll o else runAll o

/-- The answer at the end of a session with `total` inputs. -/
def Session.answer (s : Session) (total : Nat) : Answer where
  stdout := s.stdout
  exitCode := if 0 < s.failures then 1 else 0
  failed? := if 0 < s.failures then some s!"{s.failures} of {total} input(s) failed" else none
  reports := s.reports.toList

/-- The answer for given options, where `read` finds the bytes of a file. -/
def answerOptions (o : Options) (read : String → Option ByteArray) (stdin : ByteArray) : Answer :=
  let (_, s) := (work o read).run { stdin }
  s.answer o.inputPaths.length

/-- The answer for given arguments. -/
def answer (arguments : List String) (read : String → Option ByteArray) (stdin : ByteArray) :
    Answer :=
  match Options.ofArguments? arguments with
  | some o => answerOptions o read stdin
  | none => usageError

end Command

end ResidueMachine
