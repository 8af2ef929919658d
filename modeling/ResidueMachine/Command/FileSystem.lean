/-!
# Files by path

A `FileSystem` holds files in memory, and paths are followed in it step by step.  A path is a row
of steps between slashes.  An empty step and a single dot stay where they are, two dots lead up, and
any other step leads down to what it names.  Each step is taken in a directory, so that a path which
goes on after the name of a file leads nowhere.

No part of the program uses it.  The command line is given a function that reads files, and
`FileSystem.read?` is one to test it with, where the program reads the files of the system.

* `FileSystem.follow` : the location that steps lead to;
* `FileSystem.read?` : the bytes of the file that a path leads to;
* `FileSystem.ofFiles` : the file system around a directory that holds given files.
-/

namespace ResidueMachine

/-! ### Paths -/

/-- The texts between the slashes of a path. -/
def splitAtSlashes : List Char → List (List Char)
  | [] => [[]]
  | c :: rest =>
    match c, splitAtSlashes rest with
    | '/', parts => [] :: parts
    | c, part :: parts => (c :: part) :: parts
    | c, [] => [[c]]

/-- The steps of a path. -/
def pathSteps (path : String) : List String :=
  (splitAtSlashes path.toList).map String.ofList

/-- The names on the way from the root of a file system down to a place in it. -/
abbrev Location := List String

/-- The location that a step leads to.  From the root no step leads up. -/
def Location.step (here : Location) : String → Location
  | "" => here
  | "." => here
  | ".." => here.dropLast
  | name => here ++ [name]

/-! ### File systems -/

/-- Files and directories in memory. -/
structure FileSystem where
  /-- The directory in which relative paths start. -/
  current : Location
  /-- The files.  Of several files at one location the first one counts. -/
  files : List (Location × ByteArray)
  /-- Directories that exist whether or not they hold files. -/
  directories : List Location

namespace FileSystem

variable (s : FileSystem)

/-- The bytes of the file at a location. -/
def file? (here : Location) : Option ByteArray :=
  s.files.lookup here

/-- There is a directory at a location: one that is known, or one on the way to a directory or to
a file. -/
def isDirectory (here : Location) : Bool :=
  (s.current :: s.directories).any (here.isPrefixOf ·) ||
    s.files.any fun (there, _) => here.isPrefixOf there && here ≠ there

/-- The location that steps lead to, unless one of them is not taken in a directory. -/
def follow : Location → List String → Option Location
  | here, [] => some here
  | here, step :: rest => if s.isDirectory here then follow (here.step step) rest else none

/-- The number of bytes that the longest path may have. -/
def longestPath : Nat := 4095

/-- The bytes of the file that a path leads to. -/
def read? (path : String) : Option ByteArray :=
  if longestPath < path.utf8ByteSize then none
  else
    let start := if path.toList.head? = some '/' then [] else s.current
    (s.follow start (pathSteps path)).bind s.file?

/-- The directories below the root that every system has. -/
def systemDirectories : List Location :=
  ["boot", "dev", "etc", "home", "media", "mnt", "opt", "proc", "root", "run", "srv", "sys", "tmp",
    "usr", "var"].map ([·])

/-- The directory for work: a directory for temporary files which no path can name. -/
def workDirectory : Location :=
  ["tmp", ""]

/-- The devices that can be read to an end: the null device, which is empty, and the standard
input. -/
def devices (stdin : ByteArray) : List (Location × ByteArray) :=
  [(["dev", "null"], .empty), (["dev", "stdin"], stdin)]

/-- The file system in which the current directory holds just the files with the given paths.  A
file replaces those at its place that stand before it. -/
def ofFiles (files : List (String × ByteArray)) (stdin : ByteArray) : FileSystem where
  current := workDirectory
  files := devices stdin ++
    files.reverse.map fun (path, bytes) => ((pathSteps path).foldl .step workDirectory, bytes)
  directories := systemDirectories

end FileSystem

end ResidueMachine
