import JackStack.Files.Sources

/-!
# The command line

A batch compiles the units that its paths name, one after the other; a failing unit does not keep
the others from being compiled. Everything that is printed goes to one stream: the records of the
log and, if asked for, the code itself.
-/

namespace JackStack.Batch

/-- What the command line asks for. -/
structure Request where
  /-- How classes are compiled. -/
  options : Options := {}
  /-- Print the code instead of writing files. -/
  toOutput : Bool := false
  /-- The paths of the units, in order. -/
  paths : List String := []
  deriving DecidableEq, Repr

/-- The largest number that an option takes. -/
def maxCount : Nat := 18446744073709551615

/-- Reads a count: decimal digits, with a plus sign in front if one likes. -/
def count? (s : String) : Option Nat :=
  let digits := match s.toList with
    | '+' :: rest => rest
    | all => all
  if digits.isEmpty || !digits.all Char.isDigit then none
  else
    let n := digits.foldl (fun n d => n * 10 + (d.toNat - 48)) 0
    if n ≤ maxCount then some n else none

/-- Reads the arguments behind those already read; none when they make no sense. -/
def Request.extend? (r : Request) : List String → Option Request
  | [] => if r.paths.isEmpty then none else some r
  | "--indent" :: rest =>
    match rest with
    | [] => none
    | value :: rest' =>
      match count? value with
      | some n => Request.extend? { r with options := { indent := n } } rest'
      | none => none
  | "--stdout" :: rest => Request.extend? { r with toOutput := true } rest
  | arg :: rest =>
    if "--".isPrefixOf arg then none
    else Request.extend? { r with paths := r.paths ++ [arg] } rest

/-- Reads the arguments of the command line; none when they make no sense. -/
def request? (args : List String) : Option Request := Request.extend? {} args

/-- How to call the program. -/
def usage : String :=
  "\nusage: jackc [--indent N] [--stdout] PATH...\n" ++
  "\nCompiles each .jack file, or every .jack file directly inside a directory,\n" ++
  "into a .vm file next to it.\n" ++
  "\noptions:\n" ++
  "    --indent N    spaces in front of instructions inside a function (default 4)\n" ++
  "    --stdout      write instructions to stdout instead of .vm files\n"

/-- A piece of what is printed. -/
inductive Printed where
  | usage
  | record (record : Record)
  | code (bytes : ByteArray)

/-- The origin of the records made here. -/
def origin : String := "jackc"

/-- The record of a failure. -/
def failure (message : String) : Printed := .record ⟨.error, origin, message⟩

/-- How far a batch has come. -/
structure Progress where
  /-- The files so far. -/
  files : FileSystem
  /-- What has been printed, last piece first. -/
  printed : List Printed := []
  /-- The number of failures. -/
  failed : Nat := 0

namespace Progress

/-- Prints pieces. -/
def print (p : Progress) (pieces : List Printed) : Progress :=
  { p with printed := pieces.reverse ++ p.printed }

/-- Prints and counts a failure. -/
def fail (p : Progress) (message : String) : Progress :=
  { p.print [failure message] with failed := p.failed + 1 }

/-- Ends a unit that failed: the path and then the whole trail of causes. -/
def failUnit (p : Progress) (path : String) (e : Error) : Progress :=
  p.fail (": ".intercalate (path :: e.trail))

/-- Compiles one unit. -/
def unit (r : Request) (p : Progress) (path : String) : Progress :=
  if r.toOutput then
    let (records, result) := Sources.compileInMemory p.files path r.options
    let p := p.print (records.map .record)
    match result with
    | .ok code => p.print [.code code]
    | .error e => p.failUnit path e
  else
    let compiled := Sources.compileFile p.files path r.options
    let p := { p with files := compiled.files }.print (compiled.records.map .record)
    match compiled.result with
    | .ok _ => p
    | .error e => p.failUnit path e

/-- Compiles the units that a path names. -/
def path (r : Request) (p : Progress) (path : String) : Progress :=
  let (records, result) := Sources.find p.files path
  let p := p.print (records.map .record)
  match result with
  | .ok units => units.foldl (unit r) p
  | .error e => p.fail (path ++ ": " ++ e.message)

end Progress

/-- What a batch leaves behind. -/
structure Result where
  /-- What was printed, in order. -/
  printed : List Printed
  /-- The exit code. -/
  exitCode : UInt32
  /-- The files afterwards. -/
  files : FileSystem

/-- Runs the command line on a file system. -/
def run (files : FileSystem) (args : List String) : Result :=
  match request? args with
  | none => ⟨[.usage], 64, files⟩
  | some r =>
    let p := r.paths.foldl (Progress.path r) { files }
    if p.failed = 0 then ⟨p.printed.reverse, 0, p.files⟩
    else
      let p := p.print [failure (toString p.failed ++ " unit(s) failed")]
      ⟨p.printed.reverse, 1, p.files⟩

/-- How far down the log goes when a level is named; any other word, or none, keeps warnings. -/
def logRank (word : Option String) : Nat :=
  match word.map String.toLower with
  | some "off" => 0
  | some "error" => Level.error.rank
  | some "info" => Level.info.rank
  | some "debug" => Level.debug.rank
  | some "trace" => Level.trace.rank
  | _ => Level.warn.rank

/-- The bytes of a piece; records further down than a rank are left out. -/
def Printed.bytes (rank : Nat) : Printed → ByteArray
  | usage => (Batch.usage ++ "\n").toUTF8
  | record r => if r.within rank then (r.text 5 ++ "\n").toUTF8 else .empty
  | code bytes => bytes

/-- All that is printed. -/
def Result.output (r : Result) (rank : Nat) : ByteArray :=
  r.printed.foldl (fun out piece => out ++ piece.bytes rank) .empty

end JackStack.Batch
