import JackStack.Compile
import JackStack.Files.FileSystem

/-!
# Source files and their output files

A path names the source files to compile: itself, or those directly inside a directory. The code of
a source file goes to a file beside it under another extension. That file is created before the
source is read and removed again when the compilation fails.
-/

namespace JackStack.Sources

/-- The extension of source files. -/
def sourceExtension : String := "jack"

/-- The extension of output files. -/
def outputExtension : String := "vm"

/-- The path has the extension of source files. -/
def isSource (path : String) : Bool := Path.extension? path = some sourceExtension

/-- The path of the output file that belongs to a source file. -/
def outputPath (path : String) : String := Path.withExtension path outputExtension

/-- A path that names no source files. -/
def notASource (path : String) : IoError :=
  ⟨.invalidInput, path ++ " is not a ." ++ sourceExtension ++ " file or a directory"⟩

/-- The origin of the records made here. -/
def origin : String := "jack::driver"

/-- The path itself as the only source file; nothing is asked of it but its extension. -/
def single (path : String) : Except IoError (List String) :=
  if isSource path then .ok [path] else .error (notASource path)

/-- The source files that a path names: those of a directory by name in increasing order, or the
path itself. -/
def find (fs : FileSystem) (path : String) : List Record × Except IoError (List String) :=
  match fs.locate path with
  | .error _ => ([], single path)
  | .ok place =>
    if (fs.find? place).any Entry.isDirectory then
      let names := ((fs.fileNames place).filter isSource).mergeSort fun a b => a ≤ b
      let record := ⟨.debug, origin, path ++ ": " ++ toString names.length ++ " source file(s)"⟩
      ([record], .ok (names.map (Path.join path)))
    else ([], single path)

/-- What reading an entry gives: the content of a file, and a failure for a directory. -/
def readings : Entry → List Reading
  | .file content => Reading.ofBytes content.toList
  | .directory => [.fault FileSystem.isADirectory]

/-- Compiles the file of a path in memory: the records made, and the code or the failure. -/
def compileInMemory (fs : FileSystem) (path : String) (options : Options) :
    List Record × Except Error ByteArray :=
  match fs.lookup path with
  | .error e => ([], .error (.io e))
  | .ok entry =>
    let report := compile (readings entry) {} options
    let records := report.notes.map Note.record
    match report.verdict with
    | .error e => (records, .error e)
    | .ok () =>
      let size := toString report.output.size
      (records ++ [⟨.debug, origin, path ++ ": " ++ size ++ " byte(s) compiled"⟩],
        .ok report.output)

/-- What compiling a file leaves behind. -/
structure Compiled where
  /-- The records made, in order. -/
  records : List Record
  /-- The path of the output file, or the failure. -/
  result : Except Error String
  /-- The files afterwards. -/
  files : FileSystem

/-- Compiles the file of a path into its output file. The output file is emptied before the source
is read, which matters when they are the same. -/
def compileFile (fs : FileSystem) (path : String) (options : Options) : Compiled :=
  let outPath := outputPath path
  let opened := do
    let source ← fs.locate path
    let _ ← fs.lookup path
    let (target, emptied) ← fs.create outPath
    return (source, target, emptied)
  match opened with
  | .error e => ⟨[], .error (.io e), fs⟩
  | .ok (source, target, emptied) =>
    let input := ((emptied.find? source).map readings).getD []
    let report := compile input {} options
    let records := report.notes.map Note.record
    match report.verdict with
    | .error e => ⟨records, .error e, emptied.erase target⟩
    | .ok () =>
      ⟨records ++ [⟨.info, origin, path ++ " -> " ++ outPath⟩], .ok outPath,
        emptied.insert target (.file report.output)⟩

end JackStack.Sources
