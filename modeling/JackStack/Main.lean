import JackStack.Batch

/-!
# The program

The part of the disk that the arguments name is read into a value, the batch runs on that value,
and what it changed is written back.
-/

namespace JackStack.Disk

/-- The absolute path of a location. -/
def absolute (place : Location) : String := "/" ++ "/".intercalate place

/-- Where a path leads, by its text alone. -/
def textual (current : Location) (path : String) : Location :=
  (Path.segments path).foldl
    (fun place segment =>
      if Path.isIdle segment then place
      else if segment = ".." then place.dropLast
      else place ++ [segment])
    (if path.toList.head? = some '/' then [] else current)

/-- Reads what stands at a location, if anything does. -/
def loadEntry (fs : FileSystem) (place : Location) : IO FileSystem := do
  let here := (← IO.currentDir) / absolute place
  if ← here.isDir then
    return fs.addDirectory place
  else if ← here.pathExists then
    return fs.addFile place (← IO.FS.readBinFile here)
  else
    return fs

/-- Reads what stands at a path and on the way to it. -/
def loadPath (fs : FileSystem) (path : String) : IO FileSystem := do
  let mut fs := fs
  let mut walked := if path.toList.head? = some '/' then "/" else "."
  for segment in Path.segments path do
    walked := Path.join walked segment
    fs ← loadEntry fs (textual fs.current walked)
  return fs

/-- Reads everything that compiling a path may look at. -/
def loadUnit (fs : FileSystem) (path : String) : IO FileSystem := do
  loadPath (← loadPath fs path) (Sources.outputPath path)

/-- Reads everything that compiling what a path names may look at. -/
def loadArgument (fs : FileSystem) (path : String) : IO FileSystem := do
  let mut fs ← loadUnit fs path
  if fs.isDirectory path then
    let here := (← IO.currentDir) / absolute (textual fs.current path)
    for entry in ← here.readDir do
      if Sources.isSource entry.fileName then
        fs ← loadUnit fs (Path.join path entry.fileName)
  return fs

/-- The location holds a file with this content. -/
def holds (fs : FileSystem) (place : Location) (content : ByteArray) : Bool :=
  match fs.find? place with
  | some (.file old) => old.data == content.data
  | _ => false

/-- Writes back what changed. -/
def store (before after : FileSystem) : IO Unit := do
  for (place, _) in before.entries do
    if (after.find? place).isNone then
      IO.FS.removeFile (absolute place)
  for (place, entry) in after.entries do
    match entry with
    | .directory => pure ()
    | .file content =>
      unless holds before place content do
        IO.FS.writeBinFile (absolute place) content

end JackStack.Disk

open JackStack in
/-- Compiles the classes that the arguments name. -/
def main (args : List String) : IO UInt32 := do
  let current := ((Path.segments (← IO.currentDir).toString).filter (! Path.isIdle ·))
  let start := ({ current } : FileSystem).addDirectory current
  let paths := ((Batch.request? args).map (·.paths)).getD []
  let before ← paths.foldlM Disk.loadArgument start
  let result := Batch.run before args
  let rank := Batch.logRank (← IO.getEnv "RUST_LOG")
  Disk.store before result.files
  let output ← IO.getStdout
  output.write (result.output rank)
  output.flush
  return result.exitCode
