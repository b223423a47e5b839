/-!
# Paths

A path is a text whose segments are separated by slashes. Its last name is the last segment that is
neither empty nor a single dot; a path that ends with two dots, or holds no such segment, has none.
The extension of a name is what follows its last dot, unless nothing precedes that dot.
-/

namespace JackStack.Path

/-- The segments between slashes, the empty ones included. -/
def split : List Char → List (List Char)
  | [] => [[]]
  | c :: rest =>
    if c = '/' then [] :: split rest
    else
      match split rest with
      | [] => [[c]]
      | segment :: more => (c :: segment) :: more

/-- The segments of a path. -/
def segments (path : String) : List String := (split path.toList).map String.ofList

/-- A segment that stays where it is. -/
def isIdle (segment : String) : Bool := segment = "" || segment = "."

/-- A path cut at its last name. -/
structure Parts where
  /-- What stands in front of the name. -/
  front : String
  /-- The name. -/
  name : String
  /-- Nothing follows the name. -/
  final : Bool
  deriving DecidableEq, Repr

/-- Cuts a path at its last name, if it has one. -/
def parts? (path : String) : Option Parts :=
  let backwards := (segments path).reverse
  match backwards.dropWhile isIdle with
  | [] => none
  | name :: before =>
    if name = ".." then none
    else
      some ⟨String.join (before.reverse.map (· ++ "/")), name, backwards.head? = some name⟩

/-- The last name of a path. -/
def name? (path : String) : Option String := (parts? path).map (·.name)

/-- The stem of a name and its extension. -/
def splitExtension (name : String) : String × Option String :=
  let backwards := name.toList.reverse
  match backwards.dropWhile (· ≠ '.') with
  | [] => (name, none)
  | [_] => (name, none)
  | _ :: stem =>
    (String.ofList stem.reverse, some (String.ofList (backwards.takeWhile (· ≠ '.')).reverse))

/-- The extension of the last name. -/
def extension? (path : String) : Option String := (name? path).bind fun n => (splitExtension n).2

/-- The path with its last name under another extension; what follows the name is dropped. A path
without a last name stays as it is. Where the name ends the path and its stem is a single dot, what
is left of it in front of the old extension is no name, and stays without the new one. -/
def withExtension (path extension : String) : String :=
  match parts? path with
  | none => path
  | some p =>
    let stem := (splitExtension p.name).1
    if stem = "." && p.final then p.front ++ ".." else p.front ++ stem ++ "." ++ extension

/-- The path of a name inside a directory. -/
def join (directory name : String) : String :=
  if directory.toList.getLast? = some '/' then directory ++ name else directory ++ "/" ++ name

end JackStack.Path
