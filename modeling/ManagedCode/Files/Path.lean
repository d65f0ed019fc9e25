namespace ManagedCode

namespace Path

/-! Paths are texts whose parts are divided by slashes. -/

/-- A path below a directory; a path that starts with a slash stands for itself. -/
def join (directory path : String) : String :=
  if path.startsWith "/" then path else directory ++ "/" ++ path

/-- The names on the way, without those that lead nowhere. -/
def names (path : String) : List String :=
  (path.splitOn "/").filter fun name => name ≠ "" ∧ name ≠ "."

/-- Whether a path can only mean a directory, since it ends with a slash, a dot or two dots. -/
def meansDirectory (path : String) : Bool :=
  (path.splitOn "/").getLast?.getD "" ∈ ["", ".", ".."]

/-- Drops slashes and dots that lead nowhere from the end of a path, which is given back to
front. -/
def trimEnd : List Char → List Char
  | '/' :: rest => trimEnd rest
  | ['.'] => ['.']
  | '.' :: '/' :: rest => trimEnd rest
  | path => path

/-- What comes before the last name of a path; empty if nothing does. -/
def parent (path : String) : String :=
  String.ofList (trimEnd ((trimEnd path.toList.reverse).dropWhile (· ≠ '/'))).reverse

/-- Whether a path is short enough to lead anywhere. -/
def isShort (path : String) : Bool :=
  path.utf8ByteSize < 4096

/-- Whether a file or directory can have a name. -/
def isName (name : String) : Bool :=
  name.utf8ByteSize ≤ 255 ∧ '\x00' ∉ name.toList

end Path

end ManagedCode
