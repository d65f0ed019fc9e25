import ManagedCode.Files.Path

namespace ManagedCode

/-- Directories and plain files, each given by the names on the way to it, innermost first. The
outermost directory is always there. -/
structure FileStore where
  directories : List (List String) := []
  files : List (List String × List UInt8) := []
  deriving DecidableEq, Inhabited

namespace FileStore

variable (store : FileStore)

def isDirectory (place : List String) : Bool :=
  place = [] ∨ place ∈ store.directories

def isFile (place : List String) : Bool :=
  (store.files.lookup place).isSome

/-- The place reached from a directory by the names of a path, all of them directories. -/
def walk? (place : List String) : List String → Option (List String)
  | [] => some place
  | ".." :: names => walk? place.tail names
  | name :: names =>
    if store.isDirectory (name :: place) then walk? (name :: place) names else none

/-- Where the file of a path is, if the directories on the way to it are there. -/
def filePlace? (path : String) : Option (List String) := do
  if Path.meansDirectory path ∨ ¬ Path.isShort path then
    none
  else
    let names := Path.names path
    let place ← store.walk? [] names.dropLast
    let name ← names.getLast?
    if Path.isName name then some (name :: place) else none

def read? (path : String) : Option (List UInt8) := do
  store.files.lookup (← store.filePlace? path)

/-- Replaces a file or makes a new one in a directory that is there. -/
def write? (path : String) (bytes : List UInt8) : Option FileStore := do
  let place ← store.filePlace? path
  if store.isDirectory place then
    none
  else
    some { store with files := (place, bytes) :: store.files.filter (·.1 ≠ place) }

/-- Makes the directories that are missing on the way from a directory. -/
def makeWay? (store : FileStore) (place : List String) : List String → Option FileStore
  | [] => some store
  | ".." :: names => makeWay? store place.tail names
  | name :: names =>
    let next := name :: place
    if store.isDirectory next then
      makeWay? store next names
    else if store.isFile next ∨ ¬ Path.isName name then
      none
    else
      makeWay? { store with directories := next :: store.directories } next names

/-- Makes a directory, and those around it that are missing. -/
def makeDirectory? (path : String) : Option FileStore :=
  if Path.isShort path then store.makeWay? [] (Path.names path) else none

end FileStore

end ManagedCode
