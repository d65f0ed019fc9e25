import ManagedCode.Files.Store
import ManagedCode.Iterator.Lower
import ManagedCode.Metadata.Heap
import ManagedCode.Toml.Document

namespace ManagedCode

/-- How a module is compiled. -/
structure Settings where
  /-- As many as there are processors if not given. -/
  workers : Option Nat := none
  /-- Where the image is written; nothing is written if not given. -/
  output : Option String := none
  lowering : LoweringOptions := {}
  deriving DecidableEq, Inhabited

/-- The number of workers, of whom there is at least one. -/
def Settings.workerCount (settings : Settings) (processors : Nat) : Nat :=
  max 1 (settings.workers.getD processors)

namespace Toml

namespace Value

def text? : Value → Option String
  | .string text => some text
  | _ => none

def natural? : Value → Option Nat
  | .integer value => if value < 0 then none else some value.toNat
  | _ => none

/-- How the settings of a section are found: by key in a table, and by place in an array. A date
counts as a section that sets nothing. -/
def section? : Value → Option (String → Nat → Option Value)
  | .table _ entries | .inlineTable entries => some fun key _ => entries.lookup key
  | .array items => some fun _ place => items[place]?
  | .tables elements => some fun _ place => elements[place]?.map (.table .header)
  | .datetime _ => some fun _ _ => none
  | _ => none

/-- What a path of keys leads to. -/
def at? (value : Value) : List String → Option Value
  | [] => some value
  | key :: keys =>
    match value with
    | .table _ entries | .inlineTable entries => do at? (← entries.lookup key) keys
    | _ => none

end Value

end Toml

namespace Settings

/-- The settings of a document. Keys of other names are not looked at. -/
def ofDocument? (document : Toml.Entries) : Option Settings := do
  let find (key : String) : Option (String → Nat → Option Toml.Value) :=
    match document.get? key with
    | some value => value.section?
    | none => some fun _ _ => none
  let emit ← find "emit"
  let lowering ← find "lowering"
  let namePrefix ← (lowering "name_prefix" 0).mapM Toml.Value.text?
  return {
    workers := ← (emit "workers" 0).mapM Toml.Value.natural?
    output := ← (emit "output" 1).mapM Toml.Value.text?
    lowering := { namePrefix := namePrefix.getD ({} : LoweringOptions).namePrefix } }

def ofText? (text : String) : Option Settings := do
  ofDocument? (← Toml.parse text)

end Settings

/-- Why settings were not loaded. -/
inductive SettingsFault where
  | unreadable (path : String)
  | invalid (path : String)
  deriving DecidableEq, Inhabited

def SettingsFault.message : SettingsFault → String
  | .unreadable path => "Failed to read config file: " ++ path
  | .invalid path => "Failed to parse config file: " ++ path

/-- The settings that a file holds. -/
def Settings.load (files : FileStore) (path : String) : Except SettingsFault Settings :=
  match (files.read? path).bind ofUtf8Bytes? with
  | none => .error (.unreadable path)
  | some text =>
    match Settings.ofText? text with
    | none => .error (.invalid path)
    | some settings => .ok settings

end ManagedCode
