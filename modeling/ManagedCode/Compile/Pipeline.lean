import ManagedCode.Compile.FanOut
import ManagedCode.Compile.SettingsFile
import ManagedCode.Compile.Unit
import ManagedCode.Files.Store
import ManagedCode.Metadata.Codec
import ManagedCode.Metadata.Index
import ManagedCode.Metadata.Layout

namespace ManagedCode

inductive CompileStage where
  | lowerIterators
  | indexDefinitions
  | indexBodies
  | buildImage
  deriving DecidableEq, Inhabited

/-- Why a unit was not compiled. -/
inductive CompileFault where
  | work (stage : CompileStage) (cause : WorkFault)
  | emission (stage : CompileStage) (cause : Fault)
  | createDirectory (path : String)
  | writeImage (path : String)
  deriving DecidableEq, Inhabited

/-- What was being done. -/
def CompileStage.failure : CompileStage → String
  | .lowerIterators => "Failed to lower iterators"
  | .indexDefinitions => "Failed to index definitions"
  | .indexBodies => "Failed to index bodies"
  | .buildImage => "Failed to build tables image"

namespace CompileFault

/-- What failed, without the cause. -/
def summary : CompileFault → String
  | .work stage _ | .emission stage _ => stage.failure
  | .createDirectory path => "Failed to create output directory: " ++ path
  | .writeImage path => "Failed to write tables image: " ++ path

def message (fault : CompileFault) : String :=
  match fault with
  | .work _ cause => fault.summary ++ ": " ++ cause.message
  | .emission _ cause => fault.summary ++ ": " ++ cause.message
  | _ => fault.summary

end CompileFault

/-- A compiled module. -/
structure EmitOutput where
  /-- The program with the machines among its definitions. -/
  symbols : Symbols
  /-- The machines in the order of their iterators. -/
  machines : List EmittedMachine
  image : TablesImage
  bytes : List UInt8
  written : Option String
  deriving Inhabited

/-- The first machine made of a method. -/
def EmitOutput.machineFor? (output : EmitOutput) (method : MethodId) : Option EmittedMachine :=
  output.machines.find? (·.machine.method = method)

namespace Compile

/-- A worker breaks on a misuse; any other fault is its result. -/
def indexBody (target : Target) (body : Body) : StateM Session (Option (Except Fault Unit)) :=
  fun session =>
    match (target.visitBody body).run session with
    | .ok _ next => (some (.ok ()), next)
    | .error (.misuse _) next => (none, next)
    | .error fault next => (some (.error fault), next)

/-- A step of emission as a stage of compilation. -/
def emit {α : Type} (stage : CompileStage) (action : Emit α) (session : Session) :
    Except CompileFault (α × Session) :=
  match action.run session with
  | .ok value next => .ok (value, next)
  | .error fault _ => .error (.emission stage fault)

/-- Writes a file after making the directories it is to lie in. -/
def write (files : FileStore) (path : String) (bytes : List UInt8) :
    Except CompileFault FileStore := do
  let parent := Path.parent path
  let some files := files.makeDirectory? parent
    | throw (.createDirectory parent)
  let some files := files.write? path bytes
    | throw (.writeImage path)
  return files

end Compile

open Compile in
/-- Lowers the iterators, defines their machines, collects what definitions and bodies refer to,
and lays the tables out. -/
def compile (settings : Settings) (processors : Nat) (cancelled : Bool) (files : FileStore)
    (unit : CompilationUnit) : Except CompileFault (EmitOutput × FileStore) := do
  let workers := settings.workerCount processors
  let lower (iterator : IteratorMethod) : Id (Option StateMachine) :=
    (lowerIterator unit.symbols settings.lowering iterator).toOption
  let lowered ← (fanOut workers cancelled lower unit.iterators).run.mapError (.work .lowerIterators)
  let (machines, symbols) := unit.symbols.addMachines lowered
  let target : Target := { symbols, module := unit.module }
  let (_, session) ← emit .indexDefinitions target.visitDefinitions {}
  let bodies := unit.bodies.map (·.2) ++ machines.flatMap fun m => m.machine.methods.map (·.body)
  let (indexed, session) := (fanOut workers cancelled (indexBody target) bodies).run session
  (← indexed.mapError (.work .indexBodies)).forM fun result =>
    result.mapError (.emission .indexBodies)
  let (image, _) ← emit .buildImage target.image session
  let bytes := image.encode
  let files ← settings.output.elim (pure files) fun path => write files path bytes
  return ({ symbols, machines, image, bytes, written := settings.output }, files)

end ManagedCode
