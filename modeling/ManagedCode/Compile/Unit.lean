import ManagedCode.Iterator.Machine

namespace ManagedCode

/-- What is compiled into one module. -/
structure CompilationUnit where
  symbols : Symbols
  module : ModuleId
  iterators : List IteratorMethod := []
  /-- The bodies of the methods that are no iterators. -/
  bodies : List (MethodId × Body) := []
  deriving Inhabited

/-- A machine with its definitions: its fields in slot order and its methods by id. -/
structure EmittedMachine where
  machine : StateMachine
  typeDef : TypeDefId
  fields : List FieldId
  methods : List MethodId
  deriving Inhabited

namespace Symbols

def addMachineFields (symbols : Symbols) (owner : TypeDefId) :
    List MachineField → List FieldId × Symbols
  | [] => ([], symbols)
  | field :: rest =>
    let (id, symbols) := symbols.addField owner field.name field.ty
    let (ids, symbols) := addMachineFields symbols owner rest
    (id :: ids, symbols)

def addMachineMethods (symbols : Symbols) (owner : TypeDefId) :
    List SynthesizedMethod → List MethodId × Symbols
  | [] => ([], symbols)
  | method :: rest =>
    let (id, symbols) := symbols.addMethod owner method.name [] method.ret
    let (ids, symbols) := addMachineMethods symbols owner rest
    (id :: ids, symbols)

/-- Defines a machine as a type nested in the type of its iterator. -/
def addMachine (symbols : Symbols) (machine : StateMachine) : EmittedMachine × Symbols :=
  let owner := (symbols.method machine.method).owner
  let (typeDef, symbols) := symbols.addNestedType owner machine.name 0
  let (fields, symbols) := symbols.addMachineFields typeDef machine.fields
  let (methods, symbols) := symbols.addMachineMethods typeDef machine.methods
  ({ machine, typeDef, fields, methods }, symbols)

def addMachines (symbols : Symbols) : List StateMachine → List EmittedMachine × Symbols
  | [] => ([], symbols)
  | machine :: rest =>
    let (emitted, symbols) := symbols.addMachine machine
    let (others, symbols) := addMachines symbols rest
    (emitted :: others, symbols)

end Symbols

end ManagedCode
