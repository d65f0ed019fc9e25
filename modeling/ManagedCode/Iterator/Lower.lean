import ManagedCode.Iterator.Dispose

namespace ManagedCode

/-- How machines are named. -/
structure LoweringOptions where
  namePrefix : String := "<>d__"
  deriving DecidableEq, Inhabited

/-- The machine of an iterator. All its methods draw labels and try ids from one supply. -/
def lowerIterator (symbols : Symbols) (options : LoweringOptions) (iterator : IteratorMethod) :
    Except LoweringFault StateMachine := do
  let body := iterator.body
  let facts ← YieldFacts.ofBody body
  let some (exitLabel, ids) := (FreshIds.after body).label? | throw .idOverflow
  let source : Lowering.Source :=
    { facts, exitLabel, localTys := body.locals.map (·.ty), paramCount := body.params.length }
  let (step, progress) ← (Lowering.rewriteStep source body.root).run { ids }
  let some (dispose, ids) := (Dispose.build progress.frames).run progress.ids | throw .idOverflow
  let some method := symbols.methods[iterator.method.index]?
    | throw (.unknownMethod symbols.methods.length iterator.method)
  let methods : List SynthesizedMethod :=
    { name := "MoveNext", kind := .step, ret := .primitive .bool, body := step } ::
    { name := "Dispose", kind := .dispose, ret := .void, body := dispose } ::
    progress.handlers
  return {
    name := options.namePrefix ++ method.name
    method := iterator.method
    elementTy := iterator.elementTy
    fields := machineFields iterator
    methods := methods.map fun m =>
      { m with body := { m.body with labelCount := ids.labelCount, tryCount := ids.tryCount } }
    resumeStates := (List.range progress.resumeLabels.length).map Int.ofNat
    finalizeStates := (List.range progress.handlers.length).map fun (i : Nat) => firstFinalizeState - i }

end ManagedCode
