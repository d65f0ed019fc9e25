import ManagedCode.Symbols.Display
import ManagedCode.Symbols.Outline
import ManagedCode.Symbols.TypeMap
import ManagedCode.Body.Builder
import ManagedCode.Body.Walk
import ManagedCode.Body.Printer
import ManagedCode.Iterator.Lower
import ManagedCode.Run.Instance
import ManagedCode.Metadata.Index
import ManagedCode.Metadata.Signature
import ManagedCode.Metadata.Entity
import ManagedCode.Metadata.Image
import ManagedCode.Metadata.Layout
import ManagedCode.Metadata.Codec
import ManagedCode.Files.Store
import ManagedCode.Compile.FanOut
import ManagedCode.Compile.Unit
import ManagedCode.Compile.Pipeline
import ManagedCode.Toml.Value
import ManagedCode.Toml.Document
import ManagedCode.Compile.SettingsFile
import ManagedCode.Proofs.Symbols.Scope
import ManagedCode.Proofs.Symbols.WellFormed
import ManagedCode.Proofs.Symbols.Made
import ManagedCode.Proofs.Symbols.TypeIds
import ManagedCode.Proofs.Symbols.Substitution
import ManagedCode.Proofs.Symbols.NumberedSubstitution
import ManagedCode.Proofs.Metadata.Closure
import ManagedCode.Proofs.Metadata.Parts
import ManagedCode.Proofs.Metadata.Reserve
import ManagedCode.Proofs.Metadata.Collect
import ManagedCode.Proofs.Metadata.MemberVisits
import ManagedCode.Proofs.Metadata.BodyVisits
import ManagedCode.Proofs.Metadata.Reservations
import ManagedCode.Proofs.Metadata.ReservedSet
import ManagedCode.Proofs.Metadata.ReferenceScope
import ManagedCode.Proofs.Metadata.Encodes
import ManagedCode.Proofs.Metadata.Builds
import ManagedCode.Proofs.Metadata.Requests
import ManagedCode.Proofs.Metadata.Heaps
import ManagedCode.Proofs.Metadata.Rows
import ManagedCode.Proofs.Metadata.RowsByToken
import ManagedCode.Proofs.Metadata.NamesRead
import ManagedCode.Proofs.Metadata.SignatureReader
import ManagedCode.Proofs.Metadata.NoDangling
import ManagedCode.Proofs.Metadata.UniqueSignatures
import ManagedCode.Proofs.Metadata.ImageCodec
import ManagedCode.Proofs.Iterator.HoistReferences
import ManagedCode.Proofs.Iterator.LoweredScope
import ManagedCode.Proofs.Compile.FanOut
import ManagedCode.Proofs.Compile.MachineDefinitions
import ManagedCode.Proofs.Compile.Builds
import ManagedCode.Proofs.Run.Fuel
import ManagedCode.Proofs.Run.Simulation
import ManagedCode.Proofs.Coroutine.Drive
import ManagedCode.Proofs.Run.Jumps
import ManagedCode.Proofs.Iterator.Written
import ManagedCode.Proofs.Iterator.Aligned
import ManagedCode.Proofs.Iterator.NativeExec
import ManagedCode.Proofs.Iterator.NativeRun
import ManagedCode.Proofs.Run.Calls
import ManagedCode.Proofs.Iterator.Handlers
import ManagedCode.Proofs.Iterator.Dispatch
import ManagedCode.Proofs.Body.WellFormed
import ManagedCode.Proofs.Iterator.HoistBody
import ManagedCode.Proofs.Iterator.Analysis
import ManagedCode.Proofs.Iterator.Rewrites
import ManagedCode.Proofs.Iterator.Growth
import ManagedCode.Proofs.Iterator.Readable
import ManagedCode.Proofs.Iterator.Counting
import ManagedCode.Proofs.Iterator.Placement
import ManagedCode.Proofs.Iterator.Lowered
import ManagedCode.Proofs.Iterator.Weigh
import ManagedCode.Proofs.Iterator.DisposeCode
import ManagedCode.Proofs.Iterator.Assembly
import ManagedCode.Proofs.Iterator.Nesting
import ManagedCode.Proofs.Iterator.Leaving
import ManagedCode.Proofs.Iterator.StepRun
import ManagedCode.Proofs.Iterator.Driving
import ManagedCode.Proofs.Iterator.Stepping
import ManagedCode.Proofs.Run.Dialogue
import ManagedCode.Proofs.Coroutine.Live
import ManagedCode.Proofs.Iterator.Calls
import ManagedCode.Proofs.Metadata.MixedRequests
import ManagedCode.Proofs.Iterator.HoistRun
import ManagedCode.Proofs.Iterator.HoistDrive
import ManagedCode.Proofs.Iterator.Behaviour
import ManagedCode.Proofs.Iterator.Rest
import ManagedCode.Proofs.Run.Safety
import ManagedCode.Proofs.Coroutine.Safety
import ManagedCode.Proofs.Iterator.Bracketing
import ManagedCode.Proofs.Iterator.Names
import ManagedCode.Proofs.Iterator.ProxyTargets
import ManagedCode.Proofs.Iterator.Closed
import ManagedCode.Proofs.Body.Parts
import ManagedCode.Proofs.Iterator.Legality
import ManagedCode.Proofs.Iterator.Slots
import ManagedCode.Proofs.Iterator.LabelDemand
import ManagedCode.Proofs.Iterator.DispatchDemand
import ManagedCode.Proofs.Iterator.Rejections
import ManagedCode.Proofs.Run.Fields
import ManagedCode.Proofs.Run.CallsInTurn
import ManagedCode.Proofs.Iterator.BuiltFrames
import ManagedCode.Proofs.Iterator.DisposeCalls
import ManagedCode.Proofs.Iterator.Places
import ManagedCode.Proofs.Iterator.Routes
import ManagedCode.Proofs.Iterator.ClosedRuns
import ManagedCode.Proofs.Run.Flat
import ManagedCode.Proofs.Run.MoreFuel
import ManagedCode.Proofs.Run.Termination
import ManagedCode.Proofs.Metadata.BodyDemands
import ManagedCode.Proofs.Iterator.MachineCode
import ManagedCode.Proofs.Iterator.MachineStates
import ManagedCode.Proofs.Body.Traversal
import ManagedCode.Proofs.Compile.MachineNames
import ManagedCode.Proofs.Compile.MachineRows
import ManagedCode.Proofs.Compile.Shares
import ManagedCode.Proofs.Iterator.FieldNames
import ManagedCode.Proofs.Metadata.BlobsRead
import ManagedCode.Proofs.Iterator.KnownStates
