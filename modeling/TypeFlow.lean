import TypeFlow.Index
import TypeFlow.Ordered
import TypeFlow.Ty.Basic
import TypeFlow.Ty.Order
import TypeFlow.Ty.Join
import TypeFlow.Text.Ranges
import TypeFlow.Text.Printable
import TypeFlow.Text.Quoted
import TypeFlow.Ty.Print
import TypeFlow.Script.Basic
import TypeFlow.Script.Nodes
import TypeFlow.Script.Region
import TypeFlow.Script.Malformed
import TypeFlow.Script.Builder
import TypeFlow.Store.Dangling
import TypeFlow.Store.Env
import TypeFlow.Store.Closures
import TypeFlow.Store.Heap
import TypeFlow.Store.Protos
import TypeFlow.Options
import TypeFlow.Globals
import TypeFlow.Engine.Event
import TypeFlow.Engine.Run
import TypeFlow.Engine.Operator
import TypeFlow.Engine.Member
import TypeFlow.Engine.Call
import TypeFlow.Engine.Infer
import TypeFlow.Engine.Invoke
import TypeFlow.Engine.Program
import TypeFlow.Result.Resolve
import TypeFlow.Result.TypeMap
import TypeFlow.Result.Finish
import TypeFlow.Result.Declarations
import TypeFlow.Result.Report
import TypeFlow.Proofs.Ordered
import TypeFlow.Proofs.Types.Normal
import TypeFlow.Proofs.Types.Order
import TypeFlow.Proofs.Script.Captures
import TypeFlow.Proofs.Engine.Calls
import TypeFlow.Proofs.Engine.Invocations
import TypeFlow.Proofs.Engine.Programs
import TypeFlow.Proofs.Engine.Termination
import TypeFlow.Proofs.Engine.Validity
import TypeFlow.Proofs.Engine.Widening
import TypeFlow.Proofs.Engine.Lockstep
import TypeFlow.Proofs.Engine.Watch
import TypeFlow.Proofs.Engine.Stack
import TypeFlow.Proofs.Result.Resolution
import TypeFlow.Proofs.Result.Expansion
import TypeFlow.Proofs.Result.Detached
import TypeFlow.Proofs.Result.Remembered
import TypeFlow.Proofs.Engine.Coherence
import TypeFlow.Proofs.Engine.PostFixed
import TypeFlow.Proofs.Script.Duplicates
import TypeFlow.Proofs.Engine.Isolation
import TypeFlow.Proofs.Engine.Signatures
import TypeFlow.Proofs.Script.Exposure
import TypeFlow.Proofs.Engine.Idle
import TypeFlow.Proofs.Engine.Survey
import TypeFlow.Proofs.Engine.Coverage
import TypeFlow.Proofs.Result.Reports
import TypeFlow.Proofs.Engine.Reached
import TypeFlow.Proofs.Store.Interning
import TypeFlow.Proofs.Engine.Identity
import TypeFlow.Proofs.Store.Chains
import TypeFlow.Proofs.Engine.Variables
import TypeFlow.Proofs.Result.Tables
import TypeFlow.Proofs.Result.Bindings
import TypeFlow.Proofs.Result.Printed
import TypeFlow.Proofs.Result.Declared
import TypeFlow.Proofs.Engine.Hoisting
import TypeFlow.Proofs.Result.Unbound
import TypeFlow.Proofs.Engine.References
import TypeFlow.Proofs.Engine.Visibility
import TypeFlow.Proofs.Engine.Receivers
import TypeFlow.Proofs.Store.Links
import TypeFlow.Proofs.Store.Dispatch
import TypeFlow.Proofs.Store.Ancestry
import TypeFlow.Proofs.Store.Prototypes
import TypeFlow.Proofs.Text.Quoted
import TypeFlow.Proofs.Types.Legible
import TypeFlow.Proofs.Types.Structural
import TypeFlow.Proofs.Engine.Operators
import TypeFlow.Proofs.Engine.Completions
import TypeFlow.Proofs.Engine.OrderedTables
import TypeFlow.Proofs.Engine.Commuting
import TypeFlow.Proofs.Types.Inside
import TypeFlow.Proofs.Types.Unions
import TypeFlow.Proofs.Result.Erased
import TypeFlow.Proofs.Engine.SelfReturns
import TypeFlow.Proofs.Engine.Arities
import TypeFlow.Proofs.Result.Parameters
import TypeFlow.Proofs.Engine.Distribution
import TypeFlow.Proofs.Types.Comparison
import TypeFlow.Proofs.Script.Assembly
