import TypeFlow.Engine.Event
import TypeFlow.Globals
import TypeFlow.Options
import TypeFlow.Store.Closures
import TypeFlow.Store.Env
import TypeFlow.Store.Protos

/-!
# The state of a run

Everything that inference knows while it walks a program: the tables of scopes, closures, cells and
constructors, the stack of activations, the results that recursive calls are answered with, the
types recorded for nodes, and what is to be reported.

## Main Definitions

* `Activation`, `Solve`, `Run` - the state
* `Run.start` - the state before the first program
* `Run.version` - a number that grows with every change of the tables
* `Fault`, `Walk` - computations on the state that may stop with an error
* `Walk.ensuring` - a computation followed by a change of the state, even after an error

## Design Notes

An error leaves the state as it is at that point: what a statement did before it turned out to be
malformed stays done.
-/

namespace TypeFlow

/-- One running call of a closure. -/
structure Activation where
  closure : ClosureId
  scope : ScopeId
  /-- The value of `this`. -/
  this : Ty
  /-- The join of the `return` statements reached so far. -/
  returns : Ty
  /-- The constructor that runs, when the call creates an instance. -/
  constructing : Option CtorId

/-- What is known of the result of a closure while its outermost call runs. -/
structure Solve where
  /-- The result that calls from inside are answered with. -/
  seed : Ty
  /-- Whether the current round had a call from inside. -/
  recursed : Bool

/-- The state of a run. -/
structure Run where
  options : Options
  env : Env
  closures : Closures
  heap : Heap
  protos : Protos
  /-- The running calls, innermost first. -/
  activations : List Activation
  /-- The closures whose outermost call is running. -/
  solving : OrdMap ClosureId Solve
  /-- The join of all evaluations of each node. -/
  nodeTypes : OrdMap NodeId Ty
  /-- The scopes of the activations of each function literal. -/
  funcScopes : OrdMap NodeId (List ScopeId)
  /-- The member reads, calls and instance creations.  One that never saw a value is reported as
  `any`. -/
  accessSites : OrdSet NodeId
  /-- The global names that were bound before the first program. -/
  seeded : OrdSet String
  /-- The unbound names that were read, when they are collected. -/
  unbound : OrdSet String
  /-- The errors so far, oldest first. -/
  errors : List Malformed
  /-- What happened so far, oldest first. -/
  log : Array Event

/-- What stops a walk. -/
inductive Fault where
  /-- The tree is malformed. -/
  | malformed (m : Malformed)
  /-- A handle has no entry. -/
  | dangling (d : Dangling)
deriving DecidableEq, Repr

/-- Computations on the state of a run. -/
abbrev Walk := EStateM Fault Run

/-! ### Starting -/

/-- Binds global names. -/
def Env.declareAll : List (String × Ty) → EStateM Dangling Env Unit
  | [] => return ()
  | (name, t) :: rest => do
    Env.declare Env.global name t
    Env.declareAll rest

/-- The environment with the given globals. -/
def Env.withGlobals (globals : List (String × Ty)) : Env :=
  match (Env.declareAll globals).run Env.initial with
  | .ok _ e => e
  | .error _ e => e

/-- The state before the first program: the built-in globals, unless the options say not, and then
the given ones are bound. -/
def Run.start (options : Options) (globals : Globals) : Run :=
  let seeds := (if options.seedBuiltins then Globals.builtins else []) ++ globals
  { options
    env := Env.withGlobals seeds
    closures := .empty
    heap := Heap.empty
    protos := Protos.empty
    activations := []
    solving := []
    nodeTypes := []
    funcScopes := []
    accessSites := []
    seeded := OrdSet.ofList (seeds.map (·.1))
    unbound := []
    errors := []
    log := #[] }

/-! ### Views -/

namespace Run

/-- A number that grows whenever a binding, a cell, a method or a link changes. -/
def version (s : Run) : Nat :=
  s.env.changes + s.heap.changes + s.protos.changes

/-- The innermost running call. -/
def current? (s : Run) : Option Activation :=
  s.activations.head?

/-- The value of `this`, which is `undefined` outside of calls. -/
def thisType (s : Run) : Ty :=
  match s.current? with
  | some a => a.this
  | none => .undefined

/-- How many more activations may be nested. -/
def depthLeft (s : Run) : Nat :=
  s.options.maxCallDepth - s.activations.length

/-- Joins a type into the type recorded for a node. -/
def recordType (s : Run) (node : NodeId) (t : Ty) : Run :=
  { s with nodeTypes := OrdMap.upsert s.nodeTypes node (fun old => old.join t) t }

end Run

/-! ### Computations -/

namespace Walk

/-- Reads the state, where following a handle may fail. -/
def ask {α : Type} (f : Run → Except Dangling α) : Walk α := fun s =>
  match f s with
  | .ok a => .ok a s
  | .error d => .error (.dangling d) s

/-- Changes the environment. -/
def onEnv {α : Type} (m : EStateM Dangling Env α) : Walk α := fun s =>
  match m s.env with
  | .ok a e => .ok a { s with env := e }
  | .error d e => .error (.dangling d) { s with env := e }

/-- Changes the table of closures. -/
def onClosures {α : Type} (m : EStateM Dangling Closures α) : Walk α := fun s =>
  match m s.closures with
  | .ok a cs => .ok a { s with closures := cs }
  | .error d cs => .error (.dangling d) { s with closures := cs }

/-- Changes the heap. -/
def onHeap {α : Type} (m : EStateM Dangling Heap α) : Walk α := fun s =>
  match m s.heap with
  | .ok a h => .ok a { s with heap := h }
  | .error d h => .error (.dangling d) { s with heap := h }

/-- Changes the prototype graph. -/
def onProtos {α : Type} (m : EStateM Dangling Protos α) : Walk α := fun s =>
  match m s.protos with
  | .ok a g => .ok a { s with protos := g }
  | .error d g => .error (.dangling d) { s with protos := g }

/-- A computation followed by a change of the state, even when the computation stops. -/
def ensuring {α : Type} (m : Walk α) (after : Run → Run) : Walk α := fun s =>
  match m s with
  | .ok a s' => .ok a (after s')
  | .error e s' => .error e (after s')

/-- A computation that is run only when a condition holds. -/
def when (c : Prop) [Decidable c] (m : Walk Unit) : Walk Unit :=
  if c then m else return ()

/-- Stops at a malformed node. -/
def malformed {α : Type} (kind : Malformation) (node : NodeId) (span : Span) : Walk α :=
  throw (.malformed ⟨kind, node, span⟩)

/-- Adds an event to the log. -/
def emit (e : Event) : Walk Unit :=
  modify fun s => { s with log := s.log.push e }

/-- Joins a type into the type recorded for a node. -/
def record (node : NodeId) (t : Ty) : Walk Unit :=
  modify fun s => s.recordType node t

/-- Notes a member read, a call or an instance creation. -/
def noteAccess (node : NodeId) : Walk Unit :=
  modify fun s => { s with accessSites := OrdSet.insert node s.accessSites }

/-- The value of `this`. -/
def thisType : Walk Ty := do
  return (← get).thisType

end Walk

end TypeFlow
