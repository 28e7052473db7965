import TypeFlow.Engine.Member
import TypeFlow.Script.Region

/-!
# Calls and instance creation

What calling a value means, given how one closure is invoked.

## Main Definitions

* `Call`, `Invoke` - one call of one closure, and what answers it
* `captureFunc`, `hoist` - function values, and the declarations of a body
* `callValue` - calls a value: all closures that it may be
* `instantiate`, `constructValue` - creates instances

## Design Notes

Everything here takes the answer to a call as a parameter, so that inference can go through a body
by recursion on its tree and through calls by recursion on the remaining call depth.
-/

namespace TypeFlow

open Walk

/-- One call of one closure. -/
structure Call where
  closure : ClosureId
  this : Ty
  args : List Ty
  /-- The calling node. -/
  site : NodeId
  /-- The calling scope. -/
  caller : ScopeId
  /-- The constructor to run, when the call creates an instance. -/
  constructing : Option CtorId

/-- What answers a call with a result type. -/
abbrev Invoke := Call → Walk Ty

/-! ### Function values and declarations -/

/-- Captures a function literal in a scope.  `binding` is the name that the value is about to be
stored under.  A function that only returns this name, or its own, is marked. -/
def captureFunc (scope : ScopeId) (f : Func) (binding : Option String) : Walk Ty := do
  let id ← onClosures (Closures.captureId scope f)
  when ((f.name.toList ++ binding.toList).any f.returnsOnlyItself)
    (onClosures (Closures.markSelfReferential id))
  return .closure id f.params.length

/-- Binds variables that have no value yet. -/
def hoistVars (scope : ScopeId) : List String → Walk Unit
  | [] => return ()
  | name :: rest => do
    let _ ← onEnv (Env.bind scope name .never)
    hoistVars scope rest

/-- Binds declared functions. -/
def hoistFuncs (scope : ScopeId) : List Func → Walk Unit
  | [] => return ()
  | f :: rest => do
    let value ← captureFunc scope f none
    match f.name with
    | none => hoistFuncs scope rest
    | some name =>
      let _ ← onEnv (Env.bind scope name value)
      hoistFuncs scope rest

/-- Binds what a body declares. -/
def hoist (scope : ScopeId) (body : List Stmt) : Walk Unit := do
  hoistVars scope (hoistedVars body)
  hoistFuncs scope (hoistedFuncs body)

/-! ### Calling values -/

/-- The result of calling what is no function: nothing while nothing is known of the value. -/
def resultOfNonFunction (callee : Ty) : Ty :=
  if callee.isNever then .never else .any

/-- Joins the results of calls to several closures to a type. -/
def invokeAll (invoke : Invoke) (call : ClosureId → Call) (acc : Ty) : List ClosureId → Walk Ty
  | [] => return acc
  | c :: cs => do
    let ret ← invoke (call c)
    invokeAll invoke call (acc.join ret) cs

/-- Calls a value.  The results of all closures that it may be are joined to the result that its
type declares. -/
def callValue (invoke : Invoke) (callee this : Ty) (args : List Ty) (site : NodeId)
    (caller : ScopeId) : Walk Ty :=
  match callee.funcPart? with
  | none => return resultOfNonFunction callee
  | some f => invokeAll invoke (fun c => ⟨c, this, args, site, caller, none⟩) f.ret f.closures

/-- A value that is called: as a method, with the receiver and the name of the property, or not. -/
structure Callee where
  value : Ty
  this : Ty
  method : Option String

/-- Calls a callee.  The methods `call` and `apply` of a function call the function, with the first
argument as `this`; of an argument list given as an array nothing is known. -/
def Callee.call (invoke : Invoke) (callee : Callee) (args : List Ty) (site : NodeId)
    (caller : ScopeId) : Walk Ty :=
  let bound := args.headD .undefined
  match callee.this.func? with
  | none => callValue invoke callee.value callee.this args site caller
  | some f =>
    if callee.method = some "call" then
      callValue invoke callee.this bound args.tail site caller
    else if callee.method = some "apply" then
      callValue invoke callee.this bound (List.replicate f.arity .any) site caller
    else
      callValue invoke callee.value callee.this args site caller

/-! ### Creating instances -/

/-- Runs the constructors among the ancestors that have not run yet, each on an instance of its
own. -/
def runAncestors (invoke : Invoke) (args : List Ty) (site : NodeId) (caller : ScopeId) :
    List CtorId → Walk Unit
  | [] => return ()
  | id :: rest => do
    let c ← ask fun s => s.protos.ctor id
    match c.closure with
    | none => runAncestors invoke args site caller rest
    | some closure =>
      if c.analysed then
        runAncestors invoke args site caller rest
      else
        let scratch ← onHeap (Heap.create ⟨site, caller, some id⟩ [])
        let _ ← invoke ⟨closure, .ofInstance scratch id, args, site, caller, some id⟩
        runAncestors invoke args site caller rest

/-- Writes those fields into a cell that it lacks. -/
def writeMissing (cell : CellId) : List (String × Ty) → Walk Unit
  | [] => return ()
  | (name, t) :: rest => do
    let c ← ask fun s => s.heap.cell cell
    if OrdMap.contains c.fields name then
      writeMissing cell rest
    else
      let _ ← onHeap (Heap.writeCell cell name t)
      writeMissing cell rest

/-- Creates an instance of one closure: runs it on the instance, then adds the fields of ancestors
that the instance lacks. -/
def instantiate (invoke : Invoke) (closure : ClosureId) (args : List Ty) (site : NodeId)
    (caller : ScopeId) : Walk Ty := do
  let ctor ← ctorOf closure
  let cell ← onHeap (Heap.create ⟨site, caller, some ctor⟩ [])
  let value := Ty.ofInstance cell ctor
  let _ ← invoke ⟨closure, value, args, site, caller, some ctor⟩
  runAncestors invoke args site caller (← ask fun s => s.protos.ancestors ctor)
  writeMissing cell (← ask fun s => s.protos.instanceFields ctor)
  return value

/-- Joins instances of several closures to a type. -/
def instantiateAll (invoke : Invoke) (args : List Ty) (site : NodeId) (caller : ScopeId)
    (acc : Ty) : List ClosureId → Walk Ty
  | [] => return acc
  | c :: cs => do
    let value ← instantiate invoke c args site caller
    instantiateAll invoke args site caller (acc.join value) cs

/-- Creates an instance with a value as constructor.  A function that belongs to no closure gives
its declared result. -/
def constructValue (invoke : Invoke) (callee : Ty) (args : List Ty) (site : NodeId)
    (caller : ScopeId) : Walk Ty :=
  match callee.funcPart? with
  | none => return resultOfNonFunction callee
  | some f =>
    if f.closures.isEmpty then return f.ret
    else instantiateAll invoke args site caller .never f.closures

end TypeFlow
