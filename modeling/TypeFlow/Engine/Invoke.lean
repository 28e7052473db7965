import TypeFlow.Engine.Infer

/-!
# Answering calls

A call is answered by running the body of the function in an activation scope whose parameters are
bound to the arguments.  Each call site of each calling scope has an activation scope of its own,
so a function called from two places is typed at each.

A call from inside a running call of the same closure is answered with the result that is assumed
for it, the *seed*.  The outermost call then runs the body again with the result joined into the
seed, until neither the seed nor the tables change.

## Main Definitions

* `runBody` - the results of the body, run once
* `roundThen` - one round, and what follows it when the body has to be run again
* `invokeThen` - one call, and what answers the calls inside it
* `roundsUpTo`, `invokeUpTo` - both, unfolded a given number of times
* `invoke` - answers a call in the state at hand

## Design Notes

The loop over rounds ends by its own test against the bound on rounds, and the recursion through
calls by its own test against the bound on nested activations.  Both are given by one unfolding,
which takes what lies behind it as a parameter, and are unfolded as often as the bounds in the state
at hand allow.  A call that returns only the function itself, and a call to a closure whose
outermost call is running, are answered before the depth matters.
-/

namespace TypeFlow

open Walk

/-! ### One round -/

/-- The innermost running call ends. -/
def Run.popActivation (s : Run) : Run :=
  { s with activations := s.activations.tail }

/-- Runs a computation inside a new running call, and answers the join of the `return` statements
that it reached. -/
def withActivation (a : Activation) (body : Walk Unit) : Walk Ty := do
  modify fun s => { s with activations := a :: s.activations }
  ensuring
    (do
      body
      return ((← get).current?.map (·.returns)).getD .never)
    Run.popActivation

/-- Runs the body of a function once.  The result is the join of the `return` statements reached,
with `undefined` when control may fall off the end. -/
def runBody (invoke : Invoke) (f : Func) (scope : ScopeId) (call : Call) : Walk Ty := do
  let returns ← withActivation ⟨call.closure, scope, call.this, .never, call.constructing⟩
    (inferBlock invoke scope f.body)
  return if Stmt.someExits f.body then returns else returns.join .undefined

/-! ### Rounds -/

/-- What is assumed of a closure whose outermost call is running. -/
def Run.solve? (s : Run) (id : ClosureId) : Option Solve :=
  OrdMap.get? s.solving id

/-- Assumes a result for a closure, no call from inside having been seen. -/
def setSeed (id : ClosureId) (seed : Ty) : Walk Unit :=
  modify fun s => { s with solving := OrdMap.insert s.solving id ⟨seed, false⟩ }

/-- Notes a call from inside. -/
def noteRecursion (id : ClosureId) (seed : Ty) : Walk Unit :=
  modify fun s => { s with solving := OrdMap.insert s.solving id ⟨seed, true⟩ }

/-- Nothing is assumed of a closure any more. -/
def Run.dropSeed (id : ClosureId) (s : Run) : Run :=
  { s with solving := OrdMap.erase s.solving id }

/-- One round: runs the body, and then `again` when something changed and another round may follow.
`done` is the number of rounds before this one. -/
def roundThen (invoke : Invoke) (f : Func) (scope : ScopeId) (call : Call)
    (again : Nat → Walk Ty) (done : Nat) : Walk Ty := do
  let before := (← get).version
  let ret ← runBody invoke f scope call
  let s ← get
  let unchanged := s.version == before
  match s.solve? call.closure with
  | none => return ret
  | some ⟨_, false⟩ => return ret
  | some ⟨seed, true⟩ =>
    let next := seed.join ret
    emit (.round (done + 1) seed ret unchanged)
    if next = seed ∧ unchanged then
      return next
    else if s.options.maxRounds ≤ done + 1 then
      emit (.frozen f.id (done + 1))
      return .any
    else
      setSeed call.closure next
      again (done + 1)

/-- The loop over rounds, unfolded a given number of times.  Rounds after those are left to
`beyond`. -/
def roundsUpTo (beyond : Nat → Walk Ty) (invoke : Invoke) (f : Func) (scope : ScopeId)
    (call : Call) : Nat → Nat → Walk Ty
  | 0 => beyond
  | n + 1 => roundThen invoke f scope call (roundsUpTo beyond invoke f scope call n)

/-- Runs rounds from the first one on, with the log saying so. -/
def logSolve (f : Func) (rounds : Nat → Walk Ty) : Walk Ty := do
  emit (.enterSolve f.id)
  ensuring (rounds 0) fun s => { s with log := s.log.push .exitSolve }

/-- What settles the result of running the body of a function, given what answers the calls in
it. -/
abbrev Solver := Invoke → Func → ScopeId → Call → Walk Ty

/-- Runs the body of a function until its result is settled. -/
def solve : Solver := fun invoke f scope call =>
  logSolve f fun done => do
    let n := max 1 (← get).options.maxRounds
    roundsUpTo (fun _ => return .any) invoke f scope call n done

/-! ### One call -/

/-- Binds parameters to arguments; a missing argument is `undefined`. -/
def bindParams (scope : ScopeId) : List String → List Ty → Walk Unit
  | [], _ => return ()
  | p :: ps, args => do
    let _ ← onEnv (Env.bind scope p (args.headD .undefined))
    bindParams scope ps args.tail

/-- Binds the name of a function to itself, unless a parameter has the name. -/
def bindSelf (scope : ScopeId) (id : ClosureId) (f : Func) : Walk Unit :=
  match f.name with
  | none => return ()
  | some name =>
    if f.params.contains name then
      return ()
    else do
      let _ ← onEnv (Env.bind scope name (.closure id f.params.length))
      return ()

/-- Notes an activation scope of a function literal. -/
def noteScope (func : NodeId) (scope : ScopeId) : Walk Unit :=
  modify fun s =>
    { s with funcScopes := OrdMap.upsert s.funcScopes func (· ++ [scope]) [scope] }

/-- Notes that a constructor runs for an instance, if one does. -/
def noteConstructing : Option CtorId → Walk Unit
  | none => return ()
  | some ctor => onProtos (Protos.markAnalysed ctor)

/-- The activation scope of a call, noted for the function literal when it is new. -/
def enterScope (c : Closure) (call : Call) : Walk ScopeId := do
  let key : ActivationKey := ⟨call.closure, call.site, call.caller⟩
  let entered ← onEnv (Env.enter key c.scope (some c.func.id))
  when entered.2 (noteScope c.func.id entered.1)
  return entered.1

/-- Runs a call of a closure, its body by `solver`, and joins it into the declared signature. -/
def runCall (solver : Func → ScopeId → Call → Walk Ty) (c : Closure) (call : Call) : Walk Ty := do
  let scope ← enterScope c call
  bindParams scope c.func.params call.args
  bindSelf scope call.closure c.func
  hoist scope c.func.body
  noteConstructing call.constructing
  setSeed call.closure .never
  let ret ← ensuring (solver c.func scope call) (Run.dropSeed call.closure)
  onClosures (Closures.recordCall call.closure call.args ret)
  return ret

/-- Answers a call, by `run` when the body is to be run.  A function that returns only itself gives
`any`, and a call from inside gives the seed. -/
def answer (run : Closure → Call → Walk Ty) (call : Call) : Walk Ty := do
  let c ← ask fun s => s.closures.closure call.closure
  if c.selfReferential then
    emit (.selfReferential c.func.id)
    onClosures (Closures.recordCall call.closure call.args .any)
    return .any
  else
    match (← get).solve? call.closure with
    | some ⟨seed, _⟩ =>
      noteRecursion call.closure seed
      return seed
    | none => run c call

/-- A call that is not followed, since too many activations are nested. -/
def depthReached (c : Closure) : Walk Ty := do
  emit (.depthReached c.func.id (← get).activations.length)
  return .any

/-- Answers one call, unless too many activations are nested.  The calls inside it are left to
`next`. -/
def invokeThen (solver : Solver) (next : Invoke) : Invoke :=
  answer fun c call => do
    let s ← get
    if s.options.maxCallDepth ≤ s.activations.length then
      depthReached c
    else
      runCall (solver next) c call

/-- The recursion through calls, unfolded a given number of times.  Calls nested deeper than that
are left to `beyond`. -/
def invokeUpTo (solver : Solver) (beyond : Invoke) : Nat → Invoke
  | 0 => beyond
  | n + 1 => invokeThen solver (invokeUpTo solver beyond n)

/-- Answers a call in the state at hand. -/
def invoke : Invoke := fun call => do
  invokeUpTo solve (fun _ => return .any) ((← get).depthLeft + 1) call

end TypeFlow
