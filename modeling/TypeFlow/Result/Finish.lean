import TypeFlow.Engine.Program
import TypeFlow.Result.Resolve
import TypeFlow.Result.TypeMap

/-!
# Finishing a run

Turns the state of a run into its result: functions that nothing called are run once, and then all
types are resolved.

## Main Definitions

* `NodeOrder` - an order in which the recorded nodes are gone through
* `buildTypeMapIn`, `buildTypeMap` - resolves everything that a run has recorded
* `finish` - ends a run
* `infer` - runs a program and ends the run
* `analyse` - the analysis of a program, from its options and globals

## Design Notes

The types of nodes are resolved first, one after the other, and what was resolved before is
remembered.  Nothing fixes the order in which the nodes are gone through, so it is a parameter of
everything that ends a run.
-/

namespace TypeFlow

open Resolve

/-- Resolves the types of nodes.  An access that never saw a value is `any`. -/
def resolveNodes (s : Run) : List (NodeId × Ty) → Resolve (List (NodeId × Ty))
  | [] => return []
  | (node, t) :: rest => do
    let r ← resolve s t
    let rs ← resolveNodes s rest
    return (node, if r.isNever && s.accessSites.contains node then .any else r) :: rs

/-- Resolves the bindings of scopes. -/
def resolveScopes (s : Run) : List Scope → Resolve (List ScopeInfo)
  | [] => return []
  | scope :: rest => do
    let bindings ← enterFields (resolve s) scope.bindings
    let others ← resolveScopes s rest
    return ⟨scope.parent, scope.owner, bindings⟩ :: others

/-- Joins a signature into what is known of a function literal. -/
def addSignature (funcs : OrdMap NodeId FuncInfo) (f : Func) (signature : Ty) :
    OrdMap NodeId FuncInfo :=
  OrdMap.upsert funcs f.id
    (fun info => { info with signature := info.signature.join signature })
    ⟨f.name, f.params, signature⟩

/-- Joins the declared signatures of closures, the first of which has index `id`, by their
literals. -/
def resolveFuncs (s : Run) (acc : OrdMap NodeId FuncInfo) (id : ClosureId) :
    List Closure → Resolve (OrdMap NodeId FuncInfo)
  | [] => return acc
  | c :: rest => do
    let signature ← resolve s (.closure id c.func.params.length)
    resolveFuncs s (addSignature acc c.func signature) (id + 1) rest

/-- The function literal of a closure that may be absent. -/
def literalOf (s : Run) : Option ClosureId → Except Dangling (Option NodeId)
  | none => return none
  | some id => return some (← s.closures.closure id).func.id

/-- Whether a constructor makes its function a class: it ran, or it has methods or parents. -/
def Ctor.isClass (c : Ctor) : Bool :=
  c.analysed || !c.methods.isEmpty || !c.parents.isEmpty

/-- The constructor of a closure, when it makes the function a class. -/
def classOf (s : Run) (closure : Option ClosureId) : Except Dangling (Option CtorId) :=
  match closure.bind s.protos.find? with
  | none => return none
  | some id => return if (← s.protos.ctor id).isClass then some id else none

/-- Resolves the global bindings that the program made. -/
def resolveGlobals (s : Run) : Fields → Resolve (List GlobalInfo)
  | [] => return []
  | (name, t) :: rest =>
    if s.seeded.contains name then
      resolveGlobals s rest
    else do
      let closure := t.singleClosure?
      let func ← ask (literalOf s closure)
      let cls ← ask (classOf s closure)
      let r ← resolve s t
      let others ← resolveGlobals s rest
      return ⟨name, r, func, cls⟩ :: others

/-- The name of a constructor; one without a name takes that of the first global bound to exactly
its closure. -/
def ctorDisplayName (globals : Fields) (c : Ctor) : Option String :=
  c.name <|> c.closure.bind fun closure =>
    (globals.find? fun g => g.2.singleClosure? == some closure).map (·.1)

/-- Resolves constructors, the first of which has index `id`. -/
def resolveCtors (s : Run) (globals : Fields) (id : CtorId) : List Ctor → Resolve (List CtorInfo)
  | [] => return []
  | c :: rest => do
    let func ← ask (literalOf s c.closure)
    let parent ← ask (s.protos.effectiveParent id)
    let methods ← enterFields (resolve s) c.methods
    let written ← ask (s.protos.instanceFields id)
    let fields ← enterFields (resolve s) written
    let others ← resolveCtors s globals (id + 1) rest
    return ⟨ctorDisplayName globals c, func, parent, methods, fields⟩ :: others

/-- Resolves everything that a run has recorded, the types of the nodes in the given order. -/
def buildTypeMapIn (s : Run) (order : List (NodeId × Ty)) : Resolve TypeMap := do
  let nodeTypes ← resolveNodes s order
  let scopes ← resolveScopes s s.env.scopes.toList
  let funcs ← resolveFuncs s [] 0 s.closures.table.toList
  let bindings := (← ask (s.env.scope Env.global)).bindings
  let globals ← resolveGlobals s bindings
  let ctors ← resolveCtors s bindings 0 s.protos.ctors.toList
  return {
    nodeTypes
    scopes := scopes.toArray
    funcScopes := s.funcScopes
    funcs
    ctors := ctors.toArray
    globals
    errors := s.errors
    unbound := s.unbound }

/-- Resolves everything that a run has recorded, the types of the nodes in ascending order. -/
def buildTypeMap (s : Run) : Resolve TypeMap :=
  buildTypeMapIn s s.nodeTypes

/-- An order in which the recorded nodes are gone through: each of them once. -/
structure NodeOrder where
  list : OrdMap NodeId Ty → List (NodeId × Ty)
  perm : ∀ m, (list m).Perm m

/-- The ascending order of the nodes. -/
def NodeOrder.ascending : NodeOrder :=
  ⟨id, fun _ => .refl _⟩

/-- Ends a run: runs what nothing called, then resolves everything. -/
def finish (order : NodeOrder) : Walk TypeMap := do
  Walk.emit (.enterFinish (← get).closures.table.size)
  analyseUncalled
  let m ← Walk.ask fun s => (buildTypeMapIn s (order.list s.nodeTypes)).run' Memo.empty
  Walk.emit .exitFinish
  return m

/-- Runs a program and ends the run. -/
def infer (order : NodeOrder) (p : Program) : Walk TypeMap := do
  inferProgram p
  finish order

/-- What the analysis of a program tells: its types, and what happened on the way. -/
structure Analysis where
  types : TypeMap
  log : Array Event

/-- Analyses a program.  The analysis fails only when a given global refers to an entry that no
table has. -/
def analyse (order : NodeOrder) (options : Options) (globals : Globals) (p : Program) :
    Except Fault Analysis :=
  match (infer order p).run (Run.start options globals) with
  | .ok types s => .ok ⟨types, s.log⟩
  | .error e _ => .error e

end TypeFlow
