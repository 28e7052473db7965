import TypeFlow.Index
import TypeFlow.Store.Dangling
import TypeFlow.Ty.Join

/-!
# The environment

Scopes in a table, each naming its parent by index.  A closure holds the index of its defining
scope, so all closures made in one scope read and widen the same bindings.  An activation of a
closure has a scope of its own, found again by its key: running the same call site from the same
caller once more reuses the scope instead of adding another.

## Main Definitions

* `ActivationKey`, `Scope`, `Env` - activations, scopes and the table of scopes
* `Env.enter` - the scope of an activation, added on first use
* `Env.declare`, `Env.bind`, `Env.assign` - replace a binding, widen it, widen it where it lives
* `Env.resolve`, `Env.get?`, `Env.lookup` - look a name up along the chain of parents

## Design Notes

The scopes of activations are found through an index of their keys; a scope itself does not know
the activation that it was made for.

`changes` counts the calls that altered a binding.  Adding an empty scope is no change, since every
name looks up as before.

A parent need not exist, and walking to one that does not is an error.  The walk along the parents
takes at most one step more than there are scopes, which is enough for every chain that ends.
-/

namespace TypeFlow

/-- What tells one activation from another: the closure, the calling node and the calling scope. -/
structure ActivationKey where
  closure : ClosureId
  site : NodeId
  caller : ScopeId
deriving DecidableEq, Repr

/-- One frame of bindings. -/
structure Scope where
  parent : Option ScopeId
  /-- The function literal that the scope is an activation of; none for the global scope. -/
  owner : Option NodeId
  bindings : Fields

/-- The table of scopes, with the number of changes made to bindings. -/
structure Env where
  scopes : Array Scope
  /-- The scopes that were made for activations. -/
  activations : Index ActivationKey
  changes : Nat

namespace Env

/-- The index of the global scope. -/
def global : ScopeId := 0

/-- The environment that holds only an empty global scope. -/
def initial : Env :=
  ⟨#[⟨none, none, []⟩], .empty, 0⟩

instance : Inhabited Env := ⟨initial⟩

/-- The scope at an index. -/
def scope (e : Env) (id : ScopeId) : Except Dangling Scope :=
  match e.scopes[id]? with
  | some s => .ok s
  | none => .error (.scope id)

/-! ### Adding scopes -/

/-- Adds an empty scope under a parent. -/
def newScope (parent : ScopeId) (owner : Option NodeId) : EStateM Dangling Env ScopeId := do
  let e ← get
  set { e with scopes := e.scopes.push ⟨some parent, owner, []⟩ }
  return e.scopes.size

/-- The scope of an activation, added on first use; and whether it was added. -/
def enter (key : ActivationKey) (parent : ScopeId) (owner : Option NodeId) :
    EStateM Dangling Env (ScopeId × Bool) := do
  let e ← get
  match e.activations.place? key with
  | some id => return (id, false)
  | none =>
    let id ← newScope parent owner
    modify fun e => { e with activations := e.activations.note key id }
    return (id, true)

/-! ### Writing bindings -/

/-- Puts new bindings into a scope, as one change. -/
def setBindings (e : Env) (id : ScopeId) (bindings : Fields) : Env :=
  { e with
    scopes := e.scopes.modify id fun s => { s with bindings := bindings }
    changes := e.changes + 1 }

/-- Binds a name in a scope, replacing the type it had. -/
def declare (id : ScopeId) (name : String) (t : Ty) : EStateM Dangling Env Unit := do
  let e ← get
  match e.scope id with
  | .error d => throw d
  | .ok s =>
    if OrdMap.get? s.bindings name = some t then
      return ()
    else
      set (e.setBindings id (OrdMap.insert s.bindings name t))

/-- Joins a type into a name of a scope, and says whether this changed the binding. -/
def bind (id : ScopeId) (name : String) (t : Ty) : EStateM Dangling Env Bool := do
  let e ← get
  match e.scope id with
  | .error d => throw d
  | .ok s =>
    if Fields.widens s.bindings name t then
      set (e.setBindings id (Fields.widen s.bindings name t))
      return true
    else
      return false

/-! ### Looking names up -/

/-- The nearest scope that binds a name, in at most `steps` steps along the parents. -/
def resolveIn (e : Env) (name : String) : Nat → ScopeId → Except Dangling (Option ScopeId)
  | 0, _ => .ok none
  | steps + 1, id =>
    match e.scope id with
    | .error d => .error d
    | .ok s =>
      if OrdMap.contains s.bindings name then .ok (some id)
      else
        match s.parent with
        | none => .ok none
        | some parent => resolveIn e name steps parent

/-- The nearest scope that binds a name, from a scope outward. -/
def resolve (e : Env) (id : ScopeId) (name : String) : Except Dangling (Option ScopeId) :=
  e.resolveIn name (e.scopes.size + 1) id

/-- The type of a name as seen from a scope, none when it is unbound. -/
def get? (e : Env) (id : ScopeId) (name : String) : Except Dangling (Option Ty) := do
  match ← e.resolve id name with
  | none => return none
  | some owner => return OrdMap.get? (← e.scope owner).bindings name

/-- The type of a name as seen from a scope, `any` when it is unbound. -/
def lookup (e : Env) (id : ScopeId) (name : String) : Except Dangling Ty := do
  return (← e.get? id name).getD .any

/-- Joins a type into a name in the nearest scope that binds it, and answers that scope.  Nothing
happens when the name is unbound. -/
def assign (id : ScopeId) (name : String) (t : Ty) : EStateM Dangling Env (Option ScopeId) := do
  let e ← get
  match e.resolve id name with
  | .error d => throw d
  | .ok none => return none
  | .ok (some owner) =>
    let _ ← bind owner name t
    return some owner

end Env

end TypeFlow
