import TypeFlow.Index
import TypeFlow.Script.Basic
import TypeFlow.Store.Dangling
import TypeFlow.Ty.Join

/-!
# Closures

A closure is a function literal captured in a scope.  Capturing the same literal in the same scope
again gives the same closure.  A closure collects its declared signature: the join of the arguments
and of the results of all its calls.

## Main Definitions

* `Closure`, `Closures` - closures and their table
* `Closures.captureId`, `Closures.capture` - captures a literal in a scope
* `Closures.recordCall` - joins a call into the declared signature
-/

namespace TypeFlow

/-- A function literal captured in a scope. -/
structure Closure where
  func : Func
  /-- The defining scope. -/
  scope : ScopeId
  /-- The join of the arguments of all calls. -/
  params : List Ty
  /-- The join of the results of all calls. -/
  ret : Ty
  calls : Nat
  /-- The body only ever returns the closure itself. -/
  selfReferential : Bool

/-- The table of closures. -/
structure Closures where
  table : Array Closure
  /-- The closures by their literals and defining scopes. -/
  bySite : Index (NodeId × ScopeId)

namespace Closures

/-- The table without closures. -/
def empty : Closures := ⟨#[], .empty⟩

instance : Inhabited Closures := ⟨empty⟩

/-- The closure at an index. -/
def closure (cs : Closures) (id : ClosureId) : Except Dangling Closure :=
  match cs.table[id]? with
  | some c => .ok c
  | none => .error (.closure id)

/-- Captures a literal in a scope. -/
def captureId (scope : ScopeId) (f : Func) : EStateM Dangling Closures ClosureId := do
  let cs ← get
  match cs.bySite.place? (f.id, scope) with
  | some id => return id
  | none =>
    set ({ table := cs.table.push
             ⟨f, scope, List.replicate f.params.length .never, .never, 0, false⟩
           bySite := cs.bySite.note (f.id, scope) cs.table.size } : Closures)
    return cs.table.size

/-- Captures a literal in a scope and answers the function value. -/
def capture (scope : ScopeId) (f : Func) : EStateM Dangling Closures Ty := do
  return .closure (← captureId scope f) f.params.length

/-- Joins the arguments of a call into the declared parameters; a missing argument is
`undefined`, and surplus arguments do not matter. -/
def joinArgs : List Ty → List Ty → List Ty
  | [], _ => []
  | p :: ps, [] => p.join .undefined :: joinArgs ps []
  | p :: ps, a :: as => p.join a :: joinArgs ps as

/-- Joins one call into the declared signature of a closure. -/
def recordCall (id : ClosureId) (args : List Ty) (ret : Ty) : EStateM Dangling Closures Unit := do
  let cs ← get
  match closure cs id with
  | .error d => throw d
  | .ok _ =>
    set { cs with table := cs.table.modify id fun c =>
      { c with params := joinArgs c.params args, ret := c.ret.join ret, calls := c.calls + 1 } }

/-- Marks a closure as returning only itself. -/
def markSelfReferential (id : ClosureId) : EStateM Dangling Closures Unit := do
  let cs ← get
  match closure cs id with
  | .error d => throw d
  | .ok _ => set { cs with table := cs.table.modify id fun c => { c with selfReferential := true } }

end Closures

end TypeFlow
