import TypeFlow.Script.Malformed
import TypeFlow.Ty.Join

/-!
# Results

What a finished run tells: a type for every node and every binding, the functions and constructors
of the program, its globals, and the errors.  The types in it carry no live handles.

## Main Definitions

* `ScopeInfo`, `FuncInfo`, `CtorInfo`, `GlobalInfo`, `TypeMap` - the result
* `TypeMap.typeOf`, `TypeMap.typeOfBinding`, `TypeMap.bindingIn`, `TypeMap.signatureOf` - queries
-/

namespace TypeFlow

/-- A scope and its final bindings. -/
structure ScopeInfo where
  parent : Option ScopeId
  owner : Option NodeId
  bindings : Fields

/-- A function literal and its declared signature: the join over its closures and their calls. -/
structure FuncInfo where
  name : Option String
  params : List String
  signature : Ty

/-- A constructor. -/
structure CtorInfo where
  name : Option String
  /-- The function literal that it runs. -/
  func : Option NodeId
  parent : Option CtorId
  /-- The methods on its own prototype. -/
  methods : Fields
  /-- The fields of its instances, inherited ones included. -/
  fields : Fields

/-- A global that the program defines. -/
structure GlobalInfo where
  name : String
  ty : Ty
  /-- The function literal bound here, when the value is exactly one closure. -/
  func : Option NodeId
  /-- The constructor, when the function is used as one. -/
  class? : Option CtorId

/-- The result of a run. -/
structure TypeMap where
  /-- The types of nodes, in the order in which they were resolved. -/
  nodeTypes : List (NodeId × Ty)
  scopes : Array ScopeInfo
  funcScopes : OrdMap NodeId (List ScopeId)
  funcs : OrdMap NodeId FuncInfo
  ctors : Array CtorInfo
  /-- The globals that the program defines, ascending by name. -/
  globals : List GlobalInfo
  errors : List Malformed
  /-- The unbound names that were read, when they are collected. -/
  unbound : OrdSet String

namespace TypeMap

/-- The type of a node: the join of all its evaluations, `any` when it was never evaluated. -/
def typeOf (m : TypeMap) (node : NodeId) : Ty :=
  (OrdMap.get? m.nodeTypes node).getD .any

/-- The type of a name in the nearest scope that binds it, in at most `steps` steps. -/
def bindingIn? (m : TypeMap) (name : String) : Nat → ScopeId → Option Ty
  | 0, _ => none
  | steps + 1, id =>
    match m.scopes[id]? with
    | none => none
    | some s =>
      match OrdMap.get? s.bindings name with
      | some t => some t
      | none =>
        match s.parent with
        | none => none
        | some parent => bindingIn? m name steps parent

/-- The final type of a name as seen from a scope, `any` when it is unbound. -/
def typeOfBinding (m : TypeMap) (scope : ScopeId) (name : String) : Ty :=
  (m.bindingIn? name (m.scopes.size + 1) scope).getD .any

/-- The scopes of the activations of a function literal, oldest first. -/
def scopesOf (m : TypeMap) (func : NodeId) : List ScopeId :=
  (OrdMap.get? m.funcScopes func).getD []

/-- The join of a name over all activations of a function literal, `any` when there are none. -/
def bindingIn (m : TypeMap) (func : NodeId) (name : String) : Ty :=
  match m.scopesOf func with
  | [] => .any
  | scopes => .unionOf (scopes.map fun scope => m.typeOfBinding scope name)

/-- The declared signature of a function literal, `any` when it was never captured. -/
def signatureOf (m : TypeMap) (func : NodeId) : Ty :=
  match OrdMap.get? m.funcs func with
  | some info => info.signature
  | none => .any

/-- The name of a constructor. -/
def ctorName? (m : TypeMap) (id : CtorId) : Option String :=
  m.ctors[id]?.bind (·.name)

end TypeMap

end TypeFlow
