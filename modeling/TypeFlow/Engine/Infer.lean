import TypeFlow.Engine.Call
import TypeFlow.Engine.Operator

/-!
# Inference over trees

Interprets statements and expressions with types for values.  Every expression gives a type, which
is recorded for its node; assignments widen bindings and fields.  The order of control does not
matter: both arms of a branch run, and so does the body of a loop, once.

## Main Definitions

* `inferExpr`, `inferForm` - the type of an expression
* `inferCallee`, `evalTarget`, `inferInit` - expressions that are called, assigned to, or stored
  under a name
* `inferStmt`, `inferBlock` - statements

## Design Notes

All functions follow the tree.  Calls go through the parameter `invoke`.
-/

namespace TypeFlow

open Walk

/-- Whether the form is a member read, a call or an instance creation. -/
def ExprForm.isAccess : ExprForm → Bool
  | .member _ _ => true
  | .call _ _ => true
  | .construct _ _ => true
  | _ => false

/-- Stops at a member access without a property name. -/
def checkProperty (node : NodeId) (span : Span) (property : String) : Walk Unit :=
  when (property = "") (malformed .emptyPropertyName node span)

/-- Records the type of an expression for its node. -/
def settleExpr (node : NodeId) (form : ExprForm) (t : Ty) : Walk Ty := do
  when form.isAccess (noteAccess node)
  record node t
  return t

/-- Joins a type into the result of the innermost running call. -/
def addReturn (node : NodeId) (span : Span) (t : Ty) : Walk Unit := do
  match (← get).activations with
  | [] => malformed .returnOutsideFunction node span
  | a :: rest =>
    modify fun s => { s with activations := { a with returns := a.returns.join t } :: rest }

/-! ### Expressions -/

mutual

/-- The type of an expression, recorded for its node. -/
def inferExpr (invoke : Invoke) (scope : ScopeId) : Expr → Walk Ty
  | ⟨id, span, form⟩ => do
    let t ← inferForm invoke scope id span form
    settleExpr id form t
termination_by structural e => e

/-- The type of an expression of a given form at a node. -/
def inferForm (invoke : Invoke) (scope : ScopeId) (id : NodeId) (span : Span) :
    ExprForm → Walk Ty
  | .literal kind => return kind.ty
  | .ident name => readVariable scope name
  | .this => thisType
  | .array elements => do
    let _ ← inferAll invoke scope elements
    return .any
  | .object properties => do
    let fields ← inferProps invoke scope properties
    let cell ← onHeap (Heap.create ⟨id, scope, none⟩ fields)
    return .ofCell cell
  | .function f => captureFunc scope f none
  | .member object property => do
    checkProperty id span property
    let t ← inferExpr invoke scope object
    readMember t property
  | .index object key => do
    let _ ← inferExpr invoke scope object
    let _ ← inferExpr invoke scope key
    return .any
  | .call none _ => malformed .missingCallee id span
  | .call (some callee) arguments => do
    let c ← inferCallee invoke scope callee
    let args ← inferAll invoke scope arguments
    c.call invoke args id scope
  | .construct callee arguments => do
    let c ← inferExpr invoke scope callee
    let args ← inferAll invoke scope arguments
    constructValue invoke c args id scope
  | .unary op argument => do
    let _ ← inferExpr invoke scope argument
    return op.result
  | .update _ argument => do
    let target ← evalTarget invoke scope argument
    let current ← target.read scope
    record argument.id current
    target.write scope .number
    return .number
  | .binary op left right => do
    let l ← inferExpr invoke scope left
    let r ← inferExpr invoke scope right
    return op.result l r
  | .assign none left right => do
    let target ← evalTarget invoke scope left
    let value ← (match target with
      | .variable name => inferInit invoke scope name right
      | _ => inferExpr invoke scope right : Walk Ty)
    target.write scope value
    record left.id value
    return value
  | .assign (some op) left right => do
    let target ← evalTarget invoke scope left
    let current ← target.read scope
    let r ← inferExpr invoke scope right
    let value := op.result current r
    target.write scope value
    record left.id value
    return value
  | .conditional test consequent alternate => do
    let _ ← inferExpr invoke scope test
    let a ← inferExpr invoke scope consequent
    let b ← inferExpr invoke scope alternate
    return a.join b
  | .sequence exprs => do
    let ts ← inferAll invoke scope exprs
    return ts.getLastD .undefined
termination_by structural form => form

/-- The types of expressions, from first to last. -/
def inferAll (invoke : Invoke) (scope : ScopeId) : List Expr → Walk (List Ty)
  | [] => return []
  | e :: es => do
    let t ← inferExpr invoke scope e
    let ts ← inferAll invoke scope es
    return t :: ts
termination_by structural es => es

/-- The types of the properties of an object literal. -/
def inferProps (invoke : Invoke) (scope : ScopeId) :
    List (String × Expr) → Walk (List (String × Ty))
  | [] => return []
  | (key, e) :: ps => do
    let t ← inferExpr invoke scope e
    let ts ← inferProps invoke scope ps
    return (key, t) :: ts
termination_by structural ps => ps

/-- Evaluates what is called.  A member access is a method call, with the object as receiver. -/
def inferCallee (invoke : Invoke) (scope : ScopeId) : Expr → Walk Callee
  | ⟨id, span, form⟩ =>
    match form with
    | .member object property => do
      checkProperty id span property
      let receiver ← inferExpr invoke scope object
      let value ← readMember receiver property
      noteAccess id
      record id value
      return ⟨value, receiver, some property⟩
    | form => do
      let t ← inferForm invoke scope id span form
      let value ← settleExpr id form t
      return ⟨value, .undefined, none⟩
termination_by structural e => e

/-- Evaluates the object part of what is assigned to. -/
def evalTarget (invoke : Invoke) (scope : ScopeId) : Expr → Walk Target
  | ⟨id, span, form⟩ =>
    match form with
    | .ident name => return .variable name
    | .member object property => do
      checkProperty id span property
      let t ← inferExpr invoke scope object
      return .member t property object.isThis
    | .index object key => do
      let _ ← inferExpr invoke scope object
      let _ ← inferExpr invoke scope key
      return .computed
    | _ => malformed .invalidAssignmentTarget id span
termination_by structural e => e

/-- The type of an expression whose value is about to be stored under a name. -/
def inferInit (invoke : Invoke) (scope : ScopeId) (name : String) : Expr → Walk Ty
  | ⟨id, span, form⟩ =>
    match form with
    | .function f => do
      let value ← captureFunc scope f (some name)
      record id value
      return value
    | form => do
      let t ← inferForm invoke scope id span form
      settleExpr id form t
termination_by structural e => e

end

/-- The type of an expression that may be absent, which is then `undefined`. -/
def inferOpt (invoke : Invoke) (scope : ScopeId) : Option Expr → Walk Ty
  | none => return .undefined
  | some e => inferExpr invoke scope e

/-- Joins the initial values of variables into their bindings. -/
def inferDecls (invoke : Invoke) (scope : ScopeId) : List Declarator → Walk Unit
  | [] => return ()
  | ⟨_, none⟩ :: ds => inferDecls invoke scope ds
  | ⟨name, some init⟩ :: ds => do
    let t ← inferInit invoke scope name init
    let _ ← onEnv (Env.bind scope name t)
    inferDecls invoke scope ds

/-- Runs what stands first in the head of a `for` loop. -/
def inferForInit (invoke : Invoke) (scope : ScopeId) : ForInit → Walk Unit
  | .none => return ()
  | .vars decls => inferDecls invoke scope decls
  | .expr e => do
    let _ ← inferExpr invoke scope e
    return ()

/-- Assigns the property names, which are strings, to the target of a `for`-`in` loop. -/
def inferForTarget (invoke : Invoke) (scope : ScopeId) : ForTarget → Walk Unit
  | .var name => do
    let _ ← onEnv (Env.bind scope name .string)
    return ()
  | .expr e => do
    let target ← evalTarget invoke scope e
    target.write scope .string
    record e.id .string

/-! ### Statements -/

mutual

/-- Runs a statement. -/
def inferStmt (invoke : Invoke) (scope : ScopeId) : Stmt → Walk Unit
  | ⟨id, span, form⟩ => inferStmtForm invoke scope id span form
termination_by structural s => s

/-- Runs a statement of a given form at a node. -/
def inferStmtForm (invoke : Invoke) (scope : ScopeId) (id : NodeId) (span : Span) :
    StmtForm → Walk Unit
  | .block body => inferBlock invoke scope body
  | .empty => return ()
  | .expr e => do
    let _ ← inferExpr invoke scope e
    return ()
  | .vars decls => inferDecls invoke scope decls
  | .function f => do
    let value ← captureFunc scope f none
    record f.id value
  | .ret argument => do
    let t ← inferOpt invoke scope argument
    addReturn id span t
  | .branch test consequent alternate => do
    let _ ← inferExpr invoke scope test
    inferStmt invoke scope consequent
    inferStmtOpt invoke scope alternate
  | .whileLoop test body => do
    let _ ← inferExpr invoke scope test
    inferStmt invoke scope body
  | .doWhile body test => do
    let _ ← inferExpr invoke scope test
    inferStmt invoke scope body
  | .forLoop init test update body => do
    inferForInit invoke scope init
    let _ ← inferOpt invoke scope test
    inferStmt invoke scope body
    let _ ← inferOpt invoke scope update
    return ()
  | .forIn target right body => do
    let _ ← inferExpr invoke scope right
    inferForTarget invoke scope target
    inferStmt invoke scope body
  | .switch discriminant cases => do
    let _ ← inferExpr invoke scope discriminant
    inferCases invoke scope cases
  | .break => return ()
  | .continue => return ()
  | .throw argument => do
    let _ ← inferExpr invoke scope argument
    return ()
  | .guarded block handler finalizer => do
    inferBlock invoke scope block
    inferHandler invoke scope handler
    inferBlock invoke scope finalizer
termination_by structural form => form

/-- Runs statements from first to last. -/
def inferBlock (invoke : Invoke) (scope : ScopeId) : List Stmt → Walk Unit
  | [] => return ()
  | s :: rest => do
    inferStmt invoke scope s
    inferBlock invoke scope rest
termination_by structural body => body

/-- Runs a statement that may be absent. -/
def inferStmtOpt (invoke : Invoke) (scope : ScopeId) : Option Stmt → Walk Unit
  | none => return ()
  | some s => inferStmt invoke scope s
termination_by structural s => s

/-- Runs the cases of a `switch`, tests included. -/
def inferCases (invoke : Invoke) (scope : ScopeId) : List Case → Walk Unit
  | [] => return ()
  | ⟨test, body⟩ :: cs => do
    let _ ← inferOpt invoke scope test
    inferBlock invoke scope body
    inferCases invoke scope cs
termination_by structural cs => cs

/-- Runs a `catch` clause.  Anything can be thrown. -/
def inferHandler (invoke : Invoke) (scope : ScopeId) : Option Handler → Walk Unit
  | none => return ()
  | some ⟨param, body⟩ => do
    let _ ← onEnv (Env.bind scope param .any)
    inferBlock invoke scope body
termination_by structural h => h

end

end TypeFlow
