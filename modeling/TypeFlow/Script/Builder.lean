import TypeFlow.Script.Basic

/-!
# Building trees

Operations that assemble trees and number their nodes.  One counter hands out the identities, and a
node takes its identity after the nodes inside it have theirs.

## Main Definitions

* `Build` - computations that draw identities from the counter
* `Build.expr`, `Build.stmt`, `Build.function` - a node of a given form, with the next identity
* the other operations - one for each form that consists of several nodes
-/

namespace TypeFlow

/-- Computations that draw node identities from a counter. -/
abbrev Build := StateM NodeId

namespace Build

/-- The next identity. -/
def fresh : Build NodeId := do
  let id ← get
  set (id + 1)
  return id

/-- An expression of a given form. -/
def expr (form : ExprForm) : Build Expr := do
  return ⟨← fresh, ⟨0, 0⟩, form⟩

/-- A statement of a given form. -/
def stmt (form : StmtForm) : Build Stmt := do
  return ⟨← fresh, ⟨0, 0⟩, form⟩

/-- A function literal. -/
def function (name : Option String) (params : List String) (body : List Stmt) : Build Func := do
  return ⟨← fresh, ⟨0, 0⟩, name, params, body⟩

/-! ### Expressions -/

def literal (kind : Literal) : Build Expr :=
  expr (.literal kind)

def ident (name : String) : Build Expr :=
  expr (.ident name)

def this : Build Expr :=
  expr .this

def object (properties : List (String × Expr)) : Build Expr :=
  expr (.object properties)

def array (elements : List Expr) : Build Expr :=
  expr (.array elements)

/-- A function expression: the literal takes its identity before the expression. -/
def functionExpr (name : Option String) (params : List String) (body : List Stmt) :
    Build Expr := do
  let f ← function name params body
  expr (.function f)

def member (target : Expr) (property : String) : Build Expr :=
  expr (.member target property)

def index (target key : Expr) : Build Expr :=
  expr (.index target key)

def call (callee : Expr) (arguments : List Expr) : Build Expr :=
  expr (.call (some callee) arguments)

/-- A call that lacks its callee. -/
def callWithoutCallee (arguments : List Expr) : Build Expr :=
  expr (.call none arguments)

/-- A method call: the member access takes its identity before the call. -/
def methodCall (target : Expr) (method : String) (arguments : List Expr) : Build Expr := do
  let callee ← member target method
  call callee arguments

def construct (callee : Expr) (arguments : List Expr) : Build Expr :=
  expr (.construct callee arguments)

def unary (op : UnaryOp) (argument : Expr) : Build Expr :=
  expr (.unary op argument)

def binary (op : BinaryOp) (left right : Expr) : Build Expr :=
  expr (.binary op left right)

/-- A plain assignment, or one that applies an operator to the old value. -/
def assign (op : Option BinaryOp) (left right : Expr) : Build Expr :=
  expr (.assign op left right)

def conditional (test consequent alternate : Expr) : Build Expr :=
  expr (.conditional test consequent alternate)

def sequence (exprs : List Expr) : Build Expr :=
  expr (.sequence exprs)

/-! ### Statements -/

def exprStmt (e : Expr) : Build Stmt :=
  stmt (.expr e)

/-- The declaration of one variable. -/
def var (name : String) (init : Option Expr) : Build Stmt :=
  stmt (.vars [⟨name, init⟩])

/-- A function declaration: the literal takes its identity before the statement. -/
def functionDecl (name : Option String) (params : List String) (body : List Stmt) :
    Build Stmt := do
  let f ← function name params body
  stmt (.function f)

def ret (argument : Option Expr) : Build Stmt :=
  stmt (.ret argument)

def block (body : List Stmt) : Build Stmt :=
  stmt (.block body)

def empty : Build Stmt :=
  stmt .empty

/-- A branch whose arms are blocks: the consequent, then the alternate, then the branch. -/
def ifBlocks (test : Expr) (consequent : List Stmt) (alternate : Option (List Stmt)) :
    Build Stmt := do
  let c ← block consequent
  match alternate with
  | none => stmt (.branch test c none)
  | some body =>
    let a ← block body
    stmt (.branch test c (some a))

def whileLoop (test : Expr) (body : List Stmt) : Build Stmt := do
  let b ← block body
  stmt (.whileLoop test b)

def forLoop (init : ForInit) (test update : Option Expr) (body : List Stmt) : Build Stmt := do
  let b ← block body
  stmt (.forLoop init test update b)

def forIn (target : ForTarget) (right : Expr) (body : List Stmt) : Build Stmt := do
  let b ← block body
  stmt (.forIn target right b)

def throwStmt (argument : Expr) : Build Stmt :=
  stmt (.throw argument)

/-- A guarded block with its `catch` clause and its final statements. -/
def guarded (body : List Stmt) (handler : Option Handler) (finalizer : List Stmt) : Build Stmt :=
  stmt (.guarded body handler finalizer)

end Build

end TypeFlow
