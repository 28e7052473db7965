import TypeFlow.Script.Basic

/-!
# The nodes of a tree

All statements, expressions and function literals of a tree, in visiting order: a node comes before
the nodes inside it, and these come in the order in which they are written, except that the test of
a `do` loop comes before its body.

## Main Definitions

* `Node` - a statement, an expression or a function literal
* `Stmt.nodes`, `Expr.nodes`, `Func.nodes` - the nodes of a tree
* `Program.nodes` - the nodes of a program

## Design Notes

Whether the traversal goes into the bodies of function literals is a parameter, `deep`.
-/

namespace TypeFlow

/-- A node that carries an identity. -/
inductive Node where
  | stmt (s : Stmt)
  | expr (e : Expr)
  | func (f : Func)

namespace Node

/-- The identity of a node. -/
def id : Node → NodeId
  | .stmt s => s.id
  | .expr e => e.id
  | .func f => f.id

/-- The source range of a node. -/
def span : Node → Span
  | .stmt s => s.span
  | .expr e => e.span
  | .func f => f.span

/-- The statement that a node is. -/
def stmt? : Node → Option Stmt
  | .stmt s => some s
  | _ => none

/-- The expression that a node is. -/
def expr? : Node → Option Expr
  | .expr e => some e
  | _ => none

/-- The function literal that a node is. -/
def func? : Node → Option Func
  | .func f => some f
  | _ => none

end Node

mutual

/-- The nodes of an expression. -/
def Expr.nodes (deep : Bool) : Expr → List Node
  | ⟨id, span, form⟩ => .expr ⟨id, span, form⟩ :: form.nodes deep
termination_by structural e => e

/-- The nodes inside an expression. -/
def ExprForm.nodes (deep : Bool) : ExprForm → List Node
  | .literal _ => []
  | .ident _ => []
  | .this => []
  | .array elements => Expr.nodesAll deep elements
  | .object properties => Expr.nodesProps deep properties
  | .function f => f.nodes deep
  | .member object _ => object.nodes deep
  | .index object key => object.nodes deep ++ key.nodes deep
  | .call callee arguments => Expr.nodesOpt deep callee ++ Expr.nodesAll deep arguments
  | .construct callee arguments => callee.nodes deep ++ Expr.nodesAll deep arguments
  | .unary _ argument => argument.nodes deep
  | .update _ argument => argument.nodes deep
  | .binary _ left right => left.nodes deep ++ right.nodes deep
  | .assign _ left right => left.nodes deep ++ right.nodes deep
  | .conditional test consequent alternate =>
    test.nodes deep ++ consequent.nodes deep ++ alternate.nodes deep
  | .sequence exprs => Expr.nodesAll deep exprs
termination_by structural form => form

/-- The nodes of a list of expressions. -/
def Expr.nodesAll (deep : Bool) : List Expr → List Node
  | [] => []
  | e :: es => e.nodes deep ++ Expr.nodesAll deep es
termination_by structural es => es

/-- The nodes of the values of an object literal. -/
def Expr.nodesProps (deep : Bool) : List (String × Expr) → List Node
  | [] => []
  | (_, e) :: ps => e.nodes deep ++ Expr.nodesProps deep ps
termination_by structural ps => ps

/-- The nodes of an expression that may be absent. -/
def Expr.nodesOpt (deep : Bool) : Option Expr → List Node
  | none => []
  | some e => e.nodes deep
termination_by structural e => e

/-- The nodes of a function literal. -/
def Func.nodes (deep : Bool) : Func → List Node
  | ⟨id, span, name, params, body⟩ =>
    .func ⟨id, span, name, params, body⟩ :: if deep then Stmt.nodesAll deep body else []
termination_by structural f => f

/-- The nodes of a statement. -/
def Stmt.nodes (deep : Bool) : Stmt → List Node
  | ⟨id, span, form⟩ => .stmt ⟨id, span, form⟩ :: form.nodes deep
termination_by structural s => s

/-- The nodes inside a statement. -/
def StmtForm.nodes (deep : Bool) : StmtForm → List Node
  | .block body => Stmt.nodesAll deep body
  | .empty => []
  | .expr e => e.nodes deep
  | .vars decls => Declarator.nodesAll deep decls
  | .function f => f.nodes deep
  | .ret argument => Expr.nodesOpt deep argument
  | .branch test consequent alternate =>
    test.nodes deep ++ consequent.nodes deep ++ Stmt.nodesOpt deep alternate
  | .whileLoop test body => test.nodes deep ++ body.nodes deep
  | .doWhile body test => test.nodes deep ++ body.nodes deep
  | .forLoop init test update body =>
    init.nodes deep ++ Expr.nodesOpt deep test ++ Expr.nodesOpt deep update ++ body.nodes deep
  | .forIn target right body => target.nodes deep ++ right.nodes deep ++ body.nodes deep
  | .switch discriminant cases => discriminant.nodes deep ++ Case.nodesAll deep cases
  | .break => []
  | .continue => []
  | .throw argument => argument.nodes deep
  | .guarded block handler finalizer =>
    Stmt.nodesAll deep block ++ Handler.nodesOpt deep handler ++ Stmt.nodesAll deep finalizer
termination_by structural form => form

/-- The nodes of a list of statements. -/
def Stmt.nodesAll (deep : Bool) : List Stmt → List Node
  | [] => []
  | s :: rest => s.nodes deep ++ Stmt.nodesAll deep rest
termination_by structural body => body

/-- The nodes of a statement that may be absent. -/
def Stmt.nodesOpt (deep : Bool) : Option Stmt → List Node
  | none => []
  | some s => s.nodes deep
termination_by structural s => s

/-- The nodes of the initial values of declarators. -/
def Declarator.nodesAll (deep : Bool) : List Declarator → List Node
  | [] => []
  | ⟨_, init⟩ :: ds => Expr.nodesOpt deep init ++ Declarator.nodesAll deep ds
termination_by structural ds => ds

/-- The nodes of a `for` initializer. -/
def ForInit.nodes (deep : Bool) : ForInit → List Node
  | .none => []
  | .vars decls => Declarator.nodesAll deep decls
  | .expr e => e.nodes deep
termination_by structural init => init

/-- The nodes of a `for`-`in` target. -/
def ForTarget.nodes (deep : Bool) : ForTarget → List Node
  | .var _ => []
  | .expr e => e.nodes deep
termination_by structural target => target

/-- The nodes of the cases of a `switch`. -/
def Case.nodesAll (deep : Bool) : List Case → List Node
  | [] => []
  | ⟨test, body⟩ :: cs =>
    Expr.nodesOpt deep test ++ Stmt.nodesAll deep body ++ Case.nodesAll deep cs
termination_by structural cs => cs

/-- The nodes of a `catch` clause. -/
def Handler.nodesOpt (deep : Bool) : Option Handler → List Node
  | none => []
  | some ⟨_, body⟩ => Stmt.nodesAll deep body
termination_by structural h => h

end

namespace Program

/-- All nodes of a program, function bodies included. -/
def nodes (p : Program) : List Node :=
  Stmt.nodesAll true p

/-- The nodes of a program outside the bodies of its function literals. -/
def outerNodes (p : Program) : List Node :=
  Stmt.nodesAll false p

/-- All expressions of a program. -/
def exprs (p : Program) : List Expr :=
  (nodes p).filterMap Node.expr?

/-- All statements of a program. -/
def stmts (p : Program) : List Stmt :=
  (nodes p).filterMap Node.stmt?

/-- All function literals of a program. -/
def funcs (p : Program) : List Func :=
  (nodes p).filterMap Node.func?

end Program

/-- The function literals in a function literal, itself first. -/
def Func.funcs (f : Func) : List Func :=
  (f.nodes true).filterMap Node.func?

end TypeFlow
