import TypeFlow.Ty.Basic

/-!
# Program trees

The trees that inference reads: expressions, statements and function literals of a small
prototype-based scripting language.  Every expression, statement and function literal carries an
identity, by which results are keyed, and the range of the source text that it came from.

## Main Definitions

* `Span`, `Literal`, `BinaryOp`, `UnaryOp`, `UpdateOp` - locations, literals and operators
* `Expr`, `ExprForm`, `Stmt`, `StmtForm`, `Func` - the trees
* `Program` - a sequence of statements

## Design Notes

A literal is known by its kind alone, since no result depends on its value.  An assignment carries
the binary operator that it applies, and none when it is plain.  A call may lack its callee: such
trees are malformed, and inference reports them.
-/

namespace TypeFlow

/-- A range of the source text. -/
structure Span where
  start : Nat
  stop : Nat
deriving DecidableEq, Repr, Inhabited

/-- The smallest range that covers two ranges. -/
def Span.merge (s t : Span) : Span :=
  ⟨min s.start t.start, max s.stop t.stop⟩

/-- The kinds of literals. -/
inductive Literal where
  | null
  | undefined
  | boolean
  | number
  | string
deriving DecidableEq, Repr

/-- The binary operators. -/
inductive BinaryOp where
  | add
  | sub
  | mul
  | div
  | mod
  | pow
  | lt
  | gt
  | le
  | ge
  | eq
  | ne
  | strictEq
  | strictNe
  | and
  | or
  | bitAnd
  | bitOr
  | bitXor
  | shiftLeft
  | shiftRight
  | shiftRightUnsigned
  | memberOf
  | instanceOf
deriving DecidableEq, Repr

/-- Whether the result of an operator is always a number. -/
def BinaryOp.isNumeric : BinaryOp → Bool
  | .sub | .mul | .div | .mod | .pow => true
  | .bitAnd | .bitOr | .bitXor => true
  | .shiftLeft | .shiftRight | .shiftRightUnsigned => true
  | _ => false

/-- The unary operators that read their operand. -/
inductive UnaryOp where
  | neg
  | pos
  | not
  | bitNot
  | typeOf
  | void
  | delete
deriving DecidableEq, Repr

/-- The unary operators that also write their operand. -/
inductive UpdateOp where
  | preIncrement
  | preDecrement
  | postIncrement
  | postDecrement
deriving DecidableEq, Repr

mutual

/-- An expression. -/
structure Expr where
  id : NodeId
  span : Span
  form : ExprForm

/-- The forms of expressions. -/
inductive ExprForm where
  | literal (kind : Literal)
  | ident (name : String)
  | this
  | array (elements : List Expr)
  | object (properties : List (String × Expr))
  | function (f : Func)
  /-- Property access `object.property`. -/
  | member (object : Expr) (property : String)
  /-- Computed property access `object[key]`. -/
  | index (object : Expr) (key : Expr)
  /-- A call; a missing callee makes the tree malformed. -/
  | call (callee : Option Expr) (arguments : List Expr)
  /-- Instance creation `new callee(arguments)`. -/
  | construct (callee : Expr) (arguments : List Expr)
  | unary (op : UnaryOp) (argument : Expr)
  | update (op : UpdateOp) (argument : Expr)
  | binary (op : BinaryOp) (left : Expr) (right : Expr)
  /-- Assignment: plain, or applying a binary operator to the old value. -/
  | assign (op : Option BinaryOp) (left : Expr) (right : Expr)
  | conditional (test : Expr) (consequent : Expr) (alternate : Expr)
  | sequence (exprs : List Expr)

/-- A function literal, of a declaration or an expression. -/
structure Func where
  id : NodeId
  span : Span
  name : Option String
  params : List String
  body : List Stmt

/-- A statement. -/
structure Stmt where
  id : NodeId
  span : Span
  form : StmtForm

/-- The forms of statements. -/
inductive StmtForm where
  | block (body : List Stmt)
  | empty
  | expr (e : Expr)
  | vars (decls : List Declarator)
  | function (f : Func)
  | ret (argument : Option Expr)
  | branch (test : Expr) (consequent : Stmt) (alternate : Option Stmt)
  | whileLoop (test : Expr) (body : Stmt)
  | doWhile (body : Stmt) (test : Expr)
  | forLoop (init : ForInit) (test : Option Expr) (update : Option Expr) (body : Stmt)
  | forIn (target : ForTarget) (right : Expr) (body : Stmt)
  | switch (discriminant : Expr) (cases : List Case)
  | break
  | continue
  | throw (argument : Expr)
  /-- A guarded block; an absent final block is an empty one. -/
  | guarded (block : List Stmt) (handler : Option Handler) (finalizer : List Stmt)

/-- One variable of a `var` declaration, with its initial value. -/
structure Declarator where
  name : String
  init : Option Expr

/-- What stands first in the head of a `for` loop. -/
inductive ForInit where
  | none
  | vars (decls : List Declarator)
  | expr (e : Expr)

/-- What a `for`-`in` loop assigns to. -/
inductive ForTarget where
  | var (name : String)
  | expr (e : Expr)

/-- One case of a `switch`; the default case has no test. -/
structure Case where
  test : Option Expr
  body : List Stmt

/-- The `catch` clause of a guarded block. -/
structure Handler where
  param : String
  body : List Stmt

end

/-- A program: its statements from first to last. -/
abbrev Program := List Stmt

/-- The range of the source text that the statements of a program cover. -/
def Program.span : Program → Span
  | [] => ⟨0, 0⟩
  | s :: rest => rest.foldl (fun acc t => acc.merge t.span) s.span

namespace Expr

/-- The name of a bare identifier. -/
def ident? (e : Expr) : Option String :=
  match e.form with
  | .ident name => some name
  | _ => none

/-- The function literal of a function expression. -/
def function? (e : Expr) : Option Func :=
  match e.form with
  | .function f => some f
  | _ => none

/-- Whether the expression is `this`. -/
def isThis (e : Expr) : Bool :=
  match e.form with
  | .this => true
  | _ => false

/-- Whether the expression can be assigned to. -/
def isAssignable (e : Expr) : Bool :=
  match e.form with
  | .ident _ => true
  | .member _ _ => true
  | .index _ _ => true
  | _ => false

end Expr

end TypeFlow
