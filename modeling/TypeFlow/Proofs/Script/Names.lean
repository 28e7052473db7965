import Mathlib
import TypeFlow.Proofs.Script.Nodes

/-!
# Names that a tree reads and binds

What one node asks for and declares, without the nodes inside it: the expressions whose value it
wants, and the names that it binds in the frame of the function around it.

## Main Definitions

* `Node.operands` - the expressions whose value a node wants
* `Program.reads` - the names that are read somewhere in a program
* `Node.binds` - the names that a node binds
* `declaredNames`, `caughtNames` - the names that a body declares, and those that it catches under
* `Func.ownNames`, `Func.frameNames` - the names that a frame of a function has, and may have

## Main Statements

* `Stmt.stmts_nodesAll` - the statements among the nodes of a body are its region
* `mem_binds_iff` - the nodes of a body bind what it declares and what it catches under

## Design Notes

The target of a plain assignment and the target of a `for`-`in` loop are written only.  A compound
assignment and an update operator read their target first.
-/

namespace TypeFlow

/-! ### Operands -/

/-- The expressions whose value an expression of this form wants. -/
def ExprForm.operands : ExprForm → List Expr
  | .array elements => elements
  | .object properties => properties.map Prod.snd
  | .member receiver _ => [receiver]
  | .index receiver key => [receiver, key]
  | .call callee arguments => callee.toList ++ arguments
  | .construct callee arguments => callee :: arguments
  | .unary _ argument => [argument]
  | .update _ argument => [argument]
  | .binary _ left right => [left, right]
  | .assign none _ right => [right]
  | .assign (some _) left right => [left, right]
  | .conditional test consequent alternate => [test, consequent, alternate]
  | .sequence exprs => exprs
  | _ => []

/-- The expressions whose value the initializer of a `for` loop wants. -/
def ForInit.operands : ForInit → List Expr
  | .none => []
  | .vars decls => decls.filterMap Declarator.init
  | .expr e => [e]

/-- The expressions whose value a statement of this form wants. -/
def StmtForm.operands : StmtForm → List Expr
  | .expr e => [e]
  | .vars decls => decls.filterMap Declarator.init
  | .ret argument => argument.toList
  | .branch test _ _ => [test]
  | .whileLoop test _ => [test]
  | .doWhile _ test => [test]
  | .forLoop init test update _ => init.operands ++ test.toList ++ update.toList
  | .forIn _ right _ => [right]
  | .switch discriminant cases => discriminant :: cases.filterMap Case.test
  | .throw argument => [argument]
  | _ => []

/-- The statements directly inside a statement of this form. -/
def StmtForm.parts : StmtForm → List Stmt
  | .block body => body
  | .branch _ consequent alternate => consequent :: alternate.toList
  | .whileLoop _ body => [body]
  | .doWhile body _ => [body]
  | .forLoop _ _ _ body => [body]
  | .forIn _ _ body => [body]
  | .switch _ cases => cases.flatMap Case.body
  | .guarded body handler finalizer => body ++ handler.toList.flatMap Handler.body ++ finalizer
  | _ => []

/-- The expressions whose value a node wants. -/
def Node.operands : Node → List Expr
  | .stmt x => x.form.operands
  | .expr e => e.form.operands
  | .func _ => []

/-- The names that are read somewhere in a program, function bodies included. -/
def Program.reads (p : Program) : List String :=
  (p.nodes.flatMap Node.operands).filterMap Expr.ident?

/-- A name that a node of a program wants the value of is read in the program. -/
theorem Program.mem_reads {p : Program} {n : Node} (hmem : n ∈ p.nodes) {id : NodeId} {span : Span}
    {name : String} (hoperand : ⟨id, span, .ident name⟩ ∈ n.operands) : name ∈ p.reads :=
  List.mem_filterMap.mpr ⟨_, List.mem_flatMap.mpr ⟨n, hmem, hoperand⟩, rfl⟩

/-! ### The names of a frame -/

/-- The name under which a statement itself catches. -/
def Stmt.caught? (x : Stmt) : Option String :=
  match x.form with
  | .guarded _ (some handler) _ => some handler.param
  | _ => none

/-- The names that a node binds in the frame around it. -/
def Node.binds : Node → List String
  | .stmt x => x.declaredVars ++ (x.declaredFunc?.bind Func.name).toList ++ x.caught?.toList
  | _ => []

/-- The names that a body declares, as variables and as functions. -/
def declaredNames (body : List Stmt) : List String :=
  hoistedVars body ++ (hoistedFuncs body).filterMap Func.name

/-- The names under which a body catches, outside of the functions in it. -/
def caughtNames (body : List Stmt) : List String :=
  (regionOf body).filterMap Stmt.caught?

/-- The names that every frame of a function has when its body runs: its parameters, its own name
and what its body declares. -/
def Func.ownNames (f : Func) : List String :=
  f.params ++ f.name.toList ++ declaredNames f.body

/-- The names that a frame of a function may have. -/
def Func.frameNames (f : Func) : List String :=
  f.ownNames ++ caughtNames f.body

/-! ### The statements among the nodes -/

mutual

/-- No statement stands in an expression, outside of the functions in it. -/
theorem Expr.stmts_nodes (e : Expr) : (e.nodes false).filterMap Node.stmt? = [] := by
  cases e with
  | mk id span form =>
    rw [Expr.nodes, List.filterMap_cons_none rfl]
    exact ExprForm.stmts_nodes form
termination_by structural e

/-- There are no statements in an expression, outside of literals. -/
theorem ExprForm.stmts_nodes (form : ExprForm) : (form.nodes false).filterMap Node.stmt? = [] := by
  cases form with
  | literal kind => rw [ExprForm.nodes]; rfl
  | ident name => rw [ExprForm.nodes]; rfl
  | this => rw [ExprForm.nodes]; rfl
  | array elements => rw [ExprForm.nodes, Expr.stmts_nodesAll elements]
  | object properties => rw [ExprForm.nodes, Expr.stmts_nodesProps properties]
  | function f => cases f; rw [ExprForm.nodes, Func.nodes]; rfl
  | member object property => rw [ExprForm.nodes, Expr.stmts_nodes object]
  | index object key =>
    rw [ExprForm.nodes, List.filterMap_append, Expr.stmts_nodes object, Expr.stmts_nodes key]
    rfl
  | call callee arguments =>
    rw [ExprForm.nodes, List.filterMap_append, Expr.stmts_nodesOpt callee,
      Expr.stmts_nodesAll arguments]
    rfl
  | construct callee arguments =>
    rw [ExprForm.nodes, List.filterMap_append, Expr.stmts_nodes callee,
      Expr.stmts_nodesAll arguments]
    rfl
  | unary op argument => rw [ExprForm.nodes, Expr.stmts_nodes argument]
  | update op argument => rw [ExprForm.nodes, Expr.stmts_nodes argument]
  | binary op left right =>
    rw [ExprForm.nodes, List.filterMap_append, Expr.stmts_nodes left, Expr.stmts_nodes right]
    rfl
  | assign op left right =>
    rw [ExprForm.nodes, List.filterMap_append, Expr.stmts_nodes left, Expr.stmts_nodes right]
    rfl
  | conditional test consequent alternate =>
    rw [ExprForm.nodes, List.filterMap_append, List.filterMap_append, Expr.stmts_nodes test,
      Expr.stmts_nodes consequent, Expr.stmts_nodes alternate]
    rfl
  | sequence exprs => rw [ExprForm.nodes, Expr.stmts_nodesAll exprs]
termination_by structural form

theorem Expr.stmts_nodesAll (es : List Expr) :
    (Expr.nodesAll false es).filterMap Node.stmt? = [] := by
  cases es with
  | nil => rfl
  | cons e es =>
    rw [Expr.nodesAll, List.filterMap_append, Expr.stmts_nodes e, Expr.stmts_nodesAll es]
    rfl
termination_by structural es

theorem Expr.stmts_nodesProps (ps : List (String × Expr)) :
    (Expr.nodesProps false ps).filterMap Node.stmt? = [] := by
  cases ps with
  | nil => rfl
  | cons p ps =>
    cases p with
    | mk key e =>
      rw [Expr.nodesProps, List.filterMap_append, Expr.stmts_nodes e, Expr.stmts_nodesProps ps]
      rfl
termination_by structural ps

theorem Expr.stmts_nodesOpt (e : Option Expr) :
    (Expr.nodesOpt false e).filterMap Node.stmt? = [] := by
  cases e with
  | none => rfl
  | some e => exact Expr.stmts_nodes e
termination_by structural e

end

theorem Declarator.stmts_nodesAll (ds : List Declarator) :
    (Declarator.nodesAll false ds).filterMap Node.stmt? = [] := by
  induction ds with
  | nil => rfl
  | cons d ds ih =>
    cases d
    rw [Declarator.nodesAll, List.filterMap_append, Expr.stmts_nodesOpt, ih]
    rfl

theorem ForInit.stmts_nodes (init : ForInit) : (init.nodes false).filterMap Node.stmt? = [] := by
  cases init with
  | none => rfl
  | vars decls => exact Declarator.stmts_nodesAll decls
  | expr e => exact e.stmts_nodes

theorem ForTarget.stmts_nodes (target : ForTarget) :
    (target.nodes false).filterMap Node.stmt? = [] := by
  cases target with
  | var name => rfl
  | expr e => exact e.stmts_nodes

mutual

/-- The statements among the nodes of a tree are its region. -/
theorem Stmt.stmts_nodes (x : Stmt) : (x.nodes false).filterMap Node.stmt? = x.region := by
  cases x with
  | mk id span form =>
    rw [Stmt.nodes, Stmt.region, ← StmtForm.stmts_nodes form]
    rfl
termination_by structural x

/-- The statements in the form of a statement are its region. -/
theorem StmtForm.stmts_nodes (form : StmtForm) :
    (form.nodes false).filterMap Node.stmt? = form.region := by
  cases form with
  | block body => rw [StmtForm.nodes, StmtForm.region, Stmt.stmts_nodesAll body, regionOf]
  | expr e => rw [StmtForm.nodes, Expr.stmts_nodes]; rfl
  | vars decls => rw [StmtForm.nodes, Declarator.stmts_nodesAll]; rfl
  | function f => cases f; rw [StmtForm.nodes, Func.nodes]; rfl
  | ret argument => rw [StmtForm.nodes, Expr.stmts_nodesOpt]; rfl
  | branch test consequent alternate =>
    rw [StmtForm.nodes, StmtForm.region, List.filterMap_append, List.filterMap_append,
      Expr.stmts_nodes, Stmt.stmts_nodes consequent, Stmt.stmts_nodesOpt alternate]
    rfl
  | whileLoop test body =>
    rw [StmtForm.nodes, StmtForm.region, List.filterMap_append, Expr.stmts_nodes,
      Stmt.stmts_nodes body]
    rfl
  | doWhile body test =>
    rw [StmtForm.nodes, StmtForm.region, List.filterMap_append, Expr.stmts_nodes,
      Stmt.stmts_nodes body]
    rfl
  | forLoop init test update body =>
    rw [StmtForm.nodes, StmtForm.region, List.filterMap_append, List.filterMap_append,
      List.filterMap_append, ForInit.stmts_nodes, Expr.stmts_nodesOpt, Expr.stmts_nodesOpt,
      Stmt.stmts_nodes body]
    rfl
  | forIn target right body =>
    rw [StmtForm.nodes, StmtForm.region, List.filterMap_append, List.filterMap_append,
      ForTarget.stmts_nodes, Expr.stmts_nodes, Stmt.stmts_nodes body]
    rfl
  | switch discriminant cases =>
    rw [StmtForm.nodes, StmtForm.region, List.filterMap_append, Expr.stmts_nodes,
      Case.stmts_nodesAll cases]
    rfl
  | throw argument => rw [StmtForm.nodes, Expr.stmts_nodes]; rfl
  | guarded block handler finalizer =>
    rw [StmtForm.nodes, StmtForm.region, List.filterMap_append, List.filterMap_append,
      Stmt.stmts_nodesAll block, Handler.stmts_nodesOpt handler, Stmt.stmts_nodesAll finalizer]
    rfl
  | _ => rw [StmtForm.nodes]; rfl
termination_by structural form

/-- The statements among the nodes of a body are its region. -/
theorem Stmt.stmts_nodesAll (body : List Stmt) :
    (Stmt.nodesAll false body).filterMap Node.stmt? = regionOf body := by
  cases body with
  | nil => rfl
  | cons x rest =>
    rw [Stmt.nodesAll, regionOf, Stmt.regionAll, List.filterMap_append, Stmt.stmts_nodes x,
      Stmt.stmts_nodesAll rest]
    rfl
termination_by structural body

/-- The same for an optional statement. -/
theorem Stmt.stmts_nodesOpt (x : Option Stmt) :
    (Stmt.nodesOpt false x).filterMap Node.stmt? = Stmt.regionOpt x := by
  cases x with
  | none => rfl
  | some x => exact Stmt.stmts_nodes x
termination_by structural x

/-- The same for the cases of a `switch`. -/
theorem Case.stmts_nodesAll (cs : List Case) :
    (Case.nodesAll false cs).filterMap Node.stmt? = Case.regionAll cs := by
  cases cs with
  | nil => rfl
  | cons c cs =>
    cases c with
    | mk test body =>
      rw [Case.nodesAll, Case.regionAll, List.filterMap_append, List.filterMap_append,
        Expr.stmts_nodesOpt, Stmt.stmts_nodesAll body, Case.stmts_nodesAll cs]
      rfl
termination_by structural cs

/-- The same for a handler. -/
theorem Handler.stmts_nodesOpt (h : Option Handler) :
    (Handler.nodesOpt false h).filterMap Node.stmt? = Handler.regionOpt h := by
  cases h with
  | none => rfl
  | some h =>
    cases h with
    | mk param body => exact Stmt.stmts_nodesAll body
termination_by structural h

end

/-! ### What the nodes of a body bind -/

/-- A statement is a node of a body when it is in the region. -/
theorem stmt_mem_nodes_iff {body : List Stmt} {x : Stmt} :
    .stmt x ∈ Stmt.nodesAll false body ↔ x ∈ regionOf body := by
  rw [← Stmt.stmts_nodesAll, List.mem_filterMap]
  constructor
  · exact fun hmem => ⟨_, hmem, rfl⟩
  · rintro ⟨n, hmem, hstmt⟩
    cases n with
    | stmt y => exact Option.some.inj hstmt ▸ hmem
    | expr e => cases hstmt
    | func f => cases hstmt

/-- A statement binds the variables that it declares. -/
theorem mem_binds_of_declared {x : Stmt} {name : String} (h : name ∈ x.declaredVars) :
    name ∈ Node.binds (.stmt x) :=
  List.mem_append_left _ (List.mem_append_left _ h)

/-- A statement binds the name under which it catches. -/
theorem mem_binds_of_caught {x : Stmt} {name : String} (h : x.caught? = some name) :
    name ∈ Node.binds (.stmt x) :=
  List.mem_append_right _ (Option.mem_toList.mpr h)

/-- The nodes of a body bind what it declares and what it catches under. -/
theorem mem_binds_iff {body : List Stmt} {name : String} :
    (∃ n ∈ Stmt.nodesAll false body, name ∈ n.binds) ↔
      name ∈ declaredNames body ++ caughtNames body := by
  have hsplit : name ∈ declaredNames body ++ caughtNames body ↔
      ∃ x ∈ regionOf body, name ∈ Node.binds (.stmt x) := by
    simp only [declaredNames, caughtNames, hoistedVars, hoistedFuncs, Node.binds, List.mem_append,
      List.mem_flatMap, List.mem_filterMap, Option.mem_toList, Option.bind_eq_some_iff]
    constructor
    · rintro ((⟨x, hmem, hdeclared⟩ | ⟨f, ⟨x, hmem, hdeclared⟩, hnamed⟩) | ⟨x, hmem, hcaught⟩)
      · exact ⟨x, hmem, .inl (.inl hdeclared)⟩
      · exact ⟨x, hmem, .inl (.inr ⟨f, hdeclared, hnamed⟩)⟩
      · exact ⟨x, hmem, .inr hcaught⟩
    · rintro ⟨x, hmem, (hdeclared | ⟨f, hdeclared, hnamed⟩) | hcaught⟩
      · exact .inl (.inl ⟨x, hmem, hdeclared⟩)
      · exact .inl (.inr ⟨f, ⟨x, hmem, hdeclared⟩, hnamed⟩)
      · exact .inr ⟨x, hmem, hcaught⟩
  rw [hsplit]
  constructor
  · rintro ⟨n, hmem, hbinds⟩
    cases n with
    | stmt x => exact ⟨x, stmt_mem_nodes_iff.mp hmem, hbinds⟩
    | expr e => cases hbinds
    | func f => cases hbinds
  · rintro ⟨x, hmem, hbinds⟩
    exact ⟨.stmt x, stmt_mem_nodes_iff.mpr hmem, hbinds⟩

end TypeFlow
