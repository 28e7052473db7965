import Mathlib
import TypeFlow.Proofs.Script.Duplicates
import TypeFlow.Proofs.Script.Names
import TypeFlow.Script.Builder

/-!
# Assembled trees have distinct identities

Trees are assembled with operations that draw identities from one counter.  Whoever uses every node
at most once gets trees in which no identity occurs twice: each node carries the identities of the
nodes that it was made of and those that were drawn for it, and the latter are new.

## Main Definitions

* `Node.ids` - the identities in the tree below a node
* `ExprForm.inner`, `StmtForm.inner` - the nodes directly inside a form
* `Build.Operation` - the operations with their arguments: the nodes they use and what they do
* `Accounts` - a node carries the identities of the nodes used and those drawn for it
* `Bench`, `Bench.Step` - the counter with the nodes that were not used yet, and one operation
* `Bench.Sound` - no identity occurs twice, and all lie below the counter

## Main Statements

* `accounts_expr`, `accounts_stmt` - a node of any form
* `Accounts.andThen` - operations that are made of operations
* `Build.Operation.accounts` - what every operation draws and builds
* `Bench.Step.sound`, `Bench.Reached.sound` - one operation, and any number of them
* `assembled_trees_distinct` - no identity is repeated in what was assembled

## Design Notes

The operations draw one, two or three identities, before or after the nodes inside are put in their
places.  An operation that consists of others is therefore accounted for through these, and only the
identities as a whole are compared, not the order in which they stand.
-/

namespace TypeFlow

/-! ### Identities below a node -/

/-- The nodes of the tree below a node, itself first. -/
def Node.within : Node → List Node
  | .stmt s => s.nodes true
  | .expr e => e.nodes true
  | .func f => f.nodes true

/-- The identities in the tree below a node. -/
def Node.ids (n : Node) : List NodeId :=
  n.within.map Node.id

/-- Expressions and statements as nodes. -/
def nodesOf (es : List Expr) (ss : List Stmt) : List Node :=
  es.map .expr ++ ss.map .stmt

/-! ### Operations -/

/-- The expression that a `for`-`in` loop assigns to. -/
def ForTarget.exprs : ForTarget → List Expr
  | .var _ => []
  | .expr e => [e]

/-- The nodes directly inside an expression of this form. -/
def ExprForm.inner : ExprForm → List Node
  | .function f => [.func f]
  | .assign _ left right => nodesOf [left, right] []
  | form => nodesOf form.operands []

/-- The nodes directly inside a statement of this form. -/
def StmtForm.inner : StmtForm → List Node
  | .function f => [.func f]
  | .forIn target right body => nodesOf (target.exprs ++ [right]) [body]
  | form => nodesOf form.operands form.parts

namespace Build

/-- An operation with its arguments. -/
inductive Operation where
  | expr (form : ExprForm)
  | stmt (form : StmtForm)
  | function (name : Option String) (params : List String) (body : List Stmt)
  | literal (kind : Literal)
  | ident (name : String)
  | this
  | object (properties : List (String × Expr))
  | array (elements : List Expr)
  | functionExpr (name : Option String) (params : List String) (body : List Stmt)
  | member (target : Expr) (property : String)
  | index (target key : Expr)
  | call (callee : Expr) (arguments : List Expr)
  | callWithoutCallee (arguments : List Expr)
  | methodCall (target : Expr) (method : String) (arguments : List Expr)
  | construct (callee : Expr) (arguments : List Expr)
  | unary (op : UnaryOp) (argument : Expr)
  | binary (op : BinaryOp) (left right : Expr)
  | assign (op : Option BinaryOp) (left right : Expr)
  | conditional (test consequent alternate : Expr)
  | sequence (exprs : List Expr)
  | exprStmt (e : Expr)
  | var (name : String) (init : Option Expr)
  | functionDecl (name : Option String) (params : List String) (body : List Stmt)
  | ret (argument : Option Expr)
  | block (body : List Stmt)
  | empty
  | ifBlocks (test : Expr) (consequent : List Stmt) (alternate : Option (List Stmt))
  | whileLoop (test : Expr) (body : List Stmt)
  | forLoop (init : ForInit) (test update : Option Expr) (body : List Stmt)
  | forIn (target : ForTarget) (right : Expr) (body : List Stmt)
  | throwStmt (argument : Expr)
  | guarded (body : List Stmt) (handler : Option Handler) (finalizer : List Stmt)

namespace Operation

/-- The nodes that an operation uses.  One that draws a single identity uses the nodes directly
inside the form that it builds. -/
def uses : Operation → List Node
  | .expr form => form.inner
  | .stmt form => form.inner
  | .function _ _ body => nodesOf [] body
  | .literal kind => (ExprForm.literal kind).inner
  | .ident name => (ExprForm.ident name).inner
  | .this => ExprForm.this.inner
  | .object properties => (ExprForm.object properties).inner
  | .array elements => (ExprForm.array elements).inner
  | .functionExpr _ _ body => nodesOf [] body
  | .member target property => (ExprForm.member target property).inner
  | .index target key => (ExprForm.index target key).inner
  | .call callee arguments => (ExprForm.call (some callee) arguments).inner
  | .callWithoutCallee arguments => (ExprForm.call none arguments).inner
  | .methodCall target _ arguments => nodesOf (target :: arguments) []
  | .construct callee arguments => (ExprForm.construct callee arguments).inner
  | .unary op argument => (ExprForm.unary op argument).inner
  | .binary op left right => (ExprForm.binary op left right).inner
  | .assign op left right => (ExprForm.assign op left right).inner
  | .conditional test consequent alternate =>
    (ExprForm.conditional test consequent alternate).inner
  | .sequence exprs => (ExprForm.sequence exprs).inner
  | .exprStmt e => (StmtForm.expr e).inner
  | .var name init => (StmtForm.vars [⟨name, init⟩]).inner
  | .functionDecl _ _ body => nodesOf [] body
  | .ret argument => (StmtForm.ret argument).inner
  | .block body => (StmtForm.block body).inner
  | .empty => StmtForm.empty.inner
  | .ifBlocks test consequent alternate => nodesOf [test] (consequent ++ alternate.getD [])
  | .whileLoop test body => nodesOf [test] body
  | .forLoop init test step body =>
    nodesOf (init.operands ++ test.toList ++ step.toList) body
  | .forIn target right body => nodesOf (target.exprs ++ [right]) body
  | .throwStmt argument => (StmtForm.throw argument).inner
  | .guarded body handler finalizer => (StmtForm.guarded body handler finalizer).inner

/-- What an operation does. -/
def perform : Operation → Build Node
  | .expr form => .expr <$> Build.expr form
  | .stmt form => .stmt <$> Build.stmt form
  | .function name params body => .func <$> Build.function name params body
  | .literal kind => .expr <$> Build.literal kind
  | .ident name => .expr <$> Build.ident name
  | .this => .expr <$> Build.this
  | .object properties => .expr <$> Build.object properties
  | .array elements => .expr <$> Build.array elements
  | .functionExpr name params body => .expr <$> Build.functionExpr name params body
  | .member target property => .expr <$> Build.member target property
  | .index target key => .expr <$> Build.index target key
  | .call callee arguments => .expr <$> Build.call callee arguments
  | .callWithoutCallee arguments => .expr <$> Build.callWithoutCallee arguments
  | .methodCall target method arguments => .expr <$> Build.methodCall target method arguments
  | .construct callee arguments => .expr <$> Build.construct callee arguments
  | .unary op argument => .expr <$> Build.unary op argument
  | .binary op left right => .expr <$> Build.binary op left right
  | .assign op left right => .expr <$> Build.assign op left right
  | .conditional test consequent alternate =>
    .expr <$> Build.conditional test consequent alternate
  | .sequence exprs => .expr <$> Build.sequence exprs
  | .exprStmt e => .stmt <$> Build.exprStmt e
  | .var name init => .stmt <$> Build.var name init
  | .functionDecl name params body => .stmt <$> Build.functionDecl name params body
  | .ret argument => .stmt <$> Build.ret argument
  | .block body => .stmt <$> Build.block body
  | .empty => .stmt <$> Build.empty
  | .ifBlocks test consequent alternate => .stmt <$> Build.ifBlocks test consequent alternate
  | .whileLoop test body => .stmt <$> Build.whileLoop test body
  | .forLoop init test step body => .stmt <$> Build.forLoop init test step body
  | .forIn target right body => .stmt <$> Build.forIn target right body
  | .throwStmt argument => .stmt <$> Build.throwStmt argument
  | .guarded body handler finalizer => .stmt <$> Build.guarded body handler finalizer

end Operation

end Build

/-! ### What an operation draws and builds -/

/-- From the nodes used and the identities from `n` on, the operation has built a node: it carries
the identities of the nodes used and those that were drawn. -/
def Accounts (uses : List Node) (n : NodeId) (built : Node × NodeId) : Prop :=
  ∃ k, built.2 = n + k ∧ built.1.ids.Perm (List.range' n k ++ uses.flatMap Node.ids)

section Accounts

variable {uses others : List Node} {n : NodeId}

/-- The identities in some trees are those of the nodes in them. -/
theorem flatMap_ids (ns : List Node) :
    ns.flatMap Node.ids = (ns.flatMap Node.within).map Node.id := by
  rw [List.map_flatMap]
  rfl

/-- The nodes in what an operation uses are those of the expressions and of the statements. -/
theorem within_nodesOf (es : List Expr) (ss : List Stmt) :
    (nodesOf es ss).flatMap Node.within = Expr.nodesAll true es ++ Stmt.nodesAll true ss := by
  have hexprs : (es.map Node.expr).flatMap Node.within = Expr.nodesAll true es := by
    induction es with
    | nil => rfl
    | cons e es ih => rw [List.map_cons, List.flatMap_cons, ih, Expr.nodesAll, Node.within]
  have hstmts : (ss.map Node.stmt).flatMap Node.within = Stmt.nodesAll true ss := by
    induction ss with
    | nil => rfl
    | cons s ss ih => rw [List.map_cons, List.flatMap_cons, ih, Stmt.nodesAll, Node.within]
  rw [nodesOf, List.flatMap_append, hexprs, hstmts]

/-- The order in which the trees are used does not matter. -/
theorem Accounts.congr {built : Node × NodeId} (h : Accounts uses n built)
    (hsame : uses.Perm others) : Accounts others n built := by
  obtain ⟨k, hnext, hids⟩ := h
  exact ⟨k, hnext, hids.trans ((hsame.flatMap_right _).append_left _)⟩

/-- An operation that uses the result of another one. -/
theorem Accounts.andThen {m node : Node} {n' n'' : NodeId} (hfirst : Accounts uses n (m, n'))
    (hsecond : Accounts (m :: others) n' (node, n'')) :
    Accounts (uses ++ others) n (node, n'') := by
  obtain ⟨k, rfl, hids⟩ := hfirst
  obtain ⟨k', rfl, hids'⟩ := hsecond
  refine ⟨k + k', Nat.add_assoc n k k', hids'.trans ?_⟩
  rw [List.flatMap_cons, List.flatMap_append, ← List.range'_append_1]
  have hdrawn : (List.range' (n + k) k' ++ (m.ids ++ others.flatMap Node.ids)).Perm
      (List.range' (n + k) k' ++ (List.range' n k ++ (uses.flatMap Node.ids ++
        others.flatMap Node.ids))) := by
    rw [← List.append_assoc (List.range' n k)]
    exact (hids.append_right _).append_left _
  refine hdrawn.trans ?_
  rw [← List.append_assoc]
  exact List.perm_append_comm.append_right _

/-- A node that takes the next identity. -/
theorem accounts_single {node : Node} {inner : List Node}
    (hown : node.ids = n :: inner.map Node.id) (hinside : inner.Perm (uses.flatMap Node.within)) :
    Accounts uses n (node, n + 1) := by
  refine ⟨1, rfl, ?_⟩
  rw [hown, flatMap_ids]
  exact (hinside.map Node.id).cons n

end Accounts

/-! ### The nodes of a form -/

theorem Expr.nodesProps_eq (ps : List (String × Expr)) :
    Expr.nodesProps true ps = Expr.nodesAll true (ps.map (·.2)) := by
  induction ps with
  | nil => rfl
  | cons p ps ih => rw [Expr.nodesProps, List.map_cons, Expr.nodesAll, ih]

theorem Expr.nodesOpt_eq (e : Option Expr) :
    Expr.nodesOpt true e = Expr.nodesAll true e.toList := by
  cases e <;> simp [Expr.nodesOpt, Expr.nodesAll]

theorem Stmt.nodesOpt_eq (s : Option Stmt) :
    Stmt.nodesOpt true s = Stmt.nodesAll true s.toList := by
  cases s <;> simp [Stmt.nodesOpt, Stmt.nodesAll]

theorem Expr.nodesAll_append (es fs : List Expr) :
    Expr.nodesAll true (es ++ fs) = Expr.nodesAll true es ++ Expr.nodesAll true fs := by
  induction es with
  | nil => rfl
  | cons e es ih => rw [List.cons_append, Expr.nodesAll, Expr.nodesAll, ih, List.append_assoc]

theorem Stmt.nodesAll_append (ss ts : List Stmt) :
    Stmt.nodesAll true (ss ++ ts) = Stmt.nodesAll true ss ++ Stmt.nodesAll true ts := by
  induction ss with
  | nil => rfl
  | cons s ss ih => rw [List.cons_append, Stmt.nodesAll, Stmt.nodesAll, ih, List.append_assoc]

theorem Declarator.nodesAll_eq (ds : List Declarator) :
    Declarator.nodesAll true ds = Expr.nodesAll true (ds.filterMap (·.init)) := by
  induction ds with
  | nil => rfl
  | cons d ds ih =>
    obtain ⟨name, init⟩ := d
    rw [Declarator.nodesAll, ih]
    cases init <;> simp [Expr.nodesOpt, Expr.nodesAll]

/-- The nodes in the start of a loop are those in its operands. -/
theorem ForInit.nodes_eq (init : ForInit) :
    init.nodes true = Expr.nodesAll true init.operands := by
  cases init <;> simp [ForInit.nodes, ForInit.operands, Expr.nodesAll, Declarator.nodesAll_eq]

/-- The nodes in the target of a loop are those in its expressions. -/
theorem ForTarget.nodes_eq (target : ForTarget) :
    target.nodes true = Expr.nodesAll true target.exprs := by
  cases target <;> simp [ForTarget.nodes, ForTarget.exprs, Expr.nodesAll]

/-- The nodes in a handler are those in its body. -/
theorem Handler.nodesOpt_eq (h : Option Handler) :
    Handler.nodesOpt true h = Stmt.nodesAll true (h.toList.flatMap (·.body)) := by
  cases h with
  | none => rfl
  | some h =>
    obtain ⟨param, body⟩ := h
    simp [Handler.nodesOpt]

/-- The tests and the bodies of cases take turns. -/
theorem Case.nodesAll_perm (cs : List Case) :
    (Case.nodesAll true cs).Perm
      (Expr.nodesAll true (cs.filterMap (·.test)) ++ Stmt.nodesAll true (cs.flatMap (·.body))) := by
  induction cs with
  | nil => exact .refl _
  | cons c cs ih =>
    obtain ⟨test, body⟩ := c
    have htests : Expr.nodesAll true ((⟨test, body⟩ :: cs : List Case).filterMap (·.test)) =
        Expr.nodesAll true test.toList ++ Expr.nodesAll true (cs.filterMap (·.test)) := by
      cases test <;> simp [Expr.nodesAll]
    rw [Case.nodesAll, Expr.nodesOpt_eq, htests, List.flatMap_cons, Stmt.nodesAll_append]
    refine (ih.append_left _).trans ?_
    rw [List.append_assoc, List.append_assoc]
    refine List.Perm.append_left _ ?_
    rw [← List.append_assoc, ← List.append_assoc]
    exact List.perm_append_comm.append_right _

/-- The nodes of an expression are those of the nodes directly inside it. -/
theorem ExprForm.nodes_eq_inner (form : ExprForm) :
    form.nodes true = form.inner.flatMap Node.within := by
  cases form with
  | function f => simp [ExprForm.nodes, ExprForm.inner, Node.within]
  | _ =>
    simp [ExprForm.nodes, ExprForm.inner, ExprForm.operands, within_nodesOf, Expr.nodesAll,
      Expr.nodesProps_eq, Expr.nodesOpt_eq, Expr.nodesAll_append, Stmt.nodesAll]

/-- The nodes of a statement are those of the nodes directly inside it.  Only those of a `switch`
stand in another order. -/
theorem StmtForm.nodes_perm_inner (form : StmtForm) :
    (form.nodes true).Perm (form.inner.flatMap Node.within) := by
  cases form with
  | function f =>
    refine .of_eq ?_
    simp [StmtForm.nodes, StmtForm.inner, Node.within]
  | switch discriminant cases =>
    simp only [StmtForm.inner, StmtForm.operands, StmtForm.parts, within_nodesOf, StmtForm.nodes,
      Expr.nodesAll, List.append_assoc]
    exact (Case.nodesAll_perm cases).append_left _
  | _ =>
    refine .of_eq ?_
    simp [StmtForm.nodes, StmtForm.inner, StmtForm.operands, StmtForm.parts, within_nodesOf,
      Expr.nodesAll, Expr.nodesOpt_eq, Expr.nodesAll_append, Stmt.nodesAll, Stmt.nodesOpt_eq,
      Stmt.nodesAll_append, Declarator.nodesAll_eq, Handler.nodesOpt_eq, ForInit.nodes_eq,
      ForTarget.nodes_eq]

/-! ### One node, and several -/

/-- An expression takes one new identity, over the expressions and the function that its form
holds. -/
theorem accounts_expr (form : ExprForm) (n : NodeId) :
    Accounts form.inner n (.expr ⟨n, ⟨0, 0⟩, form⟩, n + 1) := by
  refine accounts_single ?_ (.of_eq form.nodes_eq_inner)
  rw [Node.ids, Node.within, Expr.nodes, List.map_cons]
  rfl

/-- A statement takes one new identity, over the trees that its form holds. -/
theorem accounts_stmt (form : StmtForm) (n : NodeId) :
    Accounts form.inner n (.stmt ⟨n, ⟨0, 0⟩, form⟩, n + 1) := by
  refine accounts_single ?_ form.nodes_perm_inner
  rw [Node.ids, Node.within, Stmt.nodes, List.map_cons]
  rfl

/-- A literal takes one new identity, over the statements of its body. -/
theorem accounts_func (name : Option String) (params : List String) (body : List Stmt)
    (n : NodeId) : Accounts (nodesOf [] body) n (.func ⟨n, ⟨0, 0⟩, name, params, body⟩, n + 1) := by
  refine accounts_single ?_ (.of_eq (within_nodesOf [] body).symm)
  rw [Node.ids, Node.within, Func.nodes_true, List.map_cons]
  rfl

theorem nodesOf_perm (es : List Expr) {ss ts : List Stmt} (h : ss.Perm ts) :
    (nodesOf es ss).Perm (nodesOf es ts) :=
  (h.map _).append_left _

theorem nodesOf_append_perm (es : List Expr) (ss ts : List Stmt) :
    (nodesOf es (ss ++ ts)).Perm (nodesOf [] ss ++ nodesOf es ts) := by
  rw [nodesOf, nodesOf, nodesOf, List.map_append, List.map_nil, List.nil_append,
    ← List.append_assoc, ← List.append_assoc]
  exact List.perm_append_comm.append_right _

/-- A block, and a statement around it and other nodes. -/
theorem accounts_around (form : Stmt → StmtForm) {es : List Expr} (ss : List Stmt)
    (hinside : ∀ b, (form b).inner = nodesOf es (ss ++ [b])) (body : List Stmt) (n : NodeId) :
    Accounts (nodesOf es (ss ++ body)) n
      (.stmt ⟨n + 1, ⟨0, 0⟩, form ⟨n, ⟨0, 0⟩, .block body⟩⟩, n + 2) := by
  have haround (b : Stmt) :
      Accounts (.stmt b :: nodesOf es ss) (n + 1) (.stmt ⟨n + 1, ⟨0, 0⟩, form b⟩, n + 2) := by
    refine (accounts_stmt (form b) (n + 1)).congr ?_
    rw [hinside b]
    exact (nodesOf_perm es List.perm_append_comm).trans (nodesOf_append_perm es [b] ss)
  exact ((accounts_stmt (.block body) n).andThen (haround _)).congr
    ((nodesOf_append_perm es body ss).symm.trans (nodesOf_perm es List.perm_append_comm))

namespace Build.Operation

/-- A function expression takes two new identities, one for the literal and one for the
expression. -/
theorem accounts_functionExpr (name : Option String) (params : List String) (body : List Stmt)
    (n : NodeId) : Accounts (nodesOf [] body) n (perform (.functionExpr name params body) n) := by
  have haround (f : Func) := accounts_expr (.function f) (n + 1)
  exact ((accounts_func name params body n).andThen (haround _)).congr (by simp)

/-- A function declaration takes two new identities, one for the literal and one for the
statement. -/
theorem accounts_functionDecl (name : Option String) (params : List String) (body : List Stmt)
    (n : NodeId) : Accounts (nodesOf [] body) n (perform (.functionDecl name params body) n) := by
  have haround (f : Func) := accounts_stmt (.function f) (n + 1)
  exact ((accounts_func name params body n).andThen (haround _)).congr (by simp)

/-- A method call takes two new identities, one for the property and one for the call. -/
theorem accounts_methodCall (target : Expr) (method : String) (arguments : List Expr) (n : NodeId) :
    Accounts (nodesOf (target :: arguments) []) n
      (perform (.methodCall target method arguments) n) := by
  have hcall (callee : Expr) := accounts_expr (.call (some callee) arguments) (n + 1)
  exact (accounts_expr (.member target method) n).andThen (hcall _)

/-- A conditional on blocks takes an identity for each block, and one for itself. -/
theorem accounts_ifBlocks (test : Expr) (consequent : List Stmt) (alternate : Option (List Stmt))
    (n : NodeId) : Accounts (nodesOf [test] (consequent ++ alternate.getD [])) n
      (perform (.ifBlocks test consequent alternate) n) := by
  cases alternate with
  | none =>
    rw [Option.getD_none, List.append_nil]
    exact accounts_around (.branch test · none) [] (fun _ => rfl) consequent n
  | some body =>
    have halternative (c : Stmt) : Accounts (nodesOf [test] ([c] ++ body)) (n + 1)
        (.stmt ⟨n + 2, ⟨0, 0⟩, .branch test c (some ⟨n + 1, ⟨0, 0⟩, .block body⟩)⟩, n + 3) :=
      accounts_around (.branch test c <| some ·) [c] (fun _ => rfl) body (n + 1)
    have hsecond (c : Stmt) := (halternative c).congr (nodesOf_append_perm [test] [c] body)
    exact ((accounts_stmt (.block consequent) n).andThen (hsecond _)).congr
      (nodesOf_append_perm [test] consequent body).symm

/-- Every operation carries on the identities of the nodes that it uses, and draws those that it
adds. -/
theorem accounts (c : Operation) (n : NodeId) : Accounts c.uses n (c.perform n) := by
  cases c with
  | expr form | literal kind | ident name | this | object properties | array elements
  | member target property | index target key | call callee arguments
  | callWithoutCallee arguments | construct callee arguments | unary op argument
  | binary op left right | assign op left right | conditional test consequent alternate
  | sequence es => exact accounts_expr _ n
  | stmt form | exprStmt e | var name init | ret argument | block body | empty
  | throwStmt argument | guarded body handler finalizer => exact accounts_stmt _ n
  | function name params body => exact accounts_func name params body n
  | functionExpr name params body => exact accounts_functionExpr name params body n
  | functionDecl name params body => exact accounts_functionDecl name params body n
  | methodCall target method arguments => exact accounts_methodCall target method arguments n
  | ifBlocks test consequent alternate => exact accounts_ifBlocks test consequent alternate n
  | whileLoop test body => exact accounts_around (.whileLoop test) [] (fun _ => rfl) body n
  | forLoop init test step body =>
    exact accounts_around (.forLoop init test step) [] (fun _ => rfl) body n
  | forIn target right body =>
    exact accounts_around (.forIn target right) [] (fun _ => rfl) body n

end Build.Operation

/-! ### Assembling -/

/-- Work in progress: the next identity, and the nodes that are not part of another one yet. -/
structure Bench where
  next : NodeId
  loose : List Node

namespace Bench

/-- The bench before anything was built. -/
def start : Bench :=
  ⟨0, []⟩

/-- One step of work: an operation takes the nodes that it uses from the bench and leaves what it
builds, or an identity is drawn and put to no use. -/
inductive Step : Bench → Bench → Prop
  | build {n : NodeId} {loose rest : List Node} (c : Build.Operation) :
    loose.Perm (c.uses ++ rest) → Step ⟨n, loose⟩ ⟨(c.perform n).2, (c.perform n).1 :: rest⟩
  | draw {n : NodeId} {loose : List Node} : Step ⟨n, loose⟩ ⟨(Build.fresh n).2, loose⟩

/-- The bench is reached from the empty one by any number of steps. -/
def Reached (b : Bench) : Prop :=
  Relation.ReflTransGen Step start b

/-- No identity occurs twice, in one node or in two, and all lie below the next one. -/
structure Sound (b : Bench) : Prop where
  nodup : (b.loose.flatMap Node.ids).Nodup
  below : ∀ id ∈ b.loose.flatMap Node.ids, id < b.next

/-- One step of an assembly keeps the bench sound: the identities in use are distinct and below the
next one. -/
theorem Step.sound {b b' : Bench} (hstep : Step b b') (hsound : b.Sound) : b'.Sound := by
  cases hstep with
  | draw => exact ⟨hsound.nodup, fun id hmem => Nat.lt_succ_of_lt (hsound.below id hmem)⟩
  | @build n loose rest c htaken =>
    obtain ⟨k, hnext, hids⟩ := c.accounts n
    have hall : (((c.perform n).1 :: rest).flatMap Node.ids).Perm
        (List.range' n k ++ loose.flatMap Node.ids) := by
      have hkept := hids.append_right (rest.flatMap Node.ids)
      rw [List.append_assoc, ← List.flatMap_append] at hkept
      exact hkept.trans ((htaken.flatMap_right _).symm.append_left _)
    have hdisjoint : (List.range' n k).Disjoint (loose.flatMap Node.ids) := by
      intro id hdrawn hprev
      exact absurd (hsound.below id hprev) (Nat.not_lt.mpr (List.mem_range'_1.mp hdrawn).1)
    refine ⟨hall.nodup_iff.mpr ((List.nodup_range' 1).append hsound.nodup hdisjoint), ?_⟩
    intro id hmem
    rw [hnext]
    rcases List.mem_append.mp (hall.mem_iff.mp hmem) with hdrawn | hprev
    · exact (List.mem_range'_1.mp hdrawn).2
    · exact Nat.lt_add_right k (hsound.below id hprev)

/-- Every bench that an assembly reaches is sound. -/
theorem Reached.sound {b : Bench} (hreached : b.Reached) : b.Sound := by
  induction hreached with
  | refl => exact ⟨List.nodup_nil, by simp [start]⟩
  | tail _ hstep ih => exact hstep.sound ih

end Bench

/-- The identities of the nodes of a program are those of its statements taken together. -/
theorem Program.ids_nodes (p : Program) :
    p.nodes.map Node.id = (p.map Node.stmt).flatMap Node.ids := by
  have hwhole := within_nodesOf [] p
  rw [nodesOf, List.map_nil, List.nil_append, Expr.nodesAll, List.nil_append] at hwhole
  rw [flatMap_ids, hwhole]
  rfl

/-- **Assembled trees have distinct identities.**  Whatever operations are performed, in whatever
order, if every node is used at most once: the statements, expressions and functions in a node that
was built have different identities, all below the counter, and two nodes that are not part of one
another have no identity in common.  So no statement of a program that is made of such nodes is
flagged for repeating an identity. -/
theorem assembled_trees_distinct (b : Bench) (hreached : b.Reached) :
    (∀ node ∈ b.loose, Tidy node.within ∧ ∀ inner ∈ node.within, inner.id < b.next) ∧
    (b.loose.Pairwise fun m n => m.ids.Disjoint n.ids) ∧
    ∀ (p : Program) (rest : List Node), b.loose.Perm (p.map Node.stmt ++ rest) →
      Tidy p.nodes ∧ (∀ inner ∈ p.nodes, inner.id < b.next) ∧ p.duplicates = [] := by
  have hsound := hreached.sound
  obtain ⟨heach, hpairwise⟩ := List.nodup_flatMap.mp hsound.nodup
  refine ⟨fun node hloose => ⟨heach node hloose, fun inner hmem => ?_⟩, hpairwise,
    fun p rest htaken => ?_⟩
  · exact hsound.below _ (List.mem_flatMap.mpr ⟨node, hloose, List.mem_map_of_mem hmem⟩)
  · have hids := htaken.flatMap_right Node.ids
    rw [List.flatMap_append, ← p.ids_nodes] at hids
    have htidy : Tidy p.nodes := (hids.nodup_iff.mp hsound.nodup).of_append_left
    refine ⟨htidy, fun inner hmem => ?_, p.duplicates_eq_nil_iff.mpr htidy⟩
    exact hsound.below _ (hids.mem_iff.mpr (List.mem_append_left _ (List.mem_map_of_mem hmem)))

/-- `function f(o) { if (true) { o.m("s") } else {} }`, with identity 4 drawn in between and put to
no use. -/
def guardedCall : Program :=
  [⟨11, ⟨0, 0⟩, .function ⟨10, ⟨0, 0⟩, some "f", ["o"],
    [⟨9, ⟨0, 0⟩, .branch ⟨6, ⟨0, 0⟩, .literal .boolean⟩
      ⟨7, ⟨0, 0⟩, .block [⟨5, ⟨0, 0⟩, .expr ⟨3, ⟨0, 0⟩, .call
        (some ⟨2, ⟨0, 0⟩, .member ⟨1, ⟨0, 0⟩, .ident "o"⟩ "m"⟩)
        [⟨0, ⟨0, 0⟩, .literal .string⟩]⟩⟩]⟩
      (some ⟨8, ⟨0, 0⟩, .block []⟩)⟩]⟩⟩]

theorem assembled_trees_distinct_guardedCall :
    let b : Bench := ⟨12, guardedCall.map .stmt⟩
    b.Reached ∧ Tidy guardedCall.nodes ∧ (∀ inner ∈ guardedCall.nodes, inner.id < 12) ∧
      guardedCall.duplicates = [] := by
  intro b
  have hargument : Bench.Reached ⟨1, _⟩ := .tail .refl (.build (.literal .string) (.refl _))
  have htarget : Bench.Reached ⟨2, _⟩ := hargument.tail (.build (.ident "o") (.refl _))
  have hcall : Bench.Reached ⟨4, _⟩ := htarget.tail (.build (.methodCall _ "m" [_]) (.refl _))
  have hgap : Bench.Reached ⟨5, _⟩ := hcall.tail .draw
  have hstatement : Bench.Reached ⟨6, _⟩ := hgap.tail (.build (.exprStmt _) (.refl _))
  have htest : Bench.Reached ⟨7, _⟩ := hstatement.tail (.build (.literal .boolean) (.refl _))
  have hbranch : Bench.Reached ⟨10, _⟩ := htest.tail (.build (.ifBlocks _ [_] (some [])) (.refl _))
  have hreached : b.Reached :=
    hbranch.tail (.build (.functionDecl (some "f") ["o"] [_]) (.refl _))
  have hwhole : b.loose.Perm (guardedCall.map .stmt ++ []) := .of_eq (List.append_nil _).symm
  exact ⟨hreached, (assembled_trees_distinct b hreached).2.2 guardedCall [] hwhole⟩

end TypeFlow
