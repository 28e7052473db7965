import Mathlib
import TypeFlow.Script.Malformed
import TypeFlow.Script.Region

/-!
# Nodes of regions and of function bodies

## Main Statements

* `Stmt.nodes_subset_of_region` - a statement of the region of a tree has only nodes of the tree
* `func_mem_of_hoisted` - a function that is declared in the region of a body is a node of the body
* `Func.funcs_subset_of_body` - the literals in a literal of a body are literals of the function
-/

namespace TypeFlow

variable {deep : Bool} {x : Stmt}

/-- A literal is one of its nodes. -/
theorem Func.self_mem_nodes (f : Func) : .func f ∈ f.nodes deep := by
  cases f
  rw [Func.nodes]
  exact List.mem_cons_self

mutual

/-- A statement of the region has only nodes of the tree. -/
theorem Stmt.nodes_subset_of_region (s : Stmt) (h : x ∈ s.region) :
    x.nodes deep ⊆ s.nodes deep := by
  cases s with
  | mk id span form =>
    rw [Stmt.region] at h
    rcases List.mem_cons.mp h with rfl | hinside
    · exact List.Subset.refl _
    · rw [Stmt.nodes]
      exact List.subset_cons_of_subset _ (StmtForm.nodes_subset_of_region form hinside)
termination_by structural s

/-- A statement in the region of a form has only nodes of the form. -/
theorem StmtForm.nodes_subset_of_region (form : StmtForm) (h : x ∈ form.region) :
    x.nodes deep ⊆ form.nodes deep := by
  cases form with
  | block body =>
    rw [StmtForm.region] at h
    rw [StmtForm.nodes]
    exact Stmt.nodesAll_subset_of_region body h
  | branch test consequent alternate =>
    rw [StmtForm.region] at h
    rw [StmtForm.nodes]
    rcases List.mem_append.mp h with hinside | hinside
    · refine List.subset_append_of_subset_left _ (List.subset_append_of_subset_right _ ?_)
      exact Stmt.nodes_subset_of_region consequent hinside
    · exact List.subset_append_of_subset_right _ (Stmt.nodesOpt_subset_of_region alternate hinside)
  | whileLoop test body =>
    rw [StmtForm.region] at h
    rw [StmtForm.nodes]
    exact List.subset_append_of_subset_right _ (Stmt.nodes_subset_of_region body h)
  | doWhile body test =>
    rw [StmtForm.region] at h
    rw [StmtForm.nodes]
    exact List.subset_append_of_subset_right _ (Stmt.nodes_subset_of_region body h)
  | forLoop init test update body =>
    rw [StmtForm.region] at h
    rw [StmtForm.nodes]
    exact List.subset_append_of_subset_right _ (Stmt.nodes_subset_of_region body h)
  | forIn target right body =>
    rw [StmtForm.region] at h
    rw [StmtForm.nodes]
    exact List.subset_append_of_subset_right _ (Stmt.nodes_subset_of_region body h)
  | switch discriminant cases =>
    rw [StmtForm.region] at h
    rw [StmtForm.nodes]
    exact List.subset_append_of_subset_right _ (Case.nodesAll_subset_of_region cases h)
  | guarded block handler finalizer =>
    rw [StmtForm.region] at h
    rw [StmtForm.nodes]
    rcases List.mem_append.mp h with hinside | hinside
    · refine List.subset_append_of_subset_left _ ?_
      rcases List.mem_append.mp hinside with hinside | hinside
      · exact List.subset_append_of_subset_left _ (Stmt.nodesAll_subset_of_region block hinside)
      · refine List.subset_append_of_subset_right _ ?_
        exact Handler.nodesOpt_subset_of_region handler hinside
    · exact List.subset_append_of_subset_right _ (Stmt.nodesAll_subset_of_region finalizer hinside)
  | _ =>
    rw [StmtForm.region] at h
    · cases h
    all_goals simp
termination_by structural form

/-- The same for a list of statements. -/
theorem Stmt.nodesAll_subset_of_region (body : List Stmt) (h : x ∈ Stmt.regionAll body) :
    x.nodes deep ⊆ Stmt.nodesAll deep body := by
  cases body with
  | nil => cases h
  | cons s rest =>
    rw [Stmt.regionAll] at h
    rw [Stmt.nodesAll]
    rcases List.mem_append.mp h with hinside | hinside
    · exact List.subset_append_of_subset_left _ (Stmt.nodes_subset_of_region s hinside)
    · exact List.subset_append_of_subset_right _ (Stmt.nodesAll_subset_of_region rest hinside)
termination_by structural body

/-- The same for an optional statement. -/
theorem Stmt.nodesOpt_subset_of_region (s : Option Stmt) (h : x ∈ Stmt.regionOpt s) :
    x.nodes deep ⊆ Stmt.nodesOpt deep s := by
  cases s with
  | none => cases h
  | some s => exact Stmt.nodes_subset_of_region s h
termination_by structural s

/-- The same for the cases of a `switch`. -/
theorem Case.nodesAll_subset_of_region (cs : List Case) (h : x ∈ Case.regionAll cs) :
    x.nodes deep ⊆ Case.nodesAll deep cs := by
  cases cs with
  | nil => cases h
  | cons c cs =>
    cases c with
    | mk test body =>
      rw [Case.regionAll] at h
      rw [Case.nodesAll]
      rcases List.mem_append.mp h with hinside | hinside
      · refine List.subset_append_of_subset_left _ (List.subset_append_of_subset_right _ ?_)
        exact Stmt.nodesAll_subset_of_region body hinside
      · exact List.subset_append_of_subset_right _ (Case.nodesAll_subset_of_region cs hinside)
termination_by structural cs

/-- The same for a handler. -/
theorem Handler.nodesOpt_subset_of_region (h : Option Handler) (hmem : x ∈ Handler.regionOpt h) :
    x.nodes deep ⊆ Handler.nodesOpt deep h := by
  cases h with
  | none => cases hmem
  | some h =>
    cases h with
    | mk param body => exact Stmt.nodesAll_subset_of_region body hmem
termination_by structural h

end

/-- A function that is declared in the region of a body is a node of the body. -/
theorem func_mem_of_hoisted {body : List Stmt} {f : Func} (h : f ∈ hoistedFuncs body) :
    .func f ∈ Stmt.nodesAll deep body := by
  obtain ⟨s, hinside, hdeclares⟩ := List.mem_filterMap.mp h
  refine Stmt.nodesAll_subset_of_region body hinside ?_
  cases s with
  | mk id span form =>
    cases form with
    | function g =>
      cases hdeclares
      rw [Stmt.nodes, StmtForm.nodes]
      exact List.mem_cons_of_mem _ f.self_mem_nodes
    | _ => cases hdeclares

theorem Stmt.nodes_subset_nodesAll {body : List Stmt} (h : x ∈ body) :
    x.nodes deep ⊆ Stmt.nodesAll deep body := by
  induction body with
  | nil => cases h
  | cons s rest ih =>
    rw [Stmt.nodesAll]
    rcases List.mem_cons.mp h with rfl | hlater
    · exact List.subset_append_left _ _
    · exact List.subset_append_of_subset_right _ (ih hlater)

/-! ### Bodies of function literals -/

/-- A node, and the nodes in its body if it is a literal. -/
def Node.opened : Node → List Node
  | .func f => f.nodes true
  | n => [n]

/-- Opening the literals among some nodes gives some others. -/
def Opens (outer inner : List Node) : Prop :=
  inner = outer.flatMap Node.opened

theorem Opens.nil : Opens [] [] :=
  rfl

/-- What opens part by part opens as a whole. -/
theorem Opens.append {as as' bs bs' : List Node} (h : Opens as as') (h' : Opens bs bs') :
    Opens (as ++ bs) (as' ++ bs') := by
  rw [Opens, List.flatMap_append, ← h, ← h']

/-- A node that is no literal opens to itself. -/
theorem Opens.cons {n : Node} {as as' : List Node} (hsingle : n.opened = [n]) (h : Opens as as') :
    Opens (n :: as) (n :: as') := by
  rw [Opens, List.flatMap_cons, hsingle, ← h]
  rfl

/-- A literal among the nodes has all its nodes among the opened ones. -/
theorem Opens.sublist {outer inner : List Node} (h : Opens outer inner) {f : Func}
    (hmem : .func f ∈ outer) : (f.nodes true).Sublist inner := by
  rw [h, List.flatMap]
  exact List.sublist_flatten_of_mem (List.mem_map_of_mem (f := Node.opened) hmem)

/-- The nodes of a literal outside of inner literals open to all its nodes. -/
theorem Func.opens (f : Func) : Opens (f.nodes false) (f.nodes true) := by
  cases f
  rw [Opens, Func.nodes.eq_1 false]
  exact (List.append_nil _).symm

mutual

/-- The same for an expression. -/
theorem Expr.opens (e : Expr) : Opens (e.nodes false) (e.nodes true) := by
  cases e with
  | mk id span form =>
    rw [Expr.nodes, Expr.nodes]
    exact form.opens.cons rfl
termination_by structural e

/-- The same for the form of an expression. -/
theorem ExprForm.opens (form : ExprForm) : Opens (form.nodes false) (form.nodes true) := by
  cases form <;> rw [ExprForm.nodes, ExprForm.nodes]
  case literal => exact .nil
  case ident => exact .nil
  case this => exact .nil
  case array elements => exact Expr.opensAll elements
  case object properties => exact Expr.opensProps properties
  case function f => exact f.opens
  case member object _ => exact object.opens
  case index object key => exact object.opens.append key.opens
  case call callee arguments => exact (Expr.opensOpt callee).append (Expr.opensAll arguments)
  case construct callee arguments => exact callee.opens.append (Expr.opensAll arguments)
  case unary _ argument => exact argument.opens
  case update _ argument => exact argument.opens
  case binary _ left right => exact left.opens.append right.opens
  case assign _ left right => exact left.opens.append right.opens
  case conditional test consequent alternate =>
    exact (test.opens.append consequent.opens).append alternate.opens
  case sequence exprs => exact Expr.opensAll exprs
termination_by structural form

theorem Expr.opensAll (es : List Expr) :
    Opens (Expr.nodesAll false es) (Expr.nodesAll true es) := by
  cases es with
  | nil => exact .nil
  | cons e es =>
    rw [Expr.nodesAll, Expr.nodesAll]
    exact e.opens.append (Expr.opensAll es)
termination_by structural es

theorem Expr.opensProps (ps : List (String × Expr)) :
    Opens (Expr.nodesProps false ps) (Expr.nodesProps true ps) := by
  cases ps with
  | nil => exact .nil
  | cons p ps =>
    cases p with
    | mk name e =>
      rw [Expr.nodesProps, Expr.nodesProps]
      exact e.opens.append (Expr.opensProps ps)
termination_by structural ps

theorem Expr.opensOpt (e : Option Expr) : Opens (Expr.nodesOpt false e) (Expr.nodesOpt true e) := by
  cases e with
  | none => exact .nil
  | some e => exact e.opens
termination_by structural e

end

theorem Declarator.opensAll (ds : List Declarator) :
    Opens (Declarator.nodesAll false ds) (Declarator.nodesAll true ds) := by
  induction ds with
  | nil => exact .nil
  | cons d ds ih =>
    cases d with
    | mk name init =>
      rw [Declarator.nodesAll, Declarator.nodesAll]
      exact (Expr.opensOpt init).append ih

/-- The same for the start of a loop. -/
theorem ForInit.opens (init : ForInit) : Opens (init.nodes false) (init.nodes true) := by
  cases init with
  | none => exact .nil
  | vars decls => exact Declarator.opensAll decls
  | expr e => exact e.opens

/-- The same for the target of a loop. -/
theorem ForTarget.opens (target : ForTarget) : Opens (target.nodes false) (target.nodes true) := by
  cases target with
  | var name => exact .nil
  | expr e => exact e.opens

mutual

/-- The same for a statement. -/
theorem Stmt.opens (x : Stmt) : Opens (x.nodes false) (x.nodes true) := by
  cases x with
  | mk id span form =>
    rw [Stmt.nodes, Stmt.nodes]
    exact form.opens.cons rfl
termination_by structural x

/-- The same for the form of a statement. -/
theorem StmtForm.opens (form : StmtForm) : Opens (form.nodes false) (form.nodes true) := by
  cases form <;> rw [StmtForm.nodes, StmtForm.nodes]
  case block body => exact Stmt.opensAll body
  case empty => exact .nil
  case expr e => exact e.opens
  case vars decls => exact Declarator.opensAll decls
  case function f => exact f.opens
  case ret argument => exact Expr.opensOpt argument
  case branch test consequent alternate =>
    exact (test.opens.append consequent.opens).append (Stmt.opensOpt alternate)
  case whileLoop test body => exact test.opens.append body.opens
  case doWhile body test => exact test.opens.append body.opens
  case forLoop init test update body =>
    exact ((init.opens.append (Expr.opensOpt test)).append (Expr.opensOpt update)).append body.opens
  case forIn target right body => exact (target.opens.append right.opens).append body.opens
  case «switch» discriminant cases => exact discriminant.opens.append (Case.opensAll cases)
  case «break» => exact .nil
  case «continue» => exact .nil
  case throw argument => exact argument.opens
  case guarded block handler finalizer =>
    exact ((Stmt.opensAll block).append (Handler.opensOpt handler)).append (Stmt.opensAll finalizer)
termination_by structural form

/-- The same for a list of statements. -/
theorem Stmt.opensAll (body : List Stmt) :
    Opens (Stmt.nodesAll false body) (Stmt.nodesAll true body) := by
  cases body with
  | nil => exact .nil
  | cons x rest =>
    rw [Stmt.nodesAll, Stmt.nodesAll]
    exact x.opens.append (Stmt.opensAll rest)
termination_by structural body

theorem Stmt.opensOpt (x : Option Stmt) : Opens (Stmt.nodesOpt false x) (Stmt.nodesOpt true x) := by
  cases x with
  | none => exact .nil
  | some x => exact x.opens
termination_by structural x

theorem Case.opensAll (cs : List Case) :
    Opens (Case.nodesAll false cs) (Case.nodesAll true cs) := by
  cases cs with
  | nil => exact .nil
  | cons c cs =>
    cases c with
    | mk test body =>
      rw [Case.nodesAll, Case.nodesAll]
      exact ((Expr.opensOpt test).append (Stmt.opensAll body)).append (Case.opensAll cs)
termination_by structural cs

/-- The same for a handler. -/
theorem Handler.opensOpt (h : Option Handler) :
    Opens (Handler.nodesOpt false h) (Handler.nodesOpt true h) := by
  cases h with
  | none => exact .nil
  | some h =>
    cases h with
    | mk param body => exact Stmt.opensAll body
termination_by structural h

end

/-- The literals in a literal of a body are literals of the body, those in function bodies
included. -/
theorem funcs_subset_of_body {body : List Stmt} {g : Func}
    (h : .func g ∈ Stmt.nodesAll false body) :
    g.funcs ⊆ (Stmt.nodesAll true body).filterMap Node.func? := by
  intro k hmem
  obtain ⟨n, hinside, hfunc⟩ := List.mem_filterMap.mp hmem
  exact List.mem_filterMap.mpr ⟨n, ((Stmt.opensAll body).sublist h).subset hinside, hfunc⟩

/-- The literals in a literal of the body of a function are literals of the function. -/
theorem Func.funcs_subset_of_body {f g : Func} (h : .func g ∈ Stmt.nodesAll false f.body) :
    g.funcs ⊆ f.funcs := by
  cases f with
  | mk id span name params body =>
    refine List.Subset.trans (TypeFlow.funcs_subset_of_body h) ?_
    rw [Func.funcs, Func.nodes, if_pos rfl]
    exact List.filterMap_subset _ (List.subset_cons_self _ _)

end TypeFlow
