import TypeFlow.Script.Basic

/-!
# The region of a body

The statements that run in one activation of a body: those of the body itself and those nested in
them, but not those inside a function literal.  Declarations are hoisted over this region, and the
`return` statements in it are those of the body.

## Main Definitions

* `Stmt.region`, `regionOf` - the statements of the region, an outer one before those inside it
* `hoistedVars`, `hoistedFuncs` - what is declared in the region
* `returnValues` - the arguments of the `return` statements in the region
* `Func.returnsOnlyItself` - every `return` yields one given outer name
* `Stmt.alwaysExits` - control never falls off the end of a statement
-/

namespace TypeFlow

mutual

/-- The statements of the region of a statement, itself first. -/
def Stmt.region : Stmt → List Stmt
  | ⟨id, span, form⟩ => ⟨id, span, form⟩ :: form.region
termination_by structural s => s

/-- The statements of the region inside a statement. -/
def StmtForm.region : StmtForm → List Stmt
  | .block body => Stmt.regionAll body
  | .branch _ consequent alternate => consequent.region ++ Stmt.regionOpt alternate
  | .whileLoop _ body => body.region
  | .doWhile body _ => body.region
  | .forLoop _ _ _ body => body.region
  | .forIn _ _ body => body.region
  | .switch _ cases => Case.regionAll cases
  | .guarded block handler finalizer =>
    Stmt.regionAll block ++ Handler.regionOpt handler ++ Stmt.regionAll finalizer
  | _ => []
termination_by structural form => form

/-- The statements of the region of a list of statements. -/
def Stmt.regionAll : List Stmt → List Stmt
  | [] => []
  | s :: rest => s.region ++ Stmt.regionAll rest
termination_by structural body => body

/-- The statements of the region of a statement that may be absent. -/
def Stmt.regionOpt : Option Stmt → List Stmt
  | none => []
  | some s => s.region
termination_by structural s => s

/-- The statements of the region of the cases of a `switch`. -/
def Case.regionAll : List Case → List Stmt
  | [] => []
  | ⟨_, body⟩ :: cs => Stmt.regionAll body ++ Case.regionAll cs
termination_by structural cs => cs

/-- The statements of the region of a `catch` clause. -/
def Handler.regionOpt : Option Handler → List Stmt
  | none => []
  | some ⟨_, body⟩ => Stmt.regionAll body
termination_by structural h => h

end

/-- The statements of the region of a body. -/
def regionOf (body : List Stmt) : List Stmt :=
  Stmt.regionAll body

/-! ### Declarations -/

/-- The variables that a statement itself declares. -/
def Stmt.declaredVars (s : Stmt) : List String :=
  match s.form with
  | .vars decls => decls.map (·.name)
  | .forLoop (.vars decls) _ _ _ => decls.map (·.name)
  | .forIn (.var name) _ _ => [name]
  | _ => []

/-- The function that a statement declares. -/
def Stmt.declaredFunc? (s : Stmt) : Option Func :=
  match s.form with
  | .function f => some f
  | _ => none

/-- The variables declared in the region of a body. -/
def hoistedVars (body : List Stmt) : List String :=
  (regionOf body).flatMap Stmt.declaredVars

/-- The functions declared in the region of a body. -/
def hoistedFuncs (body : List Stmt) : List Func :=
  (regionOf body).filterMap Stmt.declaredFunc?

/-! ### Returns -/

/-- The argument of a `return` statement, which may be absent. -/
def Stmt.returnValue? (s : Stmt) : Option (Option Expr) :=
  match s.form with
  | .ret argument => some argument
  | _ => none

/-- The arguments of the `return` statements in the region of a body. -/
def returnValues (body : List Stmt) : List (Option Expr) :=
  (regionOf body).filterMap Stmt.returnValue?

/-- Whether a body declares a name, as a variable or as a function. -/
def declares (body : List Stmt) (name : String) : Bool :=
  (hoistedVars body).contains name || (hoistedFuncs body).any fun f => f.name == some name

/-- Whether the function returns, and only ever the value of `name`, which is neither a parameter
nor declared in the body.  When `name` is the function's own name or the variable that it is stored
in, its result is a function that returns a function that returns, without end. -/
def Func.returnsOnlyItself (f : Func) (name : String) : Bool :=
  !f.params.contains name && !declares f.body name && !(returnValues f.body).isEmpty &&
    (returnValues f.body).all fun v => v.bind Expr.ident? == some name

/-! ### Exits -/

mutual

/-- Whether control never falls off the end of a statement. -/
def Stmt.alwaysExits : Stmt → Bool
  | ⟨_, _, form⟩ => form.alwaysExits
termination_by structural s => s

/-- Whether control never falls off the end of a statement of this form. -/
def StmtForm.alwaysExits : StmtForm → Bool
  | .ret _ => true
  | .throw _ => true
  | .block body => Stmt.someExits body
  | .branch _ consequent (some alternate) => consequent.alwaysExits && alternate.alwaysExits
  | .guarded block handler finalizer =>
    Stmt.someExits finalizer || (Stmt.someExits block && Handler.optExits handler)
  | _ => false
termination_by structural form => form

/-- Whether control never falls off the end of some statement of a list. -/
def Stmt.someExits : List Stmt → Bool
  | [] => false
  | s :: rest => s.alwaysExits || Stmt.someExits rest
termination_by structural body => body

/-- Whether control never falls off the end of a `catch` clause; an absent one has no end. -/
def Handler.optExits : Option Handler → Bool
  | none => true
  | some ⟨_, body⟩ => Stmt.someExits body
termination_by structural h => h

end

end TypeFlow
