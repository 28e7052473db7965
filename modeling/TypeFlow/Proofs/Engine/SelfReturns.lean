import Mathlib
import TypeFlow.Proofs.Engine.Hoisting

/-!
# Functions that return only themselves

A function that returns nothing but a name, which stands for the function itself, has no result to
wait for: such functions are found before they run, and never run.  The name has to be an outer one.
Neither the parameters nor the declarations of the function may have it, at any depth outside of the
functions inside.  The one way to bind a name that is overlooked is a `catch` clause.

## Main Definitions

* `StandsIn` - a statement stands in a body, outside of the functions in it
* `Stmt.Declares`, `Stmt.Catches`, `Stmt.Returns` - what a statement itself does
* `Func.ReturnsItself` - a function returns, and only ever a name that it does not declare

## Main Statements

* `mem_regionOf_iff` - the region of a body has the statements that stand in it
* `Func.returnsOnlyItself_iff` - which functions are found
* `self_returns_undeclared` - a frame has the name only as its own, or from a `catch` clause
* `caught_self_return` - a function that returns what it caught is found
-/

namespace TypeFlow

/-! ### Statements of a body -/

/-- A statement stands in a body, at any depth but outside of the functions in it. -/
inductive StandsIn (x : Stmt) : List Stmt → Prop
  | here {body : List Stmt} : x ∈ body → StandsIn x body
  | inside {body : List Stmt} {y : Stmt} : y ∈ body → StandsIn x y.form.parts → StandsIn x body

theorem Stmt.regionAll_eq (body : List Stmt) : Stmt.regionAll body = body.flatMap Stmt.region := by
  induction body with
  | nil => rfl
  | cons x body ih => rw [Stmt.regionAll, ih, List.flatMap_cons]

theorem Case.regionAll_eq (cs : List Case) :
    Case.regionAll cs = Stmt.regionAll (cs.flatMap Case.body) := by
  induction cs with
  | nil => rfl
  | cons c cs ih =>
    cases c
    rw [Case.regionAll, ih, Stmt.regionAll_eq, Stmt.regionAll_eq, Stmt.regionAll_eq,
      List.flatMap_cons, List.flatMap_append]

theorem StmtForm.region_eq (form : StmtForm) : form.region = Stmt.regionAll form.parts := by
  cases form with
  | branch test consequent alternate =>
    cases alternate <;> simp [StmtForm.region, StmtForm.parts, Stmt.regionAll, Stmt.regionOpt]
  | switch discriminant cases => rw [StmtForm.region, Case.regionAll_eq, StmtForm.parts]
  | guarded body handler finalizer =>
    cases handler with
    | none => simp [StmtForm.region, StmtForm.parts, Handler.regionOpt, Stmt.regionAll_eq]
    | some handler =>
      cases handler
      simp [StmtForm.region, StmtForm.parts, Handler.regionOpt, Stmt.regionAll_eq]
  | _ => simp [StmtForm.region, StmtForm.parts, Stmt.regionAll]

/-- The region of a statement is the statement with the regions of its parts. -/
theorem Stmt.region_eq (x : Stmt) : x.region = x :: x.form.parts.flatMap Stmt.region := by
  cases x
  rw [← Stmt.regionAll_eq, ← StmtForm.region_eq, Stmt.region]

theorem Stmt.sizeOf_part {x y : Stmt} (hmem : x ∈ y.form.parts) : sizeOf x < sizeOf y := by
  obtain ⟨id, span, form⟩ := y
  suffices hlt : sizeOf x < sizeOf form by
    simp only [Stmt.mk.sizeOf_spec]
    omega
  change x ∈ form.parts at hmem
  cases form with
  | block body =>
    have : sizeOf x < sizeOf body := List.sizeOf_lt_of_mem hmem
    simp only [StmtForm.block.sizeOf_spec]
    omega
  | branch test consequent alternate =>
    cases alternate <;> simp [StmtForm.parts] at hmem
    · subst hmem
      simp only [StmtForm.branch.sizeOf_spec]
      omega
    · rcases hmem with rfl | rfl <;>
        simp only [StmtForm.branch.sizeOf_spec, Option.some.sizeOf_spec] <;> omega
  | whileLoop test body =>
    cases List.mem_singleton.mp hmem
    simp only [StmtForm.whileLoop.sizeOf_spec]
    omega
  | doWhile body test =>
    cases List.mem_singleton.mp hmem
    simp only [StmtForm.doWhile.sizeOf_spec]
    omega
  | forLoop init test update body =>
    cases List.mem_singleton.mp hmem
    simp only [StmtForm.forLoop.sizeOf_spec]
    omega
  | forIn target right body =>
    cases List.mem_singleton.mp hmem
    simp only [StmtForm.forIn.sizeOf_spec]
    omega
  | switch discriminant cases =>
    obtain ⟨⟨test, body⟩, hcase, hinside⟩ := List.mem_flatMap.mp hmem
    have := List.sizeOf_lt_of_mem hcase
    have := List.sizeOf_lt_of_mem hinside
    simp only [StmtForm.switch.sizeOf_spec, Case.mk.sizeOf_spec] at *
    omega
  | guarded body handler finalizer =>
    simp only [StmtForm.guarded.sizeOf_spec]
    rcases List.mem_append.mp hmem with hmem | hinside
    · rcases List.mem_append.mp hmem with hinside | hinside
      · have := List.sizeOf_lt_of_mem hinside
        omega
      · cases handler with
        | none => cases hinside
        | some handler =>
          obtain ⟨param, body⟩ := handler
          have := List.sizeOf_lt_of_mem (show x ∈ body by simpa using hinside)
          simp only [Option.some.sizeOf_spec, Handler.mk.sizeOf_spec]
          omega
    · have := List.sizeOf_lt_of_mem hinside
      omega
  | _ => cases hmem

/-- What is in the region of a statement is the statement, or stands in its parts. -/
theorem Stmt.standsIn_of_mem_region {x : Stmt} (y : Stmt) (hmem : x ∈ y.region) :
    x = y ∨ StandsIn x y.form.parts := by
  rw [Stmt.region_eq] at hmem
  rcases List.mem_cons.mp hmem with rfl | hdeeper
  · exact .inl rfl
  obtain ⟨z, hpart, hmem⟩ := List.mem_flatMap.mp hdeeper
  have := Stmt.sizeOf_part hpart
  rcases Stmt.standsIn_of_mem_region z hmem with rfl | hstands
  · exact .inr (.here hpart)
  · exact .inr (.inside hpart hstands)
termination_by sizeOf y

/-- The region of a body has the statements that stand in it. -/
theorem mem_regionOf_iff {x : Stmt} {body : List Stmt} :
    x ∈ regionOf body ↔ StandsIn x body := by
  rw [regionOf, Stmt.regionAll_eq]
  constructor
  · intro hmem
    obtain ⟨y, hpart, hmem⟩ := List.mem_flatMap.mp hmem
    rcases Stmt.standsIn_of_mem_region y hmem with rfl | hstands
    · exact .here hpart
    · exact .inside hpart hstands
  · intro hstands
    induction hstands with
    | @here body hmem =>
      refine List.mem_flatMap.mpr ⟨x, hmem, ?_⟩
      rw [Stmt.region_eq]
      exact List.mem_cons_self
    | @inside body y hmem _ ih =>
      refine List.mem_flatMap.mpr ⟨y, hmem, ?_⟩
      rw [Stmt.region_eq]
      exact List.mem_cons_of_mem y ih

/-! ### What a statement does -/

/-- The statement itself declares the name: as a variable, in the head of a loop, or as a
function. -/
inductive Stmt.Declares : Stmt → String → Prop
  | vars {id : NodeId} {span : Span} {decls : List Declarator} {d : Declarator} :
    d ∈ decls → Stmt.Declares ⟨id, span, .vars decls⟩ d.name
  | forLoop {id : NodeId} {span : Span} {decls : List Declarator} {test update : Option Expr}
    {body : Stmt} {d : Declarator} :
    d ∈ decls → Stmt.Declares ⟨id, span, .forLoop (.vars decls) test update body⟩ d.name
  | forIn {id : NodeId} {span : Span} {name : String} {right : Expr} {body : Stmt} :
    Stmt.Declares ⟨id, span, .forIn (.var name) right body⟩ name
  | function {id : NodeId} {span : Span} {f : Func} {name : String} :
    f.name = some name → Stmt.Declares ⟨id, span, .function f⟩ name

/-- The statement itself has a `catch` clause with the name. -/
inductive Stmt.Catches : Stmt → String → Prop
  | guarded {id : NodeId} {span : Span} {block body finalizer : List Stmt} {name : String} :
    Stmt.Catches ⟨id, span, .guarded block (some ⟨name, body⟩) finalizer⟩ name

/-- The statement itself returns, with an argument that may be absent. -/
inductive Stmt.Returns : Stmt → Option Expr → Prop
  | ret {id : NodeId} {span : Span} {argument : Option Expr} :
    Stmt.Returns ⟨id, span, .ret argument⟩ argument

/-- What a statement declares is what is read off its form. -/
theorem Stmt.declares_iff {x : Stmt} {name : String} :
    x.Declares name ↔
      name ∈ x.declaredVars ∨ ∃ f, x.declaredFunc? = some f ∧ f.name = some name := by
  constructor
  · intro hdeclares
    cases hdeclares with
    | vars hmem => exact .inl (List.mem_map_of_mem hmem)
    | forLoop hmem => exact .inl (List.mem_map_of_mem hmem)
    | forIn => exact .inl (List.mem_singleton_self name)
    | function hnamed => exact .inr ⟨_, rfl, hnamed⟩
  · obtain ⟨id, span, form⟩ := x
    rintro (hdeclared | ⟨f, hdeclared, hnamed⟩)
    · rw [Stmt.declaredVars] at hdeclared
      split at hdeclared
      · next decls heq =>
        obtain ⟨d, hmem, rfl⟩ := List.mem_map.mp hdeclared
        cases heq
        exact .vars hmem
      · next decls test update body heq =>
        obtain ⟨d, hmem, rfl⟩ := List.mem_map.mp hdeclared
        cases heq
        exact .forLoop hmem
      · next heq =>
        cases List.mem_singleton.mp hdeclared
        cases heq
        exact .forIn
      · cases hdeclared
    · cases form <;> cases hdeclared
      exact .function hnamed

theorem Stmt.catches_iff {x : Stmt} {name : String} : x.Catches name ↔ x.caught? = some name := by
  constructor
  · rintro ⟨⟩
    rfl
  · obtain ⟨id, span, form⟩ := x
    intro hcaught
    rw [Stmt.caught?] at hcaught
    split at hcaught
    · next handler _ heq =>
      cases heq
      cases handler
      cases hcaught
      exact .guarded
    · cases hcaught

/-- What a statement returns is what is read off its form. -/
theorem Stmt.returns_iff {x : Stmt} {argument : Option Expr} :
    x.Returns argument ↔ x.returnValue? = some argument := by
  constructor
  · rintro ⟨⟩
    rfl
  · obtain ⟨id, span, form⟩ := x
    intro hreturned
    cases form <;> cases hreturned
    exact .ret

theorem Expr.ident?_eq_some {e : Expr} {name : String} :
    e.ident? = some name ↔ ∃ id span, e = ⟨id, span, .ident name⟩ := by
  constructor
  · obtain ⟨id, span, form⟩ := e
    intro hnamed
    cases form <;> cases hnamed
    exact ⟨id, span, rfl⟩
  · rintro ⟨id, span, rfl⟩
    rfl

/-! ### Functions -/

/-- The function returns, and only ever the value of the name, which is neither a parameter nor
declared by a statement of the body. -/
structure Func.ReturnsItself (f : Func) (name : String) : Prop where
  returns : ∃ x v, StandsIn x f.body ∧ x.Returns v
  only : ∀ x v, StandsIn x f.body → x.Returns v → ∃ id span, v = some ⟨id, span, .ident name⟩
  param : name ∉ f.params
  declared : ∀ x, StandsIn x f.body → ¬ x.Declares name

/-- A body declares a name when a statement that stands in it does. -/
theorem declares_iff {body : List Stmt} {name : String} :
    declares body name = true ↔ ∃ x, StandsIn x body ∧ x.Declares name := by
  simp only [declares, hoistedVars, hoistedFuncs, Bool.or_eq_true, List.contains_iff_mem,
    List.mem_flatMap, List.any_eq_true, List.mem_filterMap, beq_iff_eq, mem_regionOf_iff,
    Stmt.declares_iff]
  constructor
  · rintro (⟨x, hstands, hdeclared⟩ | ⟨f, ⟨x, hstands, hdeclared⟩, hnamed⟩)
    · exact ⟨x, hstands, .inl hdeclared⟩
    · exact ⟨x, hstands, .inr ⟨f, hdeclared, hnamed⟩⟩
  · rintro ⟨x, hstands, hdeclared | ⟨f, hdeclared, hnamed⟩⟩
    · exact .inl ⟨x, hstands, hdeclared⟩
    · exact .inr ⟨f, ⟨x, hstands, hdeclared⟩, hnamed⟩

/-- A body returns what the statements that stand in it return. -/
theorem mem_returnValues_iff {body : List Stmt} {v : Option Expr} :
    v ∈ returnValues body ↔ ∃ x, StandsIn x body ∧ x.Returns v := by
  simp only [returnValues, List.mem_filterMap, mem_regionOf_iff, Stmt.returns_iff]

/-- Which functions are found to return only themselves. -/
theorem Func.returnsOnlyItself_iff {f : Func} {name : String} :
    f.returnsOnlyItself name = true ↔ f.ReturnsItself name := by
  have hundeclared : (!declares f.body name) = true ↔
      ∀ x, StandsIn x f.body → ¬ x.Declares name := by
    rw [Bool.not_eq_true', ← Bool.not_eq_true, declares_iff]
    simp
  have hreturns : (!(returnValues f.body).isEmpty) = true ↔
      ∃ x v, StandsIn x f.body ∧ x.Returns v := by
    simp only [Bool.not_eq_true', List.isEmpty_eq_false_iff_exists_mem, mem_returnValues_iff]
    exact exists_comm
  have honly : ((returnValues f.body).all fun v => v.bind Expr.ident? == some name) = true ↔
      ∀ x v, StandsIn x f.body → x.Returns v → ∃ id span, v = some ⟨id, span, .ident name⟩ := by
    simp only [List.all_eq_true, mem_returnValues_iff, beq_iff_eq, Option.bind_eq_some_iff,
      Expr.ident?_eq_some]
    constructor
    · intro hall x v hstands hreturned
      obtain ⟨e, rfl, id, span, rfl⟩ := hall v ⟨x, hstands, hreturned⟩
      exact ⟨id, span, rfl⟩
    · rintro hall v ⟨x, hstands, hreturned⟩
      obtain ⟨id, span, rfl⟩ := hall x v hstands hreturned
      exact ⟨_, rfl, id, span, rfl⟩
  rw [Func.returnsOnlyItself, Bool.and_eq_true, Bool.and_eq_true, Bool.and_eq_true, hundeclared,
    hreturns, honly]
  constructor
  · rintro ⟨⟨⟨hparam, hdeclared⟩, hreturns⟩, honly⟩
    exact ⟨hreturns, honly, by simpa using hparam, hdeclared⟩
  · rintro ⟨hreturns, honly, hparam, hdeclared⟩
    exact ⟨⟨⟨by simpa using hparam, hdeclared⟩, hreturns⟩, honly⟩

/-- The names that a frame of a function may have. -/
theorem Func.mem_frameNames_iff {f : Func} {name : String} :
    name ∈ f.frameNames ↔
      name ∈ f.params ∨ f.name = some name ∨
        ∃ x, StandsIn x f.body ∧ (x.Declares name ∨ x.Catches name) := by
  have hdeclared : name ∈ declaredNames f.body ↔ ∃ x, StandsIn x f.body ∧ x.Declares name := by
    rw [← declares_iff]
    simp [declaredNames, declares]
  have hcaught : name ∈ caughtNames f.body ↔ ∃ x, StandsIn x f.body ∧ x.Catches name := by
    simp only [caughtNames, List.mem_filterMap, mem_regionOf_iff, Stmt.catches_iff]
  rw [Func.frameNames, Func.ownNames, List.mem_append, List.mem_append, List.mem_append, hdeclared,
    hcaught, Option.mem_toList]
  simp only [and_or_left, exists_or, or_assoc]

/-- **Functions that return only themselves return an outer name.**  Such a function is found
exactly when some statement of its body returns, all that do return the name, and neither a
parameter nor a declaration has the name, where the statements inside of other functions do not
count.  At every point of every run, a frame of the function binds the name only as the name of the
function itself, or because of a `catch` clause of the body. -/
theorem self_returns_undeclared (f : Func) (name : String) :
    (f.returnsOnlyItself name = true ↔ f.ReturnsItself name) ∧
    ∀ (options : Options) (globals : Globals) (ps : List Program) (s : Run),
      s.Reached options globals ps → ∀ id k, s.IsFrame id k f →
        f.returnsOnlyItself name = true → s.Binds id name →
          f.name = some name ∨ ∃ x, StandsIn x f.body ∧ x.Catches name := by
  refine ⟨Func.returnsOnlyItself_iff, ?_⟩
  intro options globals ps s hreached id k hframe hfound hbound
  obtain ⟨-, -, hparam, hundeclared⟩ := Func.returnsOnlyItself_iff.mp hfound
  rcases Func.mem_frameNames_iff.mp (hreached.housed.mem_frameNames hframe hbound) with
    hisParam | hown | ⟨x, hstands, hdeclares | hcatches⟩
  · exact absurd hisParam hparam
  · exact .inl hown
  · exact absurd hdeclares (hundeclared x hstands)
  · exact .inr ⟨x, hstands, hcatches⟩

/-- `try {} catch (e) { return e }`. -/
def returnCaught : Stmt :=
  ⟨2, ⟨0, 0⟩, .guarded [] (some ⟨"e", [⟨3, ⟨0, 0⟩, .ret (some ⟨4, ⟨0, 0⟩, .ident "e"⟩)⟩]⟩) []⟩

/-- `function f() { try {} catch (e) { return e } }`. -/
def returnsCaught : Func :=
  ⟨1, ⟨0, 0⟩, some "f", [], [returnCaught]⟩

/-- The function is declared and called. -/
def callsReturnsCaught : Program :=
  [⟨0, ⟨0, 0⟩, .function returnsCaught⟩,
    ⟨5, ⟨0, 0⟩, .expr ⟨6, ⟨0, 0⟩, .call (some ⟨7, ⟨0, 0⟩, .ident "f"⟩) []⟩⟩]

/-- The state that the program leaves behind. -/
def Run.returnsCaught : Run :=
  after (inferPrograms [callsReturnsCaught]) (Run.start ⟨2, 3, false, false⟩ [])

/-- The state is reached by the run of its program. -/
theorem Run.reached_returnsCaught :
    Run.returnsCaught.Reached ⟨2, 3, false, false⟩ [] [callsReturnsCaught] :=
  reached_inferPrograms _ _ _

theorem Run.isFrame_returnsCaught : Run.returnsCaught.IsFrame 1 0 TypeFlow.returnsCaught := by
  have hentered : (Run.returnsCaught.env.activations.entries.map fun e =>
      (e.1.closure, Run.returnsCaught.env.activations.place? e.1)) = [(0, some 1)] := by
    decide +kernel
  have hmade : Run.returnsCaught.closures.table[0]?.isSome = true := by decide +kernel
  obtain ⟨e, -, heq⟩ := List.map_eq_singleton_iff.mp hentered
  obtain ⟨hclosure, hplace⟩ := Prod.mk.inj heq
  obtain ⟨c, hentry⟩ := Option.isSome_iff_exists.mp hmade
  -- There is only one literal that the closure can have.
  obtain ⟨p, hlisted, hliteral⟩ := Run.reached_returnsCaught.inv.literals 0 c hentry
  cases List.mem_singleton.mp hlisted
  have hfuncs : callsReturnsCaught.nodes.filterMap Node.func? = [TypeFlow.returnsCaught] := rfl
  have honly : c.func ∈ [TypeFlow.returnsCaught] :=
    hfuncs ▸ List.mem_filterMap.mpr ⟨.func c.func, hliteral, rfl⟩
  exact ⟨e.1, c, hplace, hclosure, hentry, List.mem_singleton.mp honly⟩

theorem Run.binds_returnsCaught : Run.returnsCaught.Binds 1 "e" := by
  have hbound : (Run.returnsCaught.env.scopes[1]?.map fun x => OrdMap.contains x.bindings "e") =
      some true := by decide +kernel
  obtain ⟨x, hscope, hcontains⟩ := Option.map_eq_some_iff.mp hbound
  exact ⟨x, hscope, hcontains⟩

/-- The function is called, and its frame binds what it returns: it has to catch under the name. -/
theorem self_returns_undeclared_returnsCaught :
    returnsCaught.returnsOnlyItself "e" = true ∧ Run.returnsCaught.Binds 1 "e" ∧
      ∃ x, StandsIn x returnsCaught.body ∧ x.Catches "e" := by
  have hfound : returnsCaught.returnsOnlyItself "e" = true := by decide
  obtain ⟨-, hframes⟩ := self_returns_undeclared returnsCaught "e"
  have hcaught := hframes ⟨2, 3, false, false⟩ [] [callsReturnsCaught] Run.returnsCaught
    Run.reached_returnsCaught 1 0 Run.isFrame_returnsCaught hfound Run.binds_returnsCaught
  exact ⟨hfound, Run.binds_returnsCaught, hcaught.resolve_left (by decide)⟩

/-- A function that returns what it caught is taken for one that returns itself.  Under another name
it runs, and its frame binds the name; under the name that it catches under it never runs. -/
theorem caught_self_return :
    (∃ (f : Func) (name : String), f.returnsOnlyItself name = true ∧ f.name ≠ some name ∧
      (∃ x, StandsIn x f.body ∧ x.Catches name) ∧
      ∃ options globals ps, ∃ s : Run, s.Reached options globals ps ∧ s.IsFrame 1 0 f ∧
        s.Binds 1 name) ∧
    (after (inferPrograms [[⟨0, ⟨0, 0⟩, .function { returnsCaught with name := some "e" }⟩,
      ⟨5, ⟨0, 0⟩, .expr ⟨6, ⟨0, 0⟩, .call (some ⟨7, ⟨0, 0⟩, .ident "e"⟩) []⟩⟩]])
      (Run.start ⟨2, 3, false, false⟩ [])).boundNames = [["e"]] := by
  refine ⟨⟨returnsCaught, "e", by decide, by decide, ?_, _, _, _, Run.returnsCaught,
    Run.reached_returnsCaught, Run.isFrame_returnsCaught, Run.binds_returnsCaught⟩,
    by decide +kernel⟩
  exact ⟨returnCaught, .here (List.mem_singleton_self _), .guarded⟩

end TypeFlow
