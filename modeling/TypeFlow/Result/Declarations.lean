import TypeFlow.Result.TypeMap
import TypeFlow.Ty.Print

/-!
# Declaration files

Prints one declaration for each global that a program defines, in the order of their names: a class
for a function that is used as a constructor, a function, or a variable.

## Main Definitions

* `Ty.eraseNever` - `any` in place of `never`, at every depth
* `Declaration`, `ClassDecl`, `DeclaredType` - declarations
* `TypeMap.declaration` - the declaration of a global
* `TypeMap.declarations` - the declaration file

## Design Notes

A binding that never had a value still has to be declared with a type, so `never` is not printed.
-/

namespace TypeFlow

/-! ### Types without `never` -/

mutual

/-- Puts `any` in place of `never`, at every depth. -/
def Ty.eraseNever : Ty → Ty
  | .never => .any
  | .any => .any
  | .prim p => .prim p
  | .func ⟨params, ret, closures⟩ => .func ⟨Ty.eraseAll params, ret.eraseNever, closures⟩
  | .obj ⟨fields, cells, ctors, protoOf⟩ =>
    .obj ⟨Ty.eraseFields fields, cells, ctors, protoOf⟩
  | .union ms => .unionOf (Ty.eraseAll ms)
termination_by structural t => t

/-- Erases `never` from the types of a list. -/
def Ty.eraseAll : List Ty → List Ty
  | [] => []
  | t :: ts => t.eraseNever :: Ty.eraseAll ts
termination_by structural ts => ts

/-- Erases `never` from the types of fields. -/
def Ty.eraseFields : List (String × Ty) → List (String × Ty)
  | [] => []
  | (name, t) :: fs => (name, t.eraseNever) :: Ty.eraseFields fs
termination_by structural fs => fs

end

/-! ### Declarations -/

/-- The declared type of a variable: that of the instances of a class, given by its name, or a
type. -/
inductive DeclaredType where
  | ofClass (name : String)
  | plain (t : Ty)

/-- The declaration of a class. -/
structure ClassDecl where
  name : String
  parent : Option String
  /-- The parameters of the constructor, and their names. -/
  params : List Ty
  paramNames : PendingNames
  fields : Fields
  methods : Fields

/-- A declaration. -/
inductive Declaration where
  | classDecl (c : ClassDecl)
  | funcDecl (name : String) (f : FuncTy) (paramNames : PendingNames)
  | varDecl (name : String) (value : DeclaredType)

namespace TypeMap

/-- The parameter names of a function literal that may be absent. -/
def paramNames (m : TypeMap) (func : Option NodeId) : PendingNames :=
  (func.bind fun f => OrdMap.get? m.funcs f).map (·.params)

/-- A class: the parameters are those of the function, the fields those of the instances, except
for a field that has the name of the constructor. -/
def classDecl (m : TypeMap) (g : GlobalInfo) (c : CtorInfo) : ClassDecl where
  name := g.name
  parent := c.parent.bind m.ctorName?
  params := (g.ty.eraseNever.func?.map (·.params)).getD []
  paramNames := m.paramNames g.func
  fields := Ty.eraseFields (c.fields.filter (·.1 != "constructor"))
  methods := Ty.eraseFields c.methods

/-- The declared type of a variable: an instance of one named constructor is given by the name. -/
def declaredType (m : TypeMap) (t : Ty) : DeclaredType :=
  match t with
  | .obj ⟨_, _, [ctor], _⟩ =>
    match m.ctorName? ctor with
    | some name => .ofClass name
    | none => .plain t
  | _ => .plain t

/-- The declaration of a global: a class when it is one, a function when the value is exactly one
closure, and else a variable. -/
def declaration (m : TypeMap) (g : GlobalInfo) : Declaration :=
  match g.class?.bind (m.ctors[·]?) with
  | some c => .classDecl (m.classDecl g c)
  | none =>
    match g.ty.eraseNever.func?, g.func with
    | some f, some _ => .funcDecl g.name f (m.paramNames g.func)
    | _, _ => .varDecl g.name (m.declaredType g.ty.eraseNever)

end TypeMap

/-! ### Texts -/

/-- A named signature: the name, the parameters, a colon and the result. -/
def formatSignature (name : String) (f : FuncTy) (names : PendingNames) : String :=
  Text.propertyName name ++ Ty.formatParams names f.params ++ ": " ++ f.ret.format

/-- A named type. -/
def formatProperty (name : String) (t : Ty) : String :=
  Text.propertyName name ++ ": " ++ t.format

/-- A method of a class; one that is no function is a property. -/
def formatMethod (name : String) (t : Ty) : String :=
  match t.func? with
  | some f => formatSignature name f none
  | none => formatProperty name t

/-- A line inside a class. -/
def memberLine (text : String) : String :=
  "    " ++ text ++ ";\n"

/-- The text of a declared type. -/
def DeclaredType.text : DeclaredType → String
  | .ofClass name => Text.propertyName name
  | .plain t => t.format

/-- What follows the name of a class that has a named parent. -/
def extendsClause : Option String → String
  | some parent => " extends " ++ Text.propertyName parent
  | none => ""

/-- The text of the declaration of a class. -/
def ClassDecl.text (c : ClassDecl) : String :=
  "declare class " ++ Text.propertyName c.name ++ extendsClause c.parent ++ " \x7b\n"
    ++ memberLine ("constructor" ++ Ty.formatParams c.paramNames c.params)
    ++ String.join (c.fields.map fun f => memberLine (formatProperty f.1 f.2))
    ++ String.join (c.methods.map fun f => memberLine (formatMethod f.1 f.2))
    ++ "\x7d\n"

/-- The text of a declaration. -/
def Declaration.text : Declaration → String
  | .classDecl c => c.text
  | .funcDecl name f names => "declare function " ++ formatSignature name f names ++ ";\n"
  | .varDecl name value => "declare var " ++ Text.propertyName name ++ ": " ++ value.text ++ ";\n"

/-- The declaration file: the declarations of all globals. -/
def TypeMap.declarations (m : TypeMap) : String :=
  String.join (m.globals.map fun g => (m.declaration g).text)

end TypeFlow
