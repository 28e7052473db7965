import TypeFlow.Ordered

/-!
# Types

The types that inference assigns to the expressions and bindings of a program.  A type is a plain
value.  While a run is in progress, function and object types also carry *handles*: indices into
the closure table, the object heap and the prototype graph, through which aliases of one value see
each other's writes.

## Main Definitions

* `Prim`, `Ty`, `FuncTy`, `ObjTy` - primitives, types, function types and object types
* `Ty.members` - the alternatives of a type
* `Ty.funcPart?`, `Ty.objPart?` - the function and the object among the alternatives
* `Ty.isDetached` - the type carries no live handle

## Design Notes

A union lists its members.  The join keeps unions flat, with at least two members of which at most
one is a function and at most one an object; the inductive type itself does not say so, since the
order and the printer are defined for every value.
-/

namespace TypeFlow

/-- Identity of a node of the program tree. -/
abbrev NodeId := Nat

/-- Index of a closure: one function literal captured in one scope. -/
abbrev ClosureId := Nat

/-- Index of an object cell in the heap. -/
abbrev CellId := Nat

/-- Index of a constructor in the prototype graph. -/
abbrev CtorId := Nat

/-- Index of a scope in the environment. -/
abbrev ScopeId := Nat

/-- The primitive types. -/
inductive Prim where
  | boolean
  | string
  | number
  | null
  | undefined
deriving DecidableEq, Repr

/-- The place of a primitive in the order of the primitives. -/
def Prim.rank : Prim → Nat
  | .boolean => 0
  | .string => 1
  | .number => 2
  | .null => 3
  | .undefined => 4

instance : LT Prim := ⟨fun p q => p.rank < q.rank⟩

instance : DecidableLT Prim := fun p q => Nat.decLt p.rank q.rank

mutual

/-- A type: what is known of the values that an expression or a binding may hold. -/
inductive Ty where
  /-- Nothing is known yet; no value has been seen. -/
  | never
  /-- No precise type can be given. -/
  | any
  | prim (p : Prim)
  | func (f : FuncTy)
  | obj (o : ObjTy)
  /-- One of several alternatives, in ascending order. -/
  | union (members : List Ty)

/-- A function type: parameters, result, and the closures that the value may be. -/
structure FuncTy where
  params : List Ty
  ret : Ty
  /-- The closures this value may evaluate to; none for built-in functions and finished results. -/
  closures : List ClosureId

/-- An object type: fields known by value, and the handles that link the value to live state. -/
structure ObjTy where
  /-- Fields known by value, ascending by name. -/
  fields : List (String × Ty)
  /-- The heap cells that the value may alias. -/
  cells : List CellId
  /-- The constructors that the value is an instance of. -/
  ctors : List CtorId
  /-- The constructors whose prototype object the value is. -/
  protoOf : List CtorId

end

instance : Inhabited Ty := ⟨.never⟩

/-- Named types in ascending order of the names: fields, bindings, methods. -/
abbrev Fields := OrdMap String Ty

/-- The number of parameters. -/
def FuncTy.arity (f : FuncTy) : Nat :=
  f.params.length

/-- An object type with fields known by value and no handles. -/
def ObjTy.ofFields (fields : Fields) : ObjTy :=
  ⟨fields, [], [], []⟩

/-- The type of a field known by value. -/
def ObjTy.field? (o : ObjTy) (name : String) : Option Ty :=
  OrdMap.get? o.fields name

/-- Whether the object is linked to no cell and is no prototype object. -/
def ObjTy.isDetached (o : ObjTy) : Bool :=
  o.cells.isEmpty && o.protoOf.isEmpty

namespace Ty

/-! ### Constructors -/

abbrev boolean : Ty := .prim .boolean

abbrev string : Ty := .prim .string

abbrev number : Ty := .prim .number

abbrev null : Ty := .prim .null

abbrev undefined : Ty := .prim .undefined

/-- A function type that refers to no closure. -/
def signature (params : List Ty) (ret : Ty) : Ty :=
  .func ⟨params, ret, []⟩

/-- The value of one closure: nothing is known of its parameters and its result. -/
def closure (id : ClosureId) (arity : Nat) : Ty :=
  .func ⟨List.replicate arity .never, .never, [id]⟩

/-- An object with fields known by value. -/
def record (fields : Fields) : Ty :=
  .obj (.ofFields fields)

/-- The object held in a heap cell. -/
def ofCell (id : CellId) : Ty :=
  .obj ⟨[], [id], [], []⟩

/-- An instance of a constructor, held in a heap cell. -/
def ofInstance (id : CellId) (ctor : CtorId) : Ty :=
  .obj ⟨[], [id], [ctor], []⟩

/-- The prototype object of a constructor. -/
def prototypeOf (ctor : CtorId) : Ty :=
  .obj ⟨[], [], [], [ctor]⟩

/-! ### Shape -/

/-- Whether nothing is known yet. -/
def isNever : Ty → Bool
  | .never => true
  | _ => false

/-- Whether no precise type can be given. -/
def isAny : Ty → Bool
  | .any => true
  | _ => false

/-- Whether the type is one primitive. -/
def isPrim : Ty → Bool
  | .prim _ => true
  | _ => false

/-- Whether the type is a function type, not a union with one. -/
def isFunc : Ty → Bool
  | .func _ => true
  | _ => false

/-- Whether the type is an object type, not a union with one. -/
def isObj : Ty → Bool
  | .obj _ => true
  | _ => false

/-- Whether the type is a union. -/
def isUnion : Ty → Bool
  | .union _ => true
  | _ => false

/-- The primitive that the type is. -/
def prim? : Ty → Option Prim
  | .prim p => some p
  | _ => none

/-- The function type that the type is. -/
def func? : Ty → Option FuncTy
  | .func f => some f
  | _ => none

/-- The object type that the type is. -/
def obj? : Ty → Option ObjTy
  | .obj o => some o
  | _ => none

/-- The alternatives of a type: the members of a union, and any other type alone. -/
def members : Ty → List Ty
  | .union ms => ms
  | t => [t]

/-- The primitives among the alternatives. -/
def primPart (t : Ty) : List Prim :=
  t.members.filterMap prim?

/-- The function among the alternatives. -/
def funcPart? (t : Ty) : Option FuncTy :=
  t.members.findSome? func?

/-- The object among the alternatives. -/
def objPart? (t : Ty) : Option ObjTy :=
  t.members.findSome? obj?

/-! ### Predicates on the values of a type -/

/-- Every value of the type is truthy. -/
def definitelyTruthy (t : Ty) : Bool :=
  t.members.all fun m => m.isFunc || m.isObj

/-- Every value of the type is falsy. -/
def definitelyFalsy (t : Ty) : Bool :=
  t.members.all fun m => m.prim? == some .null || m.prim? == some .undefined

/-- Every value of the type is a string. -/
def definitelyString (t : Ty) : Bool :=
  t.members.all fun m => m.prim? == some .string

/-- Some value of the type may be a string. -/
def maybeString (t : Ty) : Bool :=
  t.members.any fun m => m.prim? == some .string

/-- The closure that the value refers to, when it is a function referring to exactly one. -/
def singleClosure? : Ty → Option ClosureId
  | .func ⟨_, _, [id]⟩ => some id
  | _ => none

end Ty

/-! ### Live handles -/

mutual

/-- Whether no function and no object in the type, at any depth, carries a live handle.
The constructors that an object is an instance of are not live: finished results keep them. -/
def Ty.isDetached : Ty → Bool
  | .never => true
  | .any => true
  | .prim _ => true
  | .func ⟨params, ret, closures⟩ =>
    closures.isEmpty && Ty.allDetached params && ret.isDetached
  | .obj ⟨fields, cells, _, protoOf⟩ =>
    (cells.isEmpty && protoOf.isEmpty) && Ty.fieldsDetached fields
  | .union ms => Ty.allDetached ms
termination_by structural t => t

/-- Whether all types of a list are detached. -/
def Ty.allDetached : List Ty → Bool
  | [] => true
  | t :: ts => t.isDetached && Ty.allDetached ts
termination_by structural ts => ts

/-- Whether the types of all fields are detached. -/
def Ty.fieldsDetached : List (String × Ty) → Bool
  | [] => true
  | (_, t) :: fs => t.isDetached && Ty.fieldsDetached fs
termination_by structural fs => fs

end

end TypeFlow
