import TypeFlow.Ty.Order

/-!
# Joining types

The least upper bound of two types, used wherever two observations of one binding, field, node or
result have to be merged.  It is total: what cannot be merged precisely becomes `any`.

## Main Definitions

* `Ty.join` - the join: `never` is neutral, `any` absorbs, and otherwise the alternatives merge
* `ObjTy.join`, `FuncTy.join?` - the joins of objects and of functions
* `Ty.isSubtype` - `a` is a subtype of `b` when joining `a` into `b` changes nothing
* `Ty.unionOf` - the join of a list
* `Fields.widen` - joins a type into a named slot

## Design Notes

A type that is neither `never` nor `any` consists of *parts*: primitives, at most one function, at
most one object.  Merging two types merges their parts, one kind at a time.  Two functions of
different arity have no common function type, so merging them gives no parts at all; this is the
case in which two precise types join to `any`.

The recursion follows the second type.  `Ty.settle` holds the cases that need no recursion, and
takes the merged parts as a suspended argument.
-/

namespace TypeFlow

/-- The alternatives of a precise type, sorted by kind. -/
structure Parts where
  prims : OrdSet Prim
  func? : Option FuncTy
  obj? : Option ObjTy

/-- The parts of a type. -/
def Ty.parts (t : Ty) : Parts :=
  ⟨t.primPart, t.funcPart?, t.objPart?⟩

/-- The alternatives, in ascending order. -/
def Parts.members (p : Parts) : List Ty :=
  p.prims.map .prim ++ (p.func?.map .func).toList ++ (p.obj?.map .obj).toList

/-- The type with the given alternatives: none is `never`, a single one is itself. -/
def Ty.ofMembers : List Ty → Ty
  | [] => .never
  | [t] => t
  | ms => .union ms

/-- The type that consists of the given parts, `any` when there are none. -/
def Ty.ofParts? : Option Parts → Ty
  | none => .any
  | some p => .ofMembers p.members

/-- Joins two types, given how their parts merge: `never` is neutral, `any` absorbs, and equal
types stay as they are. -/
def Ty.settle (a b : Ty) (merged : Unit → Option Parts) : Ty :=
  match a, b with
  | .never, _ => b
  | _, .never => a
  | .any, _ => .any
  | _, .any => .any
  | _, _ => if a = b then a else .ofParts? (merged ())

mutual

/-- Merges a type into parts.  There is no result when the type is `any`, or when two functions of
different arity meet. -/
def Parts.add (acc : Parts) : Ty → Option Parts
  | .never => some acc
  | .any => none
  | .prim p => some { acc with prims := OrdSet.insert p acc.prims }
  | .func f =>
    match acc.func? with
    | none => some { acc with func? := some f }
    | some g => (g.join? f).map fun h => { acc with func? := some h }
  | .obj o =>
    match acc.obj? with
    | none => some { acc with obj? := some o }
    | some o' => some { acc with obj? := some (o'.join o) }
  | .union ms => acc.addAll ms
termination_by structural t => t

/-- Merges the types of a list into parts, from left to right. -/
def Parts.addAll (acc : Parts) : List Ty → Option Parts
  | [] => some acc
  | t :: ts =>
    match acc.add t with
    | none => none
    | some acc' => acc'.addAll ts
termination_by structural ts => ts

/-- Joins two function types of one arity position by position. -/
def FuncTy.join? (f : FuncTy) : FuncTy → Option FuncTy
  | ⟨params, ret, closures⟩ =>
    if f.params.length = params.length then
      some
        ⟨Ty.joinParams f.params params,
          f.ret.settle ret fun _ => f.ret.parts.add ret,
          OrdSet.union f.closures closures⟩
    else
      none
termination_by structural g => g

/-- Joins two object types field by field; a field of one side only keeps its type. -/
def ObjTy.join (o : ObjTy) : ObjTy → ObjTy
  | ⟨fields, cells, ctors, protoOf⟩ =>
    ⟨Ty.joinFields o.fields fields,
      OrdSet.union o.cells cells,
      OrdSet.union o.ctors ctors,
      OrdSet.union o.protoOf protoOf⟩
termination_by structural p => p

/-- Joins two lists of types position by position. -/
def Ty.joinParams : List Ty → List Ty → List Ty
  | a :: as, b :: bs => (a.settle b fun _ => a.parts.add b) :: Ty.joinParams as bs
  | _, _ => []
termination_by structural _ bs => bs

/-- Joins the fields of the second map into the first. -/
def Ty.joinFields (acc : List (String × Ty)) : List (String × Ty) → List (String × Ty)
  | [] => acc
  | (name, b) :: rest =>
    Ty.joinFields (OrdMap.upsert acc name (fun a => a.settle b fun _ => a.parts.add b) b) rest
termination_by structural fs => fs

end

/-- The least upper bound of two types. -/
def Ty.join (a b : Ty) : Ty :=
  a.settle b fun _ => a.parts.add b

/-- Whether `a` is at least as precise as `b`. -/
def Ty.isSubtype (a b : Ty) : Bool :=
  a.join b = b

/-- The join of all types of a list. -/
def Ty.unionOf (ts : List Ty) : Ty :=
  ts.foldl Ty.join .never

/-! ### Equations of the nested joins -/

theorem FuncTy.join?_eq (f g : FuncTy) :
    f.join? g =
      if f.params.length = g.params.length then
        some ⟨Ty.joinParams f.params g.params, f.ret.join g.ret,
          OrdSet.union f.closures g.closures⟩
      else none := by
  cases g
  rw [FuncTy.join?]
  rfl

theorem ObjTy.join_eq (o p : ObjTy) :
    o.join p =
      ⟨Ty.joinFields o.fields p.fields, OrdSet.union o.cells p.cells,
        OrdSet.union o.ctors p.ctors, OrdSet.union o.protoOf p.protoOf⟩ := by
  cases p
  rw [ObjTy.join]

theorem Ty.joinParams_cons (a b : Ty) (as bs : List Ty) :
    Ty.joinParams (a :: as) (b :: bs) = a.join b :: Ty.joinParams as bs := by
  rw [Ty.joinParams]
  rfl

theorem Ty.joinFields_cons (acc rest : List (String × Ty)) (name : String) (b : Ty) :
    Ty.joinFields acc ((name, b) :: rest) =
      Ty.joinFields (OrdMap.upsert acc name (fun a => a.join b) b) rest := by
  rw [Ty.joinFields]
  rfl

/-! ### Named slots -/

namespace Fields

/-- The type that a slot holds after `t` was joined into it; an empty slot takes `t` as it is. -/
def widened (m : Fields) (name : String) (t : Ty) : Ty :=
  match OrdMap.get? m name with
  | some old => old.join t
  | none => t

/-- Joins a type into a slot. -/
def widen (m : Fields) (name : String) (t : Ty) : Fields :=
  OrdMap.insert m name (widened m name t)

/-- Whether joining a type into a slot changes the map. -/
def widens (m : Fields) (name : String) (t : Ty) : Bool :=
  OrdMap.get? m name ≠ some (widened m name t)

/-- Joins every entry of `n` into `m`. -/
def merge (m n : Fields) : Fields :=
  Ty.joinFields m n

end Fields

end TypeFlow
