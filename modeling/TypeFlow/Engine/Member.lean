import TypeFlow.Engine.Run

/-!
# Variables and properties

Reading and writing the places that a program names: variables, and properties of values.

## Main Definitions

* `readVariable`, `writeVariable` - variables along the scope chain
* `readMember`, `writeMember` - properties of values
* `linkPrototype` - what assigning the `prototype` of a function does

## Design Notes

An own field of an object wins over its prototype chain.  A write to a prototype object lands in
the method table of its constructor, and a write through `this` while a constructor runs also
becomes a field of the constructor.
-/

namespace TypeFlow

open Walk

/-! ### Variables -/

/-- Collects an unbound name, if the options say so. -/
def noteUnbound (name : String) : Walk Unit :=
  modify fun s =>
    if s.options.strictUnbound then { s with unbound := OrdSet.insert name s.unbound } else s

/-- Reads a variable.  An unbound one is `any`, and its name is collected if the options say so. -/
def readVariable (scope : ScopeId) (name : String) : Walk Ty := do
  match ← ask fun s => s.env.get? scope name with
  | some t => return t
  | none =>
    noteUnbound name
    return .any

/-- Joins a type into a variable.  An unbound name becomes a global. -/
def writeVariable (scope : ScopeId) (name : String) (t : Ty) : Walk Unit := do
  match ← onEnv (Env.assign scope name t) with
  | some _ => return ()
  | none =>
    let _ ← onEnv (Env.bind Env.global name t)
    return ()

/-! ### Constructors -/

/-- The constructor of a closure, added on first use under the name of the function. -/
def ctorOf (closure : ClosureId) : Walk CtorId := do
  let c ← ask fun s => s.closures.closure closure
  onProtos (Protos.ctorFor closure c.func.name)

/-- The join of the prototype objects of closures. -/
def prototypesOf (acc : Ty) : List ClosureId → Walk Ty
  | [] => return acc
  | c :: cs => do
    let ctor ← ctorOf c
    prototypesOf (acc.join (.prototypeOf ctor)) cs

/-! ### Reading properties -/

/-- The type of a property of one alternative, none when it cannot have the property. -/
def memberOf (t : Ty) (property : String) : Walk (Option Ty) :=
  match t with
  | .obj o => do
    match ← ask fun s => s.heap.lookupField o property with
    | some found => return some found
    | none => ask fun s => s.protos.findMethod t property
  | .func f =>
    if property = "prototype" ∧ f.closures ≠ [] then do
      return some (← prototypesOf .never f.closures)
    else if property = "call" ∨ property = "apply" then
      return some t
    else if property = "length" then
      return some .number
    else if property = "name" then
      return some .string
    else
      return none
  | .prim .string => return if property = "length" then some .number else none
  | _ => return none

/-- The join of a property over those alternatives that can have it. -/
def membersOf (found : Option Ty) (property : String) : List Ty → Walk (Option Ty)
  | [] => return found
  | t :: ts => do
    let here ← memberOf t property
    membersOf (Heap.joinFound found here) property ts

/-- Reads a property of a value: nothing is known while nothing is known of the value, and the
result is `any` when no alternative can have the property. -/
def readMember (t : Ty) (property : String) : Walk Ty := do
  match t with
  | .never => return .never
  | _ => return (← membersOf none property t.members).getD .any

/-! ### Writing properties -/

/-- Joins a type into a method of several constructors. -/
def defineMethods (property : String) (value : Ty) : List CtorId → Walk Unit
  | [] => return ()
  | c :: cs => do
    let _ ← onProtos (Protos.defineMethod c property value)
    defineMethods property value cs

/-- Joins types into methods of a constructor. -/
def defineAll (ctor : CtorId) : List (String × Ty) → Walk Unit
  | [] => return ()
  | (name, t) :: rest => do
    let _ ← onProtos (Protos.defineMethod ctor name t)
    defineAll ctor rest

/-- Adds parents to a constructor. -/
def addParents (ctor : CtorId) : List CtorId → Walk Unit
  | [] => return ()
  | p :: ps => do
    let _ ← onProtos (Protos.addParent ctor p)
    addParents ctor ps

/-- Shares the method tables of other constructors. -/
def shareAll (ctor : CtorId) : List CtorId → Walk Unit
  | [] => return ()
  | c :: cs => do
    let _ ← onProtos (Protos.share ctor c)
    shareAll ctor cs

/-- The fields of several cells, one cell after the other. -/
def cellFields (h : Heap) : List CellId → Except Dangling (List (String × Ty))
  | [] => .ok []
  | id :: rest => do
    let c ← h.cell id
    return c.fields ++ (← cellFields h rest)

/-- Makes the fields of a plain object the methods of a constructor. -/
def adoptFields (ctor : CtorId) (o : ObjTy) : Walk Unit := do
  let inCells ← ask fun s => cellFields s.heap o.cells
  defineAll ctor (o.fields ++ inCells)

/-- Makes a value the prototype of a constructor.  Instances add parents, prototype objects share
their tables, and the fields of an object that is no instance become methods. -/
def linkPrototype (ctor : CtorId) (value : Ty) : Walk Unit :=
  match value.objPart? with
  | none => return ()
  | some o => do
    addParents ctor o.ctors
    shareAll ctor o.protoOf
    when o.ctors.isEmpty (adoptFields ctor o)

/-- Makes a value the prototype of the constructors of closures. -/
def linkPrototypes (value : Ty) : List ClosureId → Walk Unit
  | [] => return ()
  | c :: cs => do
    let ctor ← ctorOf c
    linkPrototype ctor value
    linkPrototypes value cs

/-- Writes a property of the object among the alternatives. -/
def writeObject (t : Ty) (property : String) (value : Ty) : Walk Unit :=
  match t.objPart? with
  | none => return ()
  | some o => do
    let _ ← onHeap (Heap.writeField o property value)
    defineMethods property value o.protoOf

/-- Writes the `prototype` of the function among the alternatives. -/
def writePrototype (t : Ty) (value : Ty) : Walk Unit :=
  match t.funcPart? with
  | none => return ()
  | some f => linkPrototypes value f.closures

/-- Writes a field of the constructor that is running, if one is. -/
def writeOwnField (property : String) (value : Ty) : Walk Unit := do
  match (← get).current?.bind (·.constructing) with
  | none => return ()
  | some ctor =>
    let _ ← onProtos (Protos.recordOwnField ctor property value)
    return ()

/-- Writes a property of a value, on everything that the value may be. -/
def writeMember (t : Ty) (property : String) (value : Ty) (throughThis : Bool) : Walk Unit := do
  writeObject t property value
  when (property = "prototype") (writePrototype t value)
  when throughThis (writeOwnField property value)

/-! ### Assignment targets -/

/-- The place that an assignment writes, its object part already evaluated. -/
inductive Target where
  | variable (name : String)
  | member (object : Ty) (property : String) (throughThis : Bool)
  /-- A computed property, of which nothing is tracked. -/
  | computed

/-- Reads the place. -/
def Target.read (scope : ScopeId) : Target → Walk Ty
  | .variable name => readVariable scope name
  | .member object property _ => readMember object property
  | .computed => return .any

/-- Writes the place. -/
def Target.write (scope : ScopeId) (value : Ty) : Target → Walk Unit
  | .variable name => writeVariable scope name value
  | .member object property throughThis => writeMember object property value throughThis
  | .computed => return ()

end TypeFlow
