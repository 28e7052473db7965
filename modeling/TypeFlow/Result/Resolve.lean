import TypeFlow.Engine.Run

/-!
# Resolving handles

While a run is in progress, types refer to closures, cells and prototype objects by handles.
Resolving a type puts the declared signatures and the current fields in their place.  A handle that
leads back to itself resolves to `any`.

## Main Definitions

* `Path` - the handles on the way from the type that was asked for
* `Memo`, `Resolve` - what was resolved before, and computations that keep it
* `resolveWith` - resolves a type, given how stored types are resolved
* `resolveAt`, `resolve` - resolves a type

## Design Notes

The recursion inside a type is on the type.  Going from a handle to what is stored under it puts the
handle on the path, where it was not before, so this happens at most as often as there are handles;
`resolveAt` counts down from there.

A type that was resolved without cutting a cycle is remembered, and the answer is given again when
the type is met again.
-/

namespace TypeFlow

/-- The handles on the way from the type that was asked for. -/
structure Path where
  closures : List ClosureId
  cells : List CellId
  protos : List CtorId

/-- The path at the start. -/
def Path.empty : Path := ⟨[], [], []⟩

/-- How many cycles were cut, and the types that were resolved without cutting one. -/
structure Memo where
  cuts : Nat
  known : List (Ty × Ty)

/-- Nothing was resolved yet. -/
def Memo.empty : Memo := ⟨0, []⟩

/-- Computations that resolve types. -/
abbrev Resolve := StateT Memo (Except Dangling)

/-- Follows a handle, which may fail. -/
def Resolve.ask {α : Type} (r : Except Dangling α) : Resolve α :=
  StateT.lift r

/-- Cuts a cycle. -/
def Resolve.cut : Resolve Ty := do
  modify fun m => { m with cuts := m.cuts + 1 }
  return .any

/-- The remembered answer for a type, or else that of a computation, which is remembered when the
computation cut no cycle. -/
def Resolve.remembered (t : Ty) (compute : Resolve Ty) : Resolve Ty := do
  let before ← get
  match before.known.lookup t with
  | some r => return r
  | none =>
    let r ← compute
    modify fun m => if m.cuts = before.cuts then { m with known := (t, r) :: m.known } else m
    return r

open Resolve

/-! ### Stored types -/

/-- Resolves stored types by `enter`. -/
def enterAll (enter : Ty → Resolve Ty) : List Ty → Resolve (List Ty)
  | [] => return []
  | t :: ts => do
    let r ← enter t
    let rs ← enterAll enter ts
    return r :: rs

/-- Resolves stored fields by `enter`. -/
def enterFields (enter : Ty → Resolve Ty) : Fields → Resolve Fields
  | [] => return []
  | (name, t) :: fs => do
    let r ← enter t
    let rs ← enterFields enter fs
    return (name, r) :: rs

/-- Joins the declared signatures of closures to a type.  The result of a function that returns
only itself is `any`. -/
def joinSignatures (s : Run) (enter : Ty → Resolve Ty) (acc : Ty) : List ClosureId → Resolve Ty
  | [] => return acc
  | id :: rest => do
    let c ← ask (s.closures.closure id)
    let ret ← if c.selfReferential then pure .any else enter c.ret
    let params ← enterAll enter c.params
    joinSignatures s enter (acc.join (.signature params ret)) rest

/-- Joins the fields of cells to fields. -/
def joinCells (s : Run) (enter : Ty → Resolve Ty) (acc : Fields) : List CellId → Resolve Fields
  | [] => return acc
  | id :: rest => do
    let c ← ask (s.heap.cell id)
    let fields ← enterFields enter c.fields
    joinCells s enter (Fields.merge acc fields) rest

/-- Joins what prototype objects show to fields. -/
def joinProtos (s : Run) (enter : Ty → Resolve Ty) (acc : Fields) : List CtorId → Resolve Fields
  | [] => return acc
  | id :: rest => do
    let shown ← ask (s.protos.prototypeMembers id)
    let fields ← enterFields enter shown
    joinProtos s enter (Fields.merge acc fields) rest

/-! ### Types -/

mutual

/-- Resolves a type.  Stored types are resolved by `enter`, with the path that leads to them. -/
def resolveWith (s : Run) (enter : Path → Ty → Resolve Ty) (path : Path) : Ty → Resolve Ty
  | .never => return .never
  | .any => return .any
  | .prim p => return .prim p
  | .func ⟨params, ret, closures⟩ =>
    remembered (.func ⟨params, ret, closures⟩) do
      if closures.any path.closures.contains then
        cut
      else
        let ps ← resolveAll s enter path params
        let r ← resolveWith s enter path ret
        let inside : Path := { path with closures := closures ++ path.closures }
        joinSignatures s (enter inside) (.signature ps r) closures
  | .obj ⟨fields, cells, ctors, protoOf⟩ =>
    remembered (.obj ⟨fields, cells, ctors, protoOf⟩) do
      if cells.any path.cells.contains || protoOf.any path.protos.contains then
        cut
      else
        let inside : Path :=
          { path with cells := cells ++ path.cells, protos := protoOf ++ path.protos }
        let own ← resolveFields s enter inside fields
        let withCells ← joinCells s (enter inside) own cells
        let shown ← joinProtos s (enter inside) withCells protoOf
        return .obj ⟨shown, [], ctors, []⟩
  | .union ms => remembered (.union ms) (resolveMembers s enter path .never ms)
termination_by structural t => t

/-- Resolves the types of a list. -/
def resolveAll (s : Run) (enter : Path → Ty → Resolve Ty) (path : Path) :
    List Ty → Resolve (List Ty)
  | [] => return []
  | t :: ts => do
    let r ← resolveWith s enter path t
    let rs ← resolveAll s enter path ts
    return r :: rs
termination_by structural ts => ts

/-- Resolves the types of fields. -/
def resolveFields (s : Run) (enter : Path → Ty → Resolve Ty) (path : Path) :
    List (String × Ty) → Resolve (List (String × Ty))
  | [] => return []
  | (name, t) :: fs => do
    let r ← resolveWith s enter path t
    let rs ← resolveFields s enter path fs
    return (name, r) :: rs
termination_by structural fs => fs

/-- Joins the resolved members of a union to a type. -/
def resolveMembers (s : Run) (enter : Path → Ty → Resolve Ty) (path : Path) (acc : Ty) :
    List Ty → Resolve Ty
  | [] => return acc
  | t :: ts => do
    let r ← resolveWith s enter path t
    resolveMembers s enter path (acc.join r) ts
termination_by structural ts => ts

end

/-- Resolves a type, following at most `depth - 1` handles one inside the other. -/
def resolveAt (s : Run) : Nat → Path → Ty → Resolve Ty
  | 0, _, _ => return .any
  | depth + 1, path, t => resolveWith s (resolveAt s depth) path t

/-- The number of handles that the tables of a run have entries for. -/
def Run.handleCount (s : Run) : Nat :=
  s.closures.table.size + s.heap.cells.size + s.protos.ctors.size

/-- Resolves a type that is met on a given path. -/
def resolveOn (s : Run) (path : Path) (t : Ty) : Resolve Ty :=
  resolveAt s (s.handleCount + 1) path t

/-- Resolves a type. -/
def resolve (s : Run) (t : Ty) : Resolve Ty :=
  resolveOn s Path.empty t

end TypeFlow
