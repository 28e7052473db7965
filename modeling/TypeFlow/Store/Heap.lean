import TypeFlow.Index
import TypeFlow.Store.Dangling
import TypeFlow.Ty.Join

/-!
# The object heap

Every object literal and every instance creation has a cell, found again by its allocation site:
the node that creates it, the scope in which it is evaluated and, for instances, the constructor.
All values that refer to a cell see each other's writes.

## Main Definitions

* `AllocSite`, `Cell`, `Heap` - allocation sites, cells and their table
* `Heap.create` - the cell of a site, added on first use
* `Heap.writeCell`, `Heap.writeField` - widen a field of one cell, or of all cells of a value
* `Heap.lookupField` - the type of a field as seen through a value

## Design Notes

`changes` counts the calls that altered a cell, adding an empty cell included.  The first write of
a field is taken as it is; later ones are joined.
-/

namespace TypeFlow

/-- Where a cell was allocated. -/
structure AllocSite where
  node : NodeId
  scope : ScopeId
  ctor : Option CtorId
deriving DecidableEq, Repr

/-- The fields of an object, and where it was allocated. -/
structure Cell where
  site : AllocSite
  fields : Fields

/-- The table of cells, with the number of changes made to them. -/
structure Heap where
  cells : Array Cell
  /-- The cells by their allocation sites. -/
  bySite : Index AllocSite
  changes : Nat

namespace Heap

/-- The heap without cells. -/
def empty : Heap := ⟨#[], .empty, 0⟩

instance : Inhabited Heap := ⟨empty⟩

/-- The cell at an index. -/
def cell (h : Heap) (id : CellId) : Except Dangling Cell :=
  match h.cells[id]? with
  | some c => .ok c
  | none => .error (.cell id)

/-! ### Writing -/

/-- Joins a type into a field of a cell, and says whether this changed the cell. -/
def writeCell (id : CellId) (name : String) (t : Ty) : EStateM Dangling Heap Bool := do
  let h ← get
  match h.cell id with
  | .error d => throw d
  | .ok c =>
    if Fields.widens c.fields name t then
      set { h with
        cells := h.cells.modify id fun c => { c with fields := Fields.widen c.fields name t }
        changes := h.changes + 1 }
      return true
    else
      return false

/-- Joins types into fields of a cell, from first to last. -/
def writeAll (id : CellId) : List (String × Ty) → EStateM Dangling Heap Unit
  | [] => return ()
  | (name, t) :: rest => do
    let _ ← writeCell id name t
    writeAll id rest

/-- The cell of an allocation site, added without fields on first use. -/
def cellFor (site : AllocSite) : EStateM Dangling Heap CellId := do
  let h ← get
  match h.bySite.place? site with
  | some id => return id
  | none =>
    set ({ cells := h.cells.push ⟨site, []⟩
           bySite := h.bySite.note site h.cells.size
           changes := h.changes + 1 } : Heap)
    return h.cells.size

/-- The cell of an allocation site, with initial fields written into it. -/
def create (site : AllocSite) (initial : List (String × Ty)) : EStateM Dangling Heap CellId := do
  let id ← cellFor site
  writeAll id initial
  return id

/-- Joins a type into a field of several cells, and says whether any of them changed. -/
def writeCells (name : String) (t : Ty) : List CellId → EStateM Dangling Heap Bool
  | [] => return false
  | id :: rest => do
    let first ← writeCell id name t
    let others ← writeCells name t rest
    return first || others

/-- Joins a type into a field of every cell that a value may alias. -/
def writeField (o : ObjTy) (name : String) (t : Ty) : EStateM Dangling Heap Bool :=
  writeCells name t o.cells

/-! ### Reading -/

/-- The join of two types of which either may be missing. -/
def joinFound : Option Ty → Option Ty → Option Ty
  | none, t => t
  | t, none => t
  | some a, some b => some (a.join b)

/-- Joins the types that the given cells have for a field to what was found before. -/
def lookupCells (h : Heap) (name : String) (found : Option Ty) :
    List CellId → Except Dangling (Option Ty)
  | [] => .ok found
  | id :: rest =>
    match h.cell id with
    | .error d => .error d
    | .ok c => lookupCells h name (joinFound found (OrdMap.get? c.fields name)) rest

/-- The type of a field as seen through a value, none when neither the value itself nor any of its
cells has the field. -/
def lookupField (h : Heap) (o : ObjTy) (name : String) : Except Dangling (Option Ty) :=
  h.lookupCells name (o.field? name) o.cells

/-- The type of a field as seen through a value, `any` when it is absent. -/
def readField (h : Heap) (o : ObjTy) (name : String) : Except Dangling Ty := do
  return (← h.lookupField o name).getD .any

end Heap

end TypeFlow
