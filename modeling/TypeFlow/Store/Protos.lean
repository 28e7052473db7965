import TypeFlow.Store.Heap

/-!
# Constructors and prototype chains

A closure that is used with `new`, or whose `prototype` is touched, has a constructor.  The methods
of a prototype object live in the method table of its constructor.  Making an instance of another
constructor the prototype adds a *parent*; making another constructor's prototype object the
prototype *shares* its table.  These links may form cycles.

## Main Definitions

* `Ctor`, `Protos` - constructors and their graph
* `Protos.lookupMethod` - depth-first search for a name along shared tables and parents
* `Protos.findMethod` - the search for a value, over all constructors that it is linked to
* `Protos.ancestors` - everything reachable through the links, nearest first
* `Protos.prototypeMembers`, `Protos.instanceFields` - what a prototype or an instance shows
* `Protos.effectiveParent` - the parent, looking through intermediate constructors

## Design Notes

`changes` counts the calls that altered a table or a link.  A parent is an instance, so its own
fields are found through a parent link, before the tables behind it.

Searches carry the constructors already visited.  A depth-first search is at most one deeper than
there are constructors, and a breadth-first one has no more levels, since each adds a constructor.
A link need not lead to a constructor that exists, and following such a link is an error.
-/

namespace TypeFlow

/-- A constructor and its prototype object. -/
structure Ctor where
  name : Option String
  closure : Option ClosureId
  /-- The constructors whose instances are this one's prototype. -/
  parents : OrdSet CtorId
  /-- The constructors whose prototype objects are this one's prototype. -/
  shares : OrdSet CtorId
  methods : Fields
  /-- The fields that the constructor writes on the instance. -/
  ownFields : Fields
  /-- The body has run for an instance. -/
  analysed : Bool

/-- The table of constructors, with the number of changes made to it. -/
structure Protos where
  ctors : Array Ctor
  /-- The constructors of closures. -/
  byClosure : Index ClosureId
  changes : Nat

namespace Protos

/-- The graph without constructors. -/
def empty : Protos := ⟨#[], .empty, 0⟩

instance : Inhabited Protos := ⟨empty⟩

/-- The constructor at an index. -/
def ctor (g : Protos) (id : CtorId) : Except Dangling Ctor :=
  match g.ctors[id]? with
  | some c => .ok c
  | none => .error (.ctor id)

/-- The constructor of a closure. -/
def find? (g : Protos) (closure : ClosureId) : Option CtorId :=
  g.byClosure.place? closure

/-! ### Adding constructors -/

/-- Adds a constructor. -/
def add (c : Ctor) : EStateM Dangling Protos CtorId := do
  let g ← get
  set { g with ctors := g.ctors.push c, changes := g.changes + 1 }
  return g.ctors.size

/-- Adds a constructor that belongs to no closure. -/
def define (name : Option String) (parent : Option CtorId) (ownFields : Fields) :
    EStateM Dangling Protos CtorId :=
  add ⟨name, none, parent.toList, [], [], ownFields, false⟩

/-- The constructor of a closure, added on first use. -/
def ctorFor (closure : ClosureId) (name : Option String) : EStateM Dangling Protos CtorId := do
  let g ← get
  match g.find? closure with
  | some id => return id
  | none =>
    let id ← add ⟨name, some closure, [], [], [], [], false⟩
    modify fun g => { g with byClosure := g.byClosure.note closure id }
    return id

/-! ### Changing constructors -/

/-- Alters a constructor by `f` when `changed` says that this changes it, and answers whether it
does. -/
def alter (id : CtorId) (changed : Ctor → Bool) (f : Ctor → Ctor) :
    EStateM Dangling Protos Bool := do
  let g ← get
  match g.ctor id with
  | .error d => throw d
  | .ok c =>
    if changed c then
      set { g with ctors := g.ctors.modify id f, changes := g.changes + 1 }
      return true
    else
      return false

/-- Joins a type into a method of a constructor. -/
def defineMethod (id : CtorId) (name : String) (t : Ty) : EStateM Dangling Protos Bool :=
  alter id (fun c => Fields.widens c.methods name t)
    fun c => { c with methods := Fields.widen c.methods name t }

/-- Joins a type into a field that the constructor writes on the instance. -/
def recordOwnField (id : CtorId) (name : String) (t : Ty) : EStateM Dangling Protos Bool :=
  alter id (fun c => Fields.widens c.ownFields name t)
    fun c => { c with ownFields := Fields.widen c.ownFields name t }

/-- Adds a parent. -/
def addParent (id parent : CtorId) : EStateM Dangling Protos Bool :=
  alter id (fun c => !c.parents.contains parent)
    fun c => { c with parents := OrdSet.insert parent c.parents }

/-- Shares the method table of another constructor; sharing one's own changes nothing. -/
def share (id other : CtorId) : EStateM Dangling Protos Bool :=
  if id = other then
    return false
  else
    alter id (fun c => !c.shares.contains other)
      fun c => { c with shares := OrdSet.insert other c.shares }

/-- Notes that the body has run for an instance; this is no change. -/
def markAnalysed (id : CtorId) : EStateM Dangling Protos Unit := do
  let g ← get
  match g.ctor id with
  | .error d => throw d
  | .ok _ => set { g with ctors := g.ctors.modify id fun c => { c with analysed := true } }

/-! ### Depth-first search for a method -/

/-- A link from a constructor to another. -/
inductive Link where
  | share (id : CtorId)
  | parent (id : CtorId)

/-- The links of a constructor, shared tables first. -/
def links (c : Ctor) : List Link :=
  c.shares.map .share ++ c.parents.map .parent

/-- What a search has found, and the constructors it has visited. -/
abbrev Search := Option Ty × List CtorId

/-- Follows links until one of them finds something. -/
def firstFound (follow : List CtorId → Link → Except Dangling Search) (visited : List CtorId) :
    List Link → Except Dangling Search
  | [] => .ok (none, visited)
  | l :: ls =>
    match follow visited l with
    | .error d => .error d
    | .ok (some t, visited') => .ok (some t, visited')
    | .ok (none, visited') => firstFound follow visited' ls

/-- Searches a constructor's own methods, then the tables that it shares, then for each parent its
own fields and what lies behind it; to a given depth, and passing over what was visited. -/
def lookupIn (g : Protos) (name : String) : Nat → List CtorId → CtorId → Except Dangling Search
  | 0, visited, _ => .ok (none, visited)
  | depth + 1, visited, id =>
    if visited.contains id then .ok (none, visited)
    else
      match g.ctor id with
      | .error d => .error d
      | .ok c =>
        match OrdMap.get? c.methods name with
        | some t => .ok (some t, id :: visited)
        | none =>
          firstFound
            (fun seen link =>
              match link with
              | .share other => lookupIn g name depth seen other
              | .parent p =>
                match g.ctor p with
                | .error d => .error d
                | .ok pc =>
                  match OrdMap.get? pc.ownFields name with
                  | some t => .ok (some t, seen)
                  | none => lookupIn g name depth seen p)
            (id :: visited) (links c)

/-- Looks a name up on the prototype of a constructor. -/
def lookupMethod (g : Protos) (id : CtorId) (name : String) : Except Dangling (Option Ty) :=
  match g.lookupIn name (g.ctors.size + 1) [] id with
  | .error d => .error d
  | .ok (found, _) => .ok found

/-- Joins what the chains of the given constructors have for a name to what was found before. -/
def lookupAll (g : Protos) (name : String) (found : Option Ty) :
    List CtorId → Except Dangling (Option Ty)
  | [] => .ok found
  | id :: rest =>
    match g.lookupMethod id name with
    | .error d => .error d
    | .ok t => lookupAll g name (Heap.joinFound found t) rest

/-- Looks a name up for a value: over all constructors that it is an instance of, then over all
whose prototype object it is. -/
def findMethod (g : Protos) (receiver : Ty) (name : String) : Except Dangling (Option Ty) :=
  match receiver.objPart? with
  | none => .ok none
  | some o => g.lookupAll name none (o.ctors ++ o.protoOf)

/-- The method of a value, `any` when no chain has it. -/
def resolveMethod (g : Protos) (receiver : Ty) (name : String) : Except Dangling Ty := do
  return (← g.findMethod receiver name).getD .any

/-! ### Breadth-first closure -/

/-- The constructors linked from those of one level that are neither `seen` nor in `found`, after
`found`. -/
def nextLevel (g : Protos) (seen found : List CtorId) : List CtorId → Except Dangling (List CtorId)
  | [] => .ok found
  | id :: rest =>
    match g.ctor id with
    | .error d => .error d
    | .ok c =>
      nextLevel g seen
        ((c.shares ++ c.parents).foldl
          (fun acc l => if seen.contains l || acc.contains l then acc else acc ++ [l]) found)
        rest

/-- The constructors reached from a level that are not `seen`, level by level. -/
def reachFrom (g : Protos) : Nat → List CtorId → List CtorId → Except Dangling (List CtorId)
  | 0, _, _ => .ok []
  | levels + 1, seen, level =>
    match level with
    | [] => .ok []
    | _ :: _ =>
      match g.nextLevel seen [] level with
      | .error d => .error d
      | .ok next =>
        match reachFrom g levels (seen ++ next) next with
        | .error d => .error d
        | .ok further => .ok (next ++ further)

/-- The constructors reachable through links, nearest first, without the one started from. -/
def ancestors (g : Protos) (id : CtorId) : Except Dangling (List CtorId) :=
  g.reachFrom (g.ctors.size + 1) [id] [id]

/-- Adds to a map what the given constructors show under names that it lacks, from first to
last. -/
def addFrom (g : Protos) (shown : Ctor → List Fields) (acc : Fields) :
    List CtorId → Except Dangling Fields
  | [] => .ok acc
  | id :: rest =>
    match g.ctor id with
    | .error d => .error d
    | .ok c => addFrom g shown ((shown c).foldl OrdMap.addMissing acc) rest

/-- Everything visible on the prototype object of a constructor, the nearest definition winning. -/
def prototypeMembers (g : Protos) (id : CtorId) : Except Dangling Fields := do
  let c ← g.ctor id
  g.addFrom (fun a => [a.methods, a.ownFields]) c.methods (← g.ancestors id)

/-- The fields that a constructor and its ancestors write on an instance, the nearest winning. -/
def instanceFields (g : Protos) (id : CtorId) : Except Dangling Fields := do
  let c ← g.ctor id
  g.addFrom (fun a => [a.ownFields]) c.ownFields (← g.ancestors id)

/-- The constructor that the prototype was built from.  An intermediate constructor, which belongs
to a closure, has no methods and shares a table, stands for the one whose table it shares. -/
def effectiveParent (g : Protos) (id : CtorId) : Except Dangling (Option CtorId) := do
  match (← g.ctor id).parents.head? with
  | none => return none
  | some parent =>
    let p ← g.ctor parent
    if p.closure.isSome && p.methods.isEmpty then
      return some (p.shares.head?.getD parent)
    else
      return some parent

end Protos

end TypeFlow
