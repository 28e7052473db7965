import Mathlib
import TypeFlow.Proofs.Engine.OrderedTables
import TypeFlow.Proofs.Engine.Receivers

/-!
# Writes commute

Writes to bindings, cells, constructors and nodes may be made in any order, and any of them may be
repeated: the tables come out the same.  A place holds the join of what it held with all types that
were written to it, and a constructor has the links that it had and those that were added.

## Main Definitions

* `StoreWrite`, `StoreWrite.runAll` - the writes, and how they are performed
* `StoreWrite.typeAt`, `StoreWrite.link?` - what a write brings to a place, or adds to a constructor
* `StoreWrite.Does`, `StoreWrite.DoAll` - what one write does, and several one after the other
* `Run.bare`, `Run.uncounted` - a state without what writes change, or without the numbers of
  changes
* `Ty.joined` - the join of a list of types

## Main Statements

* `StoreWrite.does`, `StoreWrite.runAll_does` - what writes to entries that exist do
* `Ty.joined_congr` - a join does not depend on order and repetitions
* `Run.uncounted_ext` - what the places and the links hold determines a state with ordered tables
* `store_writes_commute` - writes in any order, with or without repetitions

## Design Notes

The order of writes shows only in the numbers of changes: of two writes to a place the second one
changes nothing when its type is the narrower one.  So states are compared without these numbers.
-/

namespace TypeFlow

open Walk

/-! ### Writes -/

/-- A write to the store. -/
inductive StoreWrite where
  | bind (scope : ScopeId) (name : String) (t : Ty)
  | field (cell : CellId) (name : String) (t : Ty)
  | method (ctor : CtorId) (name : String) (t : Ty)
  | ownField (ctor : CtorId) (name : String) (t : Ty)
  | parent (ctor parent : CtorId)
  | share (ctor other : CtorId)
  | record (node : NodeId) (t : Ty)

namespace StoreWrite

/-- Performs a write. -/
def run : StoreWrite → Walk Unit
  | bind id name t => do
    let _ ← onEnv (Env.bind id name t)
  | field id name t => do
    let _ ← onHeap (Heap.writeCell id name t)
  | method id name t => do
    let _ ← onProtos (Protos.defineMethod id name t)
  | ownField id name t => do
    let _ ← onProtos (Protos.recordOwnField id name t)
  | parent id p => do
    let _ ← onProtos (Protos.addParent id p)
  | share id other => do
    let _ ← onProtos (Protos.share id other)
  | record node t => Walk.record node t

/-- Performs writes from first to last. -/
def runAll : List StoreWrite → Walk Unit
  | [] => return ()
  | w :: ws => do
    w.run
    runAll ws

/-- The entry that a write is made to, if it is one of a table. -/
def owner? : StoreWrite → Option Dangling
  | bind id _ _ => some (.scope id)
  | field id _ _ => some (.cell id)
  | method id _ _ => some (.ctor id)
  | ownField id _ _ => some (.ctor id)
  | parent id _ => some (.ctor id)
  | share id _ => some (.ctor id)
  | record _ _ => none

/-- The entry that a write is made to exists. -/
def Addressed (w : StoreWrite) (s : Run) : Prop :=
  ∀ d ∈ w.owner?, s.HasEntry d

instance (w : StoreWrite) (s : Run) : Decidable (w.Addressed s) :=
  inferInstanceAs (Decidable (∀ d ∈ w.owner?, s.HasEntry d))

/-- The type `t` at one entry under one name, and nothing elsewhere. -/
def only (id : Nat) (name : String) (t : Ty) (id' : Nat) (name' : String) : Option Ty :=
  if id' = id ∧ name' = name then some t else none

/-- The type that a write brings to a place. -/
def typeAt : StoreWrite → Slot → Option Ty
  | bind id name t, .binding id' name' => only id name t id' name'
  | field id name t, .field id' name' => only id name t id' name'
  | method id name t, .method id' name' => only id name t id' name'
  | ownField id name t, .ownField id' name' => only id name t id' name'
  | record id t, .node id' => if id' = id then some t else none
  | _, _ => none

/-- The link that a write adds, with its constructor.  No constructor shares its own table. -/
def link? : StoreWrite → Option (CtorId × Protos.Link)
  | parent id p => some (id, .parent p)
  | share id other => if id = other then none else some (id, .share other)
  | _ => none

/-- A write as an update of the state. -/
def update : StoreWrite → Update
  | bind id name t => .env (.bind id name t)
  | field id name t => .heap (.field id name t)
  | method id name t => .protos (.method id name t)
  | ownField id name t => .protos (.ownField id name t)
  | parent id p => .protos (.parent id p)
  | share id other => .protos (.share id other)
  | record node t => .record node t

end StoreWrite

/-! ### Writes that succeed -/

/-- A name can be bound in a scope that exists. -/
theorem Env.bind_ok {e : Env} {id : ScopeId} (hinside : id < e.scopes.size) (name : String)
    (t : Ty) : ∃ b, Env.bind id name t e = .ok b (after (Env.bind id name t) e) := by
  rw [after, Env.bind_apply, Array.getElem?_eq_getElem hinside]
  dsimp only
  split <;> exact ⟨_, rfl⟩

/-- A field of a cell that exists can be written. -/
theorem Heap.writeCell_ok {h : Heap} {id : CellId} (hinside : id < h.cells.size) (name : String)
    (t : Ty) : ∃ b, Heap.writeCell id name t h = .ok b (after (Heap.writeCell id name t) h) := by
  rw [after, Heap.writeCell_apply, Array.getElem?_eq_getElem hinside]
  dsimp only
  split <;> exact ⟨_, rfl⟩

/-- A constructor that exists can be altered. -/
theorem Protos.alter_ok {g : Protos} {id : CtorId} (hinside : id < g.ctors.size)
    (changed : Ctor → Bool) (f : Ctor → Ctor) :
    ∃ b, Protos.alter id changed f g = .ok b (after (Protos.alter id changed f) g) := by
  rw [after, Protos.alter_apply, Array.getElem?_eq_getElem hinside]
  dsimp only
  split <;> exact ⟨_, rfl⟩

theorem Protos.share_ok {g : Protos} {id : CtorId} (hinside : id < g.ctors.size) (other : CtorId) :
    ∃ b, Protos.share id other g = .ok b (after (Protos.share id other) g) := by
  unfold after
  rw [Protos.share_apply]
  split
  · exact ⟨_, rfl⟩
  · exact Protos.alter_ok hinside _ _

/-- A write is performed when its entry exists. -/
theorem StoreWrite.run_eq (w : StoreWrite) {s : Run} (haddressed : w.Addressed s) :
    w.run s = .ok () (w.update.apply s) := by
  cases w with
  | bind id name t =>
    obtain ⟨b, hran⟩ := Env.bind_ok (haddressed _ rfl) name t
    exact bind_eq_ok.mpr ⟨b, _, onEnv_of_ok hran, rfl⟩
  | field id name t =>
    obtain ⟨b, hran⟩ := Heap.writeCell_ok (haddressed _ rfl) name t
    exact bind_eq_ok.mpr ⟨b, _, onHeap_of_ok hran, rfl⟩
  | method id name t =>
    obtain ⟨b, hran⟩ := Protos.alter_ok (haddressed _ rfl)
      (fun c => Fields.widens c.methods name t)
      fun c => { c with methods := Fields.widen c.methods name t }
    exact bind_eq_ok.mpr ⟨b, _, onProtos_of_ok hran, rfl⟩
  | ownField id name t =>
    obtain ⟨b, hran⟩ := Protos.alter_ok (haddressed _ rfl)
      (fun c => Fields.widens c.ownFields name t)
      fun c => { c with ownFields := Fields.widen c.ownFields name t }
    exact bind_eq_ok.mpr ⟨b, _, onProtos_of_ok hran, rfl⟩
  | parent id p =>
    obtain ⟨b, hran⟩ := Protos.alter_ok (haddressed _ rfl)
      (fun c => !c.parents.contains p)
      fun c => { c with parents := OrdSet.insert p c.parents }
    exact bind_eq_ok.mpr ⟨b, _, onProtos_of_ok hran, rfl⟩
  | share id other =>
    obtain ⟨b, hran⟩ := Protos.share_ok (haddressed _ rfl) other
    exact bind_eq_ok.mpr ⟨b, _, onProtos_of_ok hran, rfl⟩
  | record node t => rfl

/-! ### Maps that take a type -/

theorem Heap.joinFound_none (found : Option Ty) : Heap.joinFound found none = found := by
  cases found <;> rfl

/-- The second map holds what the first one holds, with types joined into some keys. -/
def Fields.Takes (new : String → Option Ty) (m n : Fields) : Prop :=
  ∀ k, OrdMap.get? n k = Heap.joinFound (OrdMap.get? m k) (new k)

namespace Fields

theorem takes_nothing {new : String → Option Ty} (hnothing : ∀ k, new k = none) (m : Fields) :
    Takes new m m := by
  intro k
  rw [hnothing, Heap.joinFound_none]

/-- A widened map takes the type at its name, and nothing elsewhere. -/
theorem takes_widen (id : Nat) (m : Fields) (name : String) (t : Ty) :
    Takes (StoreWrite.only id name t id) m (widen m name t) := by
  intro k
  rw [widen, StoreWrite.only]
  by_cases hsame : k = name
  · subst hsame
    rw [if_pos ⟨rfl, rfl⟩, OrdMap.get?_insert_self, widened]
    cases OrdMap.get? m k <;> rfl
  · rw [if_neg fun hboth => hsame hboth.2, OrdMap.get?_insert_of_ne m _ hsame, Heap.joinFound_none]

/-- A type that does not widen its slot is taken already. -/
theorem takes_self (id : Nat) {m : Fields} {name : String} {t : Ty}
    (hstays : widens m name t = false) : Takes (StoreWrite.only id name t id) m m := by
  have hheld : OrdMap.get? m name = some (widened m name t) := by
    simpa [widens] using hstays
  intro k
  rw [← takes_widen id m name t k, widen]
  by_cases hsame : k = name
  · rw [hsame, hheld, OrdMap.get?_insert_self]
  · rw [OrdMap.get?_insert_of_ne m _ hsame]

end Fields

/-! ### Tables with one entry replaced -/

section Table

variable {α β : Type} {xs ys : Array α} {id : Nat} {x y : α}

/-- A table differs from another one at most in one entry. -/
structure Replaces (xs : Array α) (id : Nat) (x y : α) (ys : Array α) : Prop where
  old : xs[id]? = some x
  new : ys[id]? = some y
  others : ∀ j, j ≠ id → ys[j]? = xs[j]?

theorem Replaces.self (hfound : xs[id]? = some x) : Replaces xs id x x xs :=
  ⟨hfound, hfound, fun _ _ => rfl⟩

theorem Replaces.modify (hfound : xs[id]? = some x) (f : α → α) :
    Replaces xs id x (f x) (xs.modify id f) where
  old := hfound
  new := by rw [Array.getElem?_modify, if_pos rfl, hfound, Option.map_some]
  others j hne := by rw [Array.getElem?_modify, if_neg hne.symm]

/-- Reading from maps in the entries, when the replaced one takes types into its map. -/
theorem Replaces.takes (h : Replaces xs id x y ys) {g : α → Fields}
    {new : Nat → String → Option Ty} (htakes : Fields.Takes (new id) (g x) (g y))
    (heq : ∀ j, j ≠ id → ∀ k, new j k = none) (j : Nat) (k : String) :
    (ys[j]?.bind fun c => OrdMap.get? (g c) k) =
      Heap.joinFound (xs[j]?.bind fun c => OrdMap.get? (g c) k) (new j k) := by
  by_cases hsame : j = id
  · subst hsame
    rw [h.new, h.old, Option.bind_some, Option.bind_some, htakes k]
  · rw [h.others j hsame, heq j hsame, Heap.joinFound_none]

/-- What an entry keeps is the same all over the table. -/
theorem Replaces.map (h : Replaces xs id x y ys) {g : α → β} (hsame : g y = g x) :
    ys.map g = xs.map g := by
  refine Array.ext_getElem? fun j => ?_
  rw [Array.getElem?_map, Array.getElem?_map]
  by_cases heq : j = id
  · rw [heq, h.new, h.old, Option.map_some, Option.map_some, hsame]
  · rw [h.others j heq]

end Table

/-! ### What writes leave alone -/

/-- A scope without its bindings. -/
def Scope.bare (c : Scope) : Scope :=
  { c with bindings := [] }

/-- A cell without its fields. -/
def Cell.bare (c : Cell) : Cell :=
  { c with fields := [] }

/-- A constructor without its links, its methods and its fields. -/
def Ctor.bare (c : Ctor) : Ctor :=
  { c with parents := [], shares := [], methods := [], ownFields := [] }

/-- A state without what writes change, and without the numbers of changes. -/
def Run.bare (s : Run) : Run :=
  { s with
    env := { s.env with scopes := s.env.scopes.map Scope.bare, changes := 0 }
    heap := { s.heap with cells := s.heap.cells.map Cell.bare, changes := 0 }
    protos := { s.protos with ctors := s.protos.ctors.map Ctor.bare, changes := 0 }
    nodeTypes := [] }

/-! ### One write -/

/-- What one write does: it joins a type into its place or adds its link, and leaves all else
alone. -/
structure StoreWrite.Does (w : StoreWrite) (s t : Run) : Prop where
  slots : ∀ l, t.slot? l = Heap.joinFound (s.slot? l) (w.typeAt l)
  links : ∀ k l, t.HasLink k l ↔ s.HasLink k l ∨ w.link? = some (k, l)
  bare : t.bare = s.bare

/-- A binding joins its type into the bindings of its scope, and keeps the rest of it. -/
theorem Env.bind_takes {e : Env} {id : ScopeId} (hinside : id < e.scopes.size) (name : String)
    (t : Ty) :
    ∃ x y : Scope, Replaces e.scopes id x y (after (Env.bind id name t) e).scopes ∧
      y.bare = x.bare ∧ Fields.Takes (StoreWrite.only id name t id) x.bindings y.bindings := by
  have hfound := Array.getElem?_eq_getElem hinside
  generalize e.scopes[id] = x at hfound
  rw [after, Env.bind_apply, hfound]
  dsimp only
  cases hwider : Fields.widens x.bindings name t with
  | true =>
    exact ⟨x, _, .modify hfound fun c => { c with bindings := Fields.widen x.bindings name t }, rfl,
      Fields.takes_widen id x.bindings name t⟩
  | false => exact ⟨x, x, .self hfound, rfl, Fields.takes_self id hwider⟩

/-- A write to a cell joins its type into the fields of the cell, and keeps the rest of it. -/
theorem Heap.writeCell_takes {h : Heap} {id : CellId} (hinside : id < h.cells.size) (name : String)
    (t : Ty) :
    ∃ x y : Cell, Replaces h.cells id x y (after (Heap.writeCell id name t) h).cells ∧
      y.bare = x.bare ∧ Fields.Takes (StoreWrite.only id name t id) x.fields y.fields := by
  have hfound := Array.getElem?_eq_getElem hinside
  generalize h.cells[id] = x at hfound
  rw [after, Heap.writeCell_apply, hfound]
  dsimp only
  cases hwider : Fields.widens x.fields name t with
  | true =>
    exact ⟨x, _, .modify hfound fun c => { c with fields := Fields.widen c.fields name t }, rfl,
      Fields.takes_widen id x.fields name t⟩
  | false => exact ⟨x, x, .self hfound, rfl, Fields.takes_self id hwider⟩

/-- Altering a constructor replaces it in its table, and leaves the index alone. -/
theorem Protos.alter_replaces {g : Protos} {id : CtorId} (hinside : id < g.ctors.size)
    (changed : Ctor → Bool) (f : Ctor → Ctor) :
    ∃ x, Replaces g.ctors id x (if changed x = true then f x else x)
        (after (Protos.alter id changed f) g).ctors ∧
      (after (Protos.alter id changed f) g).byClosure = g.byClosure := by
  have hfound := Array.getElem?_eq_getElem hinside
  generalize g.ctors[id] = x at hfound
  rw [after, Protos.alter_apply, hfound]
  dsimp only
  refine ⟨x, ?_⟩
  split
  · exact ⟨.modify hfound f, rfl⟩
  · exact ⟨.self hfound, rfl⟩

theorem Protos.mem_links_insert_parent {c : Ctor} {p : CtorId} {l : Protos.Link} :
    l ∈ links { c with parents := OrdSet.insert p c.parents } ↔ l ∈ links c ∨ l = .parent p := by
  cases l <;> simp [links, OrdSet.mem_insert, or_comm]

theorem Protos.mem_links_insert_share {c : Ctor} {other : CtorId} {l : Protos.Link} :
    l ∈ links { c with shares := OrdSet.insert other c.shares } ↔
      l ∈ links c ∨ l = .share other := by
  cases l <;> simp [links, OrdSet.mem_insert, or_comm]

/-- What one write does to a constructor. -/
structure Ctor.Takes (w : StoreWrite) (id : CtorId) (x y : Ctor) : Prop where
  bare : y.bare = x.bare
  methods : Fields.Takes (fun name => w.typeAt (.method id name)) x.methods y.methods
  ownFields : Fields.Takes (fun name => w.typeAt (.ownField id name)) x.ownFields y.ownFields
  links : ∀ l, l ∈ Protos.links y ↔ l ∈ Protos.links x ∨ w.link? = some (id, l)

section Links

variable {w : StoreWrite} {id : CtorId} {x y : Ctor} {new : Protos.Link}

/-- A write that only has a link does no more than to add it. -/
theorem Ctor.Takes.of_link (hnoType : ∀ l, w.typeAt l = none) (hlink : w.link? = some (id, new))
    (hbare : y.bare = x.bare) (hmethods : y.methods = x.methods)
    (hownFields : y.ownFields = x.ownFields)
    (hlinks : ∀ l, l ∈ Protos.links y ↔ l ∈ Protos.links x ∨ l = new) : Ctor.Takes w id x y where
  bare := hbare
  methods := hmethods ▸ Fields.takes_nothing (fun _ => hnoType _) _
  ownFields := hownFields ▸ Fields.takes_nothing (fun _ => hnoType _) _
  links l := by
    rw [hlinks, hlink, Option.some.injEq, Prod.mk.injEq]
    exact or_congr_right ⟨fun heq => ⟨rfl, heq.symm⟩, fun heq => heq.2.symm⟩

/-- A link that was there already changes nothing. -/
theorem Ctor.Takes.of_mem_links (hnoType : ∀ l, w.typeAt l = none)
    (hlink : w.link? = some (id, new)) (hmem : new ∈ Protos.links x) : Ctor.Takes w id x x :=
  .of_link hnoType hlink rfl rfl rfl fun _ => (or_iff_left_of_imp fun heq => heq ▸ hmem).symm

end Links

namespace StoreWrite

variable {s : Run} {w : StoreWrite}

theorem only_of_ne {id j : Nat} (hne : j ≠ id) (name : String) (t : Ty) (k : String) :
    only id name t j k = none :=
  if_neg fun hboth => hne hboth.1

/-- A place that a write does not bring a type to stays as it is. -/
theorem stays {l : Slot} {found : Option Ty} (hnothing : w.typeAt l = none) :
    found = Heap.joinFound found (w.typeAt l) := by
  rw [hnothing, Heap.joinFound_none]

/-- A write without a link leaves the links of the constructors as they are. -/
theorem same_links (hnothing : w.link? = none) (k : CtorId) (l : Protos.Link) :
    s.HasLink k l ↔ s.HasLink k l ∨ w.link? = some (k, l) := by
  simp [hnothing]

/-- What a write to a scope does. -/
theorem does_bind {id : ScopeId} (hinside : s.HasEntry (.scope id)) (name : String) (t : Ty) :
    (bind id name t).Does s ((bind id name t).update.apply s) := by
  obtain ⟨x, y, hreplaces, hbare, htakes⟩ := Env.bind_takes hinside name t
  refine ⟨fun l => ?_, same_links rfl, ?_⟩
  · cases l with
    | binding j k => exact hreplaces.takes htakes (fun _ hne => only_of_ne hne name t) j k
    | _ => exact stays rfl
  · have hindex := ((Env.Write.bind id name t).index s.env).eq_of_nil
    exact congrArg₂ (fun scopes activations => { s.bare with env := ⟨scopes, activations, 0⟩ })
      (hreplaces.map hbare) hindex

/-- What a write to a cell does. -/
theorem does_field {id : CellId} (hinside : s.HasEntry (.cell id)) (name : String) (t : Ty) :
    (field id name t).Does s ((field id name t).update.apply s) := by
  obtain ⟨x, y, hreplaces, hbare, htakes⟩ := Heap.writeCell_takes hinside name t
  refine ⟨fun l => ?_, same_links rfl, ?_⟩
  · cases l with
    | field j k => exact hreplaces.takes htakes (fun _ hne => only_of_ne hne name t) j k
    | _ => exact stays rfl
  · have hindex := ((Heap.Write.field id name t).index s.heap).eq_of_nil
    exact congrArg₂ (fun cells bySite => { s.bare with heap := ⟨cells, bySite, 0⟩ })
      (hreplaces.map hbare) hindex

/-- A write to a constructor brings nothing to other places. -/
theorem typeAt_of_owner {id : CtorId} (howner : w.owner? = some (.ctor id)) {l : Slot}
    (hnoMethod : ∀ name, l ≠ .method id name) (hnoField : ∀ name, l ≠ .ownField id name) :
    w.typeAt l = none := by
  cases w with
  | method k name t =>
    cases howner
    cases l with
    | method j k =>
      exact only_of_ne (fun hsame => hnoMethod k (congrArg (Slot.method · k) hsame)) name t k
    | _ => rfl
  | ownField k name t =>
    cases howner
    cases l with
    | ownField j k =>
      exact only_of_ne (fun hsame => hnoField k (congrArg (Slot.ownField · k) hsame)) name t k
    | _ => rfl
  | bind | field | record => cases howner
  | parent | share => rfl

theorem link?_of_owner {id k : CtorId} {l : Protos.Link} (howner : w.owner? = some (.ctor id))
    (hlink : w.link? = some (k, l)) : k = id := by
  cases w with
  | parent =>
    cases howner
    cases hlink
    rfl
  | share =>
    cases howner
    obtain ⟨_, heq⟩ := Option.ite_none_left_eq_some.mp hlink
    cases heq
    rfl
  | _ => cases hlink

/-- A write that alters its constructor does what it does to that constructor. -/
theorem does_alter {id : CtorId} {changed : Ctor → Bool} {f : Ctor → Ctor}
    (hinside : s.HasEntry (.ctor id)) (howner : w.owner? = some (.ctor id))
    (hstep : ∀ c, Ctor.Takes w id c (if changed c = true then f c else c)) :
    w.Does s { s with protos := after (Protos.alter id changed f) s.protos } := by
  obtain ⟨x, hreplaces, hindex⟩ := Protos.alter_replaces hinside changed f
  have htakes := hstep x
  generalize (if changed x = true then f x else x) = y at hreplaces htakes
  refine ⟨fun l => ?_, fun k l => ?_, ?_⟩
  · cases l with
    | method j k =>
      refine hreplaces.takes htakes.methods (fun j hne k => typeAt_of_owner howner ?_ ?_) j k <;>
        simp [hne]
    | ownField j k =>
      refine hreplaces.takes htakes.ownFields (fun j hne k => typeAt_of_owner howner ?_ ?_) j k <;>
        simp [hne]
    | _ => exact stays (typeAt_of_owner howner (by simp) (by simp))
  · by_cases hsame : k = id
    · subst hsame
      simp only [Run.HasLink, hreplaces.new, hreplaces.old, Option.some.injEq, exists_eq_left']
      exact htakes.links l
    · simp only [Run.HasLink, hreplaces.others k hsame]
      refine (or_iff_left fun hlink => ?_).symm
      exact hsame (link?_of_owner howner hlink)
  · exact congrArg₂ (fun ctors byClosure => { s.bare with protos := ⟨ctors, byClosure, 0⟩ })
      (hreplaces.map htakes.bare) hindex

/-- What a write to a node does. -/
theorem does_record (node : NodeId) (t : Ty) :
    (record node t).Does s ((record node t).update.apply s) := by
  refine ⟨fun l => ?_, same_links rfl, rfl⟩
  cases l with
  | node id =>
    rw [update, Update.apply, Run.recordType, Run.slot?, Run.slot?, typeAt]
    by_cases hsame : id = node
    · subst hsame
      rw [OrdMap.get?_upsert_self, if_pos rfl]
      cases OrdMap.get? s.nodeTypes id <;> rfl
    · rw [OrdMap.get?_upsert_of_ne _ _ _ hsame, if_neg hsame, Heap.joinFound_none]
  | _ => exact stays rfl

/-- What the sharing of a table of methods does. -/
theorem does_share {id : CtorId} (hinside : s.HasEntry (.ctor id)) (other : CtorId) :
    (share id other).Does s { s with protos := after (Protos.share id other) s.protos } := by
  rw [after, Protos.share_apply]
  by_cases hsame : id = other
  · rw [if_pos hsame]
    exact ⟨fun l => stays rfl, same_links (if_pos hsame), rfl⟩
  · rw [if_neg hsame]
    refine does_alter hinside rfl fun c => ?_
    have hlink : (share id other).link? = some (id, .share other) := if_neg hsame
    split
    · exact .of_link (fun _ => rfl) hlink rfl rfl rfl fun l => Protos.mem_links_insert_share
    · next hne =>
      exact .of_mem_links (fun _ => rfl) hlink (by simpa [Protos.links] using hne)

/-- What one write does. -/
theorem does (w : StoreWrite) (haddressed : w.Addressed s) : w.Does s (w.update.apply s) := by
  have hnothing : ∀ m, Fields.Takes (fun _ => none) m m := Fields.takes_nothing fun _ => rfl
  cases w with
  | bind id name t => exact does_bind (haddressed _ rfl) name t
  | field id name t => exact does_field (haddressed _ rfl) name t
  | method id name t =>
    refine does_alter (haddressed _ rfl) rfl fun c => ?_
    split
    · exact ⟨rfl, Fields.takes_widen id _ name t, hnothing _, by simp [link?, Protos.links]⟩
    · next hstays =>
      exact ⟨rfl, Fields.takes_self id (by simpa using hstays), hnothing _, by simp [link?]⟩
  | ownField id name t =>
    refine does_alter (haddressed _ rfl) rfl fun c => ?_
    split
    · exact ⟨rfl, hnothing _, Fields.takes_widen id _ name t, by simp [link?, Protos.links]⟩
    · next hstays =>
      exact ⟨rfl, hnothing _, Fields.takes_self id (by simpa using hstays), by simp [link?]⟩
  | parent id p =>
    refine does_alter (haddressed _ rfl) rfl fun c => ?_
    split
    · exact .of_link (fun _ => rfl) rfl rfl rfl rfl fun l => Protos.mem_links_insert_parent
    · next hne =>
      exact .of_mem_links (fun _ => rfl) rfl (by simpa [Protos.links] using hne)
  | share id other => exact does_share (haddressed _ rfl) other
  | record node t => exact does_record node t

end StoreWrite

/-! ### Joins of lists -/

/-- The join of types from first to last, none when there are none. -/
def Ty.joined : List Ty → Option Ty
  | [] => none
  | t :: ts => some (ts.foldl Ty.join t)

namespace Ty

theorem joined_toList (found : Option Ty) : joined found.toList = found := by
  cases found <;> rfl

/-- Joining a type first, or having it in the list. -/
theorem joined_joinFound (a b : Option Ty) (ts : List Ty) :
    joined ((Heap.joinFound a b).toList ++ ts) = joined (a.toList ++ (b.toList ++ ts)) := by
  cases a <;> cases b <;> rfl

/-- The join of a list is the least upper bound of its members. -/
theorem joined_isJoinOf {ts : List Ty} (hnormal : ∀ t ∈ ts, t.Normal) :
    IsJoinOf (· ∈ ts) (joined ts) := by
  cases ts with
  | nil =>
    constructor
    · intro t heq
      cases heq
    · intro t hmem
      cases hmem
    · exact fun u _ => .none u
  | cons t ts =>
    -- What was joined so far is the join of the types seen so far.
    have hrun : ∀ (S : Ty → Prop) (acc : Ty), IsJoinOf S (some acc) →
        IsJoinOf (fun u => S u ∨ u ∈ ts) (some (ts.foldl Ty.join acc)) := by
      have hrest : ∀ u ∈ ts, u.Normal := fun u hmem => hnormal u (List.mem_cons_of_mem t hmem)
      clear hnormal
      induction ts with
      | nil => exact fun S acc h => h.congr (by simp)
      | cons v ts ih =>
        intro S acc h
        have hsingle : IsJoinOf (fun u => some v = some u) (some v) :=
          .single fun u heq => Option.some.inj heq ▸ hrest v List.mem_cons_self
        refine (ih (fun u hmem => hrest u (List.mem_cons_of_mem v hmem)) _ _
          (h.union hsingle)).congr
          fun u => ?_
        simp [or_assoc, eq_comm]
    have hsingle : IsJoinOf (fun u => some t = some u) (some t) :=
      .single fun u heq => Option.some.inj heq ▸ hnormal t List.mem_cons_self
    exact (hrun _ t hsingle).congr fun u => by simp [eq_comm]

/-- The join depends on which types are listed only. -/
theorem joined_congr {ts us : List Ty} (hnormal : ∀ t ∈ ts, t.Normal)
    (hsame : ∀ t, t ∈ us ↔ t ∈ ts) : joined us = joined ts := by
  have hnormal' : ∀ t ∈ us, t.Normal := fun t hmem => hnormal t ((hsame t).mp hmem)
  exact ((joined_isJoinOf hnormal').congr hsame).unique (joined_isJoinOf hnormal)

end Ty

/-! ### Writes one after the other -/

namespace StoreWrite

/-- No update takes away the entry that a write is made to. -/
theorem Addressed.update {w : StoreWrite} {s : Run} (haddressed : w.Addressed s) (u : Update) :
    w.Addressed (u.apply s) :=
  fun d hmem => (u.keeps s).hasEntry (haddressed d hmem)

/-- What writes one after the other do. -/
structure DoAll (ws : List StoreWrite) (s t : Run) : Prop where
  slots : ∀ l, t.slot? l = Ty.joined ((s.slot? l).toList ++ ws.filterMap (·.typeAt l))
  links : ∀ k l, t.HasLink k l ↔ s.HasLink k l ∨ ∃ w ∈ ws, w.link? = some (k, l)
  bare : t.bare = s.bare
  ordered : s.Ordered → t.Ordered

/-- Writes to entries that exist succeed, and each one does its part. -/
theorem runAll_does {ws : List StoreWrite} {s : Run} (haddressed : ∀ w ∈ ws, w.Addressed s) :
    ∃ t, runAll ws s = .ok () t ∧ DoAll ws s t := by
  induction ws generalizing s with
  | nil =>
    refine ⟨s, rfl, fun l => ?_, fun k l => by simp, rfl, id⟩
    rw [List.filterMap_nil, List.append_nil, Ty.joined_toList]
  | cons w ws ih =>
    have haddressed' := haddressed w List.mem_cons_self
    have hfirst := w.does haddressed'
    -- The later writes start after the first one, where their entries still exist.
    obtain ⟨t, hran, hrest⟩ := ih (s := w.update.apply s) fun v hmem =>
      (haddressed v (List.mem_cons_of_mem w hmem)).update w.update
    refine ⟨t, bind_eq_ok.mpr ⟨(), _, w.run_eq haddressed', hran⟩, fun l => ?_,
      fun k l => ?_, ?_, ?_⟩
    · rw [hrest.slots, hfirst.slots, Ty.joined_joinFound, List.filterMap_cons]
      cases w.typeAt l <;> rfl
    · rw [hrest.links, hfirst.links, or_assoc, List.exists_mem_cons_iff]
    · rw [hrest.bare, hfirst.bare]
    · exact fun hordered => hrest.ordered (w.update.ordered hordered)

/-- The types that a write brings are those of its update. -/
theorem mem_types_of_typeAt {w : StoreWrite} {l : Slot} {t : Ty} (hbrings : w.typeAt l = some t) :
    t ∈ w.update.types := by
  have hmem : ∀ {p : Prop} [Decidable p] {u : Ty},
      (if p then some u else none) = some t → t ∈ [u] := by
    intro p _ u heq
    obtain ⟨-, hsame⟩ := Option.ite_none_right_eq_some.mp heq
    exact List.mem_singleton.mpr (Option.some.inj hsame).symm
  cases w with
  | bind => cases l with
    | binding => exact hmem hbrings
    | _ => cases hbrings
  | field => cases l with
    | field => exact hmem hbrings
    | _ => cases hbrings
  | method => cases l with
    | method => exact hmem hbrings
    | _ => cases hbrings
  | ownField => cases l with
    | ownField => exact hmem hbrings
    | _ => cases hbrings
  | record => cases l with
    | node => exact hmem hbrings
    | _ => cases hbrings
  | parent | share => cases hbrings

end StoreWrite

/-! ### States with the same contents -/

/-- A state without the numbers of changes. -/
def Run.uncounted (s : Run) : Run :=
  { s with
    env := { s.env with changes := 0 }
    heap := { s.heap with changes := 0 }
    protos := { s.protos with changes := 0 } }

/-- Tables are equal when a view of them is and entries with the same view are. -/
theorem table_ext {α β : Type} {xs ys : Array α} {view : α → β} (hsame : xs.map view = ys.map view)
    (hentry : ∀ (i : Nat) (x y : α), xs[i]? = some x → ys[i]? = some y → view x = view y → x = y) :
    xs = ys := by
  refine Array.ext_getElem? fun i => ?_
  have heq : (xs.map view)[i]? = (ys.map view)[i]? := by rw [hsame]
  rw [Array.getElem?_map, Array.getElem?_map] at heq
  cases hleft : xs[i]? with
  | none =>
    rw [hleft, Option.map_none, eq_comm, Option.map_eq_none_iff] at heq
    exact heq.symm
  | some x =>
    rw [hleft, Option.map_some, eq_comm, Option.map_eq_some_iff] at heq
    obtain ⟨y, hright, heq⟩ := heq
    rw [hright, hentry i x y hleft hright heq.symm]

/-- The contents of ordered constructors determine them, apart from what writes leave alone. -/
theorem Ctor.ext_of_bare {x y : Ctor} (hx : x.Ordered) (hy : y.Ordered) (hbare : x.bare = y.bare)
    (hmethods : ∀ k, OrdMap.get? x.methods k = OrdMap.get? y.methods k)
    (hownFields : ∀ k, OrdMap.get? x.ownFields k = OrdMap.get? y.ownFields k)
    (hlinks : ∀ l, l ∈ Protos.links x ↔ l ∈ Protos.links y) : x = y := by
  have hsameMethods := hx.methods.ext hy.methods hmethods
  have hsameFields := hx.ownFields.ext hy.ownFields hownFields
  have hsameParents := hx.parents.ext hy.parents fun p => by
    simpa [Protos.links] using hlinks (.parent p)
  have hsameShares := hx.shares.ext hy.shares fun p => by
    simpa [Protos.links] using hlinks (.share p)
  cases x
  cases y
  simp_all [Ctor.bare]

namespace Run

variable {s t : Run}

/-- What is in the places and the links of ordered tables determines the tables. -/
theorem uncounted_ext (hs : s.Ordered) (ht : t.Ordered) (hbare : s.bare = t.bare)
    (hslots : ∀ l, s.slot? l = t.slot? l) (hlinks : ∀ k l, s.HasLink k l ↔ t.HasLink k l) :
    s.uncounted = t.uncounted := by
  -- entries are compared by their rest and by what they hold for each key, as their maps ascend
  have hscopes : s.env.scopes = t.env.scopes := by
    refine table_ext (congrArg (·.env.scopes) hbare) fun i x y hleft hright heq => ?_
    have hascendsX := hs.scopes x (Array.mem_of_getElem? hleft)
    have hascendsY := ht.scopes y (Array.mem_of_getElem? hright)
    have hbindings := hascendsX.ext hascendsY fun k => by
      simpa [slot?, hleft, hright] using hslots (.binding i k)
    cases x
    cases y
    simp_all [Scope.bare]
  have hcells : s.heap.cells = t.heap.cells := by
    refine table_ext (congrArg (·.heap.cells) hbare) fun i x y hleft hright heq => ?_
    have hascendsX := hs.cells x (Array.mem_of_getElem? hleft)
    have hascendsY := ht.cells y (Array.mem_of_getElem? hright)
    have hfields := hascendsX.ext hascendsY fun k => by
      simpa [slot?, hleft, hright] using hslots (.field i k)
    cases x
    cases y
    simp_all [Cell.bare]
  have hctors : s.protos.ctors = t.protos.ctors := by
    refine table_ext (congrArg (·.protos.ctors) hbare) fun i x y hleft hright heq => ?_
    refine Ctor.ext_of_bare (hs.ctors x (Array.mem_of_getElem? hleft))
      (ht.ctors y (Array.mem_of_getElem? hright)) heq (fun k => ?_) (fun k => ?_) fun l => ?_
    · simpa [slot?, hleft, hright] using hslots (.method i k)
    · simpa [slot?, hleft, hright] using hslots (.ownField i k)
    · simpa [HasLink, hleft, hright] using hlinks i l
  have hnodes : s.nodeTypes = t.nodeTypes := hs.nodes.ext ht.nodes fun k => hslots (.node k)
  calc
    s.uncounted = { s.bare with
        env := { s.bare.env with scopes := s.env.scopes }
        heap := { s.bare.heap with cells := s.heap.cells }
        protos := { s.bare.protos with ctors := s.protos.ctors }
        nodeTypes := s.nodeTypes } := rfl
    _ = t.uncounted := by
      rw [hbare, hscopes, hcells, hctors, hnodes]
      rfl

end Run

/-! ### Any order -/

/-- Writes to entries that exist, in any order and with any repetitions, join all types that they
bring into their places, add their links, leave all else alone and lead to one state, apart from
the numbers of changes.  All states of runs have the form that this needs. -/
theorem store_writes_commute :
    (∀ options globals ps (s : Run), (∀ g ∈ globals, g.2.Normal) → s.Reached options globals ps →
      s.Normal ∧ s.Ordered) ∧
    ∀ s : Run, s.Normal → s.Ordered → ∀ ws : List StoreWrite,
      (∀ w ∈ ws, w.Addressed s ∧ ∀ t ∈ w.update.types, t.Normal) →
      ∃ t, StoreWrite.runAll ws s = .ok () t ∧
        (∀ l, t.slot? l = Ty.joined ((s.slot? l).toList ++ ws.filterMap (·.typeAt l))) ∧
        (∀ k l, t.HasLink k l ↔ s.HasLink k l ∨ ∃ w ∈ ws, w.link? = some (k, l)) ∧
        t.bare = s.bare ∧
        ∀ ws', (∀ w, w ∈ ws' ↔ w ∈ ws) →
          ∃ t', StoreWrite.runAll ws' s = .ok () t' ∧ t'.uncounted = t.uncounted := by
  refine ⟨fun options globals ps s hgiven hreached => ⟨hreached.normal hgiven, hreached.ordered⟩,
    fun s hnormal hordered ws hfit => ?_⟩
  obtain ⟨t, hran, hdid⟩ := StoreWrite.runAll_does fun w hmem => (hfit w hmem).1
  refine ⟨t, hran, hdid.slots, hdid.links, hdid.bare, fun ws' hsame => ?_⟩
  obtain ⟨t', hran', hdid'⟩ := StoreWrite.runAll_does fun w hmem => (hfit w ((hsame w).mp hmem)).1
  -- Both states hold joins of the same types and have the same links.
  refine ⟨t', hran', Run.uncounted_ext (hdid'.ordered hordered) (hdid.ordered hordered)
    (hdid'.bare.trans hdid.bare.symm) (fun l => ?_) fun k l => ?_⟩
  · rw [hdid'.slots, hdid.slots]
    refine Ty.joined_congr (fun u hmem => ?_) fun u => ?_
    · rcases List.mem_append.mp hmem with hheld | hbrought
      · exact hnormal u (Run.mem_types_of_slot? (Option.mem_toList.mp hheld))
      · obtain ⟨w, hlisted, hbrings⟩ := List.mem_filterMap.mp hbrought
        exact (hfit w hlisted).2 u (StoreWrite.mem_types_of_typeAt hbrings)
    · simp only [List.mem_append, List.mem_filterMap, hsame]
  · rw [hdid'.links, hdid.links]
    simp only [hsame]

/-- A state with one object and two constructors. -/
def twoClasses : Run :=
  { Run.start ⟨2, 3, false, false⟩ [("x", .null)] with
    heap := ⟨#[⟨⟨4, 0, some 0⟩, []⟩], Index.empty.note ⟨4, 0, some 0⟩ 0, 1⟩
    protos := ⟨#[⟨some "Base", none, [], [], [("m", .undefined)], [], true⟩,
      ⟨some "Derived", none, [], [], [], [], false⟩], .empty, 3⟩ }

/-- Writes that meet in some places. -/
def meetingWrites : List StoreWrite :=
  [.bind 0 "x" .number, .field 0 "f" .string, .method 0 "m" .number, .parent 1 0, .share 1 0,
    .ownField 1 "f" .boolean, .record 7 .string, .record 7 .number, .field 0 "f" .null]

theorem store_writes_commute_meeting :
    ∃ t t', StoreWrite.runAll meetingWrites twoClasses = .ok () t ∧
      StoreWrite.runAll (meetingWrites.reverse ++ meetingWrites) twoClasses = .ok () t' ∧
      t'.uncounted = t.uncounted ∧
      t.slot? (.binding 0 "x") = some (.join .null .number) ∧
      t.slot? (.field 0 "f") = some (.join .null .string) ∧
      t.HasLink 1 (.share 0) := by
  obtain ⟨t, hran, hslots, hlinks, -, hanyOrder⟩ := store_writes_commute.2 twoClasses (by decide)
    (by decide) meetingWrites (by decide)
  obtain ⟨t', hran', hsame⟩ := hanyOrder (meetingWrites.reverse ++ meetingWrites) fun w => by
    rw [List.mem_append, List.mem_reverse, or_self]
  exact ⟨t, t', hran, hran', hsame, (hslots _).trans (by decide), (hslots _).trans (by decide),
    (hlinks 1 (.share 0)).mpr (.inr ⟨.share 1 0, by simp [meetingWrites], rfl⟩)⟩

end TypeFlow
