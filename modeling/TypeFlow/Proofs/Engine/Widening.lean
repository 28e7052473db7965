import Mathlib
import TypeFlow.Proofs.Engine.Programs
import TypeFlow.Proofs.Types.Lattice

/-!
# Runs only widen

A walk never forgets: every type that is stored stays stored under a wider type, no link between
constructors is lost, and no entry of a table is.  The version of the state counts the changes of
bindings, cells and constructors, and counts nothing else.

## Main Definitions

* `Slot`, `Run.slot?` - the places in a state that hold types
* `Run.Widens` - a state that has everything that another one has, with wider types
* `Run.SameStore` - two states with the same bindings, cells and constructors
* `Run.Changed` - two states that differ in one of these
* `Run.Counts` - the version tells whether two states differ
* `Run.Normal` - the states that hold normal types only

## Main Statements

* `Update.widens` - an update only widens
* `Update.counts` - an update is counted exactly when it changes what is counted
* `widens_of_steps` - both, for updates one after the other
* `walks_only_widen` - both, for the operations of a walk

## Design Notes

A change that was counted is never undone: a type that grew would have to shrink again, and the
order of normal types is antisymmetric.  So a version that grew tells of a difference.
-/

namespace TypeFlow

/-! ### Wider types -/

/-- A type that is at least as wide, and as normal, as another one. -/
def Ty.Wider (a b : Ty) : Prop :=
  a.Normal → b.Normal ∧ a.Le b

namespace Ty.Wider

variable {a b c : Ty}

theorem refl (a : Ty) : a.Wider a :=
  fun hnormal => ⟨hnormal, hnormal.le_refl⟩

/-- A wider type of a wider type is wider. -/
theorem trans (h : a.Wider b) (h' : b.Wider c) : a.Wider c := by
  intro hnormal
  obtain ⟨hnormalB, hab⟩ := h hnormal
  obtain ⟨hnormalC, hbc⟩ := h' hnormalB
  exact ⟨hnormalC, hab.trans hbc⟩

/-- A join with a normal type is wider, and normal when the type was. -/
theorem join (hnormal : b.Normal) : a.Wider (a.join b) := by
  intro hnormalA
  have hlub := hnormalA.isLub_join hnormal
  exact ⟨hlub.normal, hlub.left⟩

/-- A type that grew does not come back. -/
theorem squeeze (hnormal : a.Normal) (h : a.Wider b) (h' : b.Wider a) : a = b := by
  obtain ⟨hnormalB, hab⟩ := h hnormal
  exact hab.antisymm hnormal hnormalB (h' hnormalB).2

end Ty.Wider

/-- Every type of one map is under the same key of the other, and wider there. -/
def OrdMap.Widens {κ : Type} [DecidableEq κ] (m n : OrdMap κ Ty) : Prop :=
  ∀ k a, OrdMap.get? m k = some a → ∃ b, OrdMap.get? n k = some b ∧ a.Wider b

theorem OrdMap.Widens.refl {κ : Type} [DecidableEq κ] (m : OrdMap κ Ty) : OrdMap.Widens m m :=
  fun _ a hfound => ⟨a, hfound, .refl a⟩

/-- A slot that is widened has a wider type, and the others are as they were. -/
theorem Fields.widens_widen (m : Fields) (name : String) {t : Ty} (hnormal : t.Normal) :
    OrdMap.Widens m (Fields.widen m name t) := by
  intro k a hfound
  by_cases hsame : k = name
  · subst hsame
    refine ⟨a.join t, ?_, .join hnormal⟩
    rw [Fields.widen, OrdMap.get?_insert_self, Fields.widened, hfound]
  · exact ⟨a, by rwa [Fields.widen, OrdMap.get?_insert_of_ne m _ hsame], .refl a⟩

/-- A type that is recorded once more is joined with the one from before. -/
theorem widens_upsert (m : OrdMap NodeId Ty) (node : NodeId) {t : Ty} (hnormal : t.Normal) :
    OrdMap.Widens m (OrdMap.upsert m node (fun old => old.join t) t) := by
  intro k a hfound
  by_cases hsame : k = node
  · subst hsame
    refine ⟨a.join t, ?_, .join hnormal⟩
    rw [OrdMap.get?_upsert_self, hfound]
    rfl
  · exact ⟨a, by rwa [OrdMap.get?_upsert_of_ne m _ _ hsame], .refl a⟩

/-! ### Writes to the tables -/

/-- What can be read from an entry of a table can be read after the table has grown. -/
theorem Grows.read {α β : Type} {R : α → α → Prop} {P : β → β → Prop} {g : α → Option β}
    {xs ys : Array α} (h : Grows R xs ys)
    (hreads : ∀ x y, R x y → ∀ b, g x = some b → ∃ c, g y = some c ∧ P b c) {i : Nat} {b : β}
    (hfound : xs[i]?.bind g = some b) : ∃ c, ys[i]?.bind g = some c ∧ P b c := by
  obtain ⟨x, hget, heq⟩ := Option.bind_eq_some_iff.mp hfound
  obtain ⟨y, hget', hrelated⟩ := h i x hget
  obtain ⟨c, heq', hwider⟩ := hreads x y hrelated b heq
  exact ⟨c, by rw [hget']; exact heq', hwider⟩

/-- A scope that has all bindings of another one, with wider types. -/
def Scope.Widens (a b : Scope) : Prop :=
  OrdMap.Widens a.bindings b.bindings

theorem Scope.Widens.refl (c : Scope) : c.Widens c :=
  OrdMap.Widens.refl c.bindings

/-- A write to the environment widens the bindings of scopes. -/
theorem Env.Write.widens (w : Env.Write) (e : Env) (hnormal : ∀ t ∈ w.types, t.Normal) :
    Grows Scope.Widens e.scopes (w.apply e).scopes := by
  have hrefl := Scope.Widens.refl
  cases w with
  | bind id name t =>
    rcases Env.after_bind e id name t with hsame | ⟨c, hfound, -, heq⟩
    · rw [Env.Write.apply, hsame]
      exact Grows.refl hrefl _
    · rw [Env.Write.apply, heq]
      refine Grows.modify hrefl fun x hfoundX => ?_
      cases hfound.symm.trans hfoundX
      exact Fields.widens_widen _ name (hnormal t (List.mem_singleton_self t))
  | enter key parent owner =>
    rcases Env.after_enter e key parent owner with hsame | ⟨-, heq⟩
    · rw [Env.Write.apply, hsame]
      exact Grows.refl hrefl _
    · rw [Env.Write.apply, heq]
      exact Grows.push hrefl _ _

/-- A closure whose declared signature is wider than that of another one. -/
structure Closure.Widens (a b : Closure) : Prop where
  params : ∀ (i : Nat) p, a.params[i]? = some p → ∃ q, b.params[i]? = some q ∧ p.Wider q
  ret : a.ret.Wider b.ret

theorem Closure.Widens.refl (c : Closure) : c.Widens c :=
  ⟨fun _ p hfound => ⟨p, hfound, .refl p⟩, .refl _⟩

/-- Arguments are joined to the parameters place by place; a missing one counts as `undefined`. -/
theorem Closures.getElem?_joinArgs (ps args : List Ty) (i : Nat) :
    (joinArgs ps args)[i]? = ps[i]?.map fun p => p.join (args[i]?.getD .undefined) := by
  fun_induction joinArgs ps args generalizing i with
  | case1 => rfl
  | case2 p ps ih =>
    cases i with
    | zero => rfl
    | succ i => simpa using ih i
  | case3 p ps a as ih =>
    cases i with
    | zero => rfl
    | succ i => simpa using ih i

/-- A write to the table of closures widens their signatures. -/
theorem Closures.Write.widens (w : Closures.Write) (cs : Closures)
    (hnormal : ∀ t ∈ w.types, t.Normal) : Grows Closure.Widens cs.table (w.apply cs).table := by
  have hrefl := Closure.Widens.refl
  cases w with
  | capture scope f =>
    rcases Closures.after_captureId cs scope f with hsame | ⟨-, heq⟩
    · rw [Closures.Write.apply, hsame]
      exact Grows.refl hrefl _
    · rw [Closures.Write.apply, heq]
      exact Grows.push hrefl _ _
  | record id args ret =>
    obtain ⟨-, hnormal⟩ := List.forall_mem_cons.mp hnormal
    obtain ⟨hnormalR, hnormalA⟩ := List.forall_mem_cons.mp hnormal
    rcases Closures.after_recordCall cs id args ret with hsame | heq
    · rw [Closures.Write.apply, hsame]
      exact Grows.refl hrefl _
    · rw [Closures.Write.apply, heq]
      refine Grows.modify hrefl fun c _ => ⟨fun i p hfound => ?_, .join hnormalR⟩
      -- a missing argument is joined in as `undefined`
      refine ⟨p.join (args[i]?.getD .undefined), ?_, .join ?_⟩
      · dsimp only
        rw [Closures.getElem?_joinArgs, hfound]
        rfl
      · cases hgiven : args[i]? with
        | none => trivial
        | some a => exact hnormalA a (List.mem_of_getElem? hgiven)
  | mark id =>
    rcases Closures.after_markSelfReferential cs id with hsame | heq
    · rw [Closures.Write.apply, hsame]
      exact Grows.refl hrefl _
    · rw [Closures.Write.apply, heq]
      exact Grows.modify hrefl fun c _ => ⟨(hrefl c).params, (hrefl c).ret⟩

/-- A cell that has all fields of another one, with wider types. -/
def Cell.Widens (a b : Cell) : Prop :=
  OrdMap.Widens a.fields b.fields

theorem Cell.Widens.refl (c : Cell) : c.Widens c :=
  OrdMap.Widens.refl c.fields

/-- A write to the heap widens the fields of cells. -/
theorem Heap.Write.widens (w : Heap.Write) (h : Heap) (hnormal : ∀ t ∈ w.types, t.Normal) :
    Grows Cell.Widens h.cells (w.apply h).cells := by
  have hrefl := Cell.Widens.refl
  cases w with
  | alloc site =>
    rcases Heap.after_cellFor h site with hsame | ⟨-, heq⟩
    · rw [Heap.Write.apply, hsame]
      exact Grows.refl hrefl _
    · rw [Heap.Write.apply, heq]
      exact Grows.push hrefl _ _
  | field id name t =>
    rcases Heap.after_writeCell h id name t with hsame | ⟨c, -, -, heq⟩
    · rw [Heap.Write.apply, hsame]
      exact Grows.refl hrefl _
    · rw [Heap.Write.apply, heq]
      refine Grows.modify hrefl fun c _ => ?_
      exact Fields.widens_widen c.fields name (hnormal t (List.mem_singleton_self t))

/-- A constructor that has all methods, fields and links of another one, with wider types. -/
structure Ctor.Widens (a b : Ctor) : Prop where
  methods : OrdMap.Widens a.methods b.methods
  ownFields : OrdMap.Widens a.ownFields b.ownFields
  links : Protos.links a ⊆ Protos.links b

theorem Ctor.Widens.refl (c : Ctor) : c.Widens c :=
  ⟨OrdMap.Widens.refl _, OrdMap.Widens.refl _, List.Subset.refl _⟩

/-- A constructor that is altered widens if what is done to it widens it. -/
theorem Protos.widens_alter (g : Protos) {id : CtorId} {changed : Ctor → Bool} {f : Ctor → Ctor}
    (halters : ∀ c, Ctor.Widens c (f c)) :
    Grows Ctor.Widens g.ctors (after (Protos.alter id changed f) g).ctors := by
  rcases Protos.after_alter g id changed f with hsame | ⟨c, -, -, heq⟩
  · rw [hsame]
    exact Grows.refl Ctor.Widens.refl _
  · rw [heq]
    exact Grows.modify Ctor.Widens.refl fun c _ => halters c

/-- A write to the prototype graph widens methods and own fields, and loses no link. -/
theorem Protos.Write.widens (w : Protos.Write) (g : Protos) (hnormal : ∀ t ∈ w.types, t.Normal) :
    Grows Ctor.Widens g.ctors (w.apply g).ctors := by
  have hrefl := Ctor.Widens.refl
  cases w with
  | ctor closure name =>
    rcases Protos.after_ctorFor g closure name with hsame | ⟨-, heq⟩
    · rw [Protos.Write.apply, hsame]
      exact Grows.refl hrefl _
    · rw [Protos.Write.apply, heq]
      exact Grows.push hrefl _ _
  | method id name t =>
    have hwider := fun m => Fields.widens_widen m name (hnormal t (List.mem_singleton_self t))
    exact Protos.widens_alter g fun c => ⟨hwider _, (hrefl c).ownFields, (hrefl c).links⟩
  | ownField id name t =>
    have hwider := fun m => Fields.widens_widen m name (hnormal t (List.mem_singleton_self t))
    exact Protos.widens_alter g fun c => ⟨(hrefl c).methods, hwider _, (hrefl c).links⟩
  | parent id p =>
    refine Protos.widens_alter g fun c => ⟨(hrefl c).methods, (hrefl c).ownFields, fun l hmem => ?_⟩
    simp only [Protos.links, List.mem_append, List.mem_map, OrdSet.mem_insert] at hmem ⊢
    grind
  | share id other =>
    rw [Protos.Write.apply]
    rcases Protos.after_share g id other with hsame | heq
    · rw [hsame]
      exact Grows.refl hrefl _
    · rw [heq]
      refine Protos.widens_alter g
        fun c => ⟨(hrefl c).methods, (hrefl c).ownFields, fun l hmem => ?_⟩
      simp only [Protos.links, List.mem_append, List.mem_map, OrdSet.mem_insert] at hmem ⊢
      grind
  | analysed id =>
    rcases Protos.after_markAnalysed g id with hsame | heq
    · rw [Protos.Write.apply, hsame]
      exact Grows.refl hrefl _
    · rw [Protos.Write.apply, heq]
      exact Grows.modify hrefl fun c _ => ⟨(hrefl c).methods, (hrefl c).ownFields, (hrefl c).links⟩

/-! ### The places that hold types -/

/-- A place in a state that holds a type. -/
inductive Slot where
  | binding (scope : ScopeId) (name : String)
  | field (cell : CellId) (name : String)
  | method (ctor : CtorId) (name : String)
  | ownField (ctor : CtorId) (name : String)
  | param (closure : ClosureId) (position : Nat)
  | ret (closure : ClosureId)
  | node (id : NodeId)

/-- The type in a place, if there is one. -/
def Run.slot? (s : Run) : Slot → Option Ty
  | .binding scope name => s.env.scopes[scope]?.bind fun c => OrdMap.get? c.bindings name
  | .field cell name => s.heap.cells[cell]?.bind fun c => OrdMap.get? c.fields name
  | .method ctor name => s.protos.ctors[ctor]?.bind fun c => OrdMap.get? c.methods name
  | .ownField ctor name => s.protos.ctors[ctor]?.bind fun c => OrdMap.get? c.ownFields name
  | .param closure position => s.closures.table[closure]?.bind fun c => c.params[position]?
  | .ret closure => s.closures.table[closure]?.bind fun c => some c.ret
  | .node id => OrdMap.get? s.nodeTypes id

/-- A link from a constructor to another one. -/
def Run.HasLink (s : Run) (ctor : CtorId) (l : Protos.Link) : Prop :=
  ∃ c, s.protos.ctors[ctor]? = some c ∧ l ∈ Protos.links c

/-- What is in a slot is one of the types of the state. -/
theorem Run.mem_types_of_slot? {s : Run} {l : Slot} {a : Ty} (h : s.slot? l = some a) :
    a ∈ s.types := by
  cases l with
  | binding id name =>
    obtain ⟨c, hfound, heq⟩ := Option.bind_eq_some_iff.mp h
    refine s.scope_types (Entry.types_subset hfound ?_)
    exact Fields.mem_types (OrdMap.mem_of_get? heq)
  | field id name =>
    obtain ⟨c, hfound, heq⟩ := Option.bind_eq_some_iff.mp h
    refine s.cell_types (Entry.types_subset hfound ?_)
    exact Fields.mem_types (OrdMap.mem_of_get? heq)
  | method id name =>
    obtain ⟨c, hfound, heq⟩ := Option.bind_eq_some_iff.mp h
    refine s.ctor_types (Entry.types_subset hfound (List.mem_append_left _ ?_))
    exact Fields.mem_types (OrdMap.mem_of_get? heq)
  | ownField id name =>
    obtain ⟨c, hfound, heq⟩ := Option.bind_eq_some_iff.mp h
    refine s.ctor_types (Entry.types_subset hfound (List.mem_append_right _ ?_))
    exact Fields.mem_types (OrdMap.mem_of_get? heq)
  | param id i =>
    obtain ⟨c, hfound, heq⟩ := Option.bind_eq_some_iff.mp h
    refine s.closure_types (Entry.types_subset hfound ?_)
    exact List.mem_cons_of_mem _ (List.mem_of_getElem? heq)
  | ret id =>
    obtain ⟨c, hfound, heq⟩ := Option.bind_eq_some_iff.mp h
    cases heq
    exact s.closure_types (Entry.types_subset hfound List.mem_cons_self)
  | node id => exact s.node_types (List.mem_map_of_mem (OrdMap.mem_of_get? h))

/-- Everything that one state has, the other one has, with wider types. -/
structure Run.Widens (s t : Run) : Prop where
  slots : ∀ l a, s.slot? l = some a → ∃ b, t.slot? l = some b ∧ a.Wider b
  links : ∀ k l, s.HasLink k l → t.HasLink k l
  tables : s.Extends t

namespace Run.Widens

variable {s t r : Run}

theorem refl (s : Run) : s.Widens s :=
  ⟨fun _ a hfound => ⟨a, hfound, .refl a⟩, fun _ _ h => h, .refl s⟩

/-- A state that is wider than a wider one has everything that the first one had. -/
theorem trans (h : s.Widens t) (h' : t.Widens r) : s.Widens r where
  slots l a hfound := by
    obtain ⟨b, hfoundB, hab⟩ := h.slots l a hfound
    obtain ⟨c, hfoundC, hbc⟩ := h'.slots l b hfoundB
    exact ⟨c, hfoundC, hab.trans hbc⟩
  links k l hhas := h'.links k l (h.links k l hhas)
  tables := h.tables.trans h'.tables

/-- States widen when their tables and their recorded types do. -/
theorem of_tables (hscopes : Grows Scope.Widens s.env.scopes t.env.scopes)
    (hclosures : Grows Closure.Widens s.closures.table t.closures.table)
    (hcells : Grows Cell.Widens s.heap.cells t.heap.cells)
    (hctors : Grows Ctor.Widens s.protos.ctors t.protos.ctors)
    (hnodes : OrdMap.Widens s.nodeTypes t.nodeTypes) (htables : s.Extends t) : s.Widens t where
  slots l a hfound := by
    cases l with
    | binding id name => exact hscopes.read (fun _ _ h => h name) hfound
    | field id name => exact hcells.read (fun _ _ h => h name) hfound
    | method id name => exact hctors.read (fun _ _ h => h.methods name) hfound
    | ownField id name => exact hctors.read (fun _ _ h => h.ownFields name) hfound
    | param id i => exact hclosures.read (fun _ _ h => h.params i) hfound
    | ret id =>
      refine hclosures.read (fun c d h r heq => ?_) hfound
      cases heq
      exact ⟨d.ret, rfl, h.ret⟩
    | node id => exact hnodes id a hfound
  links k l hhas := by
    obtain ⟨c, hfound, hlinked⟩ := hhas
    obtain ⟨d, hfound', hwider⟩ := hctors k c hfound
    exact ⟨d, hfound', hwider.links hlinked⟩
  tables := htables

/-- What is the same at both ends of a run was the same all along. -/
theorem slot_between (h : s.Widens t) (h' : t.Widens r) (hnormal : ∀ a ∈ s.types, a.Normal)
    {l : Slot} (hsame : s.slot? l = r.slot? l) : s.slot? l = t.slot? l := by
  cases hslot : s.slot? l with
  | none =>
    cases hbetween : t.slot? l with
    | none => rfl
    | some b =>
      obtain ⟨c, hlater, -⟩ := h'.slots l b hbetween
      cases hslot.symm.trans (hsame.trans hlater)
  | some a =>
    obtain ⟨b, hbetween, hab⟩ := h.slots l a hslot
    obtain ⟨c, hlater, hbc⟩ := h'.slots l b hbetween
    cases hslot.symm.trans (hsame.trans hlater)
    rw [hbetween, hab.squeeze (hnormal a (Run.mem_types_of_slot? hslot)) hbc]

end Run.Widens

/-- An update that brings normal types only widens. -/
theorem Update.widens (u : Update) (s : Run) (hnormal : ∀ t ∈ u.types, t.Normal) :
    s.Widens (u.apply s) := by
  refine .of_tables ?_ ?_ ?_ ?_ ?_ (u.keeps s)
  · cases u with
    | env w => exact w.widens s.env hnormal
    | _ => exact Grows.refl Scope.Widens.refl _
  · cases u with
    | closures w => exact w.widens s.closures hnormal
    | _ => exact Grows.refl Closure.Widens.refl _
  · cases u with
    | heap w => exact w.widens s.heap hnormal
    | _ => exact Grows.refl Cell.Widens.refl _
  · cases u with
    | protos w => exact w.widens s.protos hnormal
    | _ => exact Grows.refl Ctor.Widens.refl _
  · cases u with
    | record node t => exact widens_upsert _ node (hnormal t (List.mem_singleton_self t))
    | _ => exact OrdMap.Widens.refl _

/-! ### What the version counts -/

/-- The bindings of a scope; a scope without an entry has none. -/
def Run.bindings (s : Run) (id : ScopeId) : Fields :=
  (s.env.scopes[id]?.map (·.bindings)).getD []

/-- What is known of a constructor. -/
def Ctor.content (c : Ctor) : Fields × Fields × OrdSet CtorId × OrdSet CtorId :=
  (c.methods, c.ownFields, c.parents, c.shares)

/-- Two states with the same bindings, the same cells and the same constructors. -/
structure Run.SameStore (s t : Run) : Prop where
  bindings : ∀ id, s.bindings id = t.bindings id
  cells : s.heap.cells = t.heap.cells
  ctors : s.protos.ctors.map Ctor.content = t.protos.ctors.map Ctor.content

/-- The places whose changes are counted. -/
def Slot.isCounted : Slot → Bool
  | binding _ _ => true
  | field _ _ => true
  | method _ _ => true
  | ownField _ _ => true
  | _ => false

/-- A difference between two states that the version tells. -/
inductive Run.Changed (s t : Run) : Prop where
  | slot {l : Slot} (counted : l.isCounted = true) (differs : s.slot? l ≠ t.slot? l)
  | link {k : CtorId} {l : Protos.Link} (new : t.HasLink k l) (old : ¬ s.HasLink k l)
  | cell (more : s.heap.cells.size < t.heap.cells.size)
  | ctor (more : s.protos.ctors.size < t.protos.ctors.size)

/-- Nothing that is counted changed, and the version stayed; or something did, and it grew. -/
def Run.Counts (s t : Run) : Prop :=
  (s.version = t.version ∧ s.SameStore t) ∨ (s.version < t.version ∧ s.Changed t)

namespace Run.SameStore

variable {s t r : Run}

theorem refl (s : Run) : s.SameStore s :=
  ⟨fun _ => rfl, rfl, rfl⟩

theorem trans (h : s.SameStore t) (h' : t.SameStore r) : s.SameStore r :=
  ⟨fun id => (h.bindings id).trans (h'.bindings id), h.cells.trans h'.cells,
    h.ctors.trans h'.ctors⟩

/-- What is read from the content of a constructor is the same in both states. -/
theorem content (h : s.SameStore t) (k : CtorId) :
    s.protos.ctors[k]?.map Ctor.content = t.protos.ctors[k]?.map Ctor.content := by
  rw [← Array.getElem?_map, h.ctors, Array.getElem?_map]

/-- States with the same store have the same types in the slots that are counted. -/
theorem slot (h : s.SameStore t) {l : Slot} (hcounted : l.isCounted = true) :
    s.slot? l = t.slot? l := by
  cases l with
  | binding id name =>
    have hread (u : Run) : u.slot? (.binding id name) = OrdMap.get? (u.bindings id) name := by
      rw [Run.slot?, Run.bindings]
      cases u.env.scopes[id]? <;> rfl
    rw [hread, hread, h.bindings]
  | field id name => rw [Run.slot?, Run.slot?, h.cells]
  | method id name =>
    have hread (u : Run) : u.slot? (.method id name) =
        (u.protos.ctors[id]?.map Ctor.content).bind (OrdMap.get? ·.1 name) := by
      rw [Run.slot?]
      cases u.protos.ctors[id]? <;> rfl
    rw [hread, hread, h.content]
  | ownField id name =>
    have hread (u : Run) : u.slot? (.ownField id name) =
        (u.protos.ctors[id]?.map Ctor.content).bind (OrdMap.get? ·.2.1 name) := by
      rw [Run.slot?]
      cases u.protos.ctors[id]? <;> rfl
    rw [hread, hread, h.content]
  | param id i => cases hcounted
  | ret id => cases hcounted
  | node id => cases hcounted

/-- States with the same store have the same links. -/
theorem link (h : s.SameStore t) {k : CtorId} {l : Protos.Link} (hhas : t.HasLink k l) :
    s.HasLink k l := by
  obtain ⟨d, hfound, hlinked⟩ := hhas
  have hsame := h.content k
  rw [hfound] at hsame
  obtain ⟨c, hfound', heq⟩ := Option.map_eq_some_iff.mp hsame
  have hlinks : Protos.links c = Protos.links d := by
    simp only [Ctor.content, Prod.mk.injEq] at heq
    rw [Protos.links, Protos.links, heq.2.2.1, heq.2.2.2]
  exact ⟨c, hfound', hlinks ▸ hlinked⟩

end Run.SameStore

namespace Run.Changed

variable {s t r : Run}

/-- A difference that the version tells is a difference of the stores. -/
theorem not_sameStore (h : s.Changed t) : ¬ s.SameStore t := by
  intro hsame
  cases h with
  | slot hcounted hdiffers => exact hdiffers (hsame.slot hcounted)
  | link hnew hprev => exact hprev (hsame.link hnew)
  | cell hmore => exact hmore.ne (congrArg Array.size hsame.cells)
  | ctor hmore =>
    have hsize := congrArg Array.size hsame.ctors
    rw [Array.size_map, Array.size_map] at hsize
    exact hmore.ne hsize

/-- A change is not undone later. -/
theorem later (h : s.Changed t) (hnormal : ∀ a ∈ s.types, a.Normal) (hst : s.Widens t)
    (htr : t.Widens r) : s.Changed r := by
  cases h with
  | slot hcounted hdiffers =>
    exact .slot hcounted fun hsame => hdiffers (hst.slot_between htr hnormal hsame)
  | link hnew hprev => exact .link (htr.links _ _ hnew) hprev
  | cell hmore => exact .cell (hmore.trans_le htr.tables.cells.size_le)
  | ctor hmore => exact .ctor (hmore.trans_le htr.tables.ctors.size_le)

/-- A change is still seen from an earlier state. -/
theorem earlier (h : t.Changed r) (hnormal : ∀ a ∈ s.types, a.Normal) (hst : s.Widens t)
    (htr : t.Widens r) : s.Changed r := by
  cases h with
  | slot hcounted hdiffers =>
    exact .slot hcounted fun hsame =>
      hdiffers ((hst.slot_between htr hnormal hsame).symm.trans hsame)
  | link hnew hprev => exact .link hnew fun hhas => hprev (hst.links _ _ hhas)
  | cell hmore => exact .cell (hst.tables.cells.size_le.trans_lt hmore)
  | ctor hmore => exact .ctor (hst.tables.ctors.size_le.trans_lt hmore)

end Run.Changed

namespace Run.Counts

variable {s t r : Run}

theorem refl (s : Run) : s.Counts s :=
  Or.inl ⟨rfl, .refl s⟩

/-- The version counts two changes one after the other.  When it grew in between, the stores differ
at the end too: a slot that grew cannot have shrunk, and a link is not lost. -/
theorem trans (h : s.Counts t) (h' : t.Counts r) (hnormal : ∀ a ∈ s.types, a.Normal)
    (hst : s.Widens t) (htr : t.Widens r) : s.Counts r := by
  rcases h with ⟨hversion, hsame⟩ | ⟨hversion, hchanged⟩
  · rcases h' with ⟨hversion', hsame'⟩ | ⟨hversion', hchanged⟩
    · exact Or.inl ⟨hversion.trans hversion', hsame.trans hsame'⟩
    · exact Or.inr ⟨hversion ▸ hversion', hchanged.earlier hnormal hst htr⟩
  · refine Or.inr ⟨?_, hchanged.later hnormal hst htr⟩
    rcases h' with ⟨hversion', -⟩ | ⟨hversion', -⟩
    · exact hversion' ▸ hversion
    · exact hversion.trans hversion'

/-- The version never falls. -/
theorem version_le (h : s.Counts t) : s.version ≤ t.version := by
  rcases h with ⟨hversion, -⟩ | ⟨hversion, -⟩
  · exact hversion.le
  · exact hversion.le

/-- The version stays exactly when the store does. -/
theorem version_eq_iff (h : s.Counts t) : s.version = t.version ↔ s.SameStore t := by
  rcases h with ⟨hversion, hsame⟩ | ⟨hversion, hchanged⟩
  · exact ⟨fun _ => hsame, fun _ => hversion⟩
  · exact ⟨fun heq => absurd heq hversion.ne, fun hsame => absurd hsame hchanged.not_sameStore⟩

end Run.Counts

/-! ### Updates are counted -/

/-- A slot that is reported to widen holds another type afterwards. -/
theorem Fields.get?_widen_ne {m : Fields} {name : String} {t : Ty}
    (h : Fields.widens m name t = true) :
    OrdMap.get? m name ≠ OrdMap.get? (Fields.widen m name t) name := by
  rw [Fields.widen, OrdMap.get?_insert_self]
  exact of_decide_eq_true h

/-- A write to the environment is counted exactly when it changes a binding. -/
theorem Env.Write.counts (w : Env.Write) (s : Run) : s.Counts ((Update.env w).apply s) := by
  rw [Update.apply]
  cases w with
  | bind id name t =>
    rcases Env.after_bind s.env id name t with hsame | ⟨c, hfound, hwidens, heq⟩
    · rw [Env.Write.apply, hsame]
      exact .refl s
    · rw [Env.Write.apply, heq]
      refine Or.inr ⟨?_, .slot (l := .binding id name) rfl ?_⟩
      · simp only [Run.version, Env.setBindings]
        omega
      · simpa [Run.slot?, Env.setBindings, Array.getElem?_modify, hfound]
          using Fields.get?_widen_ne hwidens
  | enter key parent owner =>
    rcases Env.after_enter s.env key parent owner with hsame | ⟨-, heq⟩
    · rw [Env.Write.apply, hsame]
      exact .refl s
    · rw [Env.Write.apply, heq]
      -- A new scope binds nothing, as a missing one does.
      refine Or.inl ⟨rfl, fun id => ?_, rfl, rfl⟩
      simp only [Run.bindings, Array.getElem?_push]
      split
      · next hlast =>
        rw [hlast, Array.getElem?_eq_none (Nat.le_refl _)]
        rfl
      · rfl

/-- A write to the heap is counted exactly when it adds a cell or changes a field. -/
theorem Heap.Write.counts (w : Heap.Write) (s : Run) : s.Counts ((Update.heap w).apply s) := by
  rw [Update.apply]
  cases w with
  | alloc site =>
    rcases Heap.after_cellFor s.heap site with hsame | ⟨-, heq⟩
    · rw [Heap.Write.apply, hsame]
      exact .refl s
    · rw [Heap.Write.apply, heq]
      refine Or.inr ⟨?_, .cell ?_⟩
      · simp only [Run.version]
        omega
      · simp
  | field id name t =>
    rcases Heap.after_writeCell s.heap id name t with hsame | ⟨c, hfound, hwidens, heq⟩
    · rw [Heap.Write.apply, hsame]
      exact .refl s
    · rw [Heap.Write.apply, heq]
      refine Or.inr ⟨?_, .slot (l := .field id name) rfl ?_⟩
      · simp only [Run.version]
        omega
      · simpa [Run.slot?, Array.getElem?_modify, hfound] using Fields.get?_widen_ne hwidens

/-- Altering a constructor is counted when what is altered differs. -/
theorem Protos.counts_alter (s : Run) {id : CtorId} {changed : Ctor → Bool} {f : Ctor → Ctor}
    (hdiffers : ∀ c, s.protos.ctors[id]? = some c → changed c = true → ∀ g : Protos,
      g.ctors[id]? = some (f c) → s.Changed { s with protos := g }) :
    s.Counts { s with protos := after (Protos.alter id changed f) s.protos } := by
  rcases Protos.after_alter s.protos id changed f with hsame | ⟨c, hfound, hchange, heq⟩
  · rw [hsame]
    exact .refl s
  · rw [heq]
    refine Or.inr ⟨?_, hdiffers c hfound hchange _ ?_⟩
    · simp only [Run.version]
      omega
    · simp [Array.getElem?_modify, hfound]

/-- A new link is a difference that the version tells. -/
theorem Protos.changed_of_link {s : Run} {g : Protos} {id : CtorId} {c d : Ctor}
    (hfound : s.protos.ctors[id]? = some c) (hfound' : g.ctors[id]? = some d) {l : Protos.Link}
    (hnew : l ∈ Protos.links d) (hprev : l ∉ Protos.links c) :
    s.Changed { s with protos := g } := by
  refine .link ⟨d, hfound', hnew⟩ fun ⟨c', hget, hlinked⟩ => hprev ?_
  cases hfound.symm.trans hget
  exact hlinked

/-- A write to the prototype graph is counted exactly when it changes what is known of a
constructor. -/
theorem Protos.Write.counts (w : Protos.Write) (s : Run) :
    s.Counts ((Update.protos w).apply s) := by
  rw [Update.apply]
  cases w with
  | ctor closure name =>
    rcases Protos.after_ctorFor s.protos closure name with hsame | ⟨-, heq⟩
    · rw [Protos.Write.apply, hsame]
      exact .refl s
    · rw [Protos.Write.apply, heq]
      refine Or.inr ⟨?_, .ctor ?_⟩
      · simp only [Run.version]
        omega
      · simp
  | method id name t =>
    refine Protos.counts_alter s fun c hfound hwidens g hfound' => ?_
    refine .slot (l := .method id name) rfl ?_
    simpa [Run.slot?, hfound, hfound'] using Fields.get?_widen_ne hwidens
  | ownField id name t =>
    refine Protos.counts_alter s fun c hfound hwidens g hfound' => ?_
    refine .slot (l := .ownField id name) rfl ?_
    simpa [Run.slot?, hfound, hfound'] using Fields.get?_widen_ne hwidens
  | parent id p =>
    refine Protos.counts_alter s fun c hfound hchange g hfound' => ?_
    refine Protos.changed_of_link (l := .parent p) hfound hfound' ?_ ?_
    · simp [Protos.links]
    · simpa [Protos.links] using hchange
  | share id other =>
    rw [Protos.Write.apply]
    rcases Protos.after_share s.protos id other with hsame | heq
    · rw [hsame]
      exact .refl s
    · rw [heq]
      refine Protos.counts_alter s fun c hfound hchange g hfound' => ?_
      refine Protos.changed_of_link (l := .share other) hfound hfound' ?_ ?_
      · simp [Protos.links]
      · simpa [Protos.links] using hchange
  | analysed id =>
    rcases Protos.after_markAnalysed s.protos id with hsame | heq
    · rw [Protos.Write.apply, hsame]
      exact .refl s
    · rw [Protos.Write.apply, heq]
      -- that a constructor has run is no change that is counted
      refine Or.inl ⟨rfl, fun _ => rfl, rfl, ?_⟩
      refine Array.ext_getElem? fun k => ?_
      rw [Array.getElem?_map, Array.getElem?_map, Array.getElem?_modify]
      split
      · next hsame =>
        cases s.protos.ctors[k]? <;> rfl
      · rfl

/-- An update is counted exactly when it changes what is counted. -/
theorem Update.counts (u : Update) (s : Run) : s.Counts (u.apply s) := by
  cases u with
  | env w => exact w.counts s
  | heap w => exact w.counts s
  | protos w => exact w.counts s
  | _ => exact Or.inl ⟨rfl, fun _ => rfl, rfl, rfl⟩

/-! ### Runs -/

/-- All types in the state are normal. -/
def Run.Normal (s : Run) : Prop :=
  ∀ t ∈ s.types, t.Normal

instance (s : Run) : Decidable s.Normal :=
  inferInstanceAs (Decidable (∀ t ∈ s.types, t.Normal))

/-- Walks in which every type is normal. -/
def normalTypes : Discipline where
  toSimilarity := .equal
  toNodeClass := .all
  Good _ t := t.Normal
  Within _ := True
  tight := False
  mono _ hnormal := hnormal
  never := trivial
  any := trivial
  prim _ := trivial
  join ha hb := (ha.isLub_join hb).normal
  member hnormal hmem := hnormal.member hmem
  ret hnormal := ((FuncTy.normal_iff _).mp hnormal).2.1
  field hnormal hmem := ((ObjTy.normal_iff _).mp hnormal).1 _ hmem
  closure _ _ _ := Ty.normal_closure _ _
  ofCell _ := Ty.normal_ofCell _
  ofInstance _ _ := Ty.normal_ofInstance _ _
  prototypeOf _ := Ty.normal_prototypeOf _
  funcHandles htight := htight.elim
  cellHandles htight := htight.elim
  ctorHandles htight := htight.elim

/-- States of normal types keep to the discipline of normal types. -/
theorem normalTypes_inv {s : Run} (hnormal : s.Normal) : normalTypes.Inv s :=
  ⟨hnormal, fun _ _ htight => htight.elim, fun _ _ _ => trivial, fun htight => htight.elim, trivial,
    False.elim, nofun⟩

/-- Updates one after the other only widen, and are counted exactly when they change something. -/
theorem widens_of_steps {s t : Run} (hsteps : normalTypes.Steps s t) (hnormal : s.Normal) :
    s.Widens t ∧ s.Counts t := by
  induction hsteps with
  | refl => exact ⟨.refl s, .refl s⟩
  | @tail r _ _ hlast ih =>
    obtain ⟨u, hguard, rfl⟩ := hlast
    obtain ⟨hwidens, hcounts⟩ := ih
    have hwidens' := u.widens r hguard.good
    exact ⟨hwidens.trans hwidens', hcounts.trans (u.counts r) hnormal hwidens hwidens'⟩

/-- The types of the built-in globals are normal. -/
theorem builtins_normal : ∀ g ∈ Globals.builtins, g.2.Normal := by
  decide

/-- Every operation of a walk only widens, whether it succeeds or stops: what a place held, it holds
with a wider type, no link is lost, and the tables keep their entries.  The version does not fall,
and it stays exactly when the bindings, the cells and the constructors stay as they are.  The types
are normal here; they are so before the first program, and they remain so. -/
theorem walks_only_widen :
    (∀ (options : Options) (globals : Globals), (∀ g ∈ globals, g.2.Normal) →
      ∀ ps, (after (inferPrograms ps) (Run.start options globals)).Normal) ∧
    ∀ (s : Run) (a : Action), s.Normal → (∀ t ∈ a.types, t.Normal) →
      (after a.run s).Normal ∧
      (∀ l old, s.slot? l = some old →
        ∃ new, (after a.run s).slot? l = some new ∧ old.isSubtype new = true) ∧
      (∀ k l, s.HasLink k l → (after a.run s).HasLink k l) ∧
      s.Extends (after a.run s) ∧
      s.version ≤ (after a.run s).version ∧
      (s.version = (after a.run s).version ↔ s.SameStore (after a.run s)) := by
  constructor
  · intro options globals hgiven ps
    have hstart : (Run.start options globals).Normal := start_types options builtins_normal hgiven
    have hdoes : normalTypes.Does none (Run.start options globals) (inferPrograms ps)
        fun _ _ => True :=
      Discipline.Does.inferPrograms trivial (normalTypes_inv hstart) fun _ _ _ _ => trivial
    exact (hdoes _ rfl).after.1.good
  · intro s a hnormal hgiven
    have hdoes : normalTypes.Does none s a.run fun _ _ => True :=
      Discipline.Does.action (normalTypes_inv hnormal) hgiven (fun _ _ htight => htight.elim)
        fun _ _ => trivial
    obtain ⟨hinv, hleads⟩ := (hdoes s rfl).after
    obtain ⟨hwidens, hcounts⟩ := widens_of_steps hleads.steps hnormal
    refine ⟨hinv.good, fun l old hheld => ?_, hwidens.links, hwidens.tables, hcounts.version_le,
      hcounts.version_eq_iff⟩
    -- the order of types and the test for subtypes agree on normal types
    obtain ⟨new, hholds, hwider⟩ := hwidens.slots l old hheld
    have hnormalOld := hnormal old (Run.mem_types_of_slot? hheld)
    obtain ⟨hnormalNew, hle⟩ := hwider hnormalOld
    exact ⟨new, hholds, (hnormalOld.isSubtype_iff hnormalNew).mpr hle⟩

/-- `x = "text"` in a sequence that turns out to be malformed after it. -/
def assignThenStop : Action :=
  .expr Env.global ⟨0, ⟨0, 0⟩, .sequence
    [⟨1, ⟨0, 0⟩, .assign none ⟨2, ⟨0, 0⟩, .ident "x"⟩ ⟨3, ⟨0, 0⟩, .literal .string⟩⟩,
      ⟨4, ⟨0, 0⟩, .call none []⟩]⟩

/-- A number becomes a number or a text before the walk stops, and the version tells. -/
theorem walks_only_widen_assignThenStop :
    let s := Run.start ⟨1, 1, false, false⟩ [("x", .number)]
    let t := after assignThenStop.run s
    s.Normal ∧ t.slot? (.binding Env.global "x") = some (.union [.string, .number]) ∧
      Ty.number.isSubtype (.union [.string, .number]) = true ∧ s.version ≠ t.version ∧
      ¬ s.SameStore t := by
  intro s t
  have hnormal : s.Normal := by decide
  have hresult : t.slot? (.binding Env.global "x") = some (.union [.string, .number]) := by decide
  have hversion : s.version ≠ t.version := by decide
  obtain ⟨-, hslots, -, -, -, hsame⟩ := walks_only_widen.2 s assignThenStop hnormal nofun
  obtain ⟨new, hholds, hwider⟩ := hslots (.binding Env.global "x") .number (by decide)
  cases hresult.symm.trans hholds
  exact ⟨hnormal, hresult, hwider, hversion, fun hstays => hversion (hsame.mpr hstays)⟩

end TypeFlow
