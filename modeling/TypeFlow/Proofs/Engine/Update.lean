import Mathlib
import TypeFlow.Engine.Program
import TypeFlow.Proofs.Store.Interning

/-!
# Updates of the state

Everything that a run does to its state is a sequence of updates, each of which touches one part of
the state.

## Main Definitions

* `Run.types`, `Run.handles` - the types in a state, and the handles in it outside of types
* `Run.HasEntry` - a handle has an entry in its table
* `Run.Extends` - the tables of a state go on with the entries of another one
* `Run.Indexed` - the indices of all tables agree with the tables
* `Update`, `Update.apply` - one change of the state

## Main Statements

* `Update.types_cases`, `Update.handles_cases` - an update stores only what it brings
* `Update.keeps` - an update keeps the identity of all entries of the tables
* `Update.indexed` - an update keeps tables and indices in agreement
* `Update.literals_cases` - only capturing adds a closure

## Design Notes

The writes of the tables are updates as they are.  The others concern the running calls, the
assumed results, and what is recorded for the report.
-/

namespace TypeFlow

/-! ### The contents of a state -/

/-- The types in a running call. -/
def Activation.types (a : Activation) : List Ty :=
  [a.this, a.returns]

/-- The handles in a running call, outside of types. -/
def Activation.handles (a : Activation) : List Dangling :=
  .closure a.closure :: .scope a.scope :: a.constructing.toList.map .ctor

namespace Run

/-- All types in a state. -/
def types (s : Run) : List Ty :=
  Scope.entry.typesIn s.env.scopes ++ Closure.entry.typesIn s.closures.table ++
    Cell.entry.typesIn s.heap.cells ++ Ctor.entry.typesIn s.protos.ctors ++
    s.activations.flatMap Activation.types ++ s.solving.map (·.2.seed) ++ s.nodeTypes.map (·.2)

/-- All handles in a state, outside of types. -/
def handles (s : Run) : List Dangling :=
  s.env.handles ++ s.closures.handles ++ s.heap.handles ++ s.protos.handles ++
    s.activations.flatMap Activation.handles ++ s.solving.map (.closure ·.1) ++
    s.funcScopes.flatMap fun e => e.2.map .scope

/-- Whether a handle has an entry in its table. -/
def HasEntry (s : Run) : Dangling → Prop
  | .scope id => id < s.env.scopes.size
  | .closure id => id < s.closures.table.size
  | .cell id => id < s.heap.cells.size
  | .ctor id => id < s.protos.ctors.size

instance (s : Run) : (d : Dangling) → Decidable (s.HasEntry d)
  | .scope id => Nat.decLt id s.env.scopes.size
  | .closure id => Nat.decLt id s.closures.table.size
  | .cell id => Nat.decLt id s.heap.cells.size
  | .ctor id => Nat.decLt id s.protos.ctors.size

/-- All entries of the tables are still at their places, with the same identity, and the indices
still lead to them. -/
structure Extends (s t : Run) : Prop where
  scopes : Scope.entry.Extends s.env.scopes t.env.scopes
  closures : Closure.entry.Extends s.closures.table t.closures.table
  cells : Cell.entry.Extends s.heap.cells t.heap.cells
  ctors : Ctor.entry.Extends s.protos.ctors t.protos.ctors
  activations : s.env.activations.Extends t.env.activations
  captures : s.closures.bySite.Extends t.closures.bySite
  sites : s.heap.bySite.Extends t.heap.bySite
  constructors : s.protos.byClosure.Extends t.protos.byClosure

/-- The indices of all tables agree with the tables. -/
structure Indexed (s : Run) : Prop where
  env : s.env.Indexed
  closures : s.closures.Indexed
  heap : s.heap.Indexed
  protos : s.protos.Indexed

variable {s t r : Run}

theorem Extends.refl (s : Run) : s.Extends s where
  scopes := Entry.Extends.refl _
  closures := Entry.Extends.refl _
  cells := Entry.Extends.refl _
  ctors := Entry.Extends.refl _
  activations := Index.Extends.refl _
  captures := Index.Extends.refl _
  sites := Index.Extends.refl _
  constructors := Index.Extends.refl _

theorem Extends.trans (h : s.Extends t) (h' : t.Extends r) : s.Extends r where
  scopes := h.scopes.trans h'.scopes
  closures := h.closures.trans h'.closures
  cells := h.cells.trans h'.cells
  ctors := h.ctors.trans h'.ctors
  activations := h.activations.trans h'.activations
  captures := h.captures.trans h'.captures
  sites := h.sites.trans h'.sites
  constructors := h.constructors.trans h'.constructors

/-- A handle that has an entry keeps it. -/
theorem Extends.hasEntry (h : s.Extends t) {d : Dangling} (hhas : s.HasEntry d) : t.HasEntry d := by
  cases d with
  | scope id => exact Nat.lt_of_lt_of_le hhas h.scopes.size_le
  | closure id => exact Nat.lt_of_lt_of_le hhas h.closures.size_le
  | cell id => exact Nat.lt_of_lt_of_le hhas h.cells.size_le
  | ctor id => exact Nat.lt_of_lt_of_le hhas h.ctors.size_le

/-- The types of a state, part by part. -/
theorem mem_types {u : Ty} :
    u ∈ s.types ↔
      u ∈ Scope.entry.typesIn s.env.scopes ∨ u ∈ Closure.entry.typesIn s.closures.table ∨
        u ∈ Cell.entry.typesIn s.heap.cells ∨ u ∈ Ctor.entry.typesIn s.protos.ctors ∨
        u ∈ s.activations.flatMap Activation.types ∨ u ∈ s.solving.map (·.2.seed) ∨
        u ∈ s.nodeTypes.map (·.2) := by
  simp only [types, List.mem_append, or_assoc]

/-- The handles of a state outside of types, part by part. -/
theorem mem_handles {d : Dangling} :
    d ∈ s.handles ↔
      d ∈ s.env.handles ∨ d ∈ s.closures.handles ∨ d ∈ s.heap.handles ∨ d ∈ s.protos.handles ∨
        d ∈ s.activations.flatMap Activation.handles ∨
        d ∈ s.solving.map (fun e => Dangling.closure e.1) ∨
        d ∈ s.funcScopes.flatMap fun e => e.2.map Dangling.scope := by
  simp only [handles, List.mem_append, or_assoc]

theorem scope_types (s : Run) : Scope.entry.typesIn s.env.scopes ⊆ s.types :=
  fun _ hm => mem_types.mpr (.inl hm)

theorem closure_types (s : Run) : Closure.entry.typesIn s.closures.table ⊆ s.types :=
  fun _ hm => mem_types.mpr (.inr (.inl hm))

theorem cell_types (s : Run) : Cell.entry.typesIn s.heap.cells ⊆ s.types :=
  fun _ hm => mem_types.mpr (.inr (.inr (.inl hm)))

theorem ctor_types (s : Run) : Ctor.entry.typesIn s.protos.ctors ⊆ s.types :=
  fun _ hm => mem_types.mpr (.inr (.inr (.inr (.inl hm))))

theorem activation_types (s : Run) : s.activations.flatMap Activation.types ⊆ s.types :=
  fun _ hm => mem_types.mpr (.inr (.inr (.inr (.inr (.inl hm)))))

theorem seed_types (s : Run) : s.solving.map (·.2.seed) ⊆ s.types :=
  fun _ hm => mem_types.mpr (.inr (.inr (.inr (.inr (.inr (.inl hm))))))

theorem node_types (s : Run) : s.nodeTypes.map (·.2) ⊆ s.types :=
  fun _ hm => mem_types.mpr (.inr (.inr (.inr (.inr (.inr (.inr hm))))))

theorem scope_handles (s : Run) : Scope.entry.handlesIn s.env.scopes ⊆ s.handles :=
  fun _ hm => mem_handles.mpr (.inl (List.mem_append_left _ hm))

theorem closure_handles (s : Run) : Closure.entry.handlesIn s.closures.table ⊆ s.handles :=
  fun _ hm => mem_handles.mpr (.inr (.inl (List.mem_append_left _ hm)))

theorem ctor_handles (s : Run) : Ctor.entry.handlesIn s.protos.ctors ⊆ s.handles :=
  fun _ hm => mem_handles.mpr (.inr (.inr (.inr (.inl (List.mem_append_left _ hm)))))

/-- The scopes that the index of the activations leads to are among the handles. -/
theorem entered_handles {key : ActivationKey} {id : ScopeId}
    (hfound : s.env.activations.place? key = some id) : .scope id ∈ s.handles :=
  mem_handles.mpr (.inl (List.mem_append_right _ (Index.mem_handles hfound)))

/-- The closures that the index of the captures leads to are among the handles. -/
theorem captured_handles {place : NodeId × ScopeId} {id : ClosureId}
    (hfound : s.closures.bySite.place? place = some id) : .closure id ∈ s.handles :=
  mem_handles.mpr (.inr (.inl (List.mem_append_right _ (Index.mem_handles hfound))))

/-- The cells that the index of the sites leads to are among the handles. -/
theorem allocated_handles {site : AllocSite} {id : CellId}
    (hfound : s.heap.bySite.place? site = some id) : .cell id ∈ s.handles :=
  mem_handles.mpr (.inr (.inr (.inl (List.mem_append_right _ (Index.mem_handles hfound)))))

/-- The constructors that the index of the closures leads to are among the handles. -/
theorem constructor_handles {closure : ClosureId} {id : CtorId}
    (hfound : s.protos.find? closure = some id) : .ctor id ∈ s.handles :=
  mem_handles.mpr (.inr (.inr (.inr (.inl (List.mem_append_right _ (Index.mem_handles hfound))))))

theorem activation_handles (s : Run) : s.activations.flatMap Activation.handles ⊆ s.handles :=
  fun _ hm => mem_handles.mpr (.inr (.inr (.inr (.inr (.inl hm)))))

theorem seed_handles (s : Run) : s.solving.map (fun e => Dangling.closure e.1) ⊆ s.handles :=
  fun _ hm => mem_handles.mpr (.inr (.inr (.inr (.inr (.inr (.inl hm))))))

theorem funcScope_handles (s : Run) :
    (s.funcScopes.flatMap fun e => e.2.map Dangling.scope) ⊆ s.handles :=
  fun _ hm => mem_handles.mpr (.inr (.inr (.inr (.inr (.inr (.inr hm))))))

end Run

/-! ### Updates -/

/-- One change of the state. -/
inductive Update where
  | env (w : Env.Write)
  | closures (w : Closures.Write)
  | heap (w : Heap.Write)
  | protos (w : Protos.Write)
  /-- A call begins. -/
  | push (a : Activation)
  /-- The innermost call ends. -/
  | pop
  /-- The innermost call reaches a `return`. -/
  | returns (t : Ty)
  /-- A result is assumed for a closure. -/
  | seed (id : ClosureId) (t : Ty)
  /-- The assumed result of a closure is used. -/
  | recursed (id : ClosureId) (t : Ty)
  /-- Nothing is assumed of a closure any more. -/
  | unseed (id : ClosureId)
  | record (node : NodeId) (t : Ty)
  | access (node : NodeId)
  | unbound (name : String)
  | noteScope (func : NodeId) (scope : ScopeId)
  | event (e : Event)
  | report (m : Malformed)

namespace Update

/-- The running calls after the innermost one reached a `return`. -/
def addReturns (t : Ty) : List Activation → List Activation
  | [] => []
  | a :: rest => { a with returns := a.returns.join t } :: rest

/-- The state after an update. -/
def apply (s : Run) : Update → Run
  | env w => { s with env := w.apply s.env }
  | closures w => { s with closures := w.apply s.closures }
  | heap w => { s with heap := w.apply s.heap }
  | protos w => { s with protos := w.apply s.protos }
  | push a => { s with activations := a :: s.activations }
  | pop => s.popActivation
  | returns t => { s with activations := addReturns t s.activations }
  | seed id t => { s with solving := OrdMap.insert s.solving id ⟨t, false⟩ }
  | recursed id t => { s with solving := OrdMap.insert s.solving id ⟨t, true⟩ }
  | unseed id => s.dropSeed id
  | record node t => s.recordType node t
  | access node => { s with accessSites := OrdSet.insert node s.accessSites }
  | unbound name =>
    { s with
      unbound := if s.options.strictUnbound then OrdSet.insert name s.unbound else s.unbound }
  | noteScope func scope =>
    { s with funcScopes := OrdMap.upsert s.funcScopes func (· ++ [scope]) [scope] }
  | event e => { s with log := s.log.push e }
  | report m => { s with errors := s.errors ++ [m] }

/-- The types that an update brings. -/
def types : Update → List Ty
  | env w => w.types
  | closures w => w.types
  | heap w => w.types
  | protos w => w.types
  | push a => a.types
  | returns t => [t]
  | seed _ t => [t]
  | recursed _ t => [t]
  | record _ t => [t]
  | _ => []

/-- The handles that an update stores. -/
def handles : Update → List Dangling
  | env w => w.handles
  | closures w => w.handles
  | heap w => w.handles
  | protos w => w.handles
  | push a => a.handles
  | seed id _ => [.closure id]
  | recursed id _ => [.closure id]
  | noteScope _ scope => [.scope scope]
  | _ => []

/-! ### What an update stores -/

section Types

variable (u : Update) (s : Run) {t : Ty}

/-- A scope after an update has types that it had before, types that the update brings, or joins of
both. -/
theorem scope_types (h : t ∈ Scope.entry.typesIn (u.apply s).env.scopes) :
    Brought (Scope.entry.typesIn s.env.scopes) u.types t := by
  cases u with
  | env w => exact (w.edit s.env).types h
  | _ => exact Or.inl h

/-- The same for the signatures of closures. -/
theorem closure_types (h : t ∈ Closure.entry.typesIn (u.apply s).closures.table) :
    Brought (Closure.entry.typesIn s.closures.table) u.types t := by
  cases u with
  | closures w => exact (w.edit s.closures).types h
  | _ => exact Or.inl h

/-- The same for the fields of cells. -/
theorem cell_types (h : t ∈ Cell.entry.typesIn (u.apply s).heap.cells) :
    Brought (Cell.entry.typesIn s.heap.cells) u.types t := by
  cases u with
  | heap w => exact (w.edit s.heap).types h
  | _ => exact Or.inl h

/-- The same for the methods and own fields of constructors. -/
theorem ctor_types (h : t ∈ Ctor.entry.typesIn (u.apply s).protos.ctors) :
    Brought (Ctor.entry.typesIn s.protos.ctors) u.types t := by
  cases u with
  | protos w => exact (w.edit s.protos).types h
  | _ => exact Or.inl h

/-- What was returned so far is joined with the type that is returned now. -/
theorem addReturns_types {v : Ty} {as : List Activation}
    (h : t ∈ (addReturns v as).flatMap Activation.types) :
    Brought (as.flatMap Activation.types) [v] t := by
  cases as with
  | nil => cases h
  | cons a rest =>
    rw [addReturns, List.flatMap_cons] at h
    rcases List.mem_append.mp h with hmem | hmem
    · rcases List.mem_pair.mp hmem with rfl | rfl
      · exact Or.inl (List.mem_append_left _ List.mem_cons_self)
      · refine Or.inr (Or.inr ⟨a.returns, ?_, v, List.mem_singleton_self v, rfl⟩)
        exact List.mem_append_left _ (List.mem_cons_of_mem _ List.mem_cons_self)
    · exact Or.inl (List.mem_append_right _ hmem)

/-- The running calls after an update have types from before, and joins with those that it
brings. -/
theorem activation_types (h : t ∈ (u.apply s).activations.flatMap Activation.types) :
    Brought (s.activations.flatMap Activation.types) u.types t := by
  cases u with
  | push a =>
    rcases List.mem_append.mp h with hmem | hmem
    · exact Or.inr (Or.inl hmem)
    · exact Or.inl hmem
  | pop =>
    obtain ⟨a, hinside, hmem⟩ := List.mem_flatMap.mp h
    exact Or.inl (List.mem_flatMap.mpr ⟨a, List.mem_of_mem_tail hinside, hmem⟩)
  | returns v => exact addReturns_types h
  | _ => exact Or.inl h

/-- An assumed result is replaced by the new one, not joined with it. -/
theorem insertSeed_types {m : OrdMap ClosureId Solve} {id : ClosureId} {v : Solve}
    (h : t ∈ (OrdMap.insert m id v).map (·.2.seed)) :
    Brought (m.map (·.2.seed)) [v.seed] t := by
  obtain ⟨e, hmem, rfl⟩ := List.mem_map.mp h
  rcases OrdMap.mem_insert_of_mem hmem with rfl | hstays
  · exact Or.inr (Or.inl (List.mem_singleton_self _))
  · exact Or.inl (List.mem_map.mpr ⟨e, hstays, rfl⟩)

/-- The assumed results after an update are those from before, or the one that it brings. -/
theorem seed_types (h : t ∈ (u.apply s).solving.map (·.2.seed)) :
    Brought (s.solving.map (·.2.seed)) u.types t := by
  cases u with
  | seed id v => exact insertSeed_types h
  | recursed id v => exact insertSeed_types h
  | unseed id =>
    obtain ⟨e, hmem, rfl⟩ := List.mem_map.mp h
    exact Or.inl (List.mem_map.mpr ⟨e, (List.mem_filter.mp hmem).1, rfl⟩)
  | _ => exact Or.inl h

/-- The recorded types after an update are types from before, and joins with those that it
brings. -/
theorem node_types (h : t ∈ (u.apply s).nodeTypes.map (·.2)) :
    Brought (s.nodeTypes.map (·.2)) u.types t := by
  cases u with
  | record node v =>
    obtain ⟨e, hmem, rfl⟩ := List.mem_map.mp h
    rcases OrdMap.mem_upsert_of_mem hmem with rfl | ⟨old, hmem', rfl⟩ | hstays
    · exact Or.inr (Or.inl (List.mem_singleton_self _))
    · refine Or.inr (Or.inr ⟨old, ?_, v, List.mem_singleton_self v, rfl⟩)
      exact List.mem_map.mpr ⟨(node, old), hmem', rfl⟩
    · exact Or.inl (List.mem_map.mpr ⟨e, hstays, rfl⟩)
  | _ => exact Or.inl h

/-- An update stores only the types that it brings, and their joins with those stored before. -/
theorem types_cases (h : t ∈ (u.apply s).types) : Brought s.types u.types t := by
  rcases Run.mem_types.mp h with hmem | hmem | hmem | hmem | hmem | hmem | hmem
  · exact (scope_types u s hmem).mono s.scope_types
  · exact (closure_types u s hmem).mono s.closure_types
  · exact (cell_types u s hmem).mono s.cell_types
  · exact (ctor_types u s hmem).mono s.ctor_types
  · exact (activation_types u s hmem).mono s.activation_types
  · exact (seed_types u s hmem).mono s.seed_types
  · exact (node_types u s hmem).mono s.node_types

end Types

section Handles

variable (u : Update) (s : Run) {d : Dangling}

/-- A handle in the environment after an update was there before, is one of those that the update
stores, or is that of the entry that it added. -/
theorem env_handles (h : d ∈ (u.apply s).env.handles) :
    d ∈ s.env.handles ∨ d ∈ u.handles ∨ (u.apply s).HasEntry d := by
  cases u with
  | env w =>
    rcases w.handles_cases s.env h with hstored | hbrought | ⟨id, hinside, rfl⟩
    · exact .inl hstored
    · exact .inr (.inl hbrought)
    · exact .inr (.inr hinside)
  | _ => exact .inl h

/-- The same for the table of closures. -/
theorem closures_handles (h : d ∈ (u.apply s).closures.handles) :
    d ∈ s.closures.handles ∨ d ∈ u.handles ∨ (u.apply s).HasEntry d := by
  cases u with
  | closures w =>
    rcases w.handles_cases s.closures h with hstored | hbrought | ⟨id, hinside, rfl⟩
    · exact .inl hstored
    · exact .inr (.inl hbrought)
    · exact .inr (.inr hinside)
  | _ => exact .inl h

/-- The same for the heap. -/
theorem heap_handles (h : d ∈ (u.apply s).heap.handles) :
    d ∈ s.heap.handles ∨ d ∈ u.handles ∨ (u.apply s).HasEntry d := by
  cases u with
  | heap w =>
    rcases w.handles_cases s.heap h with hstored | hbrought | ⟨id, hinside, rfl⟩
    · exact .inl hstored
    · exact .inr (.inl hbrought)
    · exact .inr (.inr hinside)
  | _ => exact .inl h

/-- The same for the prototype graph. -/
theorem protos_handles (h : d ∈ (u.apply s).protos.handles) :
    d ∈ s.protos.handles ∨ d ∈ u.handles ∨ (u.apply s).HasEntry d := by
  cases u with
  | protos w =>
    rcases w.handles_cases s.protos h with hstored | hbrought | ⟨id, hinside, rfl⟩
    · exact .inl hstored
    · exact .inr (.inl hbrought)
    · exact .inr (.inr hinside)
  | _ => exact .inl h

/-- The running calls have handles from before, and those of a call that is entered. -/
theorem activation_handles (h : d ∈ (u.apply s).activations.flatMap Activation.handles) :
    d ∈ s.activations.flatMap Activation.handles ∨ d ∈ u.handles := by
  cases u with
  | push a => exact (List.mem_append.mp h).symm
  | pop =>
    obtain ⟨a, hinside, hmem⟩ := List.mem_flatMap.mp h
    exact Or.inl (List.mem_flatMap.mpr ⟨a, List.mem_of_mem_tail hinside, hmem⟩)
  | returns v =>
    have hsame : (addReturns v s.activations).flatMap Activation.handles =
        s.activations.flatMap Activation.handles := by
      cases s.activations <;> rfl
    exact Or.inl (hsame ▸ h)
  | _ => exact Or.inl h

theorem insertSeed_handles {m : OrdMap ClosureId Solve} {id : ClosureId} {v : Solve}
    (h : d ∈ (OrdMap.insert m id v).map fun e => Dangling.closure e.1) :
    (d ∈ m.map fun e => Dangling.closure e.1) ∨ d ∈ [Dangling.closure id] := by
  obtain ⟨e, hmem, rfl⟩ := List.mem_map.mp h
  rcases OrdMap.mem_insert_of_mem hmem with rfl | hstays
  · exact Or.inr (List.mem_singleton_self _)
  · exact Or.inl (List.mem_map.mpr ⟨e, hstays, rfl⟩)

theorem seed_handles (h : d ∈ (u.apply s).solving.map fun e => Dangling.closure e.1) :
    (d ∈ s.solving.map fun e => Dangling.closure e.1) ∨ d ∈ u.handles := by
  cases u with
  | seed id v => exact insertSeed_handles h
  | recursed id v => exact insertSeed_handles h
  | unseed id =>
    obtain ⟨e, hmem, rfl⟩ := List.mem_map.mp h
    exact Or.inl (List.mem_map.mpr ⟨e, (List.mem_filter.mp hmem).1, rfl⟩)
  | _ => exact Or.inl h

/-- The scopes that are listed for functions were listed before, or are listed by the update. -/
theorem funcScope_handles
    (h : d ∈ (u.apply s).funcScopes.flatMap fun e => e.2.map Dangling.scope) :
    (d ∈ s.funcScopes.flatMap fun e => e.2.map Dangling.scope) ∨ d ∈ u.handles := by
  cases u with
  | noteScope func scope =>
    obtain ⟨e, hinside, hmem⟩ := List.mem_flatMap.mp h
    rcases OrdMap.mem_upsert_of_mem hinside with rfl | ⟨old, hmem', rfl⟩ | hstays
    · exact Or.inr hmem
    · rw [List.map_append] at hmem
      refine (List.mem_append.mp hmem).imp_left fun hlisted => ?_
      exact List.mem_flatMap.mpr ⟨(func, old), hmem', hlisted⟩
    · exact Or.inl (List.mem_flatMap.mpr ⟨e, hstays, hmem⟩)
  | _ => exact Or.inl h

/-- An update stores only the handles that it brings, beside those stored before and those of
entries that it adds. -/
theorem handles_cases (h : d ∈ (u.apply s).handles) :
    d ∈ s.handles ∨ d ∈ u.handles ∨ (u.apply s).HasEntry d := by
  rcases Run.mem_handles.mp h with hmem | hmem | hmem | hmem | hmem | hmem | hmem
  · exact (env_handles u s hmem).imp_left fun hm => Run.mem_handles.mpr (.inl hm)
  · exact (closures_handles u s hmem).imp_left fun hm => Run.mem_handles.mpr (.inr (.inl hm))
  · exact (heap_handles u s hmem).imp_left fun hm => Run.mem_handles.mpr (.inr (.inr (.inl hm)))
  · exact (protos_handles u s hmem).imp_left fun hm =>
      Run.mem_handles.mpr (.inr (.inr (.inr (.inl hm))))
  · exact (activation_handles u s hmem).imp (@Run.activation_handles s d) .inl
  · exact (seed_handles u s hmem).imp (@Run.seed_handles s d) .inl
  · exact (funcScope_handles u s hmem).imp (@Run.funcScope_handles s d) .inl

end Handles

/-- An update keeps the entries of all tables at their places, with the same identity. -/
theorem keeps (u : Update) (s : Run) : s.Extends (u.apply s) where
  scopes := by
    cases u with
    | env w => exact (w.edit s.env).keeps
    | _ => exact Entry.Extends.refl _
  closures := by
    cases u with
    | closures w => exact (w.edit s.closures).keeps
    | _ => exact Entry.Extends.refl _
  cells := by
    cases u with
    | heap w => exact (w.edit s.heap).keeps
    | _ => exact Entry.Extends.refl _
  ctors := by
    cases u with
    | protos w => exact (w.edit s.protos).keeps
    | _ => exact Entry.Extends.refl _
  activations := by
    cases u with
    | env w => exact (w.index s.env).keeps
    | _ => exact Index.Extends.refl _
  captures := by
    cases u with
    | closures w => exact (w.index s.closures).keeps
    | _ => exact Index.Extends.refl _
  sites := by
    cases u with
    | heap w => exact (w.index s.heap).keeps
    | _ => exact Index.Extends.refl _
  constructors := by
    cases u with
    | protos w => exact (w.index s.protos).keeps
    | _ => exact Index.Extends.refl _

/-- An update keeps tables and indices in agreement. -/
theorem indexed (u : Update) {s : Run} (h : s.Indexed) : (u.apply s).Indexed where
  env := by
    cases u with
    | env w => exact w.indexed h.env
    | _ => exact h.env
  closures := by
    cases u with
    | closures w => exact w.indexed h.closures
    | _ => exact h.closures
  heap := by
    cases u with
    | heap w => exact w.indexed h.heap
    | _ => exact h.heap
  protos := by
    cases u with
    | protos w => exact w.indexed h.protos
    | _ => exact h.protos

/-- The literals in the closure table are those before the update, and the one captured. -/
theorem literals_cases (u : Update) (s : Run) {i : Nat} {c : Closure}
    (hfound : (u.apply s).closures.table[i]? = some c) :
    (∃ c', s.closures.table[i]? = some c' ∧ c'.func = c.func) ∨
      ∃ scope, u = .closures (.capture scope c.func) := by
  cases u with
  | closures w =>
    rcases (w.edit s.closures).keys_cases hfound with ⟨c', hget, hsame⟩ | hnew
    · exact Or.inl ⟨c', hget, (congrArg Prod.fst hsame).symm⟩
    · cases w with
      | capture scope f =>
        have hsame : (c.func, c.scope) = (f, scope) := List.mem_singleton.mp hnew
        exact Or.inr ⟨scope, by rw [(Prod.mk.inj hsame).1]⟩
      | record id args ret => cases hnew
      | mark id => cases hnew
  | _ => exact Or.inl ⟨c, hfound, rfl⟩

end Update

end TypeFlow
