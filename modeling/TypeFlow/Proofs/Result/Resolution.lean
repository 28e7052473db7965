import Mathlib
import TypeFlow.Proofs.Engine.Validity
import TypeFlow.Result.Finish

/-!
# Resolution succeeds

In a valid state every type can be resolved, and so can everything that a run has recorded.  With
what is known of walks, no run ever meets a handle without an entry, up to its end.

## Main Definitions

* `Resolve.Succeeds` - computations that give a result whatever was resolved before

## Main Statements

* `resolve_succeeds` - a type whose handles have entries can be resolved
* `buildTypeMap_succeeds` - the result of a run can be put together, whatever the order of the nodes
* `handles_always_valid` - handles are valid at every point of every run

## Design Notes

What resolving a type gives is never followed again, so only the types that are stored in the state
matter, not those that are remembered.
-/

namespace TypeFlow

/-! ### Computations that resolve types -/

namespace Resolve

variable {α β : Type}

/-- The computation gives a result, whatever was resolved before. -/
def Succeeds (m : Resolve α) : Prop :=
  ∀ memo, ∃ a memo', m memo = .ok (a, memo')

theorem Succeeds.pure (a : α) : Succeeds (pure a : Resolve α) :=
  fun memo => ⟨a, memo, rfl⟩

/-- Computations that succeed, one after the other. -/
theorem Succeeds.bind {m : Resolve α} {f : α → Resolve β} (h : Succeeds m)
    (hnext : ∀ a, Succeeds (f a)) : Succeeds (m >>= f) := by
  intro memo
  obtain ⟨a, memo', hran⟩ := h memo
  obtain ⟨b, memo'', hlater⟩ := hnext a memo'
  refine ⟨b, memo'', ?_⟩
  change (m memo >>= fun p => f p.1 p.2) = _
  rw [hran]
  exact hlater

theorem Succeeds.ite {c : Prop} [Decidable c] {m n : Resolve α} (hsucceeds : Succeeds m)
    (hsucceeds' : Succeeds n) : Succeeds (if c then m else n) := by
  split
  · exact hsucceeds
  · exact hsucceeds'

/-- Following a handle that has an entry. -/
theorem Succeeds.ask {look : Except Dangling α} {f : α → Resolve β} {a : α} (hfound : look = .ok a)
    (hnext : Succeeds (f a)) : Succeeds (ask look >>= f) := by
  subst hfound
  exact fun memo => hnext memo

/-- A cut is always possible. -/
theorem Succeeds.cut : Succeeds cut :=
  fun memo => ⟨.any, { memo with cuts := memo.cuts + 1 }, rfl⟩

/-- Looking a type up before it is resolved does not make it fail. -/
theorem Succeeds.remembered {t : Ty} {compute : Resolve Ty} (h : Succeeds compute) :
    Succeeds (remembered t compute) := by
  intro memo
  cases hknown : memo.known.lookup t with
  | some r =>
    have hhit : (Resolve.remembered t compute).run memo = Pure.pure (r, memo) := by
      simp [Resolve.remembered, hknown]
    exact ⟨r, memo, hhit⟩
  | none =>
    obtain ⟨r, memo', hran⟩ := h memo
    refine ⟨r, if memo'.cuts = memo.cuts then
      { memo' with known := (t, r) :: memo'.known } else memo', ?_⟩
    change (Resolve.remembered t compute).run memo = _
    have hran' : compute.run memo = .ok (r, memo') := hran
    simp [Resolve.remembered, hknown, hran']

end Resolve

open Resolve

/-! ### Types -/

/-- A stored type has only handles with entries. -/
theorem Run.Valid.stored {s : Run} (hvalid : s.Valid) {t : Ty} (hmem : t ∈ s.types) : s.Holds t :=
  ((validHandles_inv_iff s).mpr hvalid).good t hmem

/-- The links of the prototype graph lead to constructors that exist. -/
theorem Run.Valid.linked {s : Run} (hvalid : s.Valid) : s.protos.Linked :=
  ((validHandles_inv_iff s).mpr hvalid).linkedProtos trivial

/-- Types can be resolved one after the other when each of them can. -/
theorem enterAll_succeeds {enter : Ty → Resolve Ty} {ts : List Ty}
    (henters : ∀ t ∈ ts, Succeeds (enter t)) : Succeeds (enterAll enter ts) := by
  induction ts with
  | nil => exact .pure []
  | cons t ts ih =>
    obtain ⟨hsucceeds, hlater⟩ := List.forall_mem_cons.mp henters
    exact hsucceeds.bind fun r => (ih hlater).bind fun rs => .pure (r :: rs)

/-- The same for fields. -/
theorem enterFields_succeeds {enter : Ty → Resolve Ty} {fs : Fields}
    (henters : ∀ e ∈ fs, Succeeds (enter e.2)) : Succeeds (enterFields enter fs) := by
  induction fs with
  | nil => exact .pure []
  | cons e fs ih =>
    obtain ⟨hsucceeds, hlater⟩ := List.forall_mem_cons.mp henters
    exact hsucceeds.bind fun r => (ih hlater).bind fun rs => .pure ((e.1, r) :: rs)

section Stored

variable {s : Run} (hvalid : s.Valid) {enter : Ty → Resolve Ty}
variable (henters : ∀ t, s.Holds t → Succeeds (enter t))

include hvalid henters

/-- Signatures of closures that exist can be joined. -/
theorem joinSignatures_succeeds (acc : Ty) {ids : List ClosureId}
    (hhas : ∀ id ∈ ids, s.HasEntry (.closure id)) : Succeeds (joinSignatures s enter acc ids) := by
  induction ids generalizing acc with
  | nil => exact .pure acc
  | cons id rest ih =>
    obtain ⟨hhasEntry, hlater⟩ := List.forall_mem_cons.mp hhas
    obtain ⟨c, hfound, heq⟩ := Closures.closure_total hhasEntry
    have hstored : Closure.entry.types c ⊆ s.types := fun t hmem =>
      s.closure_types (Entry.types_subset hfound hmem)
    have hnext (ret : Ty) : Succeeds (do
        let params ← enterAll enter c.params
        joinSignatures s enter (acc.join (.signature params ret)) rest) := by
      refine (enterAll_succeeds fun t hmem => ?_).bind fun params => ih _ hlater
      exact henters t (hvalid.stored (hstored (List.mem_cons_of_mem _ hmem)))
    have hdeclared := henters _ (hvalid.stored (hstored List.mem_cons_self))
    exact .ask heq (.ite ((Succeeds.pure Ty.any).bind hnext) (hdeclared.bind hnext))

/-- Fields of cells that exist can be joined. -/
theorem joinCells_succeeds (acc : Fields) {ids : List CellId}
    (hhas : ∀ id ∈ ids, s.HasEntry (.cell id)) : Succeeds (joinCells s enter acc ids) := by
  induction ids generalizing acc with
  | nil => exact .pure acc
  | cons id rest ih =>
    obtain ⟨hhasEntry, hlater⟩ := List.forall_mem_cons.mp hhas
    obtain ⟨c, hfound, heq⟩ := Heap.cell_total hhasEntry
    refine .ask heq ((enterFields_succeeds fun e hmem => ?_).bind fun fields => ih _ hlater)
    exact henters _
      (hvalid.stored (s.cell_types (Entry.types_subset hfound (Fields.mem_types hmem))))

/-- Members of constructors that exist can be joined. -/
theorem joinProtos_succeeds (acc : Fields) {ids : List CtorId}
    (hhas : ∀ id ∈ ids, s.HasEntry (.ctor id)) : Succeeds (joinProtos s enter acc ids) := by
  induction ids generalizing acc with
  | nil => exact .pure acc
  | cons id rest ih =>
    obtain ⟨hhasEntry, hlater⟩ := List.forall_mem_cons.mp hhas
    obtain ⟨shown, heq⟩ := Protos.prototypeMembers_total hvalid.linked hhasEntry
    refine .ask heq ((enterFields_succeeds fun e hmem => ?_).bind fun fields => ih _ hlater)
    have hlisted := Protos.prototypeMembers_mem heq (Fields.mem_types hmem)
    exact henters _ (hvalid.stored (s.ctor_types hlisted))

end Stored

section Types

variable {s : Run} {enter : Path → Ty → Resolve Ty}

mutual

/-- A type whose handles have entries can be resolved as soon as stored types can. -/
theorem resolveWith_succeeds (hvalid : s.Valid)
    (henters : ∀ path t, s.Holds t → Succeeds (enter path t)) (path : Path) (t : Ty)
    (hholds : s.Holds t) : Succeeds (resolveWith s enter path t) := by
  cases t with
  | never => exact .pure Ty.never
  | any => exact .pure Ty.any
  | prim p => exact .pure (Ty.prim p)
  | func f =>
    cases f with
    | mk params ret closures =>
      have hinside : ∀ d ∈ (FuncTy.mk params ret closures).handles, s.HasEntry d := hholds
      rw [FuncTy.handles, List.forall_mem_append, List.forall_mem_append] at hinside
      obtain ⟨⟨hown, hofParams⟩, hofRet⟩ := hinside
      rw [resolveWith]
      refine .remembered (.ite .cut ?_)
      refine (resolveAll_succeeds hvalid henters path params hofParams).bind fun ps => ?_
      refine (resolveWith_succeeds hvalid henters path ret hofRet).bind fun r => ?_
      exact joinSignatures_succeeds hvalid (henters _) _ fun id hmem =>
        hown _ (List.mem_map_of_mem hmem)
  | obj o =>
    cases o with
    | mk fields cells ctors protoOf =>
      have hinside : ∀ d ∈ (ObjTy.mk fields cells ctors protoOf).handles, s.HasEntry d := hholds
      rw [ObjTy.handles, List.forall_mem_append] at hinside
      obtain ⟨hown, hofFields⟩ := hinside
      obtain ⟨hofCells, hofCtors⟩ := List.forall_mem_append.mp hown
      rw [resolveWith]
      refine .remembered (.ite .cut ?_)
      refine (resolveFields_succeeds hvalid henters _ fields hofFields).bind fun known => ?_
      refine (joinCells_succeeds hvalid (henters _) _ fun id hmem => ?_).bind fun withCells => ?_
      · exact hofCells _ (List.mem_map_of_mem hmem)
      refine (joinProtos_succeeds hvalid (henters _) _ fun id hmem => ?_).bind fun shown => .pure _
      exact hofCtors _ (List.mem_map_of_mem (List.mem_append_right _ hmem))
  | union ms =>
    rw [resolveWith]
    exact .remembered (resolveMembers_succeeds hvalid henters path .never ms hholds)
termination_by structural t

/-- A list of types whose handles have entries can be resolved, when the types behind the handles
can. -/
theorem resolveAll_succeeds (hvalid : s.Valid)
    (henters : ∀ path t, s.Holds t → Succeeds (enter path t)) (path : Path) (ts : List Ty)
    (hholds : ∀ d ∈ Ty.handlesAll ts, s.HasEntry d) : Succeeds (resolveAll s enter path ts) := by
  cases ts with
  | nil => exact .pure []
  | cons t ts =>
    rw [Ty.handlesAll, List.forall_mem_append] at hholds
    rw [resolveAll]
    exact (resolveWith_succeeds hvalid henters path t hholds.1).bind fun r =>
      (resolveAll_succeeds hvalid henters path ts hholds.2).bind fun rs => .pure (r :: rs)
termination_by structural ts

/-- The same for fields. -/
theorem resolveFields_succeeds (hvalid : s.Valid)
    (henters : ∀ path t, s.Holds t → Succeeds (enter path t)) (path : Path)
    (fs : List (String × Ty)) (hholds : ∀ d ∈ Ty.handlesFields fs, s.HasEntry d) :
    Succeeds (resolveFields s enter path fs) := by
  cases fs with
  | nil => exact .pure []
  | cons e fs =>
    cases e with
    | mk name t =>
      rw [Ty.handlesFields, List.forall_mem_append] at hholds
      rw [resolveFields]
      exact (resolveWith_succeeds hvalid henters path t hholds.1).bind fun r =>
        (resolveFields_succeeds hvalid henters path fs hholds.2).bind
          fun rs => .pure ((name, r) :: rs)
termination_by structural fs

/-- The same for the members of a union. -/
theorem resolveMembers_succeeds (hvalid : s.Valid)
    (henters : ∀ path t, s.Holds t → Succeeds (enter path t)) (path : Path) (acc : Ty)
    (ts : List Ty) (hholds : ∀ d ∈ Ty.handlesAll ts, s.HasEntry d) :
    Succeeds (resolveMembers s enter path acc ts) := by
  cases ts with
  | nil => exact .pure acc
  | cons t ts =>
    rw [Ty.handlesAll, List.forall_mem_append] at hholds
    rw [resolveMembers]
    exact (resolveWith_succeeds hvalid henters path t hholds.1).bind fun r =>
      resolveMembers_succeeds hvalid henters path (acc.join r) ts hholds.2
termination_by structural ts

end

/-- A type whose handles have entries can be resolved at every depth. -/
theorem resolveAt_succeeds (hvalid : s.Valid) (depth : Nat) (path : Path) {t : Ty}
    (hholds : s.Holds t) : Succeeds (resolveAt s depth path t) := by
  induction depth generalizing path t with
  | zero => exact .pure Ty.any
  | succ depth ih =>
    exact resolveWith_succeeds hvalid (fun path t hholds => ih path hholds) path t hholds

/-- A type whose handles have entries can be resolved. -/
theorem resolve_succeeds (hvalid : s.Valid) {t : Ty} (hholds : s.Holds t) :
    Succeeds (resolve s t) :=
  resolveAt_succeeds hvalid _ _ hholds

end Types

/-! ### The result of a run -/

section Result

variable {s : Run} (hvalid : s.Valid)

include hvalid

/-- What was recorded for nodes can be resolved. -/
theorem resolveNodes_succeeds {nodes : OrdMap NodeId Ty} (hholds : ∀ e ∈ nodes, s.Holds e.2) :
    Succeeds (resolveNodes s nodes) := by
  induction nodes with
  | nil => exact .pure []
  | cons e rest ih =>
    obtain ⟨hholds', hlater⟩ := List.forall_mem_cons.mp hholds
    exact (resolve_succeeds hvalid hholds').bind fun r => (ih hlater).bind fun rs => .pure _

/-- Fields that are stored in the state can be resolved. -/
theorem enterStored_succeeds {fs : Fields} (hstored : fs.types ⊆ s.types) :
    Succeeds (enterFields (resolve s) fs) :=
  enterFields_succeeds fun _ hmem =>
    resolve_succeeds hvalid (hvalid.stored (hstored (Fields.mem_types hmem)))

/-- The bindings of scopes can be resolved. -/
theorem resolveScopes_succeeds {scopes : List Scope}
    (hstored : ∀ c ∈ scopes, c.bindings.types ⊆ s.types) : Succeeds (resolveScopes s scopes) := by
  induction scopes with
  | nil => exact .pure []
  | cons c rest ih =>
    obtain ⟨hsubset, hlater⟩ := List.forall_mem_cons.mp hstored
    exact (enterStored_succeeds hvalid hsubset).bind fun _ => (ih hlater).bind fun _ => .pure _

/-- The signatures of closures can be resolved. -/
theorem resolveFuncs_succeeds (acc : OrdMap NodeId FuncInfo) {id : Nat} {cs : List Closure}
    (hwithin : id + cs.length ≤ s.closures.table.size) : Succeeds (resolveFuncs s acc id cs) := by
  induction cs generalizing acc id with
  | nil => exact .pure acc
  | cons c rest ih =>
    rw [List.length_cons] at hwithin
    have hholds : s.Holds (.closure id c.func.params.length) := by
      intro d hmem
      rw [Ty.handles_closure] at hmem
      cases List.mem_singleton.mp hmem
      exact Nat.lt_of_lt_of_le (Nat.lt_add_of_pos_right (Nat.succ_pos _)) hwithin
    exact (resolve_succeeds hvalid hholds).bind fun signature => ih _ (by omega)

omit hvalid in
/-- The literal of a closure that exists is found. -/
theorem literalOf_total {closure : Option ClosureId}
    (hhas : ∀ id, closure = some id → s.HasEntry (.closure id)) :
    ∃ r, literalOf s closure = .ok r := by
  cases closure with
  | none => exact ⟨none, rfl⟩
  | some id =>
    obtain ⟨c, -, heq⟩ := Closures.closure_total (hhas id rfl)
    refine ⟨some c.func.id, ?_⟩
    rw [literalOf, heq]
    rfl

theorem classOf_total (closure : Option ClosureId) : ∃ r, classOf s closure = .ok r := by
  unfold classOf
  cases hknown : closure.bind s.protos.find? with
  | none => exact ⟨none, rfl⟩
  | some ctor =>
    obtain ⟨id, -, hfound⟩ := Option.bind_eq_some_iff.mp hknown
    have hhas : s.HasEntry (.ctor ctor) :=
      ((validHandles_inv_iff s).mpr hvalid).live _ (Run.constructor_handles hfound) trivial
    obtain ⟨c', -, heq⟩ := Protos.ctor_total hhas
    dsimp only
    rw [heq]
    exact ⟨_, rfl⟩

/-- The bindings of the global scope can be resolved. -/
theorem resolveGlobals_succeeds {bindings : Fields} (hstored : bindings.types ⊆ s.types) :
    Succeeds (resolveGlobals s bindings) := by
  induction bindings with
  | nil => exact .pure []
  | cons g rest ih =>
    have hlater := ih fun t hmem => hstored (List.mem_cons_of_mem _ hmem)
    have hholds : s.Holds g.2 := hvalid.stored (hstored List.mem_cons_self)
    have hhas : ∀ id, g.2.singleClosure? = some id → s.HasEntry (.closure id) := fun id hsingle =>
      hholds _ (Ty.mem_handles_of_singleClosure hsingle)
    obtain ⟨func, heqF⟩ := literalOf_total hhas
    obtain ⟨cls, heqC⟩ := classOf_total hvalid g.2.singleClosure?
    rw [resolveGlobals]
    refine .ite hlater (.ask heqF (.ask heqC ?_))
    exact (resolve_succeeds hvalid hholds).bind fun r => hlater.bind fun others => .pure _

/-- Constructors can be resolved with their fields, methods and parents. -/
theorem resolveCtors_succeeds (globals : Fields) {id : Nat} {cs : List Ctor}
    (hwithin : id + cs.length ≤ s.protos.ctors.size)
    (hstored : ∀ c ∈ cs, Ctor.entry.types c ⊆ s.types)
    (hheld : ∀ c ∈ cs, Ctor.entry.handles c ⊆ s.handles) :
    Succeeds (resolveCtors s globals id cs) := by
  induction cs generalizing id with
  | nil => exact .pure []
  | cons c rest ih =>
    rw [List.length_cons] at hwithin
    obtain ⟨hsubset, hlater⟩ := List.forall_mem_cons.mp hstored
    obtain ⟨hheldC, hheldR⟩ := List.forall_mem_cons.mp hheld
    have hinside : id < s.protos.ctors.size := by omega
    obtain ⟨func, heqF⟩ : ∃ r, literalOf s c.closure = .ok r := by
      refine literalOf_total fun k hclosure => ?_
      have hlisted : Dangling.closure k ∈ Ctor.entry.handles c :=
        List.mem_append_left _ (List.mem_map_of_mem (Option.mem_toList.mpr hclosure))
      exact ((validHandles_inv_iff s).mpr hvalid).live _ (hheldC hlisted) trivial
    obtain ⟨parent, heqP⟩ := Protos.effectiveParent_total hvalid.linked hinside
    obtain ⟨written, heqW⟩ := Protos.instanceFields_total hvalid.linked hinside
    rw [resolveCtors]
    refine .ask heqF (.ask heqP ?_)
    refine (enterStored_succeeds hvalid fun t hmem => ?_).bind fun methods => .ask heqW ?_
    · exact hsubset (List.mem_append_left _ hmem)
    refine (enterStored_succeeds hvalid fun t hmem => ?_).bind fun fields => ?_
    · exact s.ctor_types (Protos.instanceFields_mem heqW hmem)
    exact (ih (by omega) hlater hheldR).bind fun others => .pure _

/-- The result of a run can be put together in every order. -/
theorem buildTypeMapIn_succeeds {order : List (NodeId × Ty)} (hholds : ∀ e ∈ order, s.Holds e.2) :
    Succeeds (buildTypeMapIn s order) := by
  obtain ⟨global, hfound, heq⟩ :=
    Env.scope_total (((validHandles_inv_iff s).mpr hvalid).global trivial)
  have hbound : global.bindings.types ⊆ s.types := fun t hmem =>
    s.scope_types (Entry.types_subset hfound hmem)
  refine (resolveNodes_succeeds hvalid hholds).bind fun nodeTypes => ?_
  refine (resolveScopes_succeeds hvalid fun c hmem t hlisted => ?_).bind fun scopes => ?_
  · exact s.scope_types (List.mem_flatMap.mpr ⟨c, hmem, hlisted⟩)
  refine (resolveFuncs_succeeds hvalid [] ?_).bind fun funcs => .ask heq ?_
  · rw [Array.length_toList, Nat.zero_add]
  refine (resolveGlobals_succeeds hvalid hbound).bind fun globals => ?_
  refine (resolveCtors_succeeds hvalid global.bindings ?_ (fun c hmem t hlisted => ?_)
    fun c hmem d hlisted => ?_).bind fun ctors => .pure _
  · rw [Array.length_toList, Nat.zero_add]
  · exact s.ctor_types (List.mem_flatMap.mpr ⟨c, hmem, hlisted⟩)
  · exact s.ctor_handles (List.mem_flatMap.mpr ⟨c, hmem, hlisted⟩)

/-- The result of a run can be put together, whatever the order of the nodes. -/
theorem buildTypeMap_succeeds (order : NodeOrder) :
    Succeeds (buildTypeMapIn s (order.list s.nodeTypes)) :=
  buildTypeMapIn_succeeds hvalid fun _ hmem =>
    hvalid.stored (s.node_types (List.mem_map_of_mem ((order.perm _).mem_iff.mp hmem)))

end Result

/-! ### Runs -/

/-- Putting together the result of a run leaves a valid state valid and succeeds. -/
theorem finish_does {s : Run} (order : NodeOrder) (hinv : validHandles.Inv s) :
    validHandles.Does none s (finish order) fun _ _ => True := by
  refine Discipline.Agree.get (fun s' hsame => by rw [Discipline.sim_closures hsame]) ?_
  refine (Discipline.Does.emit hinv _).bind fun _ t hinv _ _ => ?_
  refine (Discipline.Does.analyseUncalled trivial hinv).bind fun _ t hinv _ _ => ?_
  have hbuilt : validHandles.Does none t
      (Walk.ask fun s => (buildTypeMapIn s (order.list s.nodeTypes)).run' Memo.empty)
      fun _ _ => True := by
    refine Discipline.Agree.ask hinv (fun s' (hsame : t = s') => by rw [hsame])
      (fun _ _ => trivial) ?_
    intro d hfails
    obtain ⟨m, memo, hran⟩ :=
      buildTypeMap_succeeds ((validHandles_inv_iff t).mp hinv) order Memo.empty
    have hresult : (buildTypeMapIn t (order.list t.nodeTypes)).run' Memo.empty = .ok m := by
      rw [StateT.run', hran]
      rfl
    cases hresult.symm.trans hfails
  refine hbuilt.bind fun m t hinv _ _ => (Discipline.Does.emit hinv _).bind fun _ t hinv _ _ => ?_
  exact Discipline.Agree.pure hinv trivial

/-- Handles are valid at every point of every run.  From the state before the first program on,
whose given globals carry no handles, running programs one after the other and ending the run leads
through valid states only, and no handle without an entry is followed.  The same is true of every
operation of a walk, from every valid state, whether the operation succeeds or stops. -/
theorem handles_always_valid (options : Options) (globals : Globals)
    (hplain : ∀ g ∈ globals, g.2.handles = []) :
    (∀ ps : List Program, (inferPrograms ps).Sound (Run.start options globals) ∧
      ∀ order, Walk.Sound (do inferPrograms ps; finish order) (Run.start options globals)) ∧
    (∀ s : Run, s.Valid →
      (∀ a : Action, (∀ t ∈ a.types, s.Holds t) → (∀ d ∈ a.handles, s.HasEntry d) →
        a.run.Sound s) ∧
      (∀ p : Program, (inferProgram p).Sound s) ∧ analyseUncalled.Sound s ∧
      ∀ order, (finish order).Sound s) := by
  have hvalid := start_valid options hplain
  have hinv := (validHandles_inv_iff _).mpr hvalid
  have hprograms (ps : List Program) :
      validHandles.Does none (Run.start options globals) (inferPrograms ps) fun _ _ => True :=
    Discipline.Does.inferPrograms trivial hinv fun _ _ _ _ => trivial
  refine ⟨fun ps => ⟨sound_of_does hvalid (hprograms ps), fun order => ?_⟩, fun s hvalid => ?_⟩
  · exact sound_of_does hvalid ((hprograms ps).bind fun _ t hinv _ _ => finish_does order hinv)
  · have hinv := (validHandles_inv_iff s).mpr hvalid
    exact ⟨fun a hholds hhas => sound_of_does hvalid
        (Discipline.Does.action hinv hholds (fun d hmem _ => hhas d hmem) fun _ _ => trivial),
      fun p => sound_of_does hvalid (Discipline.Does.inferProgram trivial hinv fun _ _ => trivial),
      sound_of_does hvalid (Discipline.Does.analyseUncalled trivial hinv),
      fun order => sound_of_does hvalid (finish_does order hinv)⟩

/-- Two programs after one another: a call in a tree that turns out to be malformed, and a function
that nothing calls. -/
theorem handles_always_valid_malformed :
    (∀ g ∈ [("log", Ty.signature [.any] .undefined)], g.2.handles = []) ∧
      Walk.Sound
        (do
          inferPrograms
            [[⟨0, ⟨0, 0⟩, .expr ⟨1, ⟨0, 0⟩, .call (some ⟨2, ⟨0, 0⟩, .ident "log"⟩)
                [⟨3, ⟨0, 0⟩, .object []⟩, ⟨4, ⟨0, 0⟩, .call none []⟩]⟩⟩],
              [⟨5, ⟨0, 0⟩, .function ⟨6, ⟨0, 0⟩, some "f", ["x"],
                [⟨7, ⟨0, 0⟩, .ret (some ⟨8, ⟨0, 0⟩, .this⟩)⟩]⟩⟩]]
          finish .ascending)
        (Run.start .standard [("log", Ty.signature [.any] .undefined)]) :=
  ⟨by decide, ((handles_always_valid .standard [("log", Ty.signature [.any] .undefined)]
    (by decide)).1 _).2 .ascending⟩

end TypeFlow
