import Mathlib
import TypeFlow.Proofs.Engine.Outcome
import TypeFlow.Proofs.Store.Reads
import TypeFlow.Proofs.Types.Normal

/-!
# The operations of a walk

The single reads and writes that walks are made of, in a state that keeps to a discipline.

## Main Definitions

* `Discipline.Does` - what is shown of one computation

## Main Statements

* `Discipline.Does.bindVariable`, `Discipline.Does.assignVariable`, ... - writes to the tables
* `Discipline.Does.record`, `Discipline.Does.emit`, ... - notes for the report
* `Discipline.Does.readScope`, `Discipline.Does.lookupField`, ... - reads

## Design Notes

An operation on a handle fails when the handle has no entry, which cannot happen when the discipline
is tight and the handle is live.
-/

namespace TypeFlow

namespace Discipline

variable {D : Discipline} {but : Option ClosureId} {s t : Run}

/-- What is shown of one computation: it agrees with itself. -/
abbrev Does (D : Discipline) {α : Type} (but : Option ClosureId) (s : Run) (m : Walk α)
    (Q : α → Run → Prop) : Prop :=
  D.Agree but s m m Q

/-- A type that may be absent, and that may be stored when it is not. -/
abbrev GoodOpt (D : Discipline) (r : Option Ty) (s : Run) : Prop :=
  ∀ u, r = some u → D.Good s u

/-! ### Computations on one table -/

/-- A read of the environment inside of an operation on it is a read of the state. -/
theorem onEnv_get {α : Type} (f : Env → EStateM Dangling Env α) :
    Walk.onEnv (get >>= f) = get >>= fun s => Walk.onEnv (f s.env) :=
  rfl

/-- Operations on the environment one after the other. -/
theorem onEnv_bind {α β : Type} (m : EStateM Dangling Env α) (f : α → EStateM Dangling Env β) :
    Walk.onEnv (m >>= f) = Walk.onEnv m >>= fun a => Walk.onEnv (f a) := by
  funext s
  change Walk.onEnv (EStateM.bind m f) s = EStateM.bind (Walk.onEnv m) _ s
  unfold Walk.onEnv EStateM.bind
  dsimp only
  cases m s.env <;> rfl

theorem onHeap_bind {α β : Type} (m : EStateM Dangling Heap α) (f : α → EStateM Dangling Heap β) :
    Walk.onHeap (m >>= f) = Walk.onHeap m >>= fun a => Walk.onHeap (f a) := by
  funext s
  change Walk.onHeap (EStateM.bind m f) s = EStateM.bind (Walk.onHeap m) _ s
  unfold Walk.onHeap EStateM.bind
  dsimp only
  cases m s.heap <;> rfl

/-! ### Entries of live handles -/

/-- A live handle has an entry where the discipline is tight. -/
theorem Live.scope {id : ScopeId} (hlive : D.Live s (.scope id)) (htight : D.tight) :
    ∃ x, s.env.scopes[id]? = some x :=
  ⟨_, Array.getElem?_eq_getElem (hlive htight)⟩

theorem Live.closure {id : ClosureId} (hlive : D.Live s (.closure id)) (htight : D.tight) :
    ∃ x, s.closures.table[id]? = some x :=
  ⟨_, Array.getElem?_eq_getElem (hlive htight)⟩

theorem Live.cell {id : CellId} (hlive : D.Live s (.cell id)) (htight : D.tight) :
    ∃ x, s.heap.cells[id]? = some x :=
  ⟨_, Array.getElem?_eq_getElem (hlive htight)⟩

theorem Live.ctor {id : CtorId} (hlive : D.Live s (.ctor id)) (htight : D.tight) :
    ∃ x, s.protos.ctors[id]? = some x :=
  ⟨_, Array.getElem?_eq_getElem (hlive htight)⟩

/-- A frame may be used. -/
theorem Inv.liveFrame (hinv : D.Inv s) {id : ScopeId} {k : ClosureId} {f : Func}
    (hframe : s.IsFrame id k f) : D.Live s (.scope id) := by
  obtain ⟨_, _, hentered, _⟩ := hframe
  exact hinv.live _ (Run.entered_handles hentered)

/-! ### Writes to the tables -/

/-- A name that may be bound in a scope is bound there. -/
theorem Does.bindVariable (hinv : D.Inv s) {id : ScopeId} (hlive : D.Live s (.scope id))
    {name : String} (hmay : D.MayBind s id name) {t : Ty} (hgood : D.Good s t) :
    D.Does but s (Walk.onEnv (Env.bind id name t)) fun _ t => t.Binds id name := by
  refine Agree.onEnv (.bind id name t) rfl hinv ⟨?_, nofun, hmay⟩ ?_ ?_
  · exact List.forall_mem_singleton.mpr hgood
  · intro changed e hbound
    refine Update.binds_bind ?_
    rw [Env.bind_apply] at hbound
    cases hfound : s.env.scopes[id]? with
    | none => rw [hfound] at hbound; cases hbound
    | some x => exact (Array.getElem?_eq_some_iff.mp hfound).1
  · intro d e hfailed htight
    obtain ⟨x, hfound⟩ := hlive.scope htight
    rw [Env.bind_apply, hfound] at hfailed
    dsimp only at hfailed
    split at hfailed <;> cases hfailed

/-- An assignment goes to the scope that has the name, or to none. -/
theorem Does.assignVariable (hinv : D.Inv s) {scope : ScopeId} (hlive : D.Live s (.scope scope))
    (hlinked : D.tight → s.env.Linked) (name : String) {t : Ty} (hgood : D.Good s t) :
    D.Does but s (Walk.onEnv (Env.assign scope name t)) fun _ _ => True := by
  unfold Env.assign
  rw [onEnv_get]
  refine Agree.get (fun s' hsim => by rw [sim_env hsim]) ?_
  rcases hfound : s.env.resolve scope name with d | _ | owner
  · refine fun _ hsim => .error hsim hinv (Leads.refl s) fun htight => ?_
    obtain ⟨r, heq, -⟩ := Env.resolve_total (hlinked htight) name (hlive htight)
    rw [hfound] at heq
    cases heq
  · exact Agree.pure hinv trivial
  · have hliveO : D.Live s (.scope owner) := by
      intro htight
      obtain ⟨r, heq, hinside⟩ := Env.resolve_total (hlinked htight) name (hlive htight)
      rw [hfound] at heq
      exact hinside owner (Except.ok.inj heq).symm
    have hmay : D.MayBind s owner name := fun _ => .inr (.inl (Env.resolve_binds hfound))
    dsimp only
    rw [onEnv_bind]
    exact (Does.bindVariable hinv hliveO hmay hgood).bind
      fun _ t hinv _ _ => Agree.pure hinv trivial

/-- The index leads from a literal and a scope to the closure that is captured. -/
theorem Does.capture (hinv : D.Inv s) {scope : ScopeId} (hlive : D.Live s (.scope scope)) {f : Func}
    (hstands : D.Stands s scope (.func f)) :
    D.Does but s (Walk.onClosures (Closures.captureId scope f)) fun id t =>
      t.closures.bySite.place? (f.id, scope) = some id := by
  have hplace : D.placed → scope = Env.global ∨ s.HasEntry (.scope scope) := fun hplaced =>
    (hstands.2 hplaced).imp_right fun ⟨_, _, hframe, _⟩ =>
      hframe.hasEntry (hinv.indexed (D.keyed_of_placed hplaced))
  refine Agree.onClosures (.capture scope f) rfl hinv ⟨?_, ?_, hstands.1, hplace⟩ ?_ ?_
  · exact List.forall_mem_singleton.mpr D.never
  · exact List.forall_mem_singleton.mpr hlive
  · intro id cs hcaptured
    change (after (Closures.captureId scope f) s.closures).bySite.place? _ = _
    rw [after, hcaptured]
    exact Closures.captureId_spec hcaptured
  · intro d cs hfailed
    rw [Closures.captureId_apply] at hfailed
    split at hfailed <;> cases hfailed

/-- A call is recorded: its arguments and its result may be stored. -/
theorem Does.recordCall (hinv : D.Inv s) {id : ClosureId} (hlive : D.Live s (.closure id))
    {args : List Ty} (hgoods : ∀ a ∈ args, D.Good s a) {ret : Ty} (hgood : D.Good s ret) :
    D.Does but s (Walk.onClosures (Closures.recordCall id args ret)) fun _ _ => True := by
  refine Agree.onClosures (.record id args ret) rfl hinv ⟨?_, nofun, trivial⟩
    (fun _ _ _ => trivial) ?_
  · exact List.forall_mem_cons.mpr ⟨D.prim .undefined, List.forall_mem_cons.mpr ⟨hgood, hgoods⟩⟩
  · intro d cs hfailed htight
    obtain ⟨x, hfound⟩ := hlive.closure htight
    rw [Closures.recordCall_apply, hfound] at hfailed
    cases hfailed

theorem Does.markSelfReferential (hinv : D.Inv s) {id : ClosureId}
    (hlive : D.Live s (.closure id)) :
    D.Does but s (Walk.onClosures (Closures.markSelfReferential id)) fun _ _ => True := by
  refine Agree.onClosures (.mark id) rfl hinv ⟨nofun, nofun, trivial⟩ (fun _ _ _ => trivial) ?_
  intro d cs hfailed htight
  obtain ⟨x, hfound⟩ := hlive.closure htight
  rw [Closures.markSelfReferential_apply, hfound] at hfailed
  cases hfailed

/-- The index leads to the cell of a site afterwards. -/
theorem Does.cellFor (hinv : D.Inv s) {site : AllocSite} (hscope : D.Live s (.scope site.scope))
    (hctor : ∀ id, site.ctor = some id → D.Live s (.ctor id)) :
    D.Does but s (Walk.onHeap (Heap.cellFor site)) fun id t =>
      t.heap.bySite.place? site = some id := by
  refine Agree.onHeap (.alloc site) rfl hinv ⟨nofun, ?_, trivial⟩ ?_ ?_
  · refine List.forall_mem_cons.mpr ⟨hscope, fun d hmem => ?_⟩
    obtain ⟨id, hmem', rfl⟩ := List.mem_map.mp hmem
    exact hctor id (Option.mem_toList.mp hmem')
  · intro id h hmade
    change (after (Heap.cellFor site) s.heap).bySite.place? site = some id
    rw [after, hmade]
    exact Heap.cellFor_spec hmade
  · intro d h hfailed
    rw [Heap.cellFor_apply] at hfailed
    split at hfailed <;> cases hfailed

/-- A type that may be stored is written to a field of a live cell. -/
theorem Does.writeCell (hinv : D.Inv s) {id : CellId} (hlive : D.Live s (.cell id)) (name : String)
    {t : Ty} (hgood : D.Good s t) :
    D.Does but s (Walk.onHeap (Heap.writeCell id name t)) fun _ _ => True := by
  refine Agree.onHeap (.field id name t) rfl hinv ⟨?_, nofun, trivial⟩ (fun _ _ _ => trivial) ?_
  · exact List.forall_mem_singleton.mpr hgood
  · intro d h hfailed htight
    obtain ⟨x, hfound⟩ := hlive.cell htight
    rw [Heap.writeCell_apply, hfound] at hfailed
    dsimp only at hfailed
    split at hfailed <;> cases hfailed

/-- The index leads to the constructor of a closure afterwards. -/
theorem Does.ctorFor (hinv : D.Inv s) {closure : ClosureId} {c : Closure}
    (hfound : s.closures.table[closure]? = some c) :
    D.Does but s (Walk.onProtos (Protos.ctorFor closure c.func.name)) fun id t =>
      t.protos.find? closure = some id := by
  refine Agree.onProtos (.ctor closure c.func.name) rfl hinv ⟨nofun, ?_, c, hfound, rfl⟩ ?_ ?_
  · refine List.forall_mem_singleton.mpr fun _ => ?_
    exact (Array.getElem?_eq_some_iff.mp hfound).1
  · intro id g hmade
    change (after (Protos.ctorFor closure c.func.name) s.protos).find? closure = some id
    rw [after, hmade]
    exact Protos.ctorFor_spec hmade
  · intro d g hfailed
    rw [Protos.ctorFor_apply] at hfailed
    split at hfailed <;> cases hfailed

/-- Altering a constructor fails only when it does not exist. -/
theorem not_tight_of_alter {id : CtorId} {changed : Ctor → Bool} {f : Ctor → Ctor}
    (hlive : D.Live s (.ctor id)) {d : Dangling} {g : Protos}
    (hfailed : Protos.alter id changed f s.protos = .error d g) : ¬ D.tight := by
  intro htight
  obtain ⟨x, hfound⟩ := hlive.ctor htight
  rw [Protos.alter_apply, hfound] at hfailed
  dsimp only at hfailed
  split at hfailed <;> cases hfailed

/-- A type that may be stored becomes a method of a live constructor. -/
theorem Does.defineMethod (hinv : D.Inv s) {id : CtorId} (hlive : D.Live s (.ctor id))
    (name : String) {t : Ty} (hgood : D.Good s t) :
    D.Does but s (Walk.onProtos (Protos.defineMethod id name t)) fun _ _ => True :=
  Agree.onProtos (.method id name t) rfl hinv
    ⟨List.forall_mem_singleton.mpr hgood, nofun, trivial⟩ (fun _ _ _ => trivial)
    fun _ _ hfailed => not_tight_of_alter hlive hfailed

theorem Does.recordOwnField (hinv : D.Inv s) {id : CtorId} (hlive : D.Live s (.ctor id))
    (name : String) {t : Ty} (hgood : D.Good s t) :
    D.Does but s (Walk.onProtos (Protos.recordOwnField id name t)) fun _ _ => True :=
  Agree.onProtos (.ownField id name t) rfl hinv
    ⟨List.forall_mem_singleton.mpr hgood, nofun, trivial⟩ (fun _ _ _ => trivial)
    fun _ _ hfailed => not_tight_of_alter hlive hfailed

/-- A link between live constructors. -/
theorem Does.addParent (hinv : D.Inv s) {id parent : CtorId} (hlive : D.Live s (.ctor id))
    (hliveP : D.Live s (.ctor parent)) :
    D.Does but s (Walk.onProtos (Protos.addParent id parent)) fun _ _ => True :=
  Agree.onProtos (.parent id parent) rfl hinv
    ⟨nofun, List.forall_mem_singleton.mpr hliveP, trivial⟩ (fun _ _ _ => trivial)
    fun _ _ hfailed => not_tight_of_alter hlive hfailed

/-- A shared table between live constructors; a constructor shares nothing with itself. -/
theorem Does.share (hinv : D.Inv s) {id other : CtorId} (hlive : D.Live s (.ctor id))
    (hliveO : D.Live s (.ctor other)) :
    D.Does but s (Walk.onProtos (Protos.share id other)) fun _ _ => True := by
  refine Agree.onProtos (.share id other) rfl hinv
    ⟨nofun, List.forall_mem_singleton.mpr hliveO, trivial⟩ (fun _ _ _ => trivial) ?_
  intro d g hfailed
  rw [Protos.share_apply] at hfailed
  split at hfailed
  · cases hfailed
  · exact not_tight_of_alter hlive hfailed

theorem Does.markAnalysed (hinv : D.Inv s) {id : CtorId} (hlive : D.Live s (.ctor id)) :
    D.Does but s (Walk.onProtos (Protos.markAnalysed id)) fun _ _ => True := by
  refine Agree.onProtos (.analysed id) rfl hinv ⟨nofun, nofun, trivial⟩ (fun _ _ _ => trivial) ?_
  intro d g hfailed htight
  obtain ⟨x, hfound⟩ := hlive.ctor htight
  rw [Protos.markAnalysed_apply, hfound] at hfailed
  cases hfailed

/-- The scope of an activation. -/
theorem Does.enter (hinv : D.Inv s) {key : ActivationKey} {c : Closure}
    (hfound : s.closures.table[key.closure]? = some c) (hcaller : D.Live s (.scope key.caller)) :
    D.Does but s (Walk.onEnv (Env.enter key c.scope (some c.func.id))) fun r t =>
      t.IsFrame r.1 key.closure c.func := by
  refine Agree.onEnv (.enter key c.scope (some c.func.id)) rfl hinv
    ⟨nofun, ?_, c, hfound, rfl, rfl⟩ ?_ ?_
  · have hparent : D.Live s (.scope c.scope) :=
      hinv.live _ (s.closure_handles (Entry.handles_subset hfound List.mem_cons_self))
    have hclosure : D.Live s (.closure key.closure) := fun _ =>
      (Array.getElem?_eq_some_iff.mp hfound).1
    exact List.forall_mem_cons.mpr ⟨hparent, List.forall_mem_cons.mpr
      ⟨hclosure, List.forall_mem_singleton.mpr hcaller⟩⟩
  · intro r e hentered
    refine ⟨key, c, ?_, rfl, hfound, rfl⟩
    change (after (Env.enter key c.scope (some c.func.id)) s.env).activations.place? key = _
    rw [after, hentered]
    exact Env.enter_spec hentered
  · intro d e hfailed
    rw [Env.enter_apply] at hfailed
    split at hfailed <;> cases hfailed

/-! ### Notes for the report -/

/-- A type that may be stored is recorded for a node. -/
theorem Does.record (hinv : D.Inv s) (node : NodeId) {t : Ty} (hgood : D.Good s t) :
    D.Does but s (Walk.record node t) fun _ _ => True :=
  Agree.modify (u := .record node t) (fun _ _ => rfl) hinv
    ⟨List.forall_mem_singleton.mpr hgood, nofun, trivial⟩ rfl trivial

theorem Does.noteAccess (hinv : D.Inv s) (node : NodeId) :
    D.Does but s (Walk.noteAccess node) fun _ _ => True :=
  Agree.modify (u := .access node) (fun _ _ => rfl) hinv ⟨nofun, nofun, trivial⟩ rfl trivial

theorem Does.emit (hinv : D.Inv s) (e : Event) : D.Does but s (Walk.emit e) fun _ _ => True :=
  Agree.modify (u := .event e) (fun _ _ => rfl) hinv ⟨nofun, nofun, trivial⟩ rfl trivial

/-- A name is noted as unbound when it may be read. -/
theorem Does.noteUnbound (hinv : D.Inv s) {name : String} (hmay : D.MayRead name) :
    D.Does but s (noteUnbound name) fun _ _ => True := by
  refine Agree.modify (u := .unbound name) (fun s' _ => ?_) hinv ⟨nofun, nofun, hmay⟩ rfl trivial
  simp only [Update.apply]
  split <;> rfl

/-- A live scope is listed for a function. -/
theorem Does.noteScope (hinv : D.Inv s) (func : NodeId) {scope : ScopeId}
    (hlive : D.Live s (.scope scope)) : D.Does but s (noteScope func scope) fun _ _ => True :=
  Agree.modify (u := .noteScope func scope) (fun _ _ => rfl) hinv
    ⟨nofun, List.forall_mem_singleton.mpr hlive, trivial⟩ rfl trivial

/-- An error is reported, where the discipline has reports. -/
theorem Does.report (hinv : D.Inv s) (hreports : D.reports) (m : Malformed) :
    D.Does but s (report m) fun _ _ => True :=
  Agree.modify (u := .report m) (fun _ _ => rfl) hinv ⟨nofun, nofun, hreports⟩ rfl trivial

/-- A `return` is noted for the innermost call, and is malformed outside of calls. -/
theorem Does.addReturn (hinv : D.Inv s) (node : NodeId) (span : Span) {t : Ty}
    (hgood : D.Good s t) : D.Does but s (addReturn node span t) fun _ _ => True := by
  refine Agree.get (fun s' hsim => by rw [sim_activations hsim]) ?_
  cases hcalls : s.activations with
  | nil => exact Agree.malformed hinv _ node span
  | cons a rest =>
    refine Agree.modify (u := .returns t) (fun s' hsame => ?_) hinv
      ⟨List.forall_mem_singleton.mpr hgood, nofun, trivial⟩ rfl trivial
    simp only [Update.apply, hsame, hcalls, Update.addReturns]

/-! ### Reads -/

/-- Where the discipline is tight, the parent of every scope is a scope. -/
theorem Inv.linkedEnv (hinv : D.Inv s) (htight : D.tight) : s.env.Linked := by
  intro i x p hfound hparent
  refine hinv.live (.scope p) (s.scope_handles (Entry.handles_subset hfound ?_)) htight
  exact List.mem_map.mpr ⟨p, Option.mem_toList.mpr hparent, rfl⟩

/-- Where the discipline is tight, all links of the prototype graph lead to constructors. -/
theorem Inv.linkedProtos (hinv : D.Inv s) (htight : D.tight) : s.protos.Linked := by
  intro i c l hfound hlink
  refine hinv.live (.ctor l) (s.ctor_handles (Entry.handles_subset hfound ?_)) htight
  refine List.mem_append_right _ (List.mem_map.mpr ⟨l, ?_, rfl⟩)
  exact List.mem_append.mpr (List.mem_append.mp hlink).symm

/-- A variable that is read has a type that may be stored, if it is bound. -/
theorem Does.readScope (hinv : D.Inv s) {scope : ScopeId} (hlive : D.Live s (.scope scope))
    (name : String) :
    D.Does but s (Walk.ask fun s => s.env.get? scope name) D.GoodOpt := by
  refine Agree.ask hinv (fun s' hsim => by rw [sim_env hsim]) ?_ ?_
  · rintro r hfound u rfl
    exact hinv.good u (s.scope_types (Env.get?_mem hfound))
  · intro d hfailed htight
    obtain ⟨r, heq⟩ := Env.get?_total (hinv.linkedEnv htight) name (hlive htight)
    rw [heq] at hfailed
    cases hfailed

/-- A live closure is read as it stands in the table. -/
theorem Does.askClosure (hinv : D.Inv s) {id : ClosureId} (hlive : D.Live s (.closure id)) :
    D.Does but s (Walk.ask fun s => s.closures.closure id) fun c t =>
      t.closures.table[id]? = some c := by
  refine Agree.ask hinv (fun s' hsim => by rw [sim_closures hsim]) ?_ ?_
  · intro c hfound
    unfold Closures.closure at hfound
    split at hfound
    · next hget =>
      cases hfound
      exact hget
    · cases hfound
  · intro d hfailed htight
    obtain ⟨x, hfound⟩ := hlive.closure htight
    rw [Closures.closure, hfound] at hfailed
    cases hfailed

theorem Does.askCtor (hinv : D.Inv s) {id : CtorId} (hlive : D.Live s (.ctor id)) :
    D.Does but s (Walk.ask fun s => s.protos.ctor id) fun c t =>
      t.protos.ctors[id]? = some c := by
  refine Agree.ask hinv (fun s' hsim => by rw [sim_protos hsim]) ?_ ?_
  · exact fun c hfound => Protos.ctor_eq_ok hfound
  · intro d hfailed htight
    obtain ⟨x, -, hfound⟩ := Protos.ctor_total (hlive htight)
    rw [hfound] at hfailed
    cases hfailed

theorem Does.askCell (hinv : D.Inv s) {id : CellId} (hlive : D.Live s (.cell id)) :
    D.Does but s (Walk.ask fun s => s.heap.cell id) fun c t => t.heap.cells[id]? = some c := by
  refine Agree.ask hinv (fun s' hsim => by rw [sim_heap hsim]) ?_ ?_
  · exact fun c hfound => Heap.cell_eq_ok hfound
  · intro d hfailed htight
    obtain ⟨x, -, hfound⟩ := Heap.cell_total (hlive htight)
    rw [hfound] at hfailed
    cases hfailed

/-- What is found in a field is a join of stored types, so it may be stored. -/
theorem Does.lookupField (hinv : D.Inv s) {o : ObjTy} (hgood : D.Good s (.obj o)) (name : String) :
    D.Does but s (Walk.ask fun s => s.heap.lookupField o name) D.GoodOpt := by
  refine Agree.ask hinv (fun s' hsim => by rw [sim_heap hsim]) ?_ ?_
  · rintro r hfound u rfl
    refine Heap.lookupField_good (fun _ _ => D.join) (fun v hmem => ?_) (fun e => D.field hgood)
      hfound
    exact hinv.good v (s.cell_types hmem)
  · intro d hfailed htight
    obtain ⟨r, heq⟩ := Heap.lookupField_total (D.cellHandles htight hgood) name
    rw [heq] at hfailed
    cases hfailed

/-- What is found along the prototype chain is a join of stored types, so it may be stored. -/
theorem Does.findMethod (hinv : D.Inv s) {receiver : Ty} (hgood : D.Good s receiver)
    (name : String) :
    D.Does but s (Walk.ask fun s => s.protos.findMethod receiver name) D.GoodOpt := by
  refine Agree.ask hinv (fun s' hsim => by rw [sim_protos hsim]) ?_ ?_
  · rintro r hfound u rfl
    refine Protos.findMethod_good (fun _ _ => D.join) (fun v hmem => ?_) hfound
    exact hinv.good v (s.ctor_types hmem)
  · intro d hfailed htight
    have hinside : ∀ o, receiver.objPart? = some o →
        ∀ id ∈ o.ctors ++ o.protoOf, id < s.protos.ctors.size := fun o hpart =>
      D.ctorHandles htight (D.member hgood (Ty.mem_members_of_objPart? hpart))
    obtain ⟨r, heq⟩ := Protos.findMethod_total (hinv.linkedProtos htight) hinside name
    rw [heq] at hfailed
    cases hfailed

/-- The ancestors of a live constructor are live. -/
theorem Does.ancestors (hinv : D.Inv s) {id : CtorId} (hlive : D.Live s (.ctor id)) :
    D.Does but s (Walk.ask fun s => s.protos.ancestors id) fun ids t =>
      ∀ a ∈ ids, D.Live t (.ctor a) := by
  refine Agree.ask hinv (fun s' hsim => by rw [sim_protos hsim]) ?_ ?_
  · intro ids hfound a hmem htight
    obtain ⟨reached, heq, hinside⟩ := Protos.ancestors_total (hinv.linkedProtos htight)
      (hlive htight)
    cases hfound.symm.trans heq
    exact hinside a hmem
  · intro d hfailed htight
    obtain ⟨reached, heq, -⟩ := Protos.ancestors_total (hinv.linkedProtos htight) (hlive htight)
    rw [heq] at hfailed
    cases hfailed

/-- The fields of an instance have types that may be stored. -/
theorem Does.instanceFields (hinv : D.Inv s) {id : CtorId} (hlive : D.Live s (.ctor id)) :
    D.Does but s (Walk.ask fun s => s.protos.instanceFields id) fun fields t =>
      ∀ e ∈ fields, D.Good t e.2 := by
  refine Agree.ask hinv (fun s' hsim => by rw [sim_protos hsim]) ?_ ?_
  · intro fields hfound e hmem
    refine hinv.good e.2 (s.ctor_types (Protos.instanceFields_mem hfound ?_))
    exact List.mem_map.mpr ⟨e, hmem, rfl⟩
  · intro d hfailed htight
    obtain ⟨fields, heq⟩ := Protos.instanceFields_total (hinv.linkedProtos htight) (hlive htight)
    rw [heq] at hfailed
    cases hfailed

end Discipline

end TypeFlow
