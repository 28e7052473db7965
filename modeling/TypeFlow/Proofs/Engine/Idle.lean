import Mathlib
import TypeFlow.Proofs.Engine.Isolation

/-!
# Idle computations

Most of what a walk does on its way neither captures a function nor calls one, and no malformation
stops it: reading and writing variables and properties, recording types, and binding what a call
needs.

## Main Definitions

* `Run.Idles` - two states between which nothing was captured and no call recorded
* `Walk.Idle` - the computations that do no more

## Main Statements

* `Walk.Idle.bind` and the rules beside it
* `Walk.Idle.readMember`, `Walk.Idle.writeMember` - properties
* `Walk.Idle.readTarget`, `Walk.Idle.writeTarget` - what is assigned to
-/

namespace TypeFlow

open Walk

/-- A later state with the same closures and as many running calls, and with types for all nodes
that had one. -/
structure Run.Idles (s t : Run) : Prop where
  closures : t.closures = s.closures
  types : ∀ id, (OrdMap.get? s.nodeTypes id).isSome = true →
    (OrdMap.get? t.nodeTypes id).isSome = true
  depth : t.activations.length = s.activations.length

/-- A computation that captures nothing and records no call, and that no malformation stops. -/
structure Walk.Idle {α : Type} (m : Walk α) : Prop where
  calm : m.Calm
  idles : ∀ s : Run, s.Idles (after m s)

theorem Run.Idles.refl (s : Run) : s.Idles s :=
  ⟨rfl, fun _ hhas => hhas, rfl⟩

/-- What idles after idling idles. -/
theorem Run.Idles.trans {s t r : Run} (h : s.Idles t) (h' : t.Idles r) : s.Idles r :=
  ⟨h'.closures.trans h.closures, fun id hhas => h'.types id (h.types id hhas),
    h'.depth.trans h.depth⟩

namespace Walk.Idle

variable {α β : Type}

theorem pure (a : α) : Idle (pure a : Walk α) :=
  ⟨.pure a, .refl⟩

/-- Idle computations one after the other. -/
theorem bind {m : Walk α} {f : α → Walk β} (h : m.Idle) (hnext : ∀ a, (f a).Idle) :
    (m >>= f).Idle := by
  refine ⟨h.calm.bind fun a => (hnext a).calm, fun s => ?_⟩
  have hfirst := h.idles s
  rw [after_bind]
  unfold after at hfirst
  cases hran : m s with
  | ok a t =>
    rw [hran] at hfirst
    exact hfirst.trans ((hnext a).idles t)
  | error e t =>
    rw [hran] at hfirst
    exact hfirst

/-- A change of the state that leaves closures, calls and types alone. -/
theorem modify {f : Run → Run} (h : ∀ s : Run, s.Idles (f s)) : Idle (modify f) :=
  ⟨.modify f, h⟩

/-- What is done with the state that was read has to be idle. -/
theorem read {f : Run → Walk α} (hnext : ∀ s, (f s).Idle) : Idle (get >>= f) :=
  bind ⟨fun _ _ _ => nofun, .refl⟩ hnext

/-- A read changes nothing, and only a missing entry can stop it. -/
theorem ask (look : Run → Except Dangling α) : Idle (Walk.ask look) := by
  refine ⟨.ask look, fun s => ?_⟩
  unfold after Walk.ask
  cases look s <;> exact .refl s

/-- The environment holds no closures and no recorded types. -/
theorem onEnv (m : EStateM Dangling Env α) : Idle (Walk.onEnv m) := by
  refine ⟨.onEnv m, fun s => ?_⟩
  unfold after Walk.onEnv
  cases m s.env <;> exact ⟨rfl, fun _ hhas => hhas, rfl⟩

/-- The heap holds no closures and no recorded types. -/
theorem onHeap (m : EStateM Dangling Heap α) : Idle (Walk.onHeap m) := by
  refine ⟨fun s e t hstopped => ?_, fun s => ?_⟩
  · rw [Walk.onHeap] at hstopped
    split at hstopped <;> cases hstopped
  · unfold after Walk.onHeap
    cases m s.heap <;> exact ⟨rfl, fun _ hhas => hhas, rfl⟩

/-- The prototype graph holds no closures and no recorded types. -/
theorem onProtos (m : EStateM Dangling Protos α) : Idle (Walk.onProtos m) := by
  refine ⟨fun s e t hstopped => ?_, fun s => ?_⟩
  · rw [Walk.onProtos] at hstopped
    split at hstopped <;> cases hstopped
  · unfold after Walk.onProtos
    cases m s.protos <;> exact ⟨rfl, fun _ hhas => hhas, rfl⟩

theorem ite {c : Prop} [Decidable c] {m n : Walk α} (hidle : m.Idle) (hidle' : n.Idle) :
    Idle (if c then m else n) := by
  split
  · exact hidle
  · exact hidle'

/-- An idle computation that is done under a condition. -/
theorem when {c : Prop} [Decidable c] {m : Walk Unit} (h : m.Idle) : Idle (Walk.when c m) :=
  ite h (pure ())

/-! ### What a walk does on the way -/

theorem emit (e : Event) : Idle (emit e) :=
  modify fun _ => ⟨rfl, fun _ hhas => hhas, rfl⟩

theorem noteAccess (node : NodeId) : Idle (noteAccess node) :=
  modify fun _ => ⟨rfl, fun _ hhas => hhas, rfl⟩

theorem thisType : Idle thisType :=
  read fun _ => pure _

/-- A type that is recorded is added to those that nodes have. -/
theorem record (node : NodeId) (t : Ty) : Idle (record node t) :=
  modify fun _ => ⟨rfl, fun _ hhas => OrdMap.isSome_get?_upsert _ _ _ _ hhas, rfl⟩

/-- A variable is read, or noted as unbound. -/
theorem readVariable (scope : ScopeId) (name : String) : Idle (readVariable scope name) := by
  refine (ask _).bind fun found => ?_
  cases found with
  | some t => exact pure t
  | none =>
    refine (modify fun s => ?_).bind fun _ => pure _
    split <;> exact ⟨rfl, fun _ hhas => hhas, rfl⟩

/-- A variable is written, as a new global when no scope has its name. -/
theorem writeVariable (scope : ScopeId) (name : String) (t : Ty) :
    Idle (writeVariable scope name t) := by
  refine (onEnv _).bind fun found => ?_
  cases found with
  | some _ => exact pure ()
  | none => exact (onEnv _).bind fun _ => pure ()

theorem ctorOf (closure : ClosureId) : Idle (ctorOf closure) :=
  (ask _).bind fun _ => onProtos _

/-- The prototype objects of functions: constructors are added, closures are not. -/
theorem prototypesOf (acc : Ty) (cs : List ClosureId) : Idle (prototypesOf acc cs) := by
  induction cs generalizing acc with
  | nil => exact pure acc
  | cons c cs ih => exact (ctorOf c).bind fun ctor => ih _

theorem memberOf (t : Ty) (property : String) : Idle (memberOf t property) := by
  unfold TypeFlow.memberOf
  split
  · refine (ask _).bind fun found => ?_
    cases found with
    | some found => exact pure _
    | none => exact ask _
  · exact ite ((prototypesOf _ _).bind fun _ => pure _)
      (ite (pure _) (ite (pure _) (ite (pure _) (pure _))))
  · exact pure _
  · exact pure _

/-- A property is read. -/
theorem readMember (t : Ty) (property : String) : Idle (readMember t property) := by
  have hmembers (ts : List Ty) (found : Option Ty) : Idle (membersOf found property ts) := by
    induction ts generalizing found with
    | nil => exact pure found
    | cons t ts ih => exact (memberOf t property).bind fun here => ih _
  unfold TypeFlow.readMember
  split
  · exact pure _
  · exact (hmembers _ none).bind fun _ => pure _

/-- A value becomes the prototype of a constructor. -/
theorem linkPrototype (ctor : CtorId) (value : Ty) : Idle (linkPrototype ctor value) := by
  have hparents (ps : List CtorId) : Idle (addParents ctor ps) := by
    induction ps with
    | nil => exact pure ()
    | cons p ps ih => exact (onProtos _).bind fun _ => ih
  have hshares (cs : List CtorId) : Idle (shareAll ctor cs) := by
    induction cs with
    | nil => exact pure ()
    | cons c cs ih => exact (onProtos _).bind fun _ => ih
  have hmethods (fields : List (String × Ty)) : Idle (defineAll ctor fields) := by
    induction fields with
    | nil => exact pure ()
    | cons e rest ih => exact (onProtos _).bind fun _ => ih
  unfold TypeFlow.linkPrototype
  split
  · exact pure ()
  · exact (hparents _).bind fun _ => (hshares _).bind fun _ =>
      when ((ask _).bind fun _ => hmethods _)

/-- A property is written. -/
theorem writeMember (t : Ty) (property : String) (value : Ty) (through : Bool) :
    Idle (writeMember t property value through) := by
  have hmethods (cs : List CtorId) : Idle (defineMethods property value cs) := by
    induction cs with
    | nil => exact pure ()
    | cons c cs ih => exact (onProtos _).bind fun _ => ih
  have hlinks (cs : List ClosureId) : Idle (linkPrototypes value cs) := by
    induction cs with
    | nil => exact pure ()
    | cons c cs ih => exact (ctorOf c).bind fun ctor => (linkPrototype ctor value).bind fun _ => ih
  refine Idle.bind ?_ fun _ => (when ?_).bind fun _ => when ?_
  · unfold writeObject
    split
    · exact pure ()
    · exact (onHeap _).bind fun _ => hmethods _
  · unfold writePrototype
    split
    · exact pure ()
    · exact hlinks _
  · refine read fun s => ?_
    cases s.current?.bind (·.constructing) with
    | none => exact pure ()
    | some ctor => exact (onProtos _).bind fun _ => pure ()

/-- What is assigned to is read. -/
theorem readTarget (scope : ScopeId) (target : Target) : Idle (target.read scope) := by
  cases target with
  | «variable» name => exact readVariable scope name
  | member object property through => exact readMember object property
  | computed => exact pure _

/-- What is assigned to is written. -/
theorem writeTarget (scope : ScopeId) (value : Ty) (target : Target) :
    Idle (target.write scope value) := by
  cases target with
  | «variable» name => exact writeVariable scope name value
  | member object property through => exact writeMember object property value through
  | computed => exact pure _

theorem writeMissing (cell : CellId) (fields : List (String × Ty)) :
    Idle (writeMissing cell fields) := by
  induction fields with
  | nil => exact pure ()
  | cons e rest ih => exact (ask _).bind fun c => ite ih ((onHeap _).bind fun _ => ih)

/-- The variables of a body are bound. -/
theorem hoistVars (scope : ScopeId) (names : List String) : Idle (hoistVars scope names) := by
  induction names with
  | nil => exact pure ()
  | cons name rest ih => exact (onEnv _).bind fun _ => ih

/-- The scope of a call is found, or added. -/
theorem enterScope (c : Closure) (call : Call) : Idle (enterScope c call) := by
  have hnotes (func : NodeId) (scope : ScopeId) : Idle (noteScope func scope) :=
    modify fun _ => ⟨rfl, fun _ hhas => hhas, rfl⟩
  exact (onEnv _).bind fun entered => (when (hnotes _ _)).bind fun _ => pure _

/-- The parameters of a call are bound. -/
theorem bindParams (scope : ScopeId) (params : List String) (args : List Ty) :
    Idle (bindParams scope params args) := by
  induction params generalizing args with
  | nil => exact pure ()
  | cons p ps ih => exact (onEnv _).bind fun _ => ih _

theorem bindSelf (scope : ScopeId) (id : ClosureId) (f : Func) : Idle (bindSelf scope id f) := by
  unfold TypeFlow.bindSelf
  split
  · exact pure ()
  · exact ite (pure ()) ((onEnv _).bind fun _ => pure ())

/-- A constructor is noted as run. -/
theorem noteConstructing (ctor : Option CtorId) : Idle (noteConstructing ctor) := by
  cases ctor with
  | none => exact pure ()
  | some ctor => exact onProtos _

end Walk.Idle

end TypeFlow
