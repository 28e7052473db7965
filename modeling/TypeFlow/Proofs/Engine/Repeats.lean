import Mathlib
import TypeFlow.Proofs.Engine.Replay

/-!
# Steps that can be repeated

The single steps of a walk, apart from calls: what they read is the same when they are repeated, and
what they write is there already.

## Main Definitions

* `Repeats` - computations that keep coherent states coherent and can be repeated

## Main Statements

* `Repeats.readVariable`, `Repeats.writeVariable` - variables
* `Repeats.readMember`, `Repeats.writeMember` - properties of values
* `Proceeds.enterScope`, `Proceeds.captureFunc` - activation scopes and closures

## Design Notes

A variable is looked up along the parents of a scope, which all come before it, so scopes that are
added later are never met.
-/

namespace TypeFlow

open Walk

/-! ### Larger tables -/

namespace Env

variable {e e' : Env}

/-- More scopes and more steps along the parents make no difference, when parents come first. -/
theorem resolveIn_keptIn (hkept : e.KeptIn e')
    (hordered : ∀ (σ : ScopeId) x p, e.scopes[σ]? = some x → x.parent = some p → p < σ)
    (name : String) {steps steps' : Nat} {σ : ScopeId} {x : Scope}
    (hfound : e.scopes[σ]? = some x) (hlt : σ < steps) (hlt' : σ < steps') :
    e'.resolveIn name steps' σ = e.resolveIn name steps σ := by
  induction steps generalizing steps' σ x with
  | zero => exact absurd hlt (Nat.not_lt_zero _)
  | succ steps ih =>
    cases steps' with
    | zero => exact absurd hlt' (Nat.not_lt_zero _)
    | succ steps' =>
      rw [resolveIn, resolveIn, scope, scope, hkept.scopes σ x hfound, hfound]
      dsimp only
      split
      · rfl
      cases hparent : x.parent with
      | none => rfl
      | some p =>
        have hbefore : p < σ := hordered σ x p hfound hparent
        have hinside : p < e.scopes.size := hbefore.trans (Array.getElem?_eq_some_iff.mp hfound).1
        exact ih (Array.getElem?_eq_getElem hinside)
          (Nat.lt_of_lt_of_le hbefore (Nat.le_of_lt_succ hlt))
          (Nat.lt_of_lt_of_le hbefore (Nat.le_of_lt_succ hlt'))

/-- A name that was resolved is resolved to the same scope as long as its scopes are kept: the walk
goes to smaller scopes only, and never meets one that was added. -/
theorem resolve_keptIn (hkept : e.KeptIn e')
    (hordered : ∀ (σ : ScopeId) x p, e.scopes[σ]? = some x → x.parent = some p → p < σ)
    {σ : ScopeId} {name : String} {r : Option ScopeId} (hfound : e.resolve σ name = .ok r) :
    e'.resolve σ name = .ok r := by
  cases hget : e.scopes[σ]? with
  | none =>
    rw [resolve, resolveIn, scope, hget] at hfound
    cases hfound
  | some x =>
    have hinside := (Array.getElem?_eq_some_iff.mp hget).1
    have hinside' := (Array.getElem?_eq_some_iff.mp (hkept.scopes σ x hget)).1
    rw [← hfound]
    exact resolveIn_keptIn hkept hordered name hget (Nat.lt_succ_of_lt hinside)
      (Nat.lt_succ_of_lt hinside')

/-- What a name is bound to along the scopes is the same as long as they are kept. -/
theorem get?_keptIn (hkept : e.KeptIn e')
    (hordered : ∀ (σ : ScopeId) x p, e.scopes[σ]? = some x → x.parent = some p → p < σ)
    {σ : ScopeId} {name : String} {r : Option Ty} (hfound : e.get? σ name = .ok r) :
    e'.get? σ name = .ok r := by
  rw [get?_eq] at hfound ⊢
  rcases hresolved : e.resolve σ name with d | _ | owner
  · rw [hresolved] at hfound
    cases hfound
  · rw [hresolved] at hfound
    rw [resolve_keptIn hkept hordered hresolved]
    exact hfound
  · rw [hresolved] at hfound
    rw [resolve_keptIn hkept hordered hresolved]
    dsimp only at hfound ⊢
    cases hget : e.scopes[owner]? with
    | none =>
      rw [scope, hget] at hfound
      cases hfound
    | some x =>
      rw [scope, hget] at hfound
      rw [scope, hkept.scopes owner x hget]
      exact hfound

/-- A write to a variable that changes nothing changes nothing in a larger environment. -/
theorem bind_keptIn {σ : ScopeId} {name : String} {t : Ty} {a : Bool}
    (hran : bind σ name t e = .ok a e') (hchanges : e'.changes = e.changes) :
    e' = e ∧ ∀ y, e.KeptIn y → bind σ name t y = .ok a y := by
  rw [bind_apply] at hran
  cases hfound : e.scopes[σ]? with
  | none =>
    rw [hfound] at hran
    cases hran
  | some x =>
    cases hwidens : Fields.widens x.bindings name t with
    | true =>
      simp only [hfound, hwidens, if_true] at hran
      cases hran
      exact absurd hchanges (Nat.succ_ne_self _)
    | false =>
      simp only [hfound, hwidens, Bool.false_eq_true, if_false] at hran
      cases hran
      refine ⟨rfl, fun y hkept => ?_⟩
      simp only [bind_apply, hkept.scopes σ x hfound, hwidens, Bool.false_eq_true, if_false]

/-- An assignment that succeeds found no scope that binds the name, or wrote to it there. -/
theorem assign_cases {σ : ScopeId} {name : String} {t : Ty} {r : Option ScopeId}
    (hran : assign σ name t e = .ok r e') :
    (e.resolve σ name = .ok none ∧ r = none ∧ e' = e) ∨
      ∃ owner a, e.resolve σ name = .ok (some owner) ∧ r = some owner ∧
        bind owner name t e = .ok a e' := by
  rw [assign_apply] at hran
  rcases hresolved : e.resolve σ name with d | _ | owner
  · rw [hresolved] at hran
    cases hran
  · rw [hresolved] at hran
    cases hran
    exact Or.inl ⟨rfl, rfl, rfl⟩
  · rw [hresolved] at hran
    dsimp only at hran
    cases hbound : bind owner name t e with
    | error d y =>
      rw [hbound] at hran
      cases hran
    | ok a y =>
      rw [hbound] at hran
      cases hran
      exact Or.inr ⟨owner, a, rfl, rfl, hbound⟩

end Env

/-- An operation on a constructor that is not counted has changed nothing. -/
theorem Protos.eq_of_alter {g g' : Protos} {id : CtorId} {changed : Ctor → Bool} {f : Ctor → Ctor}
    {a : Bool} (hran : alter id changed f g = .ok a g') (hchanges : g'.changes = g.changes) :
    g' = g := by
  rw [alter_apply] at hran
  split at hran
  · cases hran
  · split at hran
    · cases hran
      exact absurd hchanges (Nat.succ_ne_self _)
    · cases hran
      rfl

/-! ### Computations that can be repeated wherever they happen -/

/-- A computation that keeps coherent states coherent, and that can be repeated. -/
def Repeats {α : Type} (m : Walk α) : Prop :=
  ∀ pending u, u.Coherent pending → Proceeds True none u m m fun _ t => t.Coherent pending

namespace Repeats

open Discipline

variable {α β : Type}

/-- A step that can be repeated proceeds from every coherent state. -/
theorem proceeds {m : Walk α} (h : Repeats m) {inside : Prop} {but : Option ClosureId}
    {pending : Option (CtorId × ScopeId)} {u : Run} (hcoherent : u.Coherent pending) :
    Proceeds inside but u m m fun _ t => t.Coherent pending :=
  ((h pending u hcoherent).imp fun _ => trivial).weaken

theorem pure (a : α) : Repeats (pure a) :=
  fun _ _ hcoherent => .pure hcoherent

/-- Steps that can be repeated, one after the other. -/
theorem bind {m : Walk α} {f : α → Walk β} (hfirst : Repeats m) (hnext : ∀ a, Repeats (f a)) :
    Repeats (m >>= f) :=
  fun pending u hcoherent => (hfirst pending u hcoherent).bind fun a t _ hcoherent' =>
    hnext a pending t hcoherent'

theorem ite {c : Prop} [Decidable c] {m n : Walk α} (hrepeats : Repeats m) (hrepeats' : Repeats n) :
    Repeats (if c then m else n) :=
  fun pending u hcoherent => .ite (fun _ => hrepeats pending u hcoherent)
    fun _ => hrepeats' pending u hcoherent

/-- A step that is done under a condition on values, which is the same when it is repeated. -/
theorem when {c : Prop} [Decidable c] {m : Walk Unit} (hrepeats : Repeats m) :
    Repeats (Walk.when c m) :=
  ite hrepeats (pure ())

/-- A change of what is collected for the report concerns no table, so it can be repeated. -/
theorem note {change : Run → Run} (hdoes : ∀ u, anyWalk.Does none u (modify change) fun _ _ => True)
    (hsame : ∀ s, (change s).core = s.core) : Repeats (modify change) :=
  fun _ u hcoherent => .note (hdoes u) hsame (hcoherent.tables (.core (hsame u)))

theorem record (node : NodeId) (t : Ty) : Repeats (record node t) :=
  note (fun u => Does.record (anyWalk.inv u) node trivial) fun _ => rfl

theorem noteAccess (node : NodeId) : Repeats (noteAccess node) :=
  note (fun u => Does.noteAccess (anyWalk.inv u) node) fun _ => rfl

theorem emit (e : Event) : Repeats (emit e) :=
  note (fun u => Does.emit (anyWalk.inv u) e) fun _ => rfl

theorem noteUnbound (name : String) : Repeats (noteUnbound name) := by
  refine note (fun u => Does.noteUnbound (anyWalk.inv u) (anyWalk.mayRead name)) fun s => ?_
  split <;> rfl

/-- Reads of the heap see the same cells when they are repeated. -/
theorem askHeap (look : Heap → Except Dangling α) : Repeats (ask fun s => look s.heap) :=
  fun _ _ hcoherent => .ask (fun _ _ => hcoherent) fun _ _ _ _ hquiet hecho hfound => by
    rw [hecho.heap, hquiet.heap]
    exact hfound

/-- Reads of the prototype graph see the same constructors when they are repeated. -/
theorem askProtos (look : Protos → Except Dangling α) : Repeats (ask fun s => look s.protos) :=
  fun _ _ hcoherent => .ask (fun _ _ => hcoherent) fun _ _ _ _ hquiet hecho hfound => by
    rw [hecho.protos, hquiet.protos]
    exact hfound

/-- Reading the running calls. -/
theorem askCalls {g : List Activation → Walk α} (hnext : ∀ calls, Repeats (g calls)) :
    Repeats (get >>= fun s => g s.activations) :=
  fun pending u hcoherent => .get (hnext u.activations pending u hcoherent)
    fun _ _ _ _ _ hecho => congrArg g hecho.activations

/-- The type of `this` is that of the running call, which is the same when it is repeated. -/
theorem thisType : Repeats thisType := by
  intro pending u hcoherent
  refine .get (pure u.thisType pending u hcoherent) fun _ _ _ _ _ hecho => ?_
  rw [Run.thisType, Run.thisType, Run.current?, Run.current?, hecho.activations]

theorem depthReached (c : Closure) : Repeats (depthReached c) :=
  askCalls fun calls => bind (emit (.depthReached c.func.id calls.length)) fun _ => pure Ty.any

/-! #### Variables -/

/-- A binding that is not counted has widened nothing, so it is there already when it is
repeated. -/
theorem bindVariable (scope : ScopeId) (name : String) (t : Ty) :
    Repeats (onEnv (Env.bind scope name t)) := by
  intro pending u hcoherent
  refine .onEnv (Does.bindVariable (anyWalk.inv u) (anyWalk.live u _) (anyWalk.mayBind u _ name)
    trivial) ?_ ?_
  · intro a x hran
    have hupdated := hcoherent.apply (u := .env (.bind scope name t)) trivial
    rwa [Update.apply, Env.Write.apply, after, hran] at hupdated
  · exact fun a x hran hchanges => Env.bind_keptIn hran hchanges

/-- An assignment goes to the scope that has the name, and finds the same one when it is
repeated. -/
theorem assignVariable (scope : ScopeId) (name : String) (t : Ty) :
    Repeats (onEnv (Env.assign scope name t)) := by
  intro pending u hcoherent
  have hdoes : anyWalk.Does none u (onEnv (Env.assign scope name t)) fun _ _ => True :=
    Does.assignVariable (anyWalk.inv u) (anyWalk.live u _) nofun name trivial
  refine .onEnv hdoes ?_ ?_
  · intro r x hran
    rcases Env.assign_cases hran with ⟨-, -, rfl⟩ | ⟨owner, a, -, -, hbound⟩
    · exact hcoherent
    · have hupdated := hcoherent.apply (u := .env (.bind owner name t)) trivial
      rwa [Update.apply, Env.Write.apply, after, hbound] at hupdated
  · intro r x hran hchanges
    have hordered := hcoherent.framed.ordered
    rcases Env.assign_cases hran with ⟨hresolved, rfl, rfl⟩ | ⟨owner, a, hresolved, rfl, hbound⟩
    · refine ⟨rfl, fun y hkept => ?_⟩
      rw [Env.assign_apply, Env.resolve_keptIn hkept hordered hresolved]
    · obtain ⟨hsame, hbind⟩ := Env.bind_keptIn hbound hchanges
      refine ⟨hsame, fun y hkept => ?_⟩
      simp only [Env.assign_apply, Env.resolve_keptIn hkept hordered hresolved, hbind y hkept]

/-- A variable that is read is found in the same scope, or noted as unbound once more. -/
theorem readVariable (scope : ScopeId) (name : String) : Repeats (readVariable scope name) := by
  refine bind (fun _ u hcoherent => .ask (fun _ _ => hcoherent) ?_) fun found => ?_
  · intro base e v r hquiet hecho hread
    rw [hecho.env]
    exact Env.get?_keptIn hquiet.scopes hcoherent.framed.ordered hread
  · cases found with
    | some t => exact pure t
    | none => exact bind (noteUnbound name) fun _ => pure Ty.any

/-- A variable that is written: an unbound name becomes a global, which is there when the write
is repeated. -/
theorem writeVariable (scope : ScopeId) (name : String) (t : Ty) :
    Repeats (writeVariable scope name t) := by
  refine bind (assignVariable scope name t) fun found => ?_
  cases found with
  | some owner => exact pure ()
  | none => exact bind (bindVariable Env.global name t) fun _ => pure ()

/-- The parameters of a call are bound one by one. -/
theorem bindParams (scope : ScopeId) (params : List String) (args : List Ty) :
    Repeats (bindParams scope params args) := by
  induction params generalizing args with
  | nil => exact pure ()
  | cons p ps ih => exact bind (bindVariable scope p _) fun _ => ih args.tail

/-- The name of a function is bound to its closure, or left alone when a parameter has it. -/
theorem bindSelf (scope : ScopeId) (id : ClosureId) (f : Func) : Repeats (bindSelf scope id f) := by
  unfold TypeFlow.bindSelf
  cases f.name with
  | none => exact pure ()
  | some name => exact ite (pure ()) (bind (bindVariable scope name _) fun _ => pure ())

/-- The variables of a body are bound to nothing yet. -/
theorem hoistVars (scope : ScopeId) (names : List String) : Repeats (hoistVars scope names) := by
  induction names with
  | nil => exact pure ()
  | cons name rest ih => exact bind (bindVariable scope name .never) fun _ => ih

/-! #### Cells and constructors -/

/-- A field that is written without being counted has the type already. -/
theorem writeCell (id : CellId) (name : String) (t : Ty) :
    Repeats (onHeap (Heap.writeCell id name t)) := by
  intro pending u hcoherent
  refine .onHeap (Does.writeCell (anyWalk.inv u) (anyWalk.live u _) name trivial) ?_ ?_
  · intro a h hran
    have hupdated := hcoherent.apply (u := .heap (.field id name t)) trivial
    rwa [Update.apply, Heap.Write.apply, after, hran] at hupdated
  · intro a h hran hchanges
    rw [Heap.writeCell_apply] at hran
    split at hran
    · cases hran
    · split at hran
      · cases hran
        exact absurd hchanges (Nat.succ_ne_self _)
      · cases hran
        rfl

/-- A write to several cells, one after the other. -/
theorem writeCells (name : String) (t : Ty) (ids : List CellId) :
    Repeats (onHeap (Heap.writeCells name t ids)) := by
  induction ids with
  | nil => exact pure false
  | cons id rest ih =>
    rw [Heap.writeCells, onHeap_bind]
    refine bind (writeCell id name t) fun first => ?_
    rw [onHeap_bind]
    exact bind ih fun others => pure (first || others)

/-- Several fields of one cell, one after the other. -/
theorem writeAll (id : CellId) (fields : List (String × Ty)) :
    Repeats (onHeap (Heap.writeAll id fields)) := by
  induction fields with
  | nil => exact pure ()
  | cons field rest ih =>
    rw [Heap.writeAll, onHeap_bind]
    exact bind (writeCell id field.1 field.2) fun _ => ih

/-- The fields that a cell lacks are those that it lacked the first time: none, when nothing is
counted. -/
theorem writeMissing (cell : CellId) (fields : List (String × Ty)) :
    Repeats (writeMissing cell fields) := by
  induction fields with
  | nil => exact pure ()
  | cons field rest ih =>
    obtain ⟨name, t⟩ := field
    refine bind (askHeap fun h => h.cell cell) fun c => ?_
    exact ite ih (bind (writeCell cell name t) fun _ => ih)

/-- The cell of an object literal. -/
theorem createObject (node : NodeId) (scope : ScopeId) (fields : List (String × Ty)) :
    Repeats (onHeap (Heap.create ⟨node, scope, none⟩ fields)) := by
  rw [Heap.create, onHeap_bind]
  refine bind (fun pending u hcoherent => ?_) fun id => ?_
  · refine .onHeap (Does.cellFor (anyWalk.inv u) (anyWalk.live u _) fun _ hctor => by cases hctor)
      ?_ ?_
    · intro a h hran
      have hupdated := hcoherent.apply (u := .heap (.alloc ⟨node, scope, none⟩)) fun _ hctor => by
        cases hctor
      rwa [Update.apply, Heap.Write.apply, after, hran] at hupdated
    · intro a h hran hchanges
      rw [Heap.cellFor_apply] at hran
      split at hran
      · cases hran
        rfl
      · cases hran
        exact absurd hchanges (Nat.succ_ne_self _)
  · rw [onHeap_bind]
    exact bind (writeAll id fields) fun _ => pure id

/-- An operation on a constructor can be repeated when it does nothing unless it is counted. -/
theorem writeCtor {op : EStateM Dangling Protos α} (w : Protos.Write)
    (happlies : after op = w.apply) (hdoes : ∀ u, anyWalk.Does none u (onProtos op) fun _ _ => True)
    (hcounts : ∀ g a g', op g = .ok a g' → g'.changes = g.changes → g' = g) :
    Repeats (onProtos op) := by
  intro pending u hcoherent
  refine .onProtos (hdoes u) ?_ fun a g => hcounts u.protos a g
  intro a g hran
  have hupdated := hcoherent.apply (u := .protos w) trivial
  rwa [Update.apply, ← happlies, after, hran] at hupdated

/-- The constructor of a closure is added at most once. -/
theorem ctorOf (closure : ClosureId) : Repeats (ctorOf closure) := by
  intro pending u hcoherent
  refine .askClosure (fun c c' houtline => ?_) fun c hfound => ?_
  · have hfunc : c'.func = c.func := congrArg Prod.fst houtline
    rw [hfunc]
  · refine .onProtos (Does.ctorFor (anyWalk.inv u) hfound) ?_ ?_
    · intro a g hran
      have hupdated := hcoherent.apply (u := .protos (.ctor closure c.func.name)) trivial
      rwa [Update.apply, Protos.Write.apply, after, hran] at hupdated
    · intro a g hran hchanges
      rw [Protos.ctorFor_apply] at hran
      split at hran
      · cases hran
        rfl
      · cases hran
        exact absurd hchanges (Nat.succ_ne_self _)

/-- The prototype objects of functions, by their constructors. -/
theorem prototypesOf (acc : Ty) (cs : List ClosureId) : Repeats (prototypesOf acc cs) := by
  induction cs generalizing acc with
  | nil => exact pure acc
  | cons c cs ih => exact bind (ctorOf c) fun ctor => ih _

/-- A property of one alternative of a type, read from the heap and from the prototype graph. -/
theorem memberOf (t : Ty) (property : String) : Repeats (memberOf t property) := by
  cases t with
  | obj o =>
    refine bind (askHeap fun h => h.lookupField o property) fun found => ?_
    cases found with
    | some here => exact pure _
    | none => exact askProtos fun g => g.findMethod (.obj o) property
  | func f =>
    refine ite (bind (prototypesOf .never f.closures) fun _ => pure _) ?_
    exact ite (pure _) (ite (pure _) (ite (pure _) (pure _)))
  | prim p => cases p <;> exact pure _
  | _ => exact pure _

theorem membersOf (found : Option Ty) (property : String) (ts : List Ty) :
    Repeats (membersOf found property ts) := by
  induction ts generalizing found with
  | nil => exact pure found
  | cons t ts ih => exact bind (memberOf t property) fun here => ih _

/-- A property that is read from a value. -/
theorem readMember (t : Ty) (property : String) : Repeats (readMember t property) := by
  cases t with
  | never => exact pure _
  | _ => exact bind (membersOf none property _) fun found => pure _

theorem defineMethod (id : CtorId) (name : String) (t : Ty) :
    Repeats (onProtos (Protos.defineMethod id name t)) :=
  writeCtor (.method id name t) rfl
    (fun u => Does.defineMethod (anyWalk.inv u) (anyWalk.live u _) name trivial)
    fun _ _ _ => Protos.eq_of_alter

theorem defineMethods (property : String) (value : Ty) (ids : List CtorId) :
    Repeats (defineMethods property value ids) := by
  induction ids with
  | nil => exact pure ()
  | cons id rest ih => exact bind (defineMethod id property value) fun _ => ih

theorem defineAll (ctor : CtorId) (fields : List (String × Ty)) :
    Repeats (defineAll ctor fields) := by
  induction fields with
  | nil => exact pure ()
  | cons field rest ih => exact bind (defineMethod ctor field.1 field.2) fun _ => ih

theorem addParents (ctor : CtorId) (ps : List CtorId) : Repeats (addParents ctor ps) := by
  induction ps with
  | nil => exact pure ()
  | cons p ps ih =>
    refine bind (writeCtor (.parent ctor p) rfl (fun u => ?_) fun _ _ _ => Protos.eq_of_alter)
      fun _ => ih
    exact Does.addParent (anyWalk.inv u) (anyWalk.live u _) (anyWalk.live u _)

theorem share (id other : CtorId) : Repeats (onProtos (Protos.share id other)) := by
  refine writeCtor (.share id other) rfl
    (fun u => Does.share (anyWalk.inv u) (anyWalk.live u _) (anyWalk.live u _)) ?_
  intro g a g' hran hchanges
  rw [Protos.share_apply] at hran
  split at hran
  · cases hran
    rfl
  · exact Protos.eq_of_alter hran hchanges

theorem shareAll (ctor : CtorId) (cs : List CtorId) : Repeats (shareAll ctor cs) := by
  induction cs with
  | nil => exact pure ()
  | cons c cs ih => exact bind (share ctor c) fun _ => ih

/-- A value that is made the prototype of a constructor: what it links and shares is there already
when nothing is counted. -/
theorem linkPrototype (ctor : CtorId) (value : Ty) : Repeats (linkPrototype ctor value) := by
  unfold TypeFlow.linkPrototype
  cases value.objPart? with
  | none => exact pure ()
  | some o =>
    refine bind (addParents ctor o.ctors) fun _ => bind (shareAll ctor o.protoOf) fun _ => ?_
    exact when (bind (askHeap fun h => cellFields h o.cells) fun inCells => defineAll ctor _)

theorem linkPrototypes (value : Ty) (cs : List ClosureId) : Repeats (linkPrototypes value cs) := by
  induction cs with
  | nil => exact pure ()
  | cons c cs ih => exact bind (ctorOf c) fun ctor => bind (linkPrototype ctor value) fun _ => ih

/-- A property that is written to an object goes to its cells and, for a prototype object, to its
constructors. -/
theorem writeObject (t : Ty) (property : String) (value : Ty) :
    Repeats (writeObject t property value) := by
  unfold TypeFlow.writeObject
  cases t.objPart? with
  | none => exact pure ()
  | some o => exact bind (writeCells property value o.cells) fun _ => defineMethods property value _

theorem writePrototype (t value : Ty) : Repeats (writePrototype t value) := by
  unfold TypeFlow.writePrototype
  cases t.funcPart? with
  | none => exact pure ()
  | some f => exact linkPrototypes value f.closures

theorem writeOwnField (property : String) (value : Ty) :
    Repeats (writeOwnField property value) := by
  intro pending u hcoherent
  refine .get ?_ fun _ _ _ _ _ hecho => ?_
  · cases u.current?.bind (·.constructing) with
    | none => exact pure () pending u hcoherent
    | some id =>
      refine bind (writeCtor (.ownField id property value) rfl (fun u => ?_)
        fun _ _ _ => Protos.eq_of_alter) (fun _ => pure ()) pending u hcoherent
      exact Does.recordOwnField (anyWalk.inv u) (anyWalk.live u _) property trivial
  · rw [Run.current?, Run.current?, hecho.activations]

/-- A property that is written to a value, with all that a write through `this` or to a prototype
adds. -/
theorem writeMember (t : Ty) (property : String) (value : Ty) (throughThis : Bool) :
    Repeats (writeMember t property value throughThis) := by
  refine bind (writeObject t property value) fun _ => ?_
  refine bind (when (writePrototype t value)) fun _ => ?_
  exact when (writeOwnField property value)

/-! #### Declared signatures -/

/-- A call that is recorded without being counted has widened no parameter and no result. -/
theorem recordCall (id : ClosureId) (args : List Ty) (ret : Ty) :
    Repeats (onClosures (Closures.recordCall id args ret)) := by
  intro pending u hcoherent
  have hdoes : anyWalk.Does none u (onClosures (Closures.recordCall id args ret)) fun _ _ => True :=
    Does.recordCall (anyWalk.inv u) (anyWalk.live u _) (fun _ _ => trivial) trivial
  have hrun (s : Run) {c : Closure} (hfound : s.closures.table[id]? = some c) :
      onClosures (Closures.recordCall id args ret) s =
        .ok () ((Update.closures (.record id args ret)).apply s) := by
    have hran := Closures.recordCall_apply s.closures id args ret
    rw [hfound] at hran
    rw [Update.apply, Closures.Write.apply, after, onClosures, hran]
  have houtlines (s : Run) := Closures.outlines_recordCall s.closures id args ret
  have hsites (s : Run) := ((Closures.Write.record id args ret).index s.closures).eq_of_nil
  cases hfound : u.closures.table[id]? with
  | none =>
    have hstops : onClosures (Closures.recordCall id args ret) u =
        .error (.dangling (.closure id)) u := by
      rw [onClosures, Closures.recordCall_apply, hfound]
    refine ⟨rfl, (hdoes u rfl).after.2, by rw [after_of_error hstops], ?_, ?_, ?_⟩
    · intro a t heq
      cases hstops.symm.trans heq
    · intro e t heq
      cases hstops.symm.trans heq
    · intro _ a t heq
      cases hstops.symm.trans heq
  | some c =>
    have hgoes := hrun u hfound
    refine ⟨rfl, (hdoes u rfl).after.2, by rw [after_of_ok hgoes]; rfl, ?_, ?_, ?_⟩
    · intro a t heq
      cases hgoes.symm.trans heq
      exact hcoherent.apply trivial
    · intro e t heq
      cases hgoes.symm.trans heq
    · intro _ a t heq _
      cases hgoes.symm.trans heq
      -- a recorded call alters the signature of a closure, which is not part of its outline
      have hquiet : Quiet u ((Update.closures (.record id args ret)).apply u) :=
        ⟨rfl, .refl _, fun k d hget => (houtlines u k).trans (by rw [hget]; rfl),
          (hsites u).symm ▸ .refl _, rfl, rfl⟩
      refine ⟨hquiet, fun base e v _ hlater hecho => ?_⟩
      obtain ⟨d, hget, -⟩ := Option.map_eq_some_iff.mp
        ((hecho.closures id).trans ((hquiet.trans hlater).closures id c hfound))
      refine ⟨_, hrun v hget, hecho.env, hecho.heap, hecho.protos, fun k => ?_,
        (hsites v).trans hecho.captures, hecho.options, hecho.activations, hecho.seeds,
        hecho.solving, hecho.assumed⟩
      exact (houtlines v k).trans (hecho.closures k)

end Repeats

/-! ### New scopes -/

/-- The key of the activation of a call. -/
def Call.key (call : Call) : ActivationKey :=
  ⟨call.closure, call.site, call.caller⟩

/-- The state with a new activation scope of a call. -/
def Run.withScope (s : Run) (c : Closure) (call : Call) : Run :=
  { s with
    env := { s.env with
      scopes := s.env.scopes.push ⟨some c.scope, some c.func.id, []⟩
      activations := s.env.activations.note call.key s.env.scopes.size }
    funcScopes := OrdMap.upsert s.funcScopes c.func.id (· ++ [s.env.scopes.size])
      [s.env.scopes.size] }

/-- A call finds the scope of its activation by the key, or adds one at the end. -/
theorem enterScope_apply (c : Closure) (call : Call) (s : Run) :
    enterScope c call s =
      match s.env.activations.place? call.key with
      | some σ => .ok σ s
      | none => .ok s.env.scopes.size (s.withScope c call) := by
  have hrun : enterScope c call s = (onEnv (Env.enter call.key c.scope (some c.func.id)) >>=
      fun entered => do
        Walk.when entered.2 (noteScope c.func.id entered.1)
        return entered.1 : Walk ScopeId) s := rfl
  rw [hrun, bind_apply, onEnv, Env.enter_apply]
  cases s.env.activations.place? call.key <;> rfl

open Discipline in
/-- The activation scope of a call is found again. -/
theorem Proceeds.enterScope {inside : Prop} {u : Run} {pending : Option (CtorId × ScopeId)}
    (hcoherent : u.Coherent pending) {c : Closure} {call : Call}
    (hfound : u.closures.table[call.closure]? = some c) :
    Proceeds inside none u (enterScope c call) (enterScope c call) fun σ t =>
      t.Coherent pending ∧ t.env.activations.place? call.key = some σ := by
  have hrun := enterScope_apply c call
  have hdoes : anyWalk.Does none u (TypeFlow.enterScope c call) fun _ _ => True :=
    (Does.enterScope (anyWalk.inv u) hfound (anyWalk.live u _)).mono fun _ _ _ _ _ => trivial
  cases hled : u.env.activations.place? call.key with
  | some σ =>
    have hgoes := hrun u
    rw [hled] at hgoes
    refine ⟨rfl, (hdoes u rfl).after.2, by rw [after_of_ok hgoes], ?_, ?_, ?_⟩
    · intro τ t heq
      cases hgoes.symm.trans heq
      exact ⟨hcoherent, hled⟩
    · intro e t heq
      cases hgoes.symm.trans heq
    · intro _ τ t heq _
      cases hgoes.symm.trans heq
      -- an activation scope stays at its key, so it is found there again
      refine ⟨.refl u, fun base e v _ hquiet hecho => ⟨v, ?_, hecho⟩⟩
      rw [hrun, hecho.env, hquiet.scopes.activations _ _ hled]
  | none =>
    have hgoes := hrun u
    rw [hled] at hgoes
    have hnoted : (u.withScope c call).env.activations.place? call.key =
        some u.env.scopes.size := (Index.place?_note ..).trans (if_pos rfl)
    refine ⟨rfl, (hdoes u rfl).after.2, by rw [after_of_ok hgoes]; rfl, ?_, ?_, ?_⟩
    · intro τ t heq
      cases hgoes.symm.trans heq
      refine ⟨?_, hnoted⟩
      have hentered : ((Update.env (.enter call.key c.scope _)).apply u).Coherent pending :=
        hcoherent.enter hfound (some c.func.id)
      rw [Update.apply, Env.Write.apply, after, Env.enter_apply, hled] at hentered
      exact hentered.tables ⟨rfl, rfl, rfl, rfl, rfl⟩
    · intro e t heq
      cases hgoes.symm.trans heq
    · intro _ τ t heq _
      cases hgoes.symm.trans heq
      have hkept : u.env.KeptIn (u.withScope c call).env :=
        ⟨fun σ x hget => getElem?_push_of_some hget, Index.extends_note hled _⟩
      -- a new scope is not counted: when the call is repeated, it is there
      refine ⟨⟨rfl, hkept, fun k c hget => ?_, .refl _, rfl, rfl⟩,
        fun base e v _ hquiet hecho => ⟨v, ?_, ?_⟩⟩
      · exact (congrArg (Option.map Closure.outline) hget :)
      · rw [hrun, hecho.env, hquiet.scopes.activations _ _ hnoted]
      · exact ⟨hecho.env, hecho.heap, hecho.protos, hecho.closures, hecho.captures, hecho.options,
          hecho.activations, hecho.seeds, hecho.solving, hecho.assumed⟩

/-! ### New closures -/

/-- When a literal is captured once more, its closure is found. -/
theorem Echo.captureFunc {base : ClosureId → Prop} {e u v t : Run} {σ : ScopeId} {d : Capture}
    {k : ClosureId} {c : Closure} (hled : e.closures.bySite.place? (d.1.id, σ) = some k)
    (hfound : e.closures.table[k]?.map Closure.outline = some c.outline)
    (hmarks : c.selfReferential = d.marks) (hecho : Echo base e u v)
    (hsame : t.options = u.options ∧ t.activations = u.activations ∧ t.solving = u.solving) :
    ∃ v', TypeFlow.captureFunc σ d.1 d.2 v = .ok (.closure k d.1.params.length) v' ∧
      Echo base e t v' := by
  obtain ⟨hoptions, hactivations, hsolving⟩ := hsame
  have hsolves (id : ClosureId) : t.solve? id = u.solve? id := by
    rw [Run.solve?, Run.solve?, hsolving]
  obtain ⟨c', hfound', houtline⟩ := Option.map_eq_some_iff.mp ((hecho.closures k).trans hfound)
  have hmarks' : c'.selfReferential = d.marks := (congrArg (fun o => o.2.2) houtline).trans hmarks
  have hran := captureFunc_found (hecho.captures ▸ hled) hfound'
  rw [Closures.marked_eq hfound' hmarks'] at hran
  refine ⟨v, hran, hecho.env, hecho.heap, hecho.protos, hecho.closures, hecho.captures,
    hecho.options.trans hoptions.symm, hecho.activations.trans hactivations.symm, ?_, ?_, ?_⟩
  · intro id
    rw [hsolves]
    exact hecho.seeds id
  · intro id hother
    rw [hsolves]
    exact hecho.solving id hother
  · intro id hmem
    rw [hsolves]
    exact hecho.assumed id hmem

open Discipline in
/-- Capturing a literal inside of a function can be repeated. -/
theorem Proceeds.captureFunc {u : Run} {pending : Option (CtorId × ScopeId)}
    (hcoherent : u.Coherent pending) {owner : Option Func} {σ : ScopeId} (howned : u.Owned owner σ)
    {d : Capture} (hcaptures : Captures owner d) :
    Proceeds (owner.isSome = true) none u (captureFunc σ d.1 d.2) (captureFunc σ d.1 d.2)
      fun _ t => t.Coherent pending := by
  have hdoes := does_captureFunc σ d u
  have hkept := hcoherent.captured howned hcaptures
  cases hled : u.closures.bySite.place? (d.1.id, σ) with
  | some k =>
    obtain ⟨c, hfound, hliteral, hscope⟩ := hcoherent.indexed.closures.found hled
    have hgoes := captureFunc_found hled hfound
    refine ⟨rfl, (hdoes u rfl).after.2, by rw [after_of_ok hgoes], ?_, ?_, ?_⟩
    · exact fun a t heq => after_of_ok heq ▸ hkept
    · exact fun e t heq => nomatch hgoes.symm.trans heq
    -- inside of a function the mark is told by the literal, so marking it again changes nothing
    · intro hsome a t heq _
      obtain ⟨f, rfl⟩ := Option.isSome_iff_exists.mp hsome
      have hmarks := hcoherent.framed.marks_eq howned hcaptures hfound hscope hliteral
      rw [Closures.marked_eq hfound hmarks] at hgoes
      cases hgoes.symm.trans heq
      refine ⟨.refl u, fun base e v _ hlater hecho => ?_⟩
      exact hecho.captureFunc (hlater.captures _ _ hled) (hlater.closures k c hfound) hmarks
        ⟨rfl, rfl, rfl⟩
  | none =>
    have hgoes := captureFunc_absent hled
    refine ⟨rfl, (hdoes u rfl).after.2, by rw [after_of_ok hgoes], ?_, ?_, ?_⟩
    · exact fun a t heq => after_of_ok heq ▸ hkept
    · exact fun e t heq => nomatch hgoes.symm.trans heq
    · intro _ a t heq _
      cases hgoes.symm.trans heq
      -- a new closure is not counted, and is found when the literal is captured again
      have hquiet : Quiet u { u with closures := u.closures.captured σ d } :=
        ⟨rfl, .refl _,
          fun i x hget => congrArg (Option.map Closure.outline) (getElem?_push_of_some hget),
          Index.extends_note hled _, rfl, rfl⟩
      refine ⟨hquiet, fun base e v _ hlater hecho => ?_⟩
      exact hecho.captureFunc (c := newClosure σ d)
        (hlater.captures _ _ ((Index.place?_note ..).trans (if_pos rfl)))
        (hlater.closures _ _ Array.getElem?_push_size) rfl ⟨rfl, rfl, rfl⟩

/-- Binding what a body declares. -/
theorem Proceeds.hoist {u : Run} {pending : Option (CtorId × ScopeId)}
    (hcoherent : u.Coherent pending) {owner : Option Func} {σ : ScopeId} (howned : u.Owned owner σ)
    {body : List Stmt} (hcaptures : ∀ f ∈ hoistedFuncs body, Captures owner (f, none)) :
    Proceeds (owner.isSome = true) none u (hoist σ body) (hoist σ body)
      fun _ t => t.Coherent pending := by
  have hfunctions (fs : List Func) (hcaptures : ∀ f ∈ fs, Captures owner (f, none)) (s : Run)
      (hcoherent : s.Coherent pending) (howned : s.Owned owner σ) :
      Proceeds (owner.isSome = true) none s (hoistFuncs σ fs) (hoistFuncs σ fs)
        fun _ t => t.Coherent pending := by
    induction fs generalizing s with
    | nil => exact .pure hcoherent
    | cons f fs ih =>
      obtain ⟨hcaptured, hrest⟩ := List.forall_mem_cons.mp hcaptures
      refine (Proceeds.captureFunc hcoherent howned hcaptured).bind
        fun value t hlead hcoherent => ?_
      replace howned := howned.later (Run.later_of_steps hlead.steps)
      cases f.name with
      | none => exact ih hrest t hcoherent howned
      | some name =>
        refine ((Repeats.bindVariable σ name value).proceeds hcoherent).bind
          fun _ r hlead hcoherent => ?_
        exact ih hrest r hcoherent (howned.later (Run.later_of_steps hlead.steps))
  refine ((Repeats.hoistVars σ (hoistedVars body)).proceeds hcoherent).bind
    fun _ t hlead hcoherent => ?_
  exact hfunctions _ hcaptures t hcoherent (howned.later (Run.later_of_steps hlead.steps))

open Discipline in
/-- A `return` is noted for the innermost call. -/
theorem Proceeds.addReturn {inside : Prop} {u : Run} (hcoherent : u.Coherent none) (node : NodeId)
    (span : Span) (t : Ty) :
    Proceeds inside none u (addReturn node span t) (addReturn node span t)
      fun _ t => t.Coherent none := by
  have hdoes : anyWalk.Does none u (TypeFlow.addReturn node span t) fun _ _ => True :=
    Does.addReturn (anyWalk.inv u) node span trivial
  have haddReturn := addReturn_apply node span t u
  cases hcalls : u.activations with
  | nil =>
    rw [hcalls] at haddReturn
    have hleft := after_of_error haddReturn
    refine ⟨rfl, (hdoes u rfl).after.2, by rw [hleft], ?_, ?_, ?_⟩
    · exact fun a r heq => nomatch haddReturn.symm.trans heq
    · intro e r heq
      cases haddReturn.symm.trans heq
      exact hcoherent
    · exact fun _ a r heq => nomatch haddReturn.symm.trans heq
  | cons a rest =>
    rw [hcalls] at haddReturn
    have hleft := after_of_ok haddReturn
    refine ⟨rfl, (hdoes u rfl).after.2, by rw [hleft, hcalls]; rfl, ?_, ?_, ?_⟩
    · intro b r heq
      cases haddReturn.symm.trans heq
      exact hcoherent.tables ⟨rfl, rfl, rfl, rfl, rfl⟩
    · exact fun e r heq => nomatch haddReturn.symm.trans heq
    · intro _ b r heq _
      cases haddReturn.symm.trans heq
      refine ⟨SameTables.quiet ⟨rfl, rfl, rfl, rfl, rfl⟩, fun base e v _ _ hecho => ?_⟩
      have haddReturn' := addReturn_apply node span t v
      rw [hecho.activations, hcalls] at haddReturn'
      refine ⟨_, haddReturn', ?_⟩
      exact ⟨hecho.env, hecho.heap, hecho.protos, hecho.closures, hecho.captures, hecho.options,
        rfl, hecho.seeds, hecho.solving, hecho.assumed⟩

end TypeFlow
