import Mathlib
import TypeFlow.Engine.Invoke
import TypeFlow.Proofs.Script.Captures

/-!
# Walks in lockstep

Two walks over the same tree that answer its calls in two ways.  A relation between computations
that is kept by each single step of such walks holds between the walks.

## Main Definitions

* `runOnInstance`, `startInstance`, `runAncestor` - the steps of which creating an instance consists
* `Lockstep` - a relation between computations with one rule for each step of a walk

## Main Statements

* `Lockstep.callee`, `Lockstep.constructValue` - calls and instances
* `Lockstep.inferExpr`, `Lockstep.inferStmt`, `Lockstep.inferBlock` - expressions and statements
* `Lockstep.hoist` - the declarations of a body

## Design Notes

The steps are as large as the rules need them: a constructor is run only on an instance that was
created just before, so both are one step.  What may be captured is a condition on the literal and
on the name that it is stored under, since capturing looks at both.
-/

namespace TypeFlow

open Walk

/-! ### The steps of creating an instance -/

/-- Creates an instance of a constructor, and runs the constructor on it. -/
def runOnInstance (invoke : Invoke) (closure : ClosureId) (ctor : CtorId) (args : List Ty)
    (site : NodeId) (caller : ScopeId) : Walk CellId := do
  let cell ← onHeap (Heap.create ⟨site, caller, some ctor⟩ [])
  let _ ← invoke ⟨closure, .ofInstance cell ctor, args, site, caller, some ctor⟩
  return cell

/-- Creates an instance of a closure and runs the closure on it, not its ancestors. -/
def startInstance (invoke : Invoke) (closure : ClosureId) (args : List Ty) (site : NodeId)
    (caller : ScopeId) : Walk (CtorId × CellId) := do
  let ctor ← ctorOf closure
  let cell ← runOnInstance invoke closure ctor args site caller
  return (ctor, cell)

/-- Runs a constructor on an instance of its own, unless it has run. -/
def runAncestor (invoke : Invoke) (args : List Ty) (site : NodeId) (caller : ScopeId)
    (id : CtorId) : Walk Unit := do
  let c ← ask fun s => s.protos.ctor id
  match c.closure with
  | none => return ()
  | some closure =>
    if c.analysed then
      return ()
    else
      let _ ← runOnInstance invoke closure id args site caller
      return ()

/-- The first ancestor runs, and then the others do. -/
theorem runAncestors_cons (invoke : Invoke) (args : List Ty) (site : NodeId) (caller : ScopeId)
    (id : CtorId) (rest : List CtorId) :
    runAncestors invoke args site caller (id :: rest) =
      runAncestor invoke args site caller id >>= fun _ =>
        runAncestors invoke args site caller rest := by
  rw [runAncestors, runAncestor, bind_assoc]
  congr 1
  funext c
  cases c.closure with
  | none => exact (pure_bind _ _).symm
  | some closure =>
    by_cases hanalysed : c.analysed = true
    · simp only [hanalysed, if_true, pure_bind]
    · simp only [hanalysed, Bool.false_eq_true, if_false, runOnInstance, bind_assoc, pure_bind]

/-- An instance is created and its constructor run, then its ancestors run, and last it gets the
fields that it lacks. -/
theorem instantiate_eq (invoke : Invoke) (closure : ClosureId) (args : List Ty) (site : NodeId)
    (caller : ScopeId) :
    instantiate invoke closure args site caller = do
      let made ← startInstance invoke closure args site caller
      runAncestors invoke args site caller (← ask fun s => s.protos.ancestors made.1)
      writeMissing made.2 (← ask fun s => s.protos.instanceFields made.1)
      return .ofInstance made.2 made.1 := by
  simp only [instantiate, startInstance, runOnInstance, bind_assoc, pure_bind]

/-! ### Relations between computations -/

/-- The variable that an assignment writes. -/
def Target.name? : Target → Option String
  | .variable name => some name
  | .member _ _ _ => none
  | .computed => none

/-- A relation between computations with one rule for each step of a walk in a scope.  Calls are
answered in one way in the first computation, and in another way in the second. -/
structure Lockstep (scope : ScopeId) (i i' : Invoke) where
  /-- What is shown of two computations. -/
  Rel : ∀ {α : Type}, Walk α → Walk α → Prop
  /-- The literals that may be captured. -/
  Captured : Capture → Prop
  pure : ∀ {α : Type} (a : α), Rel (pure a) (pure a)
  bind : ∀ {α β : Type} {m m' : Walk α} {f f' : α → Walk β}, Rel m m' →
    (∀ a, Rel (f a) (f' a)) → Rel (m >>= f) (m' >>= f')
  malformed : ∀ {α : Type} (kind : Malformation) (node : NodeId) (span : Span),
    Rel (malformed kind node span : Walk α) (malformed kind node span)
  record : ∀ (node : NodeId) (t : Ty), Rel (record node t) (record node t)
  noteAccess : ∀ node : NodeId, Rel (noteAccess node) (noteAccess node)
  thisType : Rel thisType thisType
  addReturn : ∀ (node : NodeId) (span : Span) (t : Ty),
    Rel (addReturn node span t) (addReturn node span t)
  readVariable : ∀ name, Rel (readVariable scope name) (readVariable scope name)
  writeVariable : ∀ name t, Rel (writeVariable scope name t) (writeVariable scope name t)
  bindVariable : ∀ name t, Rel (onEnv (Env.bind scope name t)) (onEnv (Env.bind scope name t))
  readMember : ∀ t property, Rel (readMember t property) (readMember t property)
  writeMember : ∀ t property value through, Rel (writeMember t property value through)
    (writeMember t property value through)
  createObject : ∀ node fields, Rel (onHeap (Heap.create ⟨node, scope, none⟩ fields))
    (onHeap (Heap.create ⟨node, scope, none⟩ fields))
  captureFunc : ∀ f binding, Captured (f, binding) →
    Rel (captureFunc scope f binding) (captureFunc scope f binding)
  invoke : ∀ closure this args site,
    Rel (i ⟨closure, this, args, site, scope, none⟩) (i' ⟨closure, this, args, site, scope, none⟩)
  startInstance : ∀ closure args site, Rel (startInstance i closure args site scope)
    (startInstance i' closure args site scope)
  runAncestor : ∀ args site id, Rel (runAncestor i args site scope id)
    (runAncestor i' args site scope id)
  askProtos : ∀ {α : Type} (look : Protos → Except Dangling α),
    Rel (ask fun s => look s.protos) (ask fun s => look s.protos)
  writeMissing : ∀ cell fields, Rel (writeMissing cell fields) (writeMissing cell fields)

namespace Lockstep

variable {scope : ScopeId} {i i' : Invoke} (L : Lockstep scope i i')

/-- A step under a condition on values is taken in both walks, or in none. -/
theorem when {c : Prop} [Decidable c] {m m' : Walk Unit} (hyes : c → L.Rel m m') :
    L.Rel (Walk.when c m) (Walk.when c m') := by
  unfold Walk.when
  split
  · exact hyes ‹_›
  · exact L.pure ()

theorem ite {α : Type} {c : Prop} [Decidable c] {m m' n n' : Walk α} (hyes : L.Rel m m')
    (hno : L.Rel n n') : L.Rel (if c then m else n) (if c then m' else n') := by
  split
  · exact hyes
  · exact hno

/-! ### Calls and instances -/

/-- The same closures are called in both walks, one after the other. -/
theorem invokeAll (this : Ty) (args : List Ty) (site : NodeId) (acc : Ty) (cs : List ClosureId) :
    L.Rel (TypeFlow.invokeAll i (fun c => ⟨c, this, args, site, scope, none⟩) acc cs)
      (TypeFlow.invokeAll i' (fun c => ⟨c, this, args, site, scope, none⟩) acc cs) := by
  induction cs generalizing acc with
  | nil => exact L.pure acc
  | cons c cs ih => exact L.bind (L.invoke c this args site) fun ret => ih (acc.join ret)

/-- A value that is called: its closures are called one after the other. -/
theorem callValue (callee this : Ty) (args : List Ty) (site : NodeId) :
    L.Rel (TypeFlow.callValue i callee this args site scope)
      (TypeFlow.callValue i' callee this args site scope) := by
  unfold TypeFlow.callValue
  cases callee.funcPart? with
  | none => exact L.pure _
  | some f => exact L.invokeAll this args site f.ret f.closures

/-- A callee with its receiver: whether `call` or `apply` of a function is meant is told by the
value and the name of the method. -/
theorem callee (c : Callee) (args : List Ty) (site : NodeId) :
    L.Rel (c.call i args site scope) (c.call i' args site scope) := by
  unfold Callee.call
  cases c.this.func? with
  | none => exact L.callValue _ _ _ _
  | some f => exact L.ite (L.callValue _ _ _ _) (L.ite (L.callValue _ _ _ _) (L.callValue _ _ _ _))

/-- The ancestors of an instance run in both walks. -/
theorem runAncestors (args : List Ty) (site : NodeId) (ids : List CtorId) :
    L.Rel (TypeFlow.runAncestors i args site scope ids)
      (TypeFlow.runAncestors i' args site scope ids) := by
  induction ids with
  | nil => exact L.pure ()
  | cons id rest ih =>
    rw [runAncestors_cons, runAncestors_cons]
    exact L.bind (L.runAncestor args site id) fun _ => ih

/-- A closure is instantiated in both walks. -/
theorem instantiate (closure : ClosureId) (args : List Ty) (site : NodeId) :
    L.Rel (TypeFlow.instantiate i closure args site scope)
      (TypeFlow.instantiate i' closure args site scope) := by
  rw [instantiate_eq, instantiate_eq]
  refine L.bind (L.startInstance closure args site) fun made => ?_
  refine L.bind (L.askProtos fun g => g.ancestors made.1) fun ids => ?_
  refine L.bind (L.runAncestors args site ids) fun _ => ?_
  refine L.bind (L.askProtos fun g => g.instanceFields made.1) fun fields => ?_
  exact L.bind (L.writeMissing made.2 fields) fun _ => L.pure _

theorem instantiateAll (args : List Ty) (site : NodeId) (acc : Ty) (cs : List ClosureId) :
    L.Rel (TypeFlow.instantiateAll i args site scope acc cs)
      (TypeFlow.instantiateAll i' args site scope acc cs) := by
  induction cs generalizing acc with
  | nil => exact L.pure acc
  | cons c cs ih => exact L.bind (L.instantiate c args site) fun value => ih (acc.join value)

/-- A value that is constructed: its closures are instantiated one after the other. -/
theorem constructValue (callee : Ty) (args : List Ty) (site : NodeId) :
    L.Rel (TypeFlow.constructValue i callee args site scope)
      (TypeFlow.constructValue i' callee args site scope) := by
  unfold TypeFlow.constructValue
  cases callee.funcPart? with
  | none => exact L.pure _
  | some f => exact L.ite (L.pure _) (L.instantiateAll args site .never f.closures)

/-! ### Places -/

theorem readTarget (target : Target) : L.Rel (target.read scope) (target.read scope) := by
  match target with
  | .variable name => exact L.readVariable name
  | .member object property _ => exact L.readMember object property
  | .computed => exact L.pure Ty.any

/-- What is assigned is written to the same target. -/
theorem writeTarget (value : Ty) (target : Target) :
    L.Rel (target.write scope value) (target.write scope value) := by
  match target with
  | .variable name => exact L.writeVariable name value
  | .member object property through => exact L.writeMember object property value through
  | .computed => exact L.pure ()

theorem checkProperty (node : NodeId) (span : Span) (property : String) :
    L.Rel (TypeFlow.checkProperty node span property) (TypeFlow.checkProperty node span property) :=
  L.when fun _ => L.malformed _ node span

/-- The type of an expression is recorded, and an access is noted. -/
theorem settleExpr (node : NodeId) (form : ExprForm) (t : Ty) :
    L.Rel (TypeFlow.settleExpr node form t) (TypeFlow.settleExpr node form t) :=
  L.bind (L.when fun _ => L.noteAccess node) fun _ => L.bind (L.record node t) fun _ => L.pure t

/-! ### Expressions -/

mutual

/-- Expressions: the induction over the tree has one case for each of its rules. -/
theorem inferExpr (e : Expr) (hcaptured : ∀ c ∈ e.captures none, L.Captured c) :
    L.Rel (TypeFlow.inferExpr i scope e) (TypeFlow.inferExpr i' scope e) := by
  cases e with
  | mk id span form =>
    rw [Expr.captures] at hcaptured
    rw [TypeFlow.inferExpr, TypeFlow.inferExpr]
    exact L.bind (inferForm form id span hcaptured) fun t => L.settleExpr id form t
termination_by structural e

/-- Forms of expressions, whose operands are evaluated in the same order in both walks. -/
theorem inferForm (form : ExprForm) (id : NodeId) (span : Span)
    (hcaptured : ∀ c ∈ form.captures none, L.Captured c) :
    L.Rel (TypeFlow.inferForm i scope id span form) (TypeFlow.inferForm i' scope id span form) := by
  cases form with
  | literal kind =>
    rw [TypeFlow.inferForm, TypeFlow.inferForm]
    exact L.pure _
  | ident name =>
    rw [TypeFlow.inferForm, TypeFlow.inferForm]
    exact L.readVariable name
  | this =>
    rw [TypeFlow.inferForm, TypeFlow.inferForm]
    exact L.thisType
  | array elements =>
    rw [ExprForm.captures] at hcaptured
    rw [TypeFlow.inferForm, TypeFlow.inferForm]
    exact L.bind (inferAll elements hcaptured) fun _ => L.pure _
  | object properties =>
    rw [ExprForm.captures] at hcaptured
    rw [TypeFlow.inferForm, TypeFlow.inferForm]
    refine L.bind (inferProps properties hcaptured) fun fields => ?_
    exact L.bind (L.createObject id fields) fun cell => L.pure _
  | function f =>
    rw [ExprForm.captures] at hcaptured
    rw [TypeFlow.inferForm, TypeFlow.inferForm]
    exact L.captureFunc f none (hcaptured _ List.mem_cons_self)
  | member object property =>
    rw [ExprForm.captures] at hcaptured
    rw [TypeFlow.inferForm, TypeFlow.inferForm]
    refine L.bind (L.checkProperty id span property) fun _ => ?_
    exact L.bind (inferExpr object hcaptured) fun t => L.readMember t property
  | index object key =>
    rw [ExprForm.captures] at hcaptured
    obtain ⟨hcapturedO, hcapturedK⟩ := List.forall_mem_append.mp hcaptured
    rw [TypeFlow.inferForm, TypeFlow.inferForm]
    refine L.bind (inferExpr object hcapturedO) fun _ => ?_
    exact L.bind (inferExpr key hcapturedK) fun _ => L.pure _
  | call callee arguments =>
    rw [ExprForm.captures] at hcaptured
    obtain ⟨hcapturedC, hcapturedA⟩ := List.forall_mem_append.mp hcaptured
    cases callee with
    | none =>
      rw [TypeFlow.inferForm, TypeFlow.inferForm]
      exact L.malformed _ id span
    | some callee =>
      rw [Expr.capturesOpt] at hcapturedC
      rw [TypeFlow.inferForm, TypeFlow.inferForm]
      refine L.bind (inferCallee callee hcapturedC) fun c => ?_
      exact L.bind (inferAll arguments hcapturedA) fun args => L.callee c args id
  | construct callee arguments =>
    rw [ExprForm.captures] at hcaptured
    obtain ⟨hcapturedC, hcapturedA⟩ := List.forall_mem_append.mp hcaptured
    rw [TypeFlow.inferForm, TypeFlow.inferForm]
    refine L.bind (inferExpr callee hcapturedC) fun c => ?_
    exact L.bind (inferAll arguments hcapturedA) fun args => L.constructValue c args id
  | unary op argument =>
    rw [ExprForm.captures] at hcaptured
    rw [TypeFlow.inferForm, TypeFlow.inferForm]
    exact L.bind (inferExpr argument hcaptured) fun _ => L.pure _
  | update op argument =>
    rw [ExprForm.captures] at hcaptured
    rw [TypeFlow.inferForm, TypeFlow.inferForm]
    refine evalTarget argument hcaptured fun target _ => ?_
    refine L.bind (L.readTarget target) fun current => ?_
    refine L.bind (L.record argument.id current) fun _ => ?_
    exact L.bind (L.writeTarget .number target) fun _ => L.pure _
  | binary op left right =>
    rw [ExprForm.captures] at hcaptured
    obtain ⟨hcapturedL, hcapturedR⟩ := List.forall_mem_append.mp hcaptured
    rw [TypeFlow.inferForm, TypeFlow.inferForm]
    refine L.bind (inferExpr left hcapturedL) fun l => ?_
    exact L.bind (inferExpr right hcapturedR) fun r => L.pure _
  | assign op left right =>
    rw [ExprForm.captures] at hcaptured
    obtain ⟨hcapturedL, hcapturedR⟩ := List.forall_mem_append.mp hcaptured
    cases op with
    | none =>
      rw [TypeFlow.inferForm, TypeFlow.inferForm]
      refine evalTarget left hcapturedL fun target hwritten => ?_
      replace hcapturedR : ∀ c ∈ right.captures target.name?, L.Captured c := by
        simpa only [Option.isNone_none, if_true, hwritten] using hcapturedR
      refine L.bind ?_ fun value => ?_
      · match target with
        | .variable name => exact inferInit right name hcapturedR
        | .member _ _ _ => exact inferExpr right hcapturedR
        | .computed => exact inferExpr right hcapturedR
      · refine L.bind (L.writeTarget value target) fun _ => ?_
        exact L.bind (L.record left.id value) fun _ => L.pure _
    | some op =>
      rw [TypeFlow.inferForm, TypeFlow.inferForm]
      refine evalTarget left hcapturedL fun target _ => ?_
      refine L.bind (L.readTarget target) fun current => ?_
      refine L.bind (inferExpr right hcapturedR) fun r => ?_
      refine L.bind (L.writeTarget _ target) fun _ => ?_
      exact L.bind (L.record left.id _) fun _ => L.pure _
  | conditional test consequent alternate =>
    rw [ExprForm.captures] at hcaptured
    obtain ⟨hcapturedTC, hcapturedA⟩ := List.forall_mem_append.mp hcaptured
    obtain ⟨hcapturedT, hcapturedC⟩ := List.forall_mem_append.mp hcapturedTC
    rw [TypeFlow.inferForm, TypeFlow.inferForm]
    refine L.bind (inferExpr test hcapturedT) fun _ => ?_
    refine L.bind (inferExpr consequent hcapturedC) fun a => ?_
    exact L.bind (inferExpr alternate hcapturedA) fun b => L.pure _
  | sequence exprs =>
    rw [ExprForm.captures] at hcaptured
    rw [TypeFlow.inferForm, TypeFlow.inferForm]
    exact L.bind (inferAll exprs hcaptured) fun ts => L.pure _
termination_by structural form

theorem inferAll (es : List Expr) (hcaptured : ∀ c ∈ Expr.capturesAll es, L.Captured c) :
    L.Rel (TypeFlow.inferAll i scope es) (TypeFlow.inferAll i' scope es) := by
  cases es with
  | nil => exact L.pure []
  | cons e es =>
    rw [Expr.capturesAll] at hcaptured
    obtain ⟨hcapturedE, hcapturedR⟩ := List.forall_mem_append.mp hcaptured
    rw [TypeFlow.inferAll, TypeFlow.inferAll]
    refine L.bind (inferExpr e hcapturedE) fun t => ?_
    exact L.bind (inferAll es hcapturedR) fun ts => L.pure _
termination_by structural es

theorem inferProps (ps : List (String × Expr))
    (hcaptured : ∀ c ∈ Expr.capturesProps ps, L.Captured c) :
    L.Rel (TypeFlow.inferProps i scope ps) (TypeFlow.inferProps i' scope ps) := by
  cases ps with
  | nil => exact L.pure []
  | cons p ps =>
    cases p with
    | mk key e =>
      rw [Expr.capturesProps] at hcaptured
      obtain ⟨hcapturedE, hcapturedR⟩ := List.forall_mem_append.mp hcaptured
      rw [TypeFlow.inferProps, TypeFlow.inferProps]
      refine L.bind (inferExpr e hcapturedE) fun t => ?_
      exact L.bind (inferProps ps hcapturedR) fun ts => L.pure _
termination_by structural ps

/-- A callee is evaluated with its receiver. -/
theorem inferCallee (e : Expr) (hcaptured : ∀ c ∈ e.captures none, L.Captured c) :
    L.Rel (TypeFlow.inferCallee i scope e) (TypeFlow.inferCallee i' scope e) := by
  cases e with
  | mk id span form =>
    rw [Expr.captures] at hcaptured
    have hplain : L.Rel
        (do
          let t ← TypeFlow.inferForm i scope id span form
          let value ← TypeFlow.settleExpr id form t
          return (⟨value, .undefined, none⟩ : Callee))
        (do
          let t ← TypeFlow.inferForm i' scope id span form
          let value ← TypeFlow.settleExpr id form t
          return (⟨value, .undefined, none⟩ : Callee)) :=
      L.bind (inferForm form id span hcaptured) fun t =>
        L.bind (L.settleExpr id form t) fun value => L.pure _
    cases form with
    | member object property =>
      rw [ExprForm.captures] at hcaptured
      rw [TypeFlow.inferCallee, TypeFlow.inferCallee]
      refine L.bind (L.checkProperty id span property) fun _ => ?_
      refine L.bind (inferExpr object hcaptured) fun receiver => ?_
      refine L.bind (L.readMember receiver property) fun value => ?_
      refine L.bind (L.noteAccess id) fun _ => ?_
      exact L.bind (L.record id value) fun _ => L.pure _
    | _ =>
      rw [TypeFlow.inferCallee, TypeFlow.inferCallee]
      · exact hplain
      all_goals exact nofun
termination_by structural e

/-- The place that is assigned to is a variable exactly when the expression names one. -/
theorem evalTarget (e : Expr) (hcaptured : ∀ c ∈ e.captures none, L.Captured c) {β : Type}
    {k k' : Target → Walk β}
    (hnext : ∀ target, e.ident? = target.name? → L.Rel (k target) (k' target)) :
    L.Rel (TypeFlow.evalTarget i scope e >>= k) (TypeFlow.evalTarget i' scope e >>= k') := by
  cases e with
  | mk id span form =>
    rw [Expr.captures] at hcaptured
    cases form with
    | ident name =>
      rw [TypeFlow.evalTarget, TypeFlow.evalTarget, pure_bind, pure_bind]
      exact hnext _ rfl
    | member object property =>
      rw [ExprForm.captures] at hcaptured
      rw [TypeFlow.evalTarget, TypeFlow.evalTarget]
      simp only [bind_assoc, pure_bind]
      refine L.bind (L.checkProperty id span property) fun _ => ?_
      exact L.bind (inferExpr object hcaptured) fun t => hnext _ rfl
    | index object key =>
      rw [ExprForm.captures] at hcaptured
      obtain ⟨hcapturedO, hcapturedK⟩ := List.forall_mem_append.mp hcaptured
      rw [TypeFlow.evalTarget, TypeFlow.evalTarget]
      simp only [bind_assoc, pure_bind]
      refine L.bind (inferExpr object hcapturedO) fun _ => ?_
      exact L.bind (inferExpr key hcapturedK) fun _ => hnext _ rfl
    | _ =>
      rw [TypeFlow.evalTarget, TypeFlow.evalTarget]
      · exact L.malformed .invalidAssignmentTarget id span
      all_goals exact nofun
termination_by structural e

/-- An initial value, which may be a literal that is captured under the name of the variable. -/
theorem inferInit (e : Expr) (name : String)
    (hcaptured : ∀ c ∈ e.captures (some name), L.Captured c) :
    L.Rel (TypeFlow.inferInit i scope name e) (TypeFlow.inferInit i' scope name e) := by
  cases e with
  | mk id span form =>
    rw [Expr.captures] at hcaptured
    cases form with
    | function f =>
      rw [ExprForm.captures] at hcaptured
      rw [TypeFlow.inferInit, TypeFlow.inferInit]
      refine L.bind (L.captureFunc f (some name) (hcaptured _ List.mem_cons_self)) fun value => ?_
      exact L.bind (L.record id value) fun _ => L.pure _
    | _ =>
      rw [TypeFlow.inferInit, TypeFlow.inferInit]
      · exact L.bind (inferForm _ id span hcaptured) fun t => L.settleExpr id _ t
      all_goals exact nofun
termination_by structural e

end

theorem inferOpt (e : Option Expr) (hcaptured : ∀ c ∈ Expr.capturesOpt none e, L.Captured c) :
    L.Rel (TypeFlow.inferOpt i scope e) (TypeFlow.inferOpt i' scope e) := by
  cases e with
  | none => exact L.pure _
  | some e => exact L.inferExpr e hcaptured

theorem inferDecls (ds : List Declarator)
    (hcaptured : ∀ c ∈ Declarator.capturesAll ds, L.Captured c) :
    L.Rel (TypeFlow.inferDecls i scope ds) (TypeFlow.inferDecls i' scope ds) := by
  induction ds with
  | nil => exact L.pure ()
  | cons d ds ih =>
    cases d with
    | mk name init =>
      rw [Declarator.capturesAll] at hcaptured
      obtain ⟨hcapturedI, hcapturedR⟩ := List.forall_mem_append.mp hcaptured
      cases init with
      | none => exact ih hcapturedR
      | some e =>
        refine L.bind (L.inferInit e name hcapturedI) fun t => ?_
        exact L.bind (L.bindVariable name t) fun _ => ih hcapturedR

theorem inferForInit (init : ForInit) (hcaptured : ∀ c ∈ init.captures, L.Captured c) :
    L.Rel (TypeFlow.inferForInit i scope init) (TypeFlow.inferForInit i' scope init) := by
  cases init with
  | none => exact L.pure ()
  | vars decls => exact L.inferDecls decls hcaptured
  | expr e => exact L.bind (L.inferExpr e hcaptured) fun _ => L.pure ()

/-- The target of a `for`-`in` loop is assigned to before the body runs. -/
theorem inferForTarget (target : ForTarget) (hcaptured : ∀ c ∈ target.captures, L.Captured c) :
    L.Rel (TypeFlow.inferForTarget i scope target) (TypeFlow.inferForTarget i' scope target) := by
  cases target with
  | var name => exact L.bind (L.bindVariable name .string) fun _ => L.pure ()
  | expr e =>
    refine L.evalTarget e hcaptured fun target _ => ?_
    exact L.bind (L.writeTarget .string target) fun _ => L.record e.id .string

/-! ### Statements -/

mutual

/-- Statements. -/
theorem inferStmt (x : Stmt) (hcaptured : ∀ c ∈ x.captures, L.Captured c) :
    L.Rel (TypeFlow.inferStmt i scope x) (TypeFlow.inferStmt i' scope x) := by
  cases x with
  | mk id span form =>
    rw [Stmt.captures] at hcaptured
    rw [TypeFlow.inferStmt, TypeFlow.inferStmt]
    exact inferStmtForm form id span hcaptured
termination_by structural x

/-- Forms of statements: both branches run, and loop bodies run once. -/
theorem inferStmtForm (form : StmtForm) (id : NodeId) (span : Span)
    (hcaptured : ∀ c ∈ form.captures, L.Captured c) :
    L.Rel (TypeFlow.inferStmtForm i scope id span form)
      (TypeFlow.inferStmtForm i' scope id span form) := by
  cases form with
  | block body =>
    rw [StmtForm.captures] at hcaptured
    rw [TypeFlow.inferStmtForm, TypeFlow.inferStmtForm]
    exact inferBlock body hcaptured
  | expr e =>
    rw [StmtForm.captures] at hcaptured
    rw [TypeFlow.inferStmtForm, TypeFlow.inferStmtForm]
    exact L.bind (L.inferExpr e hcaptured) fun _ => L.pure ()
  | vars decls =>
    rw [StmtForm.captures] at hcaptured
    rw [TypeFlow.inferStmtForm, TypeFlow.inferStmtForm]
    exact L.inferDecls decls hcaptured
  | function f =>
    rw [StmtForm.captures] at hcaptured
    rw [TypeFlow.inferStmtForm, TypeFlow.inferStmtForm]
    refine L.bind (L.captureFunc f none (hcaptured _ List.mem_cons_self)) fun value => ?_
    exact L.record f.id value
  | ret argument =>
    rw [StmtForm.captures] at hcaptured
    rw [TypeFlow.inferStmtForm, TypeFlow.inferStmtForm]
    exact L.bind (L.inferOpt argument hcaptured) fun t => L.addReturn id span t
  | branch test consequent alternate =>
    rw [StmtForm.captures] at hcaptured
    obtain ⟨hcapturedTC, hcapturedA⟩ := List.forall_mem_append.mp hcaptured
    obtain ⟨hcapturedT, hcapturedC⟩ := List.forall_mem_append.mp hcapturedTC
    rw [TypeFlow.inferStmtForm, TypeFlow.inferStmtForm]
    refine L.bind (L.inferExpr test hcapturedT) fun _ => ?_
    exact L.bind (inferStmt consequent hcapturedC) fun _ => inferStmtOpt alternate hcapturedA
  | whileLoop test body =>
    rw [StmtForm.captures] at hcaptured
    obtain ⟨hcapturedT, hcapturedB⟩ := List.forall_mem_append.mp hcaptured
    rw [TypeFlow.inferStmtForm, TypeFlow.inferStmtForm]
    exact L.bind (L.inferExpr test hcapturedT) fun _ => inferStmt body hcapturedB
  | doWhile body test =>
    rw [StmtForm.captures] at hcaptured
    obtain ⟨hcapturedT, hcapturedB⟩ := List.forall_mem_append.mp hcaptured
    rw [TypeFlow.inferStmtForm, TypeFlow.inferStmtForm]
    exact L.bind (L.inferExpr test hcapturedT) fun _ => inferStmt body hcapturedB
  | forLoop init test update body =>
    rw [StmtForm.captures] at hcaptured
    obtain ⟨hcapturedITU, hcapturedB⟩ := List.forall_mem_append.mp hcaptured
    obtain ⟨hcapturedIT, hcapturedU⟩ := List.forall_mem_append.mp hcapturedITU
    obtain ⟨hcapturedI, hcapturedT⟩ := List.forall_mem_append.mp hcapturedIT
    rw [TypeFlow.inferStmtForm, TypeFlow.inferStmtForm]
    refine L.bind (L.inferForInit init hcapturedI) fun _ => ?_
    refine L.bind (L.inferOpt test hcapturedT) fun _ => ?_
    refine L.bind (inferStmt body hcapturedB) fun _ => ?_
    exact L.bind (L.inferOpt update hcapturedU) fun _ => L.pure ()
  | forIn target right body =>
    rw [StmtForm.captures] at hcaptured
    obtain ⟨hcapturedTR, hcapturedB⟩ := List.forall_mem_append.mp hcaptured
    obtain ⟨hcapturedT, hcapturedR⟩ := List.forall_mem_append.mp hcapturedTR
    rw [TypeFlow.inferStmtForm, TypeFlow.inferStmtForm]
    refine L.bind (L.inferExpr right hcapturedR) fun _ => ?_
    exact L.bind (L.inferForTarget target hcapturedT) fun _ => inferStmt body hcapturedB
  | switch discriminant cases =>
    rw [StmtForm.captures] at hcaptured
    obtain ⟨hcapturedD, hcapturedC⟩ := List.forall_mem_append.mp hcaptured
    rw [TypeFlow.inferStmtForm, TypeFlow.inferStmtForm]
    exact L.bind (L.inferExpr discriminant hcapturedD) fun _ => inferCases cases hcapturedC
  | throw argument =>
    rw [StmtForm.captures] at hcaptured
    rw [TypeFlow.inferStmtForm, TypeFlow.inferStmtForm]
    exact L.bind (L.inferExpr argument hcaptured) fun _ => L.pure ()
  | guarded block handler finalizer =>
    rw [StmtForm.captures] at hcaptured
    obtain ⟨hcapturedBH, hcapturedF⟩ := List.forall_mem_append.mp hcaptured
    obtain ⟨hcapturedB, hcapturedH⟩ := List.forall_mem_append.mp hcapturedBH
    rw [TypeFlow.inferStmtForm, TypeFlow.inferStmtForm]
    refine L.bind (inferBlock block hcapturedB) fun _ => ?_
    exact L.bind (inferHandler handler hcapturedH) fun _ => inferBlock finalizer hcapturedF
  | _ =>
    rw [TypeFlow.inferStmtForm, TypeFlow.inferStmtForm]
    exact L.pure ()
termination_by structural form

/-- Statements one after the other. -/
theorem inferBlock (body : List Stmt) (hcaptured : ∀ c ∈ Stmt.capturesAll body, L.Captured c) :
    L.Rel (TypeFlow.inferBlock i scope body) (TypeFlow.inferBlock i' scope body) := by
  cases body with
  | nil => exact L.pure ()
  | cons x rest =>
    rw [Stmt.capturesAll] at hcaptured
    obtain ⟨hcapturedX, hcapturedR⟩ := List.forall_mem_append.mp hcaptured
    rw [TypeFlow.inferBlock, TypeFlow.inferBlock]
    exact L.bind (inferStmt x hcapturedX) fun _ => inferBlock rest hcapturedR
termination_by structural body

theorem inferStmtOpt (x : Option Stmt) (hcaptured : ∀ c ∈ Stmt.capturesOpt x, L.Captured c) :
    L.Rel (TypeFlow.inferStmtOpt i scope x) (TypeFlow.inferStmtOpt i' scope x) := by
  cases x with
  | none => exact L.pure ()
  | some x => exact inferStmt x hcaptured
termination_by structural x

theorem inferCases (cs : List Case) (hcaptured : ∀ c ∈ Case.capturesAll cs, L.Captured c) :
    L.Rel (TypeFlow.inferCases i scope cs) (TypeFlow.inferCases i' scope cs) := by
  cases cs with
  | nil => exact L.pure ()
  | cons c cs =>
    cases c with
    | mk test body =>
      rw [Case.capturesAll] at hcaptured
      obtain ⟨hcapturedTB, hcapturedR⟩ := List.forall_mem_append.mp hcaptured
      obtain ⟨hcapturedT, hcapturedB⟩ := List.forall_mem_append.mp hcapturedTB
      rw [TypeFlow.inferCases, TypeFlow.inferCases]
      refine L.bind (L.inferOpt test hcapturedT) fun _ => ?_
      exact L.bind (inferBlock body hcapturedB) fun _ => inferCases cs hcapturedR
termination_by structural cs

/-- A `catch` clause: its parameter is bound to `any` before its body runs. -/
theorem inferHandler (h : Option Handler) (hcaptured : ∀ c ∈ Handler.capturesOpt h, L.Captured c) :
    L.Rel (TypeFlow.inferHandler i scope h) (TypeFlow.inferHandler i' scope h) := by
  cases h with
  | none => exact L.pure ()
  | some h =>
    cases h with
    | mk param body =>
      rw [TypeFlow.inferHandler, TypeFlow.inferHandler]
      exact L.bind (L.bindVariable param .any) fun _ => inferBlock body hcaptured
termination_by structural h

end

/-! ### Declarations -/

/-- The variables of a body are bound before it runs. -/
theorem hoistVars (names : List String) :
    L.Rel (TypeFlow.hoistVars scope names) (TypeFlow.hoistVars scope names) := by
  induction names with
  | nil => exact L.pure ()
  | cons name rest ih => exact L.bind (L.bindVariable name .never) fun _ => ih

/-- The functions that a body declares are captured and bound before it runs. -/
theorem hoistFuncs (fs : List Func) (hcaptured : ∀ f ∈ fs, L.Captured (f, none)) :
    L.Rel (TypeFlow.hoistFuncs scope fs) (TypeFlow.hoistFuncs scope fs) := by
  induction fs with
  | nil => exact L.pure ()
  | cons f rest ih =>
    obtain ⟨hcaptured', hlater⟩ := List.forall_mem_cons.mp hcaptured
    refine L.bind (L.captureFunc f none hcaptured') fun value => ?_
    cases f.name with
    | none => exact ih hlater
    | some name => exact L.bind (L.bindVariable name value) fun _ => ih hlater

/-- The declarations of a body. -/
theorem hoist (body : List Stmt) (hcaptured : ∀ c ∈ Stmt.capturesAll body, L.Captured c) :
    L.Rel (TypeFlow.hoist scope body) (TypeFlow.hoist scope body) :=
  L.bind (L.hoistVars _) fun _ =>
    L.hoistFuncs _ fun _ hdeclared => hcaptured _ (capture_of_hoisted hdeclared)

end Lockstep

end TypeFlow
