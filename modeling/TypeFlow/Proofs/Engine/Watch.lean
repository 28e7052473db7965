import Mathlib
import TypeFlow.Proofs.Engine.Lockstep
import TypeFlow.Proofs.Engine.Termination

/-!
# Watched runs

A run that is watched: in front of every round of a body a condition on the state is looked at, and
the run stops with a given fault when the condition holds.  A condition never holds in front of a
round of a run exactly when the watched run is the run, whatever the fault.

## Main Definitions

* `Watch` - a condition, and the fault that a run stops with when it holds
* `Watch.invoke` - answers a call, with every round watched
* `Action.runBy`, `engineBy` - the operations of a walk, and runs of programs, given what answers
  calls

## Main Statements

* `runBody_apply`, `roundThen_apply`, `solve_apply`, `invokeThen_apply` - what these do to a state
* `Discipline.Answers.engineBy` - runs agree when the answers to calls do
-/

namespace TypeFlow

open Walk

/-! ### Sequences -/

theorem bind_apply {α β : Type} (m : Walk α) (f : α → Walk β) (s : Run) :
    (m >>= f) s =
      match m s with
      | .ok a t => f a t
      | .error e t => .error e t := by
  change EStateM.bind m f s = _
  unfold EStateM.bind
  cases m s <;> rfl

/-- Computations one after the other succeed when both do. -/
theorem bind_eq_ok {α β : Type} {m : Walk α} {f : α → Walk β} {s t : Run} {b : β} :
    (m >>= f) s = .ok b t ↔ ∃ a r, m s = .ok a r ∧ f a r = .ok b t := by
  rw [bind_apply]
  constructor
  · intro hran
    cases hfirst : m s with
    | ok a r =>
      rw [hfirst] at hran
      exact ⟨a, r, rfl, hran⟩
    | error e r =>
      rw [hfirst] at hran
      cases hran
  · rintro ⟨a, r, hfirst, hran⟩
    rw [hfirst]
    exact hran

/-- The value that a run returns. -/
theorem run'_eq_some {α : Type} {m : Walk α} {s : Run} {a : α} :
    m.run' s = some a ↔ ∃ t, m s = .ok a t := by
  rw [EStateM.run', EStateM.run]
  cases m s <;> simp

theorem ask_eq_ok {α : Type} {look : Run → Except Dangling α} {s t : Run} {a : α} :
    Walk.ask look s = .ok a t ↔ look s = .ok a ∧ t = s := by
  unfold Walk.ask
  cases look s with
  | error d => exact ⟨nofun, fun hboth => nomatch hboth.1⟩
  | ok b =>
    constructor
    · rintro ⟨⟩
      exact ⟨rfl, rfl⟩
    · rintro ⟨⟨⟩, rfl⟩
      rfl

/-- What computations one after the other leave behind. -/
theorem after_bind {α β : Type} (m : Walk α) (f : α → Walk β) (s : Run) :
    after (m >>= f) s =
      match m s with
      | .ok a t => after (f a) t
      | .error _ t => t := by
  unfold after
  rw [bind_apply]
  cases m s <;> rfl

/-! ### The parts of a call -/

/-- A `return` is noted for the innermost call. -/
theorem addReturn_apply (node : NodeId) (span : Span) (t : Ty) (s : Run) :
    addReturn node span t s =
      match s.activations with
      | [] => .error (.malformed ⟨.returnOutsideFunction, node, span⟩) s
      | a :: rest =>
        .ok () { s with activations := { a with returns := a.returns.join t } :: rest } := by
  have hread : addReturn node span t s = (match s.activations with
      | [] => malformed .returnOutsideFunction node span
      | a :: rest => modify fun s =>
        { s with activations := { a with returns := a.returns.join t } :: rest } : Walk Unit)
      s := rfl
  rw [hread]
  cases s.activations <;> rfl

/-- The state with one more event in its log. -/
def Run.logged (s : Run) (e : Event) : Run :=
  { s with log := s.log.push e }

/-- The state in which a result is assumed for a closure, and no call from inside was seen. -/
def Run.assuming (s : Run) (id : ClosureId) (seed : Ty) : Run :=
  { s with solving := OrdMap.insert s.solving id ⟨seed, false⟩ }

/-- The state with one more running call. -/
def Run.pushed (s : Run) (a : Activation) : Run :=
  { s with activations := a :: s.activations }

/-- The running call of a body. -/
def Call.activation (call : Call) (scope : ScopeId) : Activation :=
  ⟨call.closure, scope, call.this, .never, call.constructing⟩

/-- The result of a body, given what the `return` statements joined to. -/
def Func.resultOf (f : Func) (returns : Ty) : Ty :=
  if Stmt.someExits f.body then returns else returns.join .undefined

/-- What the innermost running call returned so far. -/
def Run.returned (s : Run) : Ty :=
  (s.current?.map (·.returns)).getD .never

section Parts

variable (i : Invoke) (f : Func) (scope : ScopeId) (call : Call) (s : Run)

/-- Running a body once. -/
theorem runBody_apply :
    runBody i f scope call s =
      match inferBlock i scope f.body (s.pushed (call.activation scope)) with
      | .ok _ t => .ok (f.resultOf t.returned) t.popActivation
      | .error e t => .error e t.popActivation := by
  have hrun : runBody i f scope call s = EStateM.bind (withActivation (call.activation scope)
      (inferBlock i scope f.body)) (fun returns => pure (f.resultOf returns)) s := rfl
  have hinside : withActivation (call.activation scope) (inferBlock i scope f.body) s =
      Walk.ensuring (do inferBlock i scope f.body; return (← get).returned) Run.popActivation
        (s.pushed (call.activation scope)) := rfl
  have hreturned : (do inferBlock i scope f.body; return (← get).returned : Walk Ty) =
      EStateM.bind (inferBlock i scope f.body) fun _ t => .ok t.returned t := rfl
  rw [hrun]
  simp only [EStateM.bind, hinside, Walk.ensuring, hreturned]
  cases inferBlock i scope f.body (s.pushed (call.activation scope)) <;> rfl

/-- One round. -/
theorem roundThen_apply (again : Nat → Walk Ty) (done : Nat) :
    roundThen i f scope call again done s =
      match runBody i f scope call s with
      | .error e t => .error e t
      | .ok ret t =>
        match t.solve? call.closure with
        | none => .ok ret t
        | some ⟨_, false⟩ => .ok ret t
        | some ⟨seed, true⟩ =>
          let noted := t.logged (.round (done + 1) seed ret (t.version == s.version))
          if seed.join ret = seed ∧ t.version = s.version then .ok (seed.join ret) noted
          else if t.options.maxRounds ≤ done + 1 then
            .ok .any (noted.logged (.frozen f.id (done + 1)))
          else again (done + 1) (noted.assuming call.closure (seed.join ret)) := by
  -- with all binds but the first one carried out, the cases on both sides are the same
  have hrun : roundThen i f scope call again done s =
      EStateM.bind (runBody i f scope call) (fun ret t =>
        (match t.solve? call.closure with
        | none => pure ret
        | some ⟨_, false⟩ => pure ret
        | some ⟨seed, true⟩ => do
          emit (.round (done + 1) seed ret (t.version == s.version))
          if seed.join ret = seed ∧ (t.version == s.version) = true then
            return seed.join ret
          else if t.options.maxRounds ≤ done + 1 then
            emit (.frozen f.id (done + 1))
            return .any
          else
            setSeed call.closure (seed.join ret)
            again (done + 1) : Walk Ty) t) s := rfl
  rw [hrun]
  unfold EStateM.bind
  cases runBody i f scope call s with
  | error e t => rfl
  | ok ret t =>
    dsimp only
    cases t.solve? call.closure with
    | none => rfl
    | some v =>
      obtain ⟨seed, recursed⟩ := v
      cases recursed with
      | false => rfl
      | true =>
        simp only [beq_iff_eq]
        by_cases hsettled : seed.join ret = seed ∧ t.version = s.version
        · rw [if_pos hsettled, if_pos hsettled]
          rfl
        · rw [if_neg hsettled, if_neg hsettled]
          by_cases hlast : t.options.maxRounds ≤ done + 1
          · rw [if_pos hlast, if_pos hlast]
            rfl
          · rw [if_neg hlast, if_neg hlast]
            rfl

/-- The rounds of a body, with the log saying so. -/
theorem logSolve_apply (rounds : Nat → Walk Ty) :
    logSolve f rounds s =
      match rounds 0 (s.logged (.enterSolve f.id)) with
      | .ok t u => .ok t (u.logged .exitSolve)
      | .error e u => .error e (u.logged .exitSolve) := by
  have hrun : logSolve f rounds s =
      ensuring (rounds 0) (fun u => u.logged .exitSolve) (s.logged (.enterSolve f.id)) := rfl
  rw [hrun, Walk.ensuring]
  cases rounds 0 (s.logged (.enterSolve f.id)) <;> rfl

/-- Settling the result of a body. -/
theorem solve_apply :
    solve i f scope call s =
      match roundsUpTo (fun _ => return .any) i f scope call (max 1 s.options.maxRounds) 0
        (s.logged (.enterSolve f.id)) with
      | .ok t u => .ok t (u.logged .exitSolve)
      | .error e u => .error e (u.logged .exitSolve) :=
  logSolve_apply f s _

end Parts

/-- The second half of a call: its result is settled with nothing assumed, and recorded. -/
theorem runEntered_apply (solver : Func → ScopeId → Call → Walk Ty) (c : Closure) (call : Call)
    (scope : ScopeId) (s : Run) :
    runEntered solver c call scope s =
      match solver c.func scope call (s.assuming call.closure .never) with
      | .ok ret t =>
        (do onClosures (Closures.recordCall call.closure call.args ret); return ret : Walk Ty)
          (t.dropSeed call.closure)
      | .error e t => .error e (t.dropSeed call.closure) := by
  have hrun : runEntered solver c call scope s =
      EStateM.bind (ensuring (solver c.func scope call) (Run.dropSeed call.closure))
        (fun ret => do
          onClosures (Closures.recordCall call.closure call.args ret)
          return ret) (s.assuming call.closure .never) := rfl
  rw [hrun, EStateM.bind, Walk.ensuring]
  cases solver c.func scope call (s.assuming call.closure .never) <;> rfl

theorem get_bind {α : Type} (f : Run → Walk α) (s : Run) : (get >>= f) s = f s s := rfl

/-- Answering a call. -/
theorem answer_apply (run : Closure → Call → Walk Ty) (call : Call) (s : Run) :
    answer run call s =
      match s.closures.table[call.closure]? with
      | none => .error (.dangling (.closure call.closure)) s
      | some c =>
        if c.selfReferential then
          (do onClosures (Closures.recordCall call.closure call.args .any); return .any : Walk Ty)
            (s.logged (.selfReferential c.func.id))
        else
          match s.solve? call.closure with
          | some v => .ok v.seed
            { s with solving := OrdMap.insert s.solving call.closure ⟨v.seed, true⟩ }
          | none => run c call s := by
  rw [answer, bind_apply, ask, Closures.closure]
  cases s.closures.table[call.closure]? with
  | none => rfl
  | some c =>
    dsimp only
    by_cases hselfReferential : c.selfReferential = true
    · rw [if_pos hselfReferential, if_pos hselfReferential]
      rfl
    · rw [if_neg hselfReferential, if_neg hselfReferential, get_bind]
      cases s.solve? call.closure <;> rfl

/-- Answering one call, unless too many activations are nested. -/
theorem invokeThen_apply (solver : Solver) (next : Invoke) (call : Call) (s : Run) :
    invokeThen solver next call s =
      match s.closures.table[call.closure]? with
      | none => .error (.dangling (.closure call.closure)) s
      | some c =>
        if c.selfReferential then
          (do onClosures (Closures.recordCall call.closure call.args .any); return .any : Walk Ty)
            (s.logged (.selfReferential c.func.id))
        else
          match s.solve? call.closure with
          | some v => .ok v.seed
            { s with solving := OrdMap.insert s.solving call.closure ⟨v.seed, true⟩ }
          | none =>
            if s.options.maxCallDepth ≤ s.activations.length then
              .ok .any (s.logged (.depthReached c.func.id s.activations.length))
            else runCall (solver next) c call s := by
  rw [invokeThen, answer_apply]
  cases s.closures.table[call.closure]? with
  | none => rfl
  | some c =>
    dsimp only
    by_cases hselfReferential : c.selfReferential = true
    · rw [if_pos hselfReferential, if_pos hselfReferential]
    rw [if_neg hselfReferential, if_neg hselfReferential]
    cases s.solve? call.closure with
    | some v => rfl
    | none =>
      have hread : (do
          let s ← get
          if s.options.maxCallDepth ≤ s.activations.length then
            depthReached c
          else
            runCall (solver next) c call : Walk Ty) s =
        (if s.options.maxCallDepth ≤ s.activations.length then depthReached c
          else runCall (solver next) c call : Walk Ty) s := rfl
      dsimp only
      rw [hread]
      by_cases hdeep : s.options.maxCallDepth ≤ s.activations.length
      · rw [if_pos hdeep, if_pos hdeep]
        rfl
      · rw [if_neg hdeep, if_neg hdeep]

/-! ### Watching -/

/-- A condition on the state in front of a round, and the fault that the run stops with when the
condition holds. -/
structure Watch where
  Sees : Func → ScopeId → Call → Run → Prop
  fault : Fault

namespace Watch

variable (w : Watch)

open Classical in
/-- One round, unless the condition holds. -/
noncomputable def round (i : Invoke) (f : Func) (scope : ScopeId) (call : Call)
    (again : Nat → Walk Ty) (done : Nat) : Walk Ty := fun s =>
  if w.Sees f scope call s then .error w.fault s else roundThen i f scope call again done s

/-- A round is a plain one where the condition does not hold. -/
theorem round_of_not_sees {i : Invoke} {f : Func} {scope : ScopeId} {call : Call}
    {again : Nat → Walk Ty} {done : Nat} {s : Run} (hunseen : ¬ w.Sees f scope call s) :
    w.round i f scope call again done s = roundThen i f scope call again done s :=
  if_neg hunseen

/-- The loop over rounds, watched. -/
noncomputable def roundsUpTo (i : Invoke) (f : Func) (scope : ScopeId) (call : Call) :
    Nat → Nat → Walk Ty
  | 0 => fun _ => return .any
  | n + 1 => w.round i f scope call (roundsUpTo i f scope call n)

/-- Settles the result of a body, watched. -/
noncomputable def solve : Solver := fun i f scope call =>
  logSolve f fun done => do
    let n := max 1 (← get).options.maxRounds
    w.roundsUpTo i f scope call n done

theorem solve_apply (i : Invoke) (f : Func) (scope : ScopeId) (call : Call) (s : Run) :
    w.solve i f scope call s =
      match w.roundsUpTo i f scope call (max 1 s.options.maxRounds) 0
        (s.logged (.enterSolve f.id)) with
      | .ok t u => .ok t (u.logged .exitSolve)
      | .error e u => .error e (u.logged .exitSolve) :=
  logSolve_apply f s _

/-- Answers a call, watched, to a given depth. -/
noncomputable def invokeUpTo (n : Nat) : Invoke :=
  TypeFlow.invokeUpTo w.solve (fun _ => return .any) n

/-- Answers a call in the state at hand, watched. -/
noncomputable def invoke : Invoke := fun call => do
  w.invokeUpTo ((← get).depthLeft + 1) call

end Watch

/-! ### Runs, given what answers calls -/

/-- Runs the operation, given what answers calls, and forgets its result. -/
def Action.runBy (i : Invoke) : Action → Walk Unit
  | stmt scope x => inferStmt i scope x
  | expr scope e => do let _ ← inferExpr i scope e
  | call callee this args site caller => do
    let _ ← callValue i callee this args site caller
  | create closure args site caller => do
    let _ ← instantiate i closure args site caller
  | invoke c => do let _ ← i c
  | hoist scope body => TypeFlow.hoist scope body

/-- The operations of a walk answer calls as a run does. -/
theorem Action.run_eq (a : Action) : a.run = a.runBy TypeFlow.invoke := by
  cases a <;> rfl

/-- Runs programs one after the other, given what answers calls. -/
def inferProgramsBy (i : Invoke) : List Program → Walk Unit
  | [] => return ()
  | p :: ps => do
    inferProgramBy i p
    inferProgramsBy i ps

/-- Runs the functions that nothing called, given what answers calls. -/
def analyseUncalledBy (i : Invoke) : Walk Unit := do
  sweepsUpTo i (fun _ => return ()) (literalCount (← get).closures + 1) []

/-- Runs programs and then the functions that nothing called, given what answers calls. -/
def engineBy (i : Invoke) (ps : List Program) : Walk Unit := do
  inferProgramsBy i ps
  analyseUncalledBy i

theorem inferProgramsBy_invoke (ps : List Program) :
    inferProgramsBy invoke ps = inferPrograms ps := by
  induction ps with
  | nil => rfl
  | cons p ps ih => rw [inferProgramsBy, inferPrograms, ih, inferProgram]

/-- A run of programs answers calls as it does. -/
theorem engineBy_invoke (ps : List Program) :
    engineBy invoke ps = (do inferPrograms ps; analyseUncalled) := by
  rw [engineBy, inferProgramsBy_invoke]
  rfl

section Engine

open Discipline

variable {D : Discipline} {d : Nat} {i i' : Invoke} {s : Run} {ps : List Program}

/-- Programs agree when the answers to calls do. -/
theorem Discipline.Answers.inferProgramsBy (hanswers : D.Answers d i i') (hreports : D.reports)
    (hinv : D.Inv s) (hdepth : s.depthLeft = d)
    (hallowed : ∀ p ∈ ps, ∀ n ∈ Program.outerNodes p.unflagged, D.Allowed n) :
    D.Agree none s (inferProgramsBy i ps) (inferProgramsBy i' ps) fun _ _ => True := by
  induction ps generalizing s with
  | nil => exact Agree.pure hinv trivial
  | cons p ps ih =>
    obtain ⟨hallowed', hlater⟩ := List.forall_mem_cons.mp hallowed
    refine (hanswers.inferProgramUnflagged hreports hinv hdepth hallowed').bind
      fun _ t hinv hlead _ => ?_
    exact ih hinv (hlead.depthLeft.trans hdepth) hlater

/-- Runs agree when the answers to calls do. -/
theorem Discipline.Answers.engineBy (hanswers : D.Answers d i i') (hreports : D.reports)
    (hinv : D.Inv s) (hdepth : s.depthLeft = d)
    (hallowed : ∀ p ∈ ps, ∀ n ∈ Program.outerNodes p.unflagged, D.Allowed n) :
    D.Agree none s (engineBy i ps) (engineBy i' ps) fun _ _ => True := by
  refine (hanswers.inferProgramsBy hreports hinv hdepth hallowed).bind fun _ t hinv hlead _ => ?_
  refine Agree.get (fun s' hsim => by rw [sim_closures hsim]) ?_
  exact hanswers.sweepsUpTo_same hreports (fun f _ => Set.mem_univ f.id) _ hinv
    (hlead.depthLeft.trans hdepth) Visits.nil fun _ _ hinv => Agree.pure hinv trivial

end Engine

end TypeFlow
