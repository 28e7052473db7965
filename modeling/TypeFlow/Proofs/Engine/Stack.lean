import Mathlib
import TypeFlow.Proofs.Engine.Watch

/-!
# The stack of running calls

Whatever an operation of a walk does, and wherever it stops, it leaves the running calls and the
assumed results as it found them.  On the way no closure runs twice at a time, and no more calls are
nested than may be.

## Main Definitions

* `Run.Aligned` - the closures that run are different, and results are assumed for just these
* `Steady` - what is shown of two walks in lockstep: they do the same, and keep the running calls
* `Run.Crowded` - one more running call would be one too many

## Main Statements

* `steady_invoke` - watching out for crowded states makes no difference to answering calls
* `stack_discipline` - the same for all operations of a walk, and for programs

## Design Notes

A call is run only when no result is assumed for its closure.  In an aligned state this means that
the closure is not running.  While its rounds run, a result is assumed for it between the rounds
too, when it is not on the stack.
-/

namespace TypeFlow

open Walk

/-! ### Keeping the running calls -/

/-- Walks of which nothing is asked. -/
def anyWalk : Discipline :=
  .untyped .all fun _ => True

namespace anyWalk

variable {s : Run}

theorem inv (s : Run) : anyWalk.Inv s :=
  ⟨fun _ _ => trivial, fun _ _ htight => htight.elim, fun _ _ _ => trivial,
    fun htight => htight.elim, trivial, False.elim, nofun⟩

theorem live (s : Run) (d : Dangling) : anyWalk.Live s d :=
  fun htight => htight.elim

theorem stands (s : Run) (id : ScopeId) (n : Node) : anyWalk.Stands s id n :=
  ⟨trivial, fun hplaced => hplaced.elim⟩

theorem mayBind (s : Run) (id : ScopeId) (name : String) : anyWalk.MayBind s id name :=
  fun hplaced => hplaced.elim

theorem mayRead (name : String) : anyWalk.MayRead name :=
  ⟨0, ⟨0, 0⟩, .stmt ⟨0, ⟨0, 0⟩, .expr ⟨0, ⟨0, 0⟩, .ident name⟩⟩, trivial, List.mem_cons_self⟩

/-- Every call may be made. -/
theorem callable (s : Run) (call : Call) : anyWalk.Callable s call :=
  ⟨live s _, trivial, fun _ _ => trivial, live s _, fun _ _ => live s _⟩

/-- What is shown of all walks includes that they keep the running calls. -/
theorem keeps {α : Type} {m : Walk α} {Q : α → Run → Prop} {but : Option ClosureId}
    (hdoes : anyWalk.Does but s m Q) : s.Keeps but (after m s) :=
  (hdoes s rfl).after.2.keeps

end anyWalk

/-! ### Aligned states -/

/-- The closures of the running calls, innermost first. -/
def Run.running (s : Run) : List ClosureId :=
  s.activations.map (·.closure)

/-- The closures that run are different, and results are assumed for just these. -/
structure Run.Aligned (s : Run) : Prop where
  nodup : s.running.Nodup
  assumed : ∀ id, id ∈ s.running ↔ (s.solve? id).isSome = true

/-- The same, apart from one closure that does not run and for which a result is assumed. -/
structure Run.AlignedBut (k : ClosureId) (s : Run) : Prop where
  nodup : s.running.Nodup
  idle : k ∉ s.running
  seeded : (s.solve? k).isSome = true
  assumed : ∀ id, id ≠ k → (id ∈ s.running ↔ (s.solve? id).isSome = true)

section Aligned

variable {s t : Run} {k : ClosureId}

/-- The same closures run before and after. -/
theorem Run.Keeps.running {but : Option ClosureId} (h : s.Keeps but t) : t.running = s.running := by
  have hframes := congrArg (List.map Activation.closure) h.frames
  rw [List.map_map, List.map_map] at hframes
  exact hframes

/-- Results are assumed for the same closures before and after. -/
theorem Run.Keeps.isSome {but : Option ClosureId} (h : s.Keeps but t) {id : ClosureId}
    (hne : but ≠ some id) : (t.solve? id).isSome = (s.solve? id).isSome := by
  have hseeds := congrArg Option.isSome (h.seeds id hne)
  rwa [Option.isSome_map, Option.isSome_map] at hseeds

/-- What keeps the running calls keeps a state aligned. -/
theorem Run.Aligned.keeps (h : s.Aligned) (hkept : s.Keeps none t) : t.Aligned := by
  refine ⟨hkept.running ▸ h.nodup, fun id => ?_⟩
  rw [hkept.running, hkept.isSome nofun]
  exact h.assumed id

/-- The same for a state that is aligned apart from one closure. -/
theorem Run.AlignedBut.keeps (h : s.AlignedBut k) (hkept : s.Keeps none t) : t.AlignedBut k := by
  refine ⟨hkept.running ▸ h.nodup, hkept.running ▸ h.idle, hkept.isSome nofun ▸ h.seeded,
    fun id hne => ?_⟩
  rw [hkept.running, hkept.isSome nofun]
  exact h.assumed id hne

theorem solve?_assuming_self (s : Run) (k : ClosureId) (seed : Ty) :
    (s.assuming k seed).solve? k = some ⟨seed, false⟩ :=
  OrdMap.get?_insert_self _ _ _

theorem solve?_assuming_of_ne (s : Run) {id k : ClosureId} (seed : Ty) (hne : id ≠ k) :
    (s.assuming k seed).solve? id = s.solve? id :=
  OrdMap.get?_insert_of_ne _ _ hne

/-- A result is assumed for a closure that does not run. -/
theorem Run.Aligned.assuming (h : s.Aligned) (hidle : s.solve? k = none) (seed : Ty) :
    (s.assuming k seed).AlignedBut k where
  nodup := h.nodup
  idle hmem := by
    have hassumed := (h.assumed k).mp hmem
    rw [hidle] at hassumed
    cases hassumed
  seeded := by rw [solve?_assuming_self]; rfl
  assumed id hne := by
    rw [solve?_assuming_of_ne s seed hne]
    exact h.assumed id

/-- Another result is assumed. -/
theorem Run.AlignedBut.assuming (h : s.AlignedBut k) (seed : Ty) :
    (s.assuming k seed).AlignedBut k where
  nodup := h.nodup
  idle := h.idle
  seeded := by rw [solve?_assuming_self]; rfl
  assumed id hne := by
    rw [solve?_assuming_of_ne s seed hne]
    exact h.assumed id hne

/-- The closure runs. -/
theorem Run.AlignedBut.pushed (h : s.AlignedBut k) {a : Activation} (hsame : a.closure = k) :
    (s.pushed a).Aligned := by
  subst hsame
  have hrunning : (s.pushed a).running = a.closure :: s.running := rfl
  refine ⟨hrunning ▸ List.nodup_cons.mpr ⟨h.idle, h.nodup⟩, fun id => ?_⟩
  rw [hrunning, List.mem_cons]
  change _ ↔ (s.solve? id).isSome = true
  by_cases heq : id = a.closure
  · subst heq
    exact ⟨fun _ => h.seeded, fun _ => Or.inl rfl⟩
  · rw [← h.assumed id heq]
    exact or_iff_right heq

end Aligned

/-! ### Walks in lockstep -/

/-- Two computations that do the same in aligned states in which less than `n` activations may be
nested, and that keep the running calls. -/
def Steady (n : Nat) {α : Type} (m m' : Walk α) : Prop :=
  ∀ s : Run, s.Aligned → s.depthLeft < n → m' s = m s ∧ s.Keeps none (after m s)

section Steady

variable {n : Nat} {α β : Type}

/-- A computation that keeps the running calls is steady with itself. -/
theorem Steady.of_does {m : Walk α} {Q : α → Run → Prop} (hdoes : ∀ s, anyWalk.Does none s m Q) :
    Steady n m m :=
  fun s _ _ => ⟨rfl, anyWalk.keeps (hdoes s)⟩

/-- Steady computations one after the other. -/
theorem Steady.bind {m m' : Walk α} {f f' : α → Walk β} (hfirst : Steady n m m')
    (hnext : ∀ a, Steady n (f a) (f' a)) : Steady n (m >>= f) (m' >>= f') := by
  intro s haligned hdeep
  obtain ⟨hsame, hkept⟩ := hfirst s haligned hdeep
  rw [bind_apply, bind_apply, after_bind, hsame]
  unfold after at hkept
  cases hran : m s with
  | error e t =>
    rw [hran] at hkept
    exact ⟨rfl, hkept⟩
  | ok a t =>
    rw [hran] at hkept
    obtain ⟨hsame, hkept'⟩ := hnext a t (haligned.keeps hkept) (hkept.depthLeft.trans_lt hdeep)
    exact ⟨hsame, hkept.trans hkept'⟩

open Discipline

theorem Steady.pure (a : α) : Steady n (pure a) (pure a) :=
  .of_does fun s => Agree.pure (anyWalk.inv s) (Q := fun _ _ => True) trivial

/-- A constructor that runs on a new instance is steady when calls are. -/
theorem Steady.runOnInstance {i' : Invoke} (hanswers : ∀ call, Steady n (invoke call) (i' call))
    (closure : ClosureId) (ctor : CtorId) (args : List Ty) (site : NodeId) (caller : ScopeId) :
    Steady n (runOnInstance invoke closure ctor args site caller)
      (runOnInstance i' closure ctor args site caller) := by
  refine Steady.bind (.of_does fun s => Does.create (anyWalk.inv s) (anyWalk.live s _)
    (fun _ _ => anyWalk.live s _) (List.forall_mem_nil _)) fun cell => ?_
  exact Steady.bind (hanswers _) fun _ => .pure cell

end Steady

open Discipline in
/-- Walks in lockstep are steady when answering calls is. -/
def steadyWalks (n : Nat) (scope : ScopeId) (i' : Invoke)
    (hanswers : ∀ call, Steady n (invoke call) (i' call)) : Lockstep scope invoke i' where
  Rel := Steady n
  Captured _ := True
  pure := Steady.pure
  bind := Steady.bind
  malformed kind node span := .of_does fun s =>
    Agree.malformed (anyWalk.inv s) (Q := fun _ _ => True) kind node span
  record node t := .of_does fun s => Does.record (anyWalk.inv s) node trivial
  noteAccess node := .of_does fun s => Does.noteAccess (anyWalk.inv s) node
  thisType := .of_does fun s => Does.thisType (anyWalk.inv s)
  addReturn node span t := .of_does fun s => Does.addReturn (anyWalk.inv s) node span trivial
  readVariable name := .of_does fun s =>
    Does.readVariable (anyWalk.inv s) (anyWalk.live s _) (anyWalk.mayRead name)
  writeVariable name t := .of_does fun s =>
    Does.writeVariable (anyWalk.inv s) (anyWalk.live s _) name trivial
  bindVariable name t := .of_does fun s =>
    Does.bindVariable (anyWalk.inv s) (anyWalk.live s _) (anyWalk.mayBind s _ name) trivial
  readMember t property := .of_does fun s => Does.readMember (anyWalk.inv s) trivial property
  writeMember t property value through := .of_does fun s =>
    Does.writeMember (anyWalk.inv s) trivial property trivial through
  createObject node fields := .of_does fun s =>
    Does.create (anyWalk.inv s) (anyWalk.live s _) (fun _ _ => anyWalk.live s _) fun _ _ => trivial
  captureFunc f binding _ := .of_does fun s =>
    Does.captureFunc (anyWalk.inv s) (anyWalk.live s _) (anyWalk.stands s _ _) binding
  invoke closure this args site := hanswers _
  startInstance closure args site :=
    Steady.bind (.of_does fun s => Does.ctorOf (anyWalk.inv s) (anyWalk.live s _)) fun ctor =>
      Steady.bind (Steady.runOnInstance hanswers closure ctor args site scope) fun cell => .pure _
  runAncestor args site id := by
    refine Steady.bind (.of_does fun s => Does.askCtor (anyWalk.inv s) (anyWalk.live s _))
      fun c => ?_
    cases c.closure with
    | none => exact .pure _
    | some closure =>
      by_cases hanalysed : c.analysed = true
      · simp only [hanalysed, if_true]
        exact .pure _
      · simp only [hanalysed, Bool.false_eq_true, if_false]
        exact Steady.bind (Steady.runOnInstance hanswers closure id args site scope)
          fun _ => .pure _
  askProtos look := .of_does fun s =>
    Agree.ask (anyWalk.inv s) (fun s' hsame => by cases hsame; rfl) (Q := fun _ _ => True)
      (fun _ _ => trivial) fun _ _ htight => htight.elim
  writeMissing cell fields := .of_does fun s =>
    Does.writeMissing (anyWalk.inv s) (anyWalk.live s _) fun _ _ => trivial

/-! ### Rounds and calls -/

/-- One more running call would be one too many: more than may be nested, or a second one of its
closure. -/
def Run.Crowded (s : Run) (k : ClosureId) : Prop :=
  ¬ ((k :: s.running).Nodup ∧ (k :: s.running).length ≤ s.options.maxCallDepth)

/-- Watches out for crowded states. -/
def crowdWatch (fault : Fault) : Watch where
  Sees _ _ call s := s.Crowded call.closure
  fault := fault

/-- An entry in the log keeps the running calls. -/
theorem Run.keeps_logged (s : Run) (e : Event) : s.Keeps none (s.logged e) :=
  ⟨rfl, rfl, rfl, fun _ _ => rfl⟩

section Rounds

variable {n : Nat} {i' : Invoke} (hanswers : ∀ call, Steady n (invoke call) (i' call))
variable {s : Run} (f : Func) (scope : ScopeId) {call : Call}

include hanswers

/-- Running a body once. -/
theorem steady_runBody (haligned : s.AlignedBut call.closure)
    (hroom : s.activations.length < s.options.maxCallDepth) (hdeep : s.depthLeft ≤ n) :
    runBody i' f scope call s = runBody invoke f scope call s ∧
      s.Keeps none (after (runBody invoke f scope call) s) := by
  let a := call.activation scope
  have hnested : (s.pushed a).depthLeft < n := by
    have hpushed : (s.pushed a).depthLeft = s.options.maxCallDepth - (s.activations.length + 1) :=
      rfl
    unfold Run.depthLeft at hdeep
    omega
  obtain ⟨hsame, hkept⟩ := (steadyWalks n scope i' hanswers).inferBlock f.body (fun _ _ => trivial)
    (s.pushed a) (haligned.pushed rfl) hnested
  unfold after at hkept ⊢
  rw [runBody_apply, runBody_apply, hsame]
  cases hran : inferBlock invoke scope f.body (s.pushed a) with
  | ok _ t =>
    rw [hran] at hkept
    exact ⟨rfl, Run.Keeps.pop (a := a) hkept⟩
  | error e t =>
    rw [hran] at hkept
    exact ⟨rfl, Run.Keeps.pop (a := a) hkept⟩

/-- The loop over rounds never sees a crowded state. -/
theorem steady_rounds (fault : Fault) (rounds done : Nat) (haligned : s.AlignedBut call.closure)
    (hroom : s.activations.length < s.options.maxCallDepth) (hdeep : s.depthLeft ≤ n) :
    (crowdWatch fault).roundsUpTo i' f scope call rounds done s =
      roundsUpTo (fun _ => return .any) invoke f scope call rounds done s := by
  induction rounds generalizing done s with
  | zero => rfl
  | succ rounds ih =>
    -- the closure does not run yet, and there is room for one more call: the state is not crowded
    have hfits : ¬ (crowdWatch fault).Sees f scope call s := by
      refine not_not_intro ⟨List.nodup_cons.mpr ⟨haligned.idle, haligned.nodup⟩, ?_⟩
      rw [List.length_cons, Run.running, List.length_map]
      exact hroom
    obtain ⟨hsame, hkept⟩ := steady_runBody hanswers f scope haligned hroom hdeep
    rw [Watch.roundsUpTo, TypeFlow.roundsUpTo, Watch.round_of_not_sees _ hfits, roundThen_apply,
      roundThen_apply, hsame]
    unfold after at hkept
    cases hran : runBody invoke f scope call s with
    | error e t => rfl
    | ok ret t =>
      rw [hran] at hkept
      dsimp only
      -- only a round in which the body was called from inside may be followed by another one
      cases hassumed : t.solve? call.closure with
      | none => rfl
      | some v =>
        obtain ⟨seed, recursed⟩ := v
        cases recursed with
        | false => rfl
        | true =>
          dsimp only
          let noted := t.logged (.round (done + 1) seed ret (t.version == s.version))
          have hkept' : s.Keeps none noted := hkept.trans (t.keeps_logged _)
          have hroom' : noted.activations.length < noted.options.maxCallDepth := by
            rw [hkept'.depth, hkept'.options]
            exact hroom
          have hnext := ih (done + 1) (s := noted.assuming call.closure (seed.join ret))
            ((haligned.keeps hkept').assuming _) hroom' (hkept'.depthLeft.trans_le hdeep)
          rw [hnext]

/-- The rounds of a body: while they run, the state is aligned apart from the closure itself. -/
theorem steady_solve (fault : Fault) (haligned : s.AlignedBut call.closure)
    (hroom : s.activations.length < s.options.maxCallDepth) (hdeep : s.depthLeft ≤ n) :
    (crowdWatch fault).solve i' f scope call s = solve invoke f scope call s := by
  have hrounds := steady_rounds hanswers f scope fault
    (max 1 s.options.maxRounds) 0 (haligned.keeps (s.keeps_logged (.enterSolve f.id))) hroom hdeep
  rw [Watch.solve_apply, solve_apply, hrounds]

end Rounds

/-- Entering a call keeps the running calls. -/
theorem keeps_enterCall {s : Run} {c : Closure} {call : Call}
    (hfound : s.closures.table[call.closure]? = some c) :
    s.Keeps none (after (enterCall c call) s) :=
  anyWalk.keeps (Discipline.Does.enterCall (anyWalk.inv s) (anyWalk.callable s call) hfound)

/-- Watching out for crowded states makes no difference to answering calls. -/
theorem steady_invokeUpTo (fault : Fault) (n : Nat) (call : Call) :
    Steady n (invoke call) ((crowdWatch fault).invokeUpTo n call) := by
  induction n generalizing call with
  | zero => exact fun s _ hdeep => absurd hdeep (Nat.not_lt_zero _)
  | succ n ih =>
    intro s haligned hdeep
    have hkept := anyWalk.keeps (Discipline.answers_invoke s call (anyWalk.inv s) rfl
      (anyWalk.callable s call))
    refine ⟨?_, hkept⟩
    -- both answers are unfolded once; they differ only in how the result of the body is settled
    have hunfolded : invoke = invokeThen solve invoke := (invokeThen_unique invoke).mpr rfl
    rw [hunfolded, Watch.invokeUpTo, invokeUpTo, invokeThen_apply, invokeThen_apply]
    cases hfound : s.closures.table[call.closure]? with
    | none => rfl
    | some c =>
      dsimp only
      by_cases hselfReferential : c.selfReferential = true
      · rw [if_pos hselfReferential, if_pos hselfReferential]
      rw [if_neg hselfReferential, if_neg hselfReferential]
      cases hassumed : s.solve? call.closure with
      | some v => rfl
      | none =>
        dsimp only
        by_cases hfull : s.options.maxCallDepth ≤ s.activations.length
        · rw [if_pos hfull, if_pos hfull]
        rw [if_neg hfull, if_neg hfull, runCall_eq, runCall_eq, bind_apply, bind_apply]
        have hentered := keeps_enterCall hfound
        unfold after at hentered
        cases hran : enterCall c call s with
        | error e t => rfl
        | ok scope t =>
          rw [hran] at hentered
          -- the frame is entered without touching assumed results, so the closure is still idle
          have hidle : t.solve? call.closure = none := by
            have hsame := hentered.seeds call.closure (Option.some_ne_none _).symm
            rw [hassumed] at hsame
            exact Option.map_eq_none_iff.mp hsame
          let seeded := t.assuming call.closure .never
          have hroom : seeded.activations.length < seeded.options.maxCallDepth := by
            change t.activations.length < t.options.maxCallDepth
            rw [hentered.depth, hentered.options]
            exact Nat.lt_of_not_le hfull
          have hdeep' : seeded.depthLeft ≤ n :=
            Nat.le_of_lt_succ (hentered.depthLeft.trans_lt hdeep)
          have hsolved := steady_solve ih c.func scope fault
            ((haligned.keeps hentered).assuming hidle .never) hroom hdeep'
          change runEntered _ c call scope t = runEntered _ c call scope t
          rw [runEntered_apply, runEntered_apply, ← hsolved]
          rfl

/-- Watching out for crowded states makes no difference to answering calls. -/
theorem steady_invoke (fault : Fault) (n : Nat) (call : Call) :
    Steady n (invoke call) ((crowdWatch fault).invoke call) := by
  intro s haligned _
  exact steady_invokeUpTo fault (s.depthLeft + 1) call s haligned (Nat.lt_succ_self _)

/-! ### Operations and programs -/

/-- Watching out for crowded states makes no difference to the operations of a walk. -/
theorem steady_action (fault : Fault) (n : Nat) (a : Action) :
    Steady n a.run (a.runBy (crowdWatch fault).invoke) := by
  have hanswers := steady_invoke fault n
  have hdone : Steady n (pure () : Walk Unit) (pure ()) := .pure ()
  rw [a.run_eq]
  cases a with
  | stmt scope x => exact (steadyWalks n scope _ hanswers).inferStmt x fun _ _ => trivial
  | expr scope e =>
    exact Steady.bind ((steadyWalks n scope _ hanswers).inferExpr e fun _ _ => trivial)
      fun _ => hdone
  | call callee this args site caller =>
    exact Steady.bind ((steadyWalks n caller _ hanswers).callValue callee this args site)
      fun _ => hdone
  | create closure args site caller =>
    exact Steady.bind ((steadyWalks n caller _ hanswers).instantiate closure args site)
      fun _ => hdone
  | invoke c => exact Steady.bind (hanswers c) fun _ => hdone
  | hoist scope body => exact (steadyWalks n scope _ hanswers).hoist body fun _ _ => trivial

/-- Runs programs, and after them the first statements of one more. -/
def inferProgramsAnd (ps : List Program) (p : Program) (k : Nat) : Walk Unit := do
  inferPrograms ps
  emit (.enterProgram p.length)
  hoistProgram p.duplicates 0 p
  inferTops invoke p.duplicates 0 (p.take k)

open Discipline in
/-- Programs, and the first statements of one more, keep the running calls. -/
theorem keeps_inferProgramsAnd (ps : List Program) (p : Program) (k : Nat) (s : Run) :
    s.Keeps none (after (inferProgramsAnd ps p k) s) := by
  have hinv := anyWalk.inv
  refine anyWalk.keeps (Q := fun _ _ => True) ?_
  rw [inferProgramsAnd, hoistProgram_duplicates, inferTops_duplicates]
  refine (Does.inferPrograms trivial (hinv s) fun _ _ _ _ => trivial).bind fun _ t _ _ _ => ?_
  refine (Does.emit (hinv t) _).bind fun _ u _ _ _ => ?_
  refine (Does.hoistFlagged (hinv u) fun _ _ _ _ => trivial).bind fun _ v _ _ _ => ?_
  exact Answers.inferFlagged answers_invoke trivial (hinv v) rfl fun _ _ _ _ => trivial

theorem OrdMap.eq_nil_of_get? {κ α : Type} [DecidableEq κ] {m : OrdMap κ α}
    (hnone : ∀ k, OrdMap.get? m k = none) : m = [] := by
  cases m with
  | nil => rfl
  | cons e rest =>
    have hfound := hnone e.1
    rw [OrdMap.get?, if_pos rfl] at hfound
    cases hfound

/-- After a computation that started outside of all calls none is running, and no result is
assumed. -/
theorem Run.Keeps.idle {s t : Run} (hkept : s.Keeps none t) (hcalls : s.activations = [])
    (hsolving : s.solving = []) : t.activations = [] ∧ t.solving = [] := by
  constructor
  · have hframes := hkept.frames
    rw [hcalls] at hframes
    exact List.map_eq_nil_iff.mp hframes
  · refine OrdMap.eq_nil_of_get? fun k => ?_
    have hseeds := hkept.seeds k nofun
    rw [Run.solve?, Run.solve?, hsolving] at hseeds
    exact Option.map_eq_none_iff.mp hseeds

/-- Whether an operation of a walk succeeds or stops, at whatever depth, the running calls are the
same after it, and so are the closures that results are assumed for, and these results.  On the way
no running call is added that would be one too many.  After every statement of a program, given up
or not, nothing runs and nothing is assumed. -/
theorem stack_discipline :
    (∀ (s : Run) (a : Action), s.Aligned →
      (after a.run s).activations.map Activation.frame = s.activations.map Activation.frame ∧
      (∀ id, ((after a.run s).solve? id).map (·.seed) = (s.solve? id).map (·.seed)) ∧
      ∀ fault, a.runBy (crowdWatch fault).invoke s = a.run s) ∧
    ∀ (options : Options) (globals : Globals) (ps : List Program) (p : Program) (k : Nat),
      let s := after (inferProgramsAnd ps p k) (Run.start options globals)
      s.activations = [] ∧ s.solving = [] := by
  constructor
  · intro s a haligned
    have hsteady (fault : Fault) :=
      steady_action fault (s.depthLeft + 1) a s haligned (Nat.lt_succ_self _)
    have hkept := (hsteady (.dangling (.scope 0))).2
    exact ⟨hkept.frames, fun id => hkept.seeds id nofun, fun fault => (hsteady fault).1⟩
  · intro options globals ps p k
    exact (keeps_inferProgramsAnd ps p k _).idle rfl rfl

/-- What stops a computation, if anything does. -/
def Walk.fault? {α : Type} (m : Walk α) (s : Run) : Option Fault :=
  match m s with
  | .ok _ _ => none
  | .error e _ => some e

/-- `function f() {}` and `function g() { f(); ?() }`, where the last call has no callee. -/
def callThenStop : Program :=
  [⟨0, ⟨0, 0⟩, .function ⟨1, ⟨0, 0⟩, some "f", [], []⟩⟩,
    ⟨2, ⟨0, 0⟩, .function ⟨3, ⟨0, 0⟩, some "g", [],
      [⟨4, ⟨0, 0⟩, .expr ⟨5, ⟨0, 0⟩, .call (some ⟨6, ⟨0, 0⟩, .ident "f"⟩) []⟩⟩,
        ⟨7, ⟨0, 0⟩, .expr ⟨8, ⟨0, 0⟩, .call none []⟩⟩]⟩⟩]

/-- A state in which `f` runs, with a number as its assumed result. -/
def callerRunning : Run :=
  { after (inferProgram callThenStop) (Run.start ⟨2, 3, false, false⟩ []) with
    activations := [⟨0, Env.global, .any, .never, none⟩]
    solving := [(0, ⟨.number, false⟩)] }

/-- The call of `g`. -/
def callStopping : Action :=
  .invoke ⟨1, .any, [], 9, Env.global, none⟩

/-- While `f` runs, the call of `g` stops inside, after a call from inside to `f`; `f` still runs,
and its result is still taken for a number. -/
theorem stack_discipline_callThenStop :
    callerRunning.Aligned ∧
    callStopping.run.fault? callerRunning = some (.malformed ⟨.missingCallee, 8, ⟨0, 0⟩⟩) ∧
    ((after callStopping.run callerRunning).solve? 0).map (·.recursed) = some true ∧
    (after callStopping.run callerRunning).running = [0] ∧
    ((after callStopping.run callerRunning).solve? 0).map (·.seed) = some .number ∧
    callStopping.runBy (crowdWatch (.dangling (.scope 0))).invoke callerRunning =
      callStopping.run callerRunning := by
  have haligned : callerRunning.Aligned := by
    refine ⟨List.nodup_singleton 0, fun id => ?_⟩
    rw [show callerRunning.running = [0] from rfl, List.mem_singleton]
    by_cases hsame : id = 0
    · subst hsame
      exact ⟨fun _ => rfl, fun _ => rfl⟩
    · refine ⟨fun heq => absurd heq hsame, fun hassumed => ?_⟩
      rw [Run.solve?, show callerRunning.solving = [(0, ⟨.number, false⟩)] from rfl,
        OrdMap.get?, if_neg hsame] at hassumed
      cases hassumed
  obtain ⟨hframes, hseeds, hwatched⟩ := stack_discipline.1 callerRunning callStopping haligned
  refine ⟨haligned, by decide +kernel, by decide +kernel, ?_, hseeds 0, hwatched _⟩
  have hclosures := congrArg (List.map Activation.closure) hframes
  rw [List.map_map, List.map_map] at hclosures
  exact hclosures

end TypeFlow
