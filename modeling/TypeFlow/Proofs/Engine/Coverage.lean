import Mathlib
import TypeFlow.Proofs.Engine.Signatures
import TypeFlow.Proofs.Engine.Survey

/-!
# Coverage

Every call of a function runs its body once at least, so the body of every function that was called
was walked.  After the sweeps over what nothing called, a closure of every captured literal was
called, unless there are errors; and there are errors only where a node is malformed.

## Main Definitions

* `Run.Called`, `Run.CalledLiteral` - a closure was called, or one of a given literal
* `Run.Rests` - the states between two statements of a program
* `Run.Accounts` - a later state at rest, where new errors come from flaws, and where the given
  nodes were walked unless there are errors

## Main Statements

* `Fares.solve` - the rounds of a body
* `serves_invoke` - calls fare well
* `does_callBlindly` - a closure that is run blindly was called
* `accounts_inferProgram` - the statements of a program
* `accounts_analyseUncalled` - the sweeps over what nothing called

## Design Notes

A call may be answered without running the body: from inside of a running call of the same closure,
or since too many calls are nested.  Such a call is not counted.  So when a call was counted, the
body was walked, unless the function returns only itself.  Between statements no call is running,
and every call is followed.
-/

namespace TypeFlow

open Walk

/-! ### Bodies and rounds -/

/-- A body that a run may enter has a malformed node only if the program is flawed. -/
theorem Program.Enters.flawed {p : Program} {b : List Stmt} (henters : p.Enters b)
    (hflaw : flaws true (Stmt.nodesAll false b) = true) : p.Flawed := by
  obtain ⟨n, hmem, hflawed⟩ := List.any_eq_true.mp hflaw
  rw [Node.isFlawed, Bool.not_true, Bool.and_false, Bool.false_or] at hflawed
  exact ⟨n, ⟨b, henters, hmem⟩, hflawed⟩

namespace Fares

variable {p : Program} {inside : Bool} {ns : List Node} {flawed : Bool} {α : Type} {m : Walk α}

/-- A computation that reads the state first. -/
theorem read {f : Run → Walk α} (hnext : ∀ s, Fares p inside ns flawed (f s)) :
    Fares p inside ns flawed (get >>= f) :=
  fun s hstands => hnext s s hstands

/-- A change that is made whatever the outcome. -/
theorem ensuring (h : Fares p inside ns flawed m) {change : Run → Run}
    (hidles : ∀ s : Run, s.Idles (change s)) : Fares p inside ns flawed (ensuring m change) := by
  intro s hstands
  have hfared := h s hstands
  unfold Walk.ensuring
  generalize m s = x at hfared
  cases hfared with
  | @ended a t hstands hadvances hhas hsound =>
    have hlater := (hidles t).advances
    refine .ended (hstands.later (hidles t)) (hadvances.trans hlater) (fun n hmem => ?_) hsound
    exact (hhas n hmem).later hlater.toGains
  | @stopped e t hstands hadvances hreason =>
    exact .stopped (hstands.later (hidles t)) (hadvances.trans (hidles t).advances) hreason
  | lost => exact .lost

/-- A flaw in a body that may be entered is one of the program, so nothing is said of it where the
body is called. -/
theorem entered {b : List Stmt} (henters : p.Enters b)
    (h : Fares p inside ns (flaws true (Stmt.nodesAll false b)) m) : Fares p inside [] false m :=
  fun s hstands => (h s hstands).imp (fun _ _ => List.forall_mem_nil _) (fun _ => rfl)
    fun hflaw => Or.inr (henters.flawed hflaw)

/-- Hoisting the declarations of a body walks no nodes and meets no flaws. -/
theorem hoist (htidy : Tidy p.nodes) (scope : ScopeId) {body : List Stmt}
    (hmay : ∀ d ∈ Stmt.capturesAll body, p.MayCapture d) :
    Fares p inside [] false (hoist scope body) := by
  have hfuncs (fs : List Func) (hmay : ∀ f ∈ fs, p.MayCapture (f, none)) :
      Fares p inside [] false (hoistFuncs scope fs) := by
    induction fs with
    | nil => exact pure ()
    | cons f rest ih =>
      obtain ⟨hmayCapture, hlater⟩ := List.forall_mem_cons.mp hmay
      refine first ((captureFunc htidy scope hmayCapture).mono (List.nil_subset _) rfl)
        fun value => ?_
      cases f.name with
      | none => exact ih hlater
      | some name => exact first (idle (.onEnv _)) fun _ => ih hlater
  refine first (idle (.hoistVars scope _)) fun _ => hfuncs _ fun f hdeclared => ?_
  exact hmay _ (capture_of_hoisted hdeclared)

section Bodies

variable {i : Invoke} (hserves : Serves p true i) {f : Func} (henters : p.Enters f.body)

include hserves henters

/-- Running a body once. -/
theorem runBody (scope : ScopeId) (call : Call) :
    Fares p inside (Stmt.nodesAll false f.body) (flaws true (Stmt.nodesAll false f.body))
      (runBody i f scope call) := by
  intro s hstands
  let inner := s.pushed (call.activation scope)
  have hsurveyed : inner.Surveyed p := hstands.surveyed.same rfl fun _ hhas => hhas
  have hfared : Fared p true _ _ inner (TypeFlow.inferBlock i scope f.body inner) :=
    inferBlock hserves f.body (fun d hmem => ⟨f.body, henters, hmem⟩) inner
      ⟨hsurveyed, fun _ => Nat.succ_pos _, fun _ => rfl⟩
  rw [runBody_apply]
  -- the calls that run are those from before, once the innermost one has ended
  have hpopped {t : Run} (hstanding : Stands p true t) (hadvances : inner.Advances t) :
      Stands p inside t.popActivation ∧ s.Advances t.popActivation := by
    have hdepth : t.popActivation.activations.length = s.activations.length := by
      have hpushed : inner.activations.length = s.activations.length + 1 := rfl
      rw [Run.popActivation, List.length_tail, hadvances.depth, hpushed, Nat.add_sub_cancel]
    have hknown : s.Gains t.popActivation := ⟨hadvances.closures, hadvances.types⟩
    have hsurveyed : t.popActivation.Surveyed p := hstanding.surveyed.same rfl fun _ hhas => hhas
    exact ⟨⟨hsurveyed, hstands.place.trans (by rw [hdepth])⟩, hknown, hdepth⟩
  generalize TypeFlow.inferBlock i scope f.body inner = x at hfared
  cases hfared with
  | ended hstands' hadvances hhas hsound =>
    obtain ⟨hstands, hadvances⟩ := hpopped hstands' hadvances
    exact .ended hstands hadvances
      (fun n hmem => (hhas n hmem).later (.same rfl fun _ hhas => hhas)) hsound
  | stopped hstands' hadvances hreason =>
    obtain ⟨hstands, hadvances⟩ := hpopped hstands' hadvances
    exact .stopped hstands hadvances hreason
  | lost => exact .lost

/-- A first round walks the body, whatever comes after it. -/
theorem roundThen (scope : ScopeId) (call : Call) {again : Nat → Walk Ty}
    (hlater : ∀ done, Fares p inside [] false (again done)) (done : Nat) :
    Fares p inside (Stmt.nodesAll false f.body) (flaws true (Stmt.nodesAll false f.body))
      (roundThen i f scope call again done) := by
  refine read fun before => last (runBody hserves henters scope call) fun ret => read fun s => ?_
  cases s.solve? call.closure with
  | none => exact pure ret
  | some v =>
    obtain ⟨seed, recursed⟩ := v
    cases recursed with
    | false => exact pure ret
    | true =>
      refine first (idle (.emit _)) fun _ => ?_
      split
      · exact pure _
      split
      · exact first (idle (.emit _)) fun _ => pure _
      · exact first (idle (.modify fun _ => ⟨rfl, fun _ hhas => hhas, rfl⟩)) fun _ => hlater _

/-- The body is run once at least. -/
theorem solve (scope : ScopeId) (call : Call) :
    Fares p inside (Stmt.nodesAll false f.body) (flaws true (Stmt.nodesAll false f.body))
      (solve i f scope call) := by
  -- of the rounds after the first one nothing is needed
  have hrounds (n done : Nat) : Fares p inside [] false
      (roundsUpTo (fun _ => return .any) i f scope call n done) := by
    induction n generalizing done with
    | zero => exact pure _
    | succ n ih => exact entered henters (roundThen hserves henters scope call ih done)
  refine first (idle (.emit _)) fun _ => ?_
  refine ensuring (read fun s => ?_) fun _ => ⟨rfl, fun _ hhas => hhas, rfl⟩
  obtain ⟨n, heq⟩ : ∃ n, max 1 s.options.maxRounds = n + 1 :=
    ⟨max 1 s.options.maxRounds - 1, by omega⟩
  simp only [heq]
  exact roundThen hserves henters scope call (hrounds n) 0

end Bodies

/-! ### Calls -/

section Calls

variable {s : Run}

/-- A call, up to joining it into the declared signature. -/
theorem settleCall {i : Invoke} (hserves : Serves p true i) {c : Closure}
    (henters : p.Enters c.func.body) (call : Call) :
    Fares p inside (Stmt.nodesAll false c.func.body) (flaws true (Stmt.nodesAll false c.func.body))
      (settleCall (TypeFlow.solve i) c call) := by
  have hentered : Fares p inside [] false (enterCall c call) := by
    refine first (idle (.enterScope c call)) fun scope => ?_
    refine first (idle (.bindParams scope _ _)) fun _ => ?_
    refine first (idle (.bindSelf scope _ _)) fun _ => ?_
    refine first (hoist hserves.tidy scope fun d hmem => ⟨_, henters, hmem⟩) fun _ => ?_
    exact first (idle (.noteConstructing _)) fun _ => pure scope
  refine first hentered fun scope => ?_
  refine first (idle (.modify fun _ => ⟨rfl, fun _ hhas => hhas, rfl⟩)) fun _ => ?_
  exact ensuring (solve hserves henters scope call) fun _ => ⟨rfl, fun _ hhas => hhas, rfl⟩

/-- A call is joined into a declared signature after the body has been walked. -/
theorem recordCall (hstands : Stands p inside s) (call : Call) (ret : Ty)
    (hwalked : ∀ c, s.closures.table[call.closure]? = some c → c.selfReferential = false →
      s.Walked c.func.body) :
    Fared p inside [] false s ((do
      onClosures (Closures.recordCall call.closure call.args ret)
      return ret : Walk Ty) s) := by
  have happlied := Closures.recordCall_apply s.closures call.closure call.args ret
  rw [bind_apply, onClosures]
  cases hfound : s.closures.table[call.closure]? with
  | none =>
    rw [hfound] at happlied
    rw [happlied]
    exact .lost
  | some c =>
    rw [hfound] at happlied
    rw [happlied]
    let joined (c : Closure) : Closure :=
      { c with
        params := Closures.joinArgs c.params call.args
        ret := c.ret.join ret
        calls := c.calls + 1 }
    let closures := { s.closures with table := s.closures.table.modify call.closure joined }
    have hgains : s.Gains { s with closures } :=
      ⟨.modify (fun _ => ⟨rfl, Nat.le_refl _⟩) fun _ _ => ⟨rfl, Nat.le_succ _⟩, fun _ hhas => hhas⟩
    have hindexed := (Closures.Write.record call.closure call.args ret).indexed
      hstands.surveyed.indexed
    rw [Closures.Write.apply, after, happlied] at hindexed
    refine .ended ⟨⟨hindexed, fun k c' hget => ?_, fun k c' hget hcalled hunmarked => ?_⟩,
      hstands.place⟩ ⟨hgains, rfl⟩ (List.forall_mem_nil _) rfl
    · rcases getElem?_modify_cases hget with hprev | ⟨rfl, c, hget', rfl⟩
      · exact hstands.surveyed.captured k c' hprev
      · exact hstands.surveyed.captured _ c hget'
    -- the closure that is recorded was walked just now, and any other one when it was called
    · rcases getElem?_modify_cases hget with hprev | ⟨rfl, c, hget', rfl⟩
      · exact (hstands.surveyed.walked k c' hprev hcalled hunmarked).later hgains
      · exact (hwalked c hget' hunmarked).later hgains

/-- A call of a closure whose body may be entered. -/
theorem runCall {i : Invoke} (hserves : Serves p true i) (hstands : Stands p inside s) {c : Closure}
    {call : Call} (hfound : s.closures.table[call.closure]? = some c)
    (henters : p.Enters c.func.body) :
    Fared p inside [] false s (runCall (TypeFlow.solve i) c call s) := by
  have hsettled : Fared p inside _ _ s (TypeFlow.settleCall (TypeFlow.solve i) c call s) :=
    settleCall hserves henters call s hstands
  rw [runCall_settled, bind_apply]
  generalize TypeFlow.settleCall (TypeFlow.solve i) c call s = x at hsettled
  cases hsettled with
  | @ended ret t hstands' hadvances hhas hsound =>
    have hwalked : t.Walked c.func.body := fun n hmem => ⟨hhas n hmem, (flawless hsound hmem).2⟩
    -- the closure may have been called in between, but its literal is the same
    have hrecorded := recordCall hstands' call ret fun c' hget _ => by
      obtain ⟨c'', hfound', hsame, -⟩ := hadvances.closures _ c hfound
      cases hget.symm.trans hfound'
      exact hsame ▸ hwalked
    exact hrecorded.later hadvances
  | stopped hstands' hadvances hreason =>
    exact .stopped hstands' hadvances (Or.inr (hreason.elim henters.flawed id))
  | lost => exact .lost

end Calls

end Fares

/-- Calls fare well up to every depth. -/
theorem fares_invokeUpTo {p : Program} (htidy : Tidy p.nodes) (n : Nat) (inside : Bool)
    (call : Call) : Fares p inside [] false (invokeUpTo solve (fun _ => return .any) n call) := by
  -- on how often the recursion through calls is unfolded, since a body runs with the calls one
  -- level further inside
  induction n generalizing inside call with
  | zero => exact .pure _
  | succ n ih =>
    intro s hstands
    rw [invokeUpTo, invokeThen_apply]
    cases hfound : s.closures.table[call.closure]? with
    | none => exact .lost
    | some c =>
      dsimp only
      by_cases hselfReferential : c.selfReferential = true
      · rw [if_pos hselfReferential]
        have hlogged : s.Idles (s.logged (.selfReferential c.func.id)) :=
          ⟨rfl, fun _ hhas => hhas, rfl⟩
        -- a function that returns only itself is not run, and nothing is said of its body
        refine (Fares.recordCall (hstands.later hlogged) call .any
          fun c' hget hunmarked => ?_).later hlogged.advances
        cases hfound.symm.trans hget
        cases hselfReferential.symm.trans hunmarked
      · rw [if_neg hselfReferential]
        obtain ⟨d, ⟨b, henters, hlisted⟩, hsame, hmarks⟩ := hstands.surveyed.captured _ c hfound
        have hunmarked : d.marks = false := hmarks.trans (Bool.eq_false_iff.mpr hselfReferential)
        cases s.solve? call.closure with
        | some v =>
          exact .idle hstands ⟨rfl, fun _ hhas => hhas, rfl⟩
        | none =>
          dsimp only
          split
          · exact .idle hstands ⟨rfl, fun _ hhas => hhas, rfl⟩
          · exact Fares.runCall ⟨htidy, ih true⟩ hstands hfound
              (hsame ▸ henters.literal hlisted hunmarked)

/-- Calls fare well. -/
theorem serves_invoke {p : Program} (htidy : Tidy p.nodes) (inside : Bool) :
    Serves p inside invoke :=
  ⟨htidy, fun call => .read fun _ => fares_invokeUpTo htidy _ inside call⟩

/-! ### Closures that were called -/

/-- The closure was called, and the call has ended. -/
def Run.Called (s : Run) (k : ClosureId) : Prop :=
  ∃ c, s.closures.table[k]? = some c ∧ 0 < c.calls

section Called

open Discipline

variable {s t : Run} {k : ClosureId}

/-- A closure that was called stays so. -/
theorem Run.Called.later (h : s.Called k)
    (hgrows : Grows (fun c c' => c'.func = c.func ∧ c.calls ≤ c'.calls) s.closures.table
      t.closures.table) :
    t.Called k := by
  obtain ⟨c, hfound, hcalled⟩ := h
  obtain ⟨c', hfound', -, hmore⟩ := hgrows k c hfound
  exact ⟨c', hfound', hcalled.trans_le hmore⟩

/-- Calls are only counted upwards. -/
theorem calls_of_steps {D : Discipline} (hsteps : D.Steps s t) :
    Grows (fun c c' => c'.func = c.func ∧ c.calls ≤ c'.calls) s.closures.table
      t.closures.table := by
  have hsame (cs : Closures) :
      Grows (fun c c' : Closure => c'.func = c.func ∧ c.calls ≤ c'.calls) cs.table cs.table :=
    .refl (fun _ => ⟨rfl, Nat.le_refl _⟩) _
  induction hsteps with
  | refl => exact hsame _
  | @tail r _ _ hlast ih =>
    obtain ⟨u, -, rfl⟩ := hlast
    -- each update adds a closure, records a call or leaves the numbers of calls alone
    refine ih.trans (fun _ _ _ hc hc' => ⟨hc'.1.trans hc.1, hc.2.trans hc'.2⟩) ?_
    cases u with
    | closures w =>
      rw [Update.apply]
      cases w with
      | capture scope f =>
        rcases Closures.after_captureId r.closures scope f with heq | ⟨-, heq⟩ <;>
          rw [Closures.Write.apply, heq]
        · exact hsame _
        · exact .push (fun _ => ⟨rfl, Nat.le_refl _⟩) _ _
      | record id args ret =>
        rcases Closures.after_recordCall r.closures id args ret with heq | heq <;>
          rw [Closures.Write.apply, heq]
        · exact hsame _
        · exact .modify (fun _ => ⟨rfl, Nat.le_refl _⟩) fun _ _ => ⟨rfl, Nat.le_succ _⟩
      | mark id =>
        rcases Closures.after_markSelfReferential r.closures id with heq | heq <;>
          rw [Closures.Write.apply, heq]
        · exact hsame _
        · exact .modify (fun _ => ⟨rfl, Nat.le_refl _⟩) fun _ _ => ⟨rfl, Nat.le_refl _⟩
    | _ => exact hsame _

/-- A closure whose call is recorded was called. -/
theorem called_record {c : Closure} (hfound : s.closures.table[k]? = some c) (args : List Ty)
    (ret : Ty) :
    ((Update.closures (.record k args ret)).apply s).Called k := by
  have happlied := Closures.recordCall_apply s.closures k args ret
  rw [hfound] at happlied
  rw [Run.Called, Update.apply, Closures.Write.apply, after, happlied]
  exact ⟨_, (Array.getElem?_modify ..).trans (by rw [if_pos rfl, hfound]; rfl), Nat.succ_pos _⟩

/-- After a call that is followed, its closure was called. -/
theorem does_invoke_called (call : Call) :
    anyWalk.Does none s (invoke call) fun _ t =>
      s.Follows call.closure → t.Called call.closure := by
  refine ((answers_invoke s call (anyWalk.inv s) rfl (anyWalk.callable s call)).also
    fun ret t hran hfollows => ?_).mono fun _ _ _ _ hboth => hboth.2
  obtain ⟨u, -, ⟨c, hfound⟩, rfl⟩ :=
    invoke_records (anyWalk.inv s) (anyWalk.callable s call) rfl hfollows hran
  exact called_record hfound call.args ret

/-- A closure that is run blindly has been called, when calls of it are followed. -/
theorem does_callBlindly (f : Func) :
    anyWalk.Does none s (callBlindly invoke k f) fun _ t => s.Follows k → t.Called k := by
  let args := List.replicate f.params.length Ty.any
  refine Agree.get (fun s' hsame => by cases hsame; rfl) ?_
  cases s.protos.find? k with
  | none =>
    exact (does_invoke_called ⟨k, .any, args, f.id, Env.global, none⟩).bind
      fun _ t hinv _ hcalled => Agree.pure hinv hcalled
  | some _ =>
    have hcreated : anyWalk.Does none s (instantiate invoke k args f.id Env.global) _ :=
      Does.instantiate_calls (P := fun t => t.Called k) id (anyWalk.inv s) (fun _ _ => trivial)
        (fun _ hcalled hsteps => hcalled.later (calls_of_steps hsteps))
        fun _ _ _ => does_invoke_called _
    exact hcreated.bind fun _ t hinv _ ⟨_, hcalled⟩ => Agree.pure hinv hcalled

end Called

/-! ### Between statements -/

/-- A state between two statements of a program, outside of all calls. -/
structure Run.Rests (p : Program) (s : Run) : Prop where
  surveyed : s.Surveyed p
  calls : s.activations = []
  solving : s.solving = []
  deep : 1 ≤ s.options.maxCallDepth

/-- From one state at rest to a later one, in which the given nodes were walked unless there are
errors.  There are new errors only for a flaw. -/
structure Run.Accounts (p : Program) (ns : List Node) (flawed : Bool) (s t : Run) : Prop where
  rests : t.Rests p
  gains : s.Gains t
  clean : t.errors = [] → s.errors = [] ∧ flawed = false ∧ ∀ n ∈ ns, t.Has n
  blamed : t.errors ≠ [] → s.errors ≠ [] ∨ flawed = true ∨ p.Flawed

section Rests

variable {p : Program} {s t r : Run} {ns ns' : List Node} {flawed flawed' : Bool}

theorem Run.Rests.stands (h : s.Rests p) : Stands p false s :=
  ⟨h.surveyed, nofun, fun hinside => by rw [h.calls] at hinside; cases hinside⟩

/-- Outside of all calls, every call is followed. -/
theorem Run.Rests.follows (h : s.Rests p) (k : ClosureId) : s.Follows k := by
  refine Or.inr ⟨?_, ?_⟩
  · rw [Run.solve?, h.solving]
    rfl
  · rw [h.calls]
    exact h.deep

/-- A later state outside of all calls is at rest again. -/
theorem Run.Rests.next (h : s.Rests p) (hsurveyed : t.Surveyed p) (hkeeps : s.Keeps none t) :
    t.Rests p := by
  obtain ⟨hcalls, hsolving⟩ := hkeeps.idle h.calls h.solving
  exact ⟨hsurveyed, hcalls, hsolving, hkeeps.options ▸ h.deep⟩

/-- Errors and log do not matter. -/
theorem Run.Rests.muted (h : s.Rests p) (hsame : t.muted = s.muted) : t.Rests p := by
  have hclosures : t.closures = s.closures := (congrArg Run.closures hsame :)
  have htypes : t.nodeTypes = s.nodeTypes := (congrArg Run.nodeTypes hsame :)
  have hcalls : t.activations = s.activations := (congrArg Run.activations hsame :)
  have hsolving : t.solving = s.solving := (congrArg Run.solving hsame :)
  have hoptions : t.options = s.options := (congrArg Run.options hsame :)
  exact ⟨h.surveyed.same hclosures fun _ hhas => htypes ▸ hhas, hcalls.trans h.calls,
    hsolving.trans h.solving, hoptions ▸ h.deep⟩

theorem Run.Gains.muted (hsame : t.muted = s.muted) : s.Gains t := by
  have htypes : t.nodeTypes = s.nodeTypes := (congrArg Run.nodeTypes hsame :)
  exact .same (congrArg Run.closures hsame :) fun _ hhas => htypes ▸ hhas

/-- No nodes are walked from a state to itself. -/
theorem Run.Accounts.refl (h : s.Rests p) : s.Accounts p [] false s :=
  ⟨h, (Run.Idles.refl s).advances.toGains, fun hnone => ⟨hnone, rfl, List.forall_mem_nil _⟩, Or.inl⟩

/-- An entry in the log walks no nodes. -/
theorem Run.Accounts.logged (h : s.Rests p) (e : Event) : s.Accounts p [] false (s.logged e) :=
  ⟨h.muted rfl, .muted rfl, fun hnone => ⟨hnone, rfl, List.forall_mem_nil _⟩, Or.inl⟩

/-- From one state at rest over another one to a third, the nodes of both ways are walked. -/
theorem Run.Accounts.trans (h : s.Accounts p ns flawed t) (h' : t.Accounts p ns' flawed' r) :
    s.Accounts p (ns ++ ns') (flawed || flawed') r where
  rests := h'.rests
  gains := h.gains.trans h'.gains
  clean hnone := by
    obtain ⟨hnone', hsound', hhas'⟩ := h'.clean hnone
    obtain ⟨hnone, hsound, hhas⟩ := h.clean hnone'
    refine ⟨hnone, by rw [hsound, hsound']; rfl,
      List.forall_mem_append.mpr ⟨fun n hmem => ?_, hhas'⟩⟩
    exact (hhas n hmem).later h'.gains
  blamed hsome := by
    rw [Bool.or_eq_true]
    rcases h'.blamed hsome with hne | hflaw | hflaw
    · exact (h.blamed hne).imp_right fun hblame => hblame.imp_left Or.inl
    · exact Or.inr (Or.inl (Or.inr hflaw))
    · exact Or.inr (Or.inr hflaw)

end Rests

/-! ### Programs -/

section Programs

open Discipline

variable {p : Program} {s t : Run} {ns : List Node} {flawed : Bool} {α : Type}

/-- A computation that reports nothing and is not stopped. -/
theorem Fares.accounts {m : Walk α} {Q : α → Run → Prop} {a : α}
    (hfares : Fares p false ns flawed m) (hrests : s.Rests p) (hsilent : silentWalk.Does none s m Q)
    (hran : m s = .ok a t) :
    s.Accounts p ns flawed t := by
  have hfared := hfares s hrests.stands
  have houtcome := hsilent s rfl
  rw [hran] at hfared houtcome
  cases hfared with
  | ended hstands hadvances hhas hsound =>
    cases houtcome with
    | ok _ _ hlead _ =>
      have hsame := silentWalk.errors_of_steps hlead.steps
      exact ⟨hrests.next hstands.surveyed hlead.keeps, hadvances.toGains,
        fun hnone => ⟨hsame ▸ hnone, hsound, hhas⟩, fun hsome => Or.inl (hsame ▸ hsome)⟩

/-- A computation that reports nothing, and after which the malformation that stopped it is
reported, at least once. -/
theorem Fares.accounts_recovering {m : Walk Unit} {Q : Unit → Run → Prop}
    {handle : Malformed → Walk Unit} (hfares : Fares p false ns flawed m) (hrests : s.Rests p)
    (hsilent : silentWalk.Does none s m Q)
    (hreports : ∀ e r, ∃ t, handle e r = .ok () t ∧ t.muted = r.muted ∧ t.errors ≠ [])
    (hran : recovering m handle s = .ok () t) :
    s.Accounts p ns flawed t ∧ (t.errors = [] → m s = .ok () t) := by
  unfold recovering at hran
  cases hfirst : m s with
  | ok _ r =>
    rw [hfirst] at hran
    cases hran
    exact ⟨hfares.accounts hrests hsilent hfirst, fun _ => rfl⟩
  | error e r =>
    have hfared := hfares s hrests.stands
    have houtcome := hsilent s rfl
    rw [hfirst] at hran hfared houtcome
    cases hfared with
    | stopped hstands hadvances hreason =>
      cases houtcome with
      | error _ _ hlead _ =>
        obtain ⟨u, hhandled, hsame, hsome⟩ := hreports _ r
        cases hhandled.symm.trans hran
        refine ⟨⟨?_, ?_, fun hnone => absurd hnone hsome, fun _ => Or.inr hreason⟩,
          fun hnone => absurd hnone hsome⟩
        · exact (hrests.next hstands.surveyed hlead.keeps).muted hsame
        · exact hadvances.toGains.trans (.muted hsame)
    | lost => cases hran

variable (htidy : Tidy p.nodes)

include htidy

/-- The statements of a program, when none of them is flagged. -/
theorem accounts_inferFlagged {xs : List Stmt} (hmay : ∀ d ∈ Stmt.capturesAll xs, p.MayCapture d)
    (hrests : s.Rests p) (hran : inferFlagged invoke (xs.map (·, none)) s = .ok () t) :
    s.Accounts p (Stmt.nodesAll false xs) (flaws false (Stmt.nodesAll false xs)) t := by
  induction xs generalizing s with
  | nil =>
    cases hran
    exact .refl hrests
  | cons x xs ih =>
    rw [Stmt.capturesAll] at hmay
    obtain ⟨hmayX, hmayR⟩ := List.forall_mem_append.mp hmay
    rw [List.map_cons, inferFlagged] at hran
    obtain ⟨_, r, hfirst, hran⟩ := bind_eq_ok.mp hran
    have hfares : Treats p false (x.nodes false) (inferStmt invoke Env.global x) :=
      .inferStmt (serves_invoke htidy false) x hmayX
    have hsilent : silentWalk.Does none s (inferStmt invoke Env.global x) fun _ _ => True :=
      answers_invoke.inferStmt x ⟨silentWalk.inv s, rfl, (silentWalk.inv s).global,
        stands_global s⟩ fun _ _ => trivial
    have hreports (e : Malformed) (r : Run) : ∃ t,
        (do emit (.abandoned x.id e); report e : Walk Unit) r = .ok () t ∧ t.muted = r.muted ∧
          t.errors ≠ [] :=
      ⟨_, rfl, rfl, List.append_ne_nil_of_right_ne_nil _ (List.cons_ne_nil _ _)⟩
    have haccounts := (hfares.accounts_recovering hrests hsilent hreports hfirst).1
    rw [Stmt.nodesAll, flaws_append]
    exact haccounts.trans (ih hmayR haccounts.rests hran)

/-- Hoisting the declarations of a program walks no nodes and meets no flaws. -/
theorem fares_hoistFlagged {xs : List Stmt} (hmay : ∀ d ∈ Stmt.capturesAll xs, p.MayCapture d) :
    Fares p false [] false (hoistFlagged (xs.map (·, none))) := by
  induction xs with
  | nil => exact .pure ()
  | cons x xs ih =>
    rw [Stmt.capturesAll] at hmay
    obtain ⟨hmayX, hmayR⟩ := List.forall_mem_append.mp hmay
    refine .first (.hoist htidy Env.global fun d hmem => hmayX d ?_) fun _ => ih hmayR
    rw [Stmt.capturesAll, Stmt.capturesAll, List.append_nil] at hmem
    exact hmem

/-- Running a program walks all its nodes outside of literals, unless there are errors. -/
theorem accounts_inferProgram (hrests : s.Rests p) (hran : inferProgram p s = .ok () t) :
    s.Accounts p p.outerNodes (flaws false p.outerNodes) t := by
  have hmay : ∀ d ∈ Stmt.capturesAll p, p.MayCapture d := fun d hmem => ⟨p, .program, hmem⟩
  rw [inferProgram, inferProgramBy_eq, Program.zip_flags_of_tidy htidy] at hran
  obtain ⟨_, r, hentered, hrest⟩ := bind_eq_ok.mp hran
  obtain ⟨_, u, hhoisted, hrest⟩ := bind_eq_ok.mp hrest
  obtain ⟨_, v, hwalked, hleft⟩ := bind_eq_ok.mp hrest
  cases hentered
  cases hleft
  have hfirst := Run.Accounts.logged hrests (.enterProgram p.length)
  have hsecond := (fares_hoistFlagged htidy hmay).accounts hfirst.rests
    (Does.hoistFlagged (silentWalk.inv _) fun _ _ _ _ => trivial) hhoisted
  have hthird := accounts_inferFlagged htidy hmay hsecond.rests hwalked
  have hwhole := ((hfirst.trans hsecond).trans hthird).trans (.logged hthird.rests .exitProgram)
  rw [Bool.or_false, List.append_nil] at hwhole
  exact hwhole

end Programs

/-! ### Functions that nothing called -/

/-- A closure of the literal was called, and the call has ended. -/
def Run.CalledLiteral (s : Run) (id : NodeId) : Prop :=
  ∃ (k : ClosureId) (c : Closure), s.closures.table[k]? = some c ∧ c.func.id = id ∧ 0 < c.calls

/-- A literal that was called stays so. -/
theorem Run.CalledLiteral.later {s t : Run} {id : NodeId} (h : s.CalledLiteral id)
    (hgains : s.Gains t) : t.CalledLiteral id := by
  obtain ⟨k, c, hfound, hid, hcalled⟩ := h
  obtain ⟨c', hfound', hsame, hmore⟩ := hgains.closures k c hfound
  exact ⟨k, c', hfound', hsame ▸ hid, hcalled.trans_le hmore⟩

/-- When nothing is pending, all literals were called that are not among those visited. -/
theorem called_of_pending_nil {s : Run} {visited : List NodeId}
    (hnone : pendingClosures s.closures visited = []) {k : ClosureId} {c : Closure}
    (hfound : s.closures.table[k]? = some c) : c.func.id ∈ visited ∨ s.CalledLiteral c.func.id := by
  by_cases hcalled : c.calls = 0
  · left
    have hinside : k ∈ List.range s.closures.table.size :=
      List.mem_range.mpr (Array.getElem?_eq_some_iff.mp hfound).1
    have hsettled := List.filter_eq_nil_iff.mp hnone k hinside
    simpa [hfound, hcalled] using hsettled
  · exact Or.inr ⟨k, c, hfound, rfl, Nat.pos_of_ne_zero hcalled⟩

/-- The sweeps end before the loop over them does, so what comes after it does not matter. -/
theorem analyseUncalled_eq (beyond : List NodeId → Walk Unit) (s : Run) :
    analyseUncalled s = sweepsUpTo invoke beyond (literalCount s.closures + 1) [] s := by
  have hlt : (literalIds (capturedIn s.closures)).card <
      literalCount s.closures + 1 + ([] : List NodeId).length :=
    Nat.lt_succ_of_le (card_literalIds_le _)
  have hinv := literalsIn.inv (capturesFrom_capturedIn s) rfl
  have hagree : (literalsIn _ _).Agree none s (sweepsUpTo invoke (fun _ => return ()) _ [])
      (sweepsUpTo invoke beyond _ []) fun _ _ => True :=
    Discipline.Answers.sweepsUpTo Discipline.answers_invoke trivial
      (fun f hallowed => mem_literalIds hallowed) hinv rfl .nil hlt hlt
  exact literalsIn.eq_of_agree hagree

/-- One more sweep, as long as something is pending. -/
theorem sweepsUpTo_succ (invoke : Invoke) (beyond : List NodeId → Walk Unit) (n : Nat)
    (visited : List NodeId) (s : Run) :
    sweepsUpTo invoke beyond (n + 1) visited s =
      (match pendingClosures s.closures visited with
      | [] => pure ()
      | k :: ks => sweep invoke visited (k :: ks) >>= sweepsUpTo invoke beyond n : Walk Unit) s :=
  rfl

section Sweeps

open Discipline

variable {p : Program} (htidy : Tidy p.nodes) {s t : Run} {visited now : List NodeId}

include htidy

/-- A blind call fares well, whatever it walks. -/
theorem fares_callBlindly (k : ClosureId) (f : Func) :
    Fares p false [] false (callBlindly invoke k f) := by
  have hcalls := (serves_invoke htidy false).calls
  refine .read fun s => ?_
  cases s.protos.find? k with
  | none => exact .first (hcalls _) fun _ => .pure ()
  | some _ => exact .first (.instantiate hcalls _ _ _ _) fun _ => .pure ()

/-- One closure is run.  Its literal was called then, unless there are errors. -/
theorem accounts_callBlindly (hrests : s.Rests p) {k : ClosureId} {c : Closure}
    (hfound : s.closures.table[k]? = some c)
    (hran : recovering (callBlindly invoke k c.func) reportOnce s = .ok () t) :
    s.Accounts p [] false t ∧ (t.errors = [] → t.CalledLiteral c.func.id) := by
  have hreports (e : Malformed) (r : Run) :
      ∃ t, reportOnce e r = .ok () t ∧ t.muted = r.muted ∧ t.errors ≠ [] := by
    have hreportOnce : reportOnce e r =
        (if r.errors.contains e then pure () else report e : Walk Unit) r := rfl
    rw [hreportOnce]
    split
    · next hknown => exact ⟨r, rfl, rfl, List.ne_nil_of_mem (List.contains_iff_mem.mp hknown)⟩
    · exact ⟨_, rfl, rfl, List.append_ne_nil_of_right_ne_nil _ (List.cons_ne_nil _ _)⟩
  have hsilent : silentWalk.Does none s (callBlindly invoke k c.func) fun _ _ => True :=
    answers_invoke.callBlindly (silentWalk.inv s) rfl (fun htight => htight.elim) c.func
  obtain ⟨haccounts, hended⟩ :=
    (fares_callBlindly htidy k c.func).accounts_recovering hrests hsilent hreports hran
  refine ⟨haccounts, fun hnone => ?_⟩
  -- no error means that the call has ended, and at rest every call is followed
  have houtcome := does_callBlindly (k := k) c.func s rfl
  rw [hended hnone] at houtcome
  cases houtcome with
  | ok _ _ _ hcalled =>
    obtain ⟨c', hfound', hcalled⟩ := hcalled (hrests.follows k)
    obtain ⟨c'', hfound'', hsame, -⟩ := haccounts.gains.closures k c hfound
    cases hfound'.symm.trans hfound''
    exact ⟨k, c', hfound', congrArg Func.id hsame, hcalled⟩

/-- After a sweep, all literals that were visited were called, unless there are errors. -/
theorem accounts_sweep {ks : List ClosureId} (hrests : s.Rests p)
    (hcalled : s.errors = [] → ∀ v ∈ visited, s.CalledLiteral v)
    (hran : sweep invoke visited ks s = .ok now t) :
    s.Accounts p [] false t ∧ (t.errors = [] → ∀ v ∈ now, t.CalledLiteral v) := by
  induction ks generalizing s visited with
  | nil =>
    cases hran
    exact ⟨.refl hrests, hcalled⟩
  | cons k ks ih =>
    rw [sweep] at hran
    obtain ⟨c, r, hasked, hrest⟩ := bind_eq_ok.mp hran
    obtain ⟨hlook, rfl⟩ := ask_eq_ok.mp hasked
    have hfound := Closures.closure_eq_ok hlook
    split at hrest
    · exact ih hrests hcalled hrest
    · obtain ⟨_, u, hlogged, hrest⟩ := bind_eq_ok.mp hrest
      obtain ⟨_, v, hswept, hleft⟩ := bind_eq_ok.mp hrest
      cases hlogged
      have hnoted := Run.Accounts.logged hrests (.uncalled c.func.id)
      obtain ⟨haccounts, hliteral⟩ := accounts_callBlindly htidy hnoted.rests hfound hswept
      have haccounts' := hnoted.trans haccounts
      -- what was visited before was called in a state without errors, for errors stay
      obtain ⟨hlater, hall⟩ := ih haccounts'.rests (fun hnone => List.forall_mem_cons.mpr
        ⟨hliteral hnone, fun v hmem => (hcalled (haccounts'.clean hnone).1 v hmem).later
        haccounts'.gains⟩) hleft
      exact ⟨haccounts'.trans hlater, hall⟩

/-- After the sweeps, all literals were called of which there are closures, unless there are
errors. -/
theorem accounts_sweepsUpTo {n : Nat} {beyond : List NodeId → Walk Unit}
    (hnever : ∀ now s t, beyond now s ≠ .ok () t) (hrests : s.Rests p)
    (hcalled : s.errors = [] → ∀ v ∈ visited, s.CalledLiteral v)
    (hran : sweepsUpTo invoke beyond n visited s = .ok () t) :
    s.Accounts p [] false t ∧ (t.errors = [] → ∀ (k : ClosureId) c, t.closures.table[k]? = some c →
      t.CalledLiteral c.func.id) := by
  induction n generalizing s visited with
  | zero => exact absurd hran (hnever _ _ _)
  | succ n ih =>
    rw [sweepsUpTo_succ] at hran
    cases hpending : pendingClosures s.closures visited with
    | nil =>
      rw [hpending] at hran
      cases hran
      refine ⟨.refl hrests, fun hnone k c hfound => ?_⟩
      exact (called_of_pending_nil hpending hfound).elim (hcalled hnone _) id
    | cons k ks =>
      rw [hpending] at hran
      obtain ⟨now, r, hswept, hrest⟩ := bind_eq_ok.mp hran
      obtain ⟨haccounts, hvisits⟩ := accounts_sweep htidy hrests hcalled hswept
      obtain ⟨hlater, hall⟩ := ih haccounts.rests hvisits hrest
      exact ⟨haccounts.trans hlater, hall⟩

/-- After the sweeps the literal of every closure was called, unless there are errors. -/
theorem accounts_analyseUncalled (hrests : s.Rests p) (hran : analyseUncalled s = .ok () t) :
    s.Accounts p [] false t ∧ (t.errors = [] → ∀ (k : ClosureId) c, t.closures.table[k]? = some c →
      t.CalledLiteral c.func.id) := by
  -- the loop ends where nothing is pending, and not since it is unfolded no further
  rw [analyseUncalled_eq fun _ => throw (.dangling (.scope 0))] at hran
  refine accounts_sweepsUpTo htidy (fun _ _ _ hstopped => ?_) hrests (fun _ v hmem => ?_) hran
  · cases hstopped
  · cases hmem

end Sweeps

end TypeFlow
