import Mathlib
import TypeFlow.Engine.Invoke
import TypeFlow.Proofs.Engine.Trees

/-!
# Walks through calls

Answering a call keeps to every discipline.  The recursion through calls and the loop over rounds
are unfolded a number of times; beyond the bounds in the state at hand it does not matter how often,
nor what would follow.

## Main Definitions

* `solveUpTo` - the loop over rounds, unfolded a given number of times
* `enterCall`, `runEntered` - the two halves of a call
* `Discipline.Solves` - two ways of settling the result of a body that agree at a depth

## Main Statements

* `Discipline.Does.enterCall` - the frame of a call binds all names that the function has
* `Discipline.Answers.roundsUpTo` - rounds beyond the bound on rounds are never run
* `Discipline.Solves.invokeUpTo` - calls beyond the bound on nested activations are never made
* `Discipline.answers_invoke` - answering calls keeps to every discipline
-/

namespace TypeFlow

/-- Settles the result of a body by a loop over rounds that is unfolded a given number of times. -/
def solveUpTo (beyond : Nat → Walk Ty) (n : Nat) : Solver := fun invoke f scope call =>
  logSolve f (roundsUpTo beyond invoke f scope call n)

open Walk in
/-- The first half of a call: its activation scope with everything bound in it. -/
def enterCall (c : Closure) (call : Call) : Walk ScopeId := do
  let scope ← enterScope c call
  bindParams scope c.func.params call.args
  bindSelf scope call.closure c.func
  hoist scope c.func.body
  noteConstructing call.constructing
  return scope

open Walk in
/-- The second half of a call, in its activation scope. -/
def runEntered (solver : Func → ScopeId → Call → Walk Ty) (c : Closure) (call : Call)
    (scope : ScopeId) : Walk Ty := do
  setSeed call.closure .never
  let ret ← ensuring (solver c.func scope call) (Run.dropSeed call.closure)
  onClosures (Closures.recordCall call.closure call.args ret)
  return ret

/-- A call is its two halves. -/
theorem runCall_eq (solver : Func → ScopeId → Call → Walk Ty) (c : Closure) (call : Call) :
    runCall solver c call = enterCall c call >>= runEntered solver c call := by
  simp only [runCall, enterCall, runEntered, bind_assoc, pure_bind]

namespace Discipline

variable {D : Discipline} {but : Option ClosureId} {s t : Run} {d : Nat} {i i' : Invoke}

/-! ### Running a body -/

/-- A computation inside a new running call. -/
theorem agree_withActivation {a : Activation} {m m' : Walk Unit} (hinv : D.Inv s)
    (hgoods : ∀ r ∈ a.types, D.Good s r) (hlives : ∀ k ∈ a.handles, D.Live s k)
    (hroom : s.activations.length < s.options.maxCallDepth)
    (hprepared : D.placed → ∃ f, s.Prepared a.scope a.closure f)
    (hbody : D.Inv ((Update.push a).apply s) →
      D.Agree but ((Update.push a).apply s) m m' fun _ _ => True) :
    D.Agree but s (withActivation a m) (withActivation a m') fun r t => D.Good t r := by
  have hguard : D.Guard s (.push a) := ⟨hgoods, hlives, hroom, hprepared⟩
  have hpushed := hinv.apply hguard
  have hinner : D.Agree but ((Update.push a).apply s)
      (do m; return ((← get).current?.map (·.returns)).getD .never)
      (do m'; return ((← get).current?.map (·.returns)).getD .never) fun r t => D.Good t r := by
    refine (hbody hpushed).bind fun _ t hinv _ _ => ?_
    refine Agree.get (fun s' hsim => by rw [sim_current? hsim]) (Agree.pure hinv ?_)
    cases hrunning : t.current? with
    | none => exact D.never
    | some a => exact (hinv.current hrunning).1 _ (List.mem_cons_of_mem _ List.mem_cons_self)
  intro s' hsim
  refine Agree.ensuring (u := .pop) (fun _ => rfl) hinner (fun t hinv hlead => ?_)
    (fun r t hinv hlead hgood => D.mono (Update.keeps .pop t) hgood) _ (D.sim_apply (.push a) hsim)
  have hpopped : D.Guard t .pop := ⟨nofun, nofun, trivial⟩
  refine ⟨hpopped, ?_, hlead.keeps.pop⟩
  exact (Relation.ReflTransGen.single ⟨_, hguard, rfl⟩).trans
    (hlead.steps.trans (.single ⟨_, hpopped, rfl⟩))

/-- A state in which a body may be run for a call. -/
structure Runnable (D : Discipline) (d : Nat) (f : Func) (scope : ScopeId) (call : Call) (s : Run) :
    Prop where
  inv : D.Inv s
  depth : s.depthLeft = d + 1
  live : D.Live s (.scope scope)
  prepared : D.placed → s.Prepared scope call.closure f
  allowed : D.Allowed (.func f)
  callable : D.Callable s call

variable {f : Func} {scope : ScopeId} {call : Call}

/-- A body may still be run in a later state. -/
theorem Runnable.next (h : D.Runnable d f scope call s) (hinv : D.Inv t) (hlead : D.Leads but s t) :
    D.Runnable d f scope call t :=
  ⟨hinv, hlead.depthLeft.trans h.depth, hlead.live h.live,
    fun hplaced => hlead.steps.prepared (h.prepared hplaced), h.allowed, hlead.callable h.callable⟩

/-- The nodes of a body may be walked in a frame of the function. -/
theorem stands_of_isFrame {k : ClosureId} (hframe : D.placed → s.IsFrame scope k f)
    (hallowed : D.Allowed (.func f)) : ∀ n ∈ Stmt.nodesAll false f.body, D.Stands s scope n :=
  fun n hmem => ⟨D.body hallowed n hmem, fun hplaced => .inr ⟨k, f, hframe hplaced, hmem⟩⟩

/-- Running a body keeps to the discipline. -/
theorem Answers.runBody (hanswers : D.Answers d i i') (hready : D.Runnable d f scope call s) :
    D.Agree but s (runBody i f scope call) (runBody i' f scope call) fun r t => D.Good t r := by
  have hroom : s.activations.length < s.options.maxCallDepth := by
    have := hready.depth
    unfold Run.depthLeft at this
    omega
  refine (agree_withActivation hready.inv ?_ ?_ hroom (fun hplaced => ⟨f, hready.prepared hplaced⟩)
    fun hinv => ?_).bind fun returns t hinv _ hgood => ?_
  · exact List.forall_mem_cons.mpr ⟨hready.callable.this, List.forall_mem_singleton.mpr D.never⟩
  · refine List.forall_mem_cons.mpr ⟨hready.callable.closure, List.forall_mem_cons.mpr
      ⟨hready.live, fun k hmem => ?_⟩⟩
    obtain ⟨id, hmem', rfl⟩ := List.mem_map.mp hmem
    exact hready.callable.constructing id (Option.mem_toList.mp hmem')
  · refine hanswers.inferBlock f.body ⟨hinv, ?_, hready.live.mono (Update.keeps _ s),
      stands_of_isFrame (fun hplaced => (hready.prepared hplaced).1.mono (Update.keeps _ s))
        hready.allowed⟩ fun _ hmem => hmem
    have := hready.depth
    simp only [Run.depthLeft, Update.apply, List.length_cons] at this ⊢
    omega
  · refine Agree.pure hinv ?_
    split
    · exact hgood
    · exact D.join hgood (D.prim .undefined)

/-! ### Assumed results -/

/-- A result may be assumed for a closure that is live. -/
theorem Does.setSeed (hinv : D.Inv s) {id : ClosureId} (hlive : D.Live s (.closure id)) {seed : Ty}
    (hgood : D.Good s seed) : D.Does (some id) s (setSeed id seed) fun _ _ => True := by
  intro s' hsim
  have hguard : D.Guard s (.seed id seed) :=
    ⟨List.forall_mem_singleton.mpr hgood, List.forall_mem_singleton.mpr hlive, trivial⟩
  refine .ok (D.sim_apply (.seed id seed) hsim) (hinv.apply hguard)
    ⟨.single ⟨_, hguard, rfl⟩, rfl, rfl, rfl, fun k hne => ?_⟩ trivial
  have hne' : k ≠ id := fun hsame => hne (congrArg some hsame.symm)
  rw [Run.solve?, Run.solve?]
  exact congrArg (Option.map _) (OrdMap.get?_insert_of_ne s.solving _ hne')

/-- A call from inside may be noted for a closure with an assumed result. -/
theorem Does.noteRecursion (hinv : D.Inv s) {id : ClosureId} (hlive : D.Live s (.closure id))
    {v : Solve} (hassumed : s.solve? id = some v) :
    D.Does but s (noteRecursion id v.seed) fun _ _ => True := by
  intro s' hsim
  have hgood : D.Good s v.seed :=
    hinv.good _ (s.seed_types (List.mem_map.mpr ⟨(id, v), OrdMap.mem_of_get? hassumed, rfl⟩))
  have hguard : D.Guard s (.recursed id v.seed) :=
    ⟨List.forall_mem_singleton.mpr hgood, List.forall_mem_singleton.mpr hlive, trivial⟩
  refine .ok (D.sim_apply (.recursed id v.seed) hsim) (hinv.apply hguard)
    ⟨.single ⟨_, hguard, rfl⟩, rfl, rfl, rfl, fun k _ => ?_⟩ trivial
  rw [Run.solve?, Run.solve?]
  by_cases hsame : k = id
  · subst hsame
    rw [Run.solve?] at hassumed
    simp only [OrdMap.get?_insert_self, hassumed, Option.map_some]
  · exact congrArg (Option.map _) (OrdMap.get?_insert_of_ne s.solving _ hsame)

theorem sim_solve? {s' : Run} (hsim : D.Sim s s') (id : ClosureId) :
    s'.solve? id = s.solve? id := by
  rw [Run.solve?, Run.solve?, sim_solving hsim]

theorem sim_version {s' : Run} (hsim : D.Sim s s') : s'.version = s.version := by
  rw [Run.version, Run.version, sim_env hsim, sim_heap hsim, sim_protos hsim]

/-! ### Rounds -/

/-- A round, and what comes after it when it does not settle the result. -/
theorem Answers.roundThen (hanswers : D.Answers d i i') (hready : D.Runnable d f scope call s)
    {again again' : Nat → Walk Ty} {done : Nat}
    (hnext : ∀ t, D.Inv t → D.Leads (some call.closure) s t → ¬ t.options.maxRounds ≤ done + 1 →
      D.Agree (some call.closure) t (again (done + 1)) (again' (done + 1)) fun r t => D.Good t r) :
    D.Agree (some call.closure) s (roundThen i f scope call again done)
      (roundThen i' f scope call again' done) fun r t => D.Good t r := by
  unfold TypeFlow.roundThen
  refine Agree.get (fun s' hsim => by rw [sim_version hsim]) ?_
  refine (hanswers.runBody hready).bind fun ret t hinv hlead hgood => ?_
  refine Agree.get (fun s' hsim => by rw [sim_version hsim, sim_solve? hsim, sim_maxRounds hsim]) ?_
  cases hassumed : t.solve? call.closure with
  | none => exact Agree.pure hinv hgood
  | some v =>
    obtain ⟨seed, recursed⟩ := v
    cases recursed with
    | false => exact Agree.pure hinv hgood
    | true =>
      -- a result that is assumed is stored in the state, so it is as good as all stored types
      have hgoodS : D.Good t seed := hinv.good _ (t.seed_types
        (List.mem_map.mpr ⟨_, OrdMap.mem_of_get? hassumed, rfl⟩))
      have hgoodN := D.join hgoodS hgood
      refine (Does.emit hinv _).bind fun _ r hinv hlead' _ => ?_
      have hleads := hlead.trans hlead'
      refine Agree.ite (fun _ => Agree.pure hinv (hlead'.good hgoodN)) fun _ => ?_
      refine Agree.ite (fun _ => ?_) fun hmore => ?_
      · refine (Does.emit hinv _).bind fun _ r hinv _ _ => Agree.pure hinv D.any
      · have hlive := hleads.live hready.callable.closure
        refine (Does.setSeed hinv hlive (hlead'.good hgoodN)).bind fun _ q hinv hlead'' _ => ?_
        refine hnext q hinv (hleads.trans hlead'') ?_
        rwa [(hlead'.trans hlead'').keeps.options]

/-- Rounds beyond the bound on rounds are never run: how often the loop is unfolded does not matter,
as soon as it reaches the bound. -/
theorem Answers.roundsUpTo (hanswers : D.Answers d i i') {beyond beyond' : Nat → Walk Ty}
    {n n' done : Nat} (hready : D.Runnable d f scope call s)
    (hmore : done < max 1 s.options.maxRounds) (hreach : max 1 s.options.maxRounds ≤ n + done)
    (hreach' : max 1 s.options.maxRounds ≤ n' + done) :
    D.Agree (some call.closure) s (roundsUpTo beyond i f scope call n done)
      (roundsUpTo beyond' i' f scope call n' done) fun r t => D.Good t r := by
  induction n generalizing n' s done with
  | zero => omega
  | succ n ih =>
    cases n' with
    | zero => omega
    | succ n' =>
      refine hanswers.roundThen hready fun t hinv hlead hnotLe => ?_
      have hsame : t.options = s.options := hlead.keeps.options
      rw [hsame] at hnotLe
      refine ih (hready.next hinv hlead) ?_ ?_ ?_ <;> rw [hsame] <;> omega

/-- The rounds of a body, with their entry in the log. -/
theorem agree_logSolve {rounds rounds' : Nat → Walk Ty} (hinv : D.Inv s)
    (h : ∀ t, D.Inv t → D.Leads but s t →
      D.Agree but t (rounds 0) (rounds' 0) fun r t => D.Good t r) :
    D.Agree but s (logSolve f rounds) (logSolve f rounds') fun r t => D.Good t r := by
  refine (Does.emit hinv _).bind fun _ t hinv hlead _ => ?_
  refine Agree.ensuring (u := .event .exitSolve) (fun _ => rfl) (h t hinv hlead)
    (fun r hinv hlead => ?_) fun r q hinv hlead hgood => D.mono (Update.keeps _ q) hgood
  have hguard : D.Guard r (.event .exitSolve) := ⟨nofun, nofun, trivial⟩
  exact ⟨hguard, hlead.trans (Leads.of_local hguard rfl)⟩

/-- Two ways of settling the result of a body that agree wherever `d` more activations may be nested
inside it. -/
def Solves (D : Discipline) (d : Nat) (solver solver' : Solver) : Prop :=
  ∀ i i', D.Answers d i i' → ∀ s f scope call, D.Runnable d f scope call s →
    D.Agree (some call.closure) s (solver i f scope call) (solver' i' f scope call)
      fun r t => D.Good t r

/-- Every way of settling a result agrees with itself. -/
theorem solves_self : D.Solves d solve solve := by
  intro i i' hanswers s f scope call hready
  refine agree_logSolve hready.inv fun t hinv hlead => ?_
  refine Agree.get (fun s' hsim => by rw [sim_maxRounds hsim]) ?_
  refine hanswers.roundsUpTo (hready.next hinv hlead) ?_ ?_ ?_ <;> omega

/-- The loop over rounds settles results, however often it is unfolded from the bound on. -/
theorem solves_solveUpTo {n : Nat} {beyond : Nat → Walk Ty}
    (hreach : ∀ o, D.Within o → max 1 o.maxRounds ≤ n) :
    D.Solves d solve (solveUpTo beyond n) := by
  intro i i' hanswers s f scope call hready
  refine agree_logSolve hready.inv fun t hinv hlead => ?_
  refine Agree.get (fun s' hsim => rfl) ?_
  have hbound := hreach t.options hinv.within
  refine hanswers.roundsUpTo (hready.next hinv hlead) ?_ ?_ ?_ <;> omega

/-! ### Calls -/

/-- Parameters are bound, to their arguments or to `undefined`. -/
theorem Does.bindParams (hinv : D.Inv s) (hlive : D.Live s (.scope scope)) {params : List String}
    (hmay : ∀ p ∈ params, D.MayBind s scope p) {args : List Ty} (hgoods : ∀ a ∈ args, D.Good s a) :
    D.Does but s (bindParams scope params args) fun _ t => ∀ p ∈ params, t.Binds scope p := by
  induction params generalizing s args with
  | nil => exact Agree.pure hinv (List.forall_mem_nil _)
  | cons p ps ih =>
    obtain ⟨hmayP, hmayR⟩ := List.forall_mem_cons.mp hmay
    have hgood : D.Good s (args.headD .undefined) := by
      cases args with
      | nil => exact D.prim .undefined
      | cons a rest => exact hgoods a List.mem_cons_self
    refine (Does.bindVariable hinv hlive hmayP hgood).bind fun _ t hinv hlead hbound => ?_
    refine (ih hinv (hlead.live hlive) (fun q hmem => hlead.mayBind (hmayR q hmem))
      (hlead.goods fun a hmem => hgoods a (List.mem_of_mem_tail hmem))).mono
      fun _ u _ hlead' hall => ?_
    exact List.forall_mem_cons.mpr ⟨hlead'.steps.binds hbound, hall⟩

/-- The name of a function is bound in its frame, as a parameter or as the function itself. -/
theorem Does.bindSelf (hinv : D.Inv s) (hlive : D.Live s (.scope scope)) {id : ClosureId}
    {c : Closure} (hfound : s.closures.table[id]? = some c)
    (hmay : ∀ name ∈ c.func.name.toList, D.MayBind s scope name)
    (hparams : ∀ p ∈ c.func.params, s.Binds scope p) :
    D.Does but s (bindSelf scope id c.func) fun _ t =>
      ∀ name ∈ c.func.name.toList, t.Binds scope name := by
  unfold TypeFlow.bindSelf
  cases hnamed : c.func.name with
  | none => exact Agree.pure hinv (List.forall_mem_nil _)
  | some name =>
    rw [hnamed] at hmay
    refine Agree.ite (fun hparam => ?_) fun _ => ?_
    · exact Agree.pure hinv (List.forall_mem_singleton.mpr
        (hparams name (List.contains_iff_mem.mp hparam)))
    · have hallowed := hinv.literals id c hfound
      have hgood : D.Good s (.closure id c.func.params.length) :=
        D.closure (fun _ => (Array.getElem?_eq_some_iff.mp hfound).1)
          (fun _ => ⟨c, hfound, rfl, hallowed⟩) hallowed
      refine (Does.bindVariable hinv hlive (hmay name List.mem_cons_self) hgood).bind
        fun _ t hinv _ hbound => ?_
      exact Agree.pure hinv (List.forall_mem_singleton.mpr hbound)

/-- A constructor that starts to run is noted. -/
theorem Does.noteConstructing (hinv : D.Inv s) {ctor : Option CtorId}
    (hlive : ∀ id, ctor = some id → D.Live s (.ctor id)) :
    D.Does but s (noteConstructing ctor) fun _ _ => True := by
  cases ctor with
  | none => exact Agree.pure hinv trivial
  | some id => exact Does.markAnalysed hinv (hlive id rfl)

/-- The scope that a call enters is an activation scope of its closure. -/
theorem Does.enterScope (hinv : D.Inv s) {c : Closure}
    (hfound : s.closures.table[call.closure]? = some c)
    (hcaller : D.Live s (.scope call.caller)) :
    D.Does but s (enterScope c call) fun scope t => t.IsFrame scope call.closure c.func := by
  refine (Does.enter hinv hfound hcaller).bind fun r t hinv _ hframe => ?_
  refine (Agree.when hinv (fun _ => Does.noteScope hinv _ (hinv.liveFrame hframe))
    fun _ => trivial).bind fun _ t hinv hlead _ => ?_
  exact Agree.pure hinv (hframe.mono hlead.steps.extends)

/-- The entry of a closure keeps its literal. -/
theorem Leads.literal (hlead : D.Leads but s t) {id : ClosureId} {c : Closure}
    (hfound : s.closures.table[id]? = some c) :
    ∃ c', t.closures.table[id]? = some c' ∧ c'.func = c.func := by
  obtain ⟨c', hfound', hsame⟩ := hlead.steps.extends.closures id c hfound
  exact ⟨c', hfound', congrArg Prod.fst hsame⟩

/-- Nothing is assumed of a closure any more, as before. -/
theorem Leads.unseed {id : ClosureId} (hidle : s.solve? id = none) (hlead : D.Leads (some id) s t) :
    D.Guard t (.unseed id) ∧ D.Leads none s (t.dropSeed id) := by
  have hguard : D.Guard t (.unseed id) := ⟨nofun, nofun, trivial⟩
  refine ⟨hguard, hlead.steps.tail ⟨_, hguard, rfl⟩, hlead.keeps.options, hlead.keeps.seeded,
    hlead.keeps.frames, fun j _ => ?_⟩
  -- The assumption about `id` is gone as before; no other one was touched.
  by_cases hsame : j = id
  · subst hsame
    rw [hidle]
    exact congrArg (Option.map _) (OrdMap.get?_erase_self t.solving j)
  · refine Eq.trans ?_ (hlead.keeps.seeds j fun heq => hsame (Option.some.inj heq).symm)
    exact congrArg (Option.map _) (OrdMap.get?_erase_of_ne t.solving hsame)

/-- A computation while a result is assumed for a closure, of which nothing was assumed before. -/
theorem agree_seeded {id : ClosureId} {α : Type} {m m' : Walk Ty} {k k' : Ty → Walk α}
    {Q : α → Run → Prop} (hinv : D.Inv s) (hlive : D.Live s (.closure id))
    (hidle : s.solve? id = none)
    (hbody : ∀ t, D.Inv t → D.Leads (some id) s t → D.Agree (some id) t m m' fun r t => D.Good t r)
    (hnext : ∀ r t, D.Inv t → D.Leads none s t → D.Good t r → D.Agree none t (k r) (k' r) Q) :
    D.Agree none s (do setSeed id .never; let r ← Walk.ensuring m (Run.dropSeed id); k r)
      (do setSeed id .never; let r ← Walk.ensuring m' (Run.dropSeed id); k' r) Q := by
  intro s' hsim
  let seed : Update := .seed id .never
  change D.Outcome none s Q ((Walk.ensuring m (Run.dropSeed id) >>= k) (seed.apply s))
    ((Walk.ensuring m' (Run.dropSeed id) >>= k') (seed.apply s'))
  have hseeded : D.Inv (seed.apply s) ∧ D.Leads (some id) s (seed.apply s) := by
    cases Does.setSeed hinv hlive D.never s' hsim with
    | ok _ hinv hlead => exact ⟨hinv, hlead⟩
  exact Outcome.bind (Agree.ensuring (u := .unseed id) (fun _ => rfl) (hbody _ hseeded.1 hseeded.2)
    (fun t _ hlead => (hseeded.2.trans hlead).unseed hidle)
    (fun r t hinv hlead hgood => D.mono (Update.keeps _ t) hgood) _ (D.sim_apply seed hsim)) hnext

/-- Entering a call leads to a frame that binds all names that the function has. -/
theorem Does.enterCall (hinv : D.Inv s) (hcallable : D.Callable s call) {c : Closure}
    (hfound : s.closures.table[call.closure]? = some c) :
    D.Does none s (enterCall c call) fun scope t => t.Prepared scope call.closure c.func := by
  have hallowed := hinv.literals _ c hfound
  refine (Does.enterScope hinv hfound hcallable.caller).bind fun scope t hinv hlead hframe => ?_
  have hlive : D.Live t (.scope scope) := hinv.liveFrame hframe
  have hmay : ∀ name ∈ c.func.ownNames, D.MayBind t scope name := fun name hown _ =>
    .inr (.inr ⟨_, _, hframe, List.mem_append_left _ hown⟩)
  obtain ⟨hmayPS, -⟩ := List.forall_mem_append.mp hmay
  obtain ⟨hmayP, hmayS⟩ := List.forall_mem_append.mp hmayPS
  refine (Does.bindParams hinv hlive hmayP (hlead.goods hcallable.args)).bind
    fun _ u hinv lead₁ hparams => ?_
  obtain ⟨c', hfound', hsame⟩ := (hlead.trans lead₁).literal hfound
  rw [← hsame] at hframe hmayS hparams hallowed ⊢
  refine (Does.bindSelf hinv (lead₁.live hlive) hfound'
    (fun name hown => lead₁.mayBind (hmayS name hown)) hparams).bind fun _ v hinv lead₂ hself => ?_
  have lead₃ := lead₁.trans lead₂
  have hstands := stands_of_isFrame (fun _ => hframe.mono lead₃.steps.extends) hallowed
  refine (Does.hoist hinv (lead₃.live hlive) hstands).bind fun _ w hinv lead₄ hdeclared => ?_
  have lead₅ := lead₃.trans lead₄
  refine (Does.noteConstructing hinv ((hlead.trans lead₅).callable hcallable).constructing).bind
    fun _ x hinv lead₆ _ => ?_
  refine Agree.pure hinv ⟨hframe.mono (lead₅.trans lead₆).steps.extends, ?_⟩
  have hown : ∀ name ∈ c'.func.ownNames, w.Binds scope name :=
    List.forall_mem_append.mpr ⟨List.forall_mem_append.mpr
      ⟨fun name hmem => (lead₂.trans lead₄).steps.binds (hparams name hmem),
        fun name hmem => lead₄.steps.binds (hself name hmem)⟩, hdeclared⟩
  exact fun name hmem => lead₆.steps.binds (hown name hmem)

/-- Calls that are run agree when their results are settled in ways that agree. -/
theorem Solves.runCall {solver solver' : Solver} (hsolves : D.Solves d solver solver')
    (hanswers : D.Answers d i i') (hinv : D.Inv s) (hdepth : s.depthLeft = d + 1)
    (hcallable : D.Callable s call) {c : Closure}
    (hfound : s.closures.table[call.closure]? = some c)
    (hidle : s.solve? call.closure = none) :
    D.Agree none s (runCall (solver i) c call) (runCall (solver' i') c call)
      fun r t => D.Good t r := by
  rw [runCall_eq, runCall_eq]
  refine (Does.enterCall hinv hcallable hfound).bind fun scope x hinv' hlead hprepared => ?_
  have hcallable' := hlead.callable hcallable
  have hidle' : x.solve? call.closure = none := by
    have hseeds := hlead.keeps.seeds call.closure nofun
    rw [hidle] at hseeds
    exact Option.map_eq_none_iff.mp hseeds
  refine agree_seeded hinv' hcallable'.closure hidle' (fun y hinv'' hlead' => ?_)
    fun ret y hinv hlead' hgood => ?_
  · exact hsolves i i' hanswers y c.func scope call
      ⟨hinv'', by rw [hlead'.depthLeft, hlead.depthLeft, hdepth],
        hinv''.liveFrame (hlead'.steps.prepared hprepared).1,
        fun _ => hlead'.steps.prepared hprepared, hinv.literals _ c hfound,
          hlead'.callable hcallable'⟩
  · refine (Does.recordCall hinv (hlead'.callable hcallable').closure
      (hlead'.callable hcallable').args hgood).bind fun _ z hinv hlead'' _ => ?_
    exact Agree.pure hinv (hlead''.good hgood)

/-- What is answered at the bound on nested activations. -/
theorem Does.depthReached (hinv : D.Inv s) (c : Closure) :
    D.Does but s (depthReached c) fun r t => D.Good t r :=
  Agree.get (fun s' hsim => by rw [sim_activations hsim])
    ((Does.emit hinv _).bind fun _ _ hinv _ _ => Agree.pure hinv D.any)

/-- A call is answered: from its assumed result, at the bound, or by running it. -/
theorem agree_answer {run run' : Closure → Call → Walk Ty} (hinv : D.Inv s)
    (hcallable : D.Callable s call)
    (hruns : ∀ c t, D.Inv t → D.Leads none s t → t.closures.table[call.closure]? = some c →
      t.solve? call.closure = none →
      D.Agree none t (run c call) (run' c call) fun r t => D.Good t r) :
    D.Agree none s (answer run call) (answer run' call) fun r t => D.Good t r := by
  refine (Does.askClosure hinv hcallable.closure).bind fun c t hinv hlead hfound => ?_
  replace hcallable := hlead.callable hcallable
  refine Agree.ite (fun _ => ?_) fun _ => ?_
  · refine (Does.emit hinv _).bind fun _ u hinv hlead' _ => ?_
    replace hcallable := hlead'.callable hcallable
    refine (Does.recordCall hinv hcallable.closure hcallable.args D.any).bind fun _ v hinv _ _ => ?_
    exact Agree.pure hinv D.any
  · refine Agree.get (fun s' hsim => by rw [sim_solve? hsim]) ?_
    cases hassumed : t.solve? call.closure with
    | none => exact hruns c t hinv hlead hfound hassumed
    | some v =>
      have hgood : D.Good t v.seed := hinv.good _ (t.seed_types
        (List.mem_map.mpr ⟨_, OrdMap.mem_of_get? hassumed, rfl⟩))
      refine (Does.noteRecursion hinv hcallable.closure hassumed).bind fun _ u hinv hlead' _ => ?_
      exact Agree.pure hinv (hlead'.good hgood)

/-- One call, when the calls inside it are answered where one activation less may be nested. -/
theorem Solves.invokeThen {solver solver' : Solver} (hsolves : ∀ d, D.Solves d solver solver')
    (hnext : ∀ less, d = less + 1 → D.Answers less i i') :
    D.Answers d (invokeThen solver i) (invokeThen solver' i') := by
  intro s call hinv hdepth hcallable
  refine agree_answer hinv hcallable fun c t hinv hlead hfound hidle => ?_
  have hleft : t.depthLeft = d := hlead.depthLeft.trans hdepth
  refine Agree.get (fun s' hsim => by rw [sim_maxCallDepth hsim, sim_activations hsim]) ?_
  refine Agree.ite (fun _ => Does.depthReached hinv c) fun hroom => ?_
  obtain ⟨less, rfl⟩ : ∃ less, d = less + 1 := by
    unfold Run.depthLeft at hleft
    exact ⟨d - 1, by omega⟩
  exact (hsolves less).runCall (hnext less rfl) hinv hleft (hlead.callable hcallable) hfound hidle

/-- Calls beyond the bound on nested activations are never made: how often the recursion is unfolded
does not matter, as soon as it reaches the bound. -/
theorem Solves.invokeUpTo {solver solver' : Solver} (hsolves : ∀ d, D.Solves d solver solver')
    {beyond beyond' : Invoke} {n n' : Nat} (hreach : d < n) (hreach' : d < n') :
    D.Answers d (invokeUpTo solver beyond n) (invokeUpTo solver' beyond' n') := by
  induction n generalizing d n' with
  | zero => omega
  | succ n ih =>
    cases n' with
    | zero => omega
    | succ n' => exact Solves.invokeThen hsolves fun less hsame => ih (by omega) (by omega)

theorem sim_depthLeft {s' : Run} (hsim : D.Sim s s') : s'.depthLeft = s.depthLeft := by
  rw [Run.depthLeft, Run.depthLeft, sim_maxCallDepth hsim, sim_activations hsim]

/-- Answering calls agrees with every unfolding that reaches the bounds. -/
theorem answers_invokeUpTo {solver : Solver} (hsolves : ∀ d, D.Solves d solve solver)
    {beyond : Invoke} {n : Nat} (hreach : d < n) :
    D.Answers d invoke (TypeFlow.invokeUpTo solver beyond n) := by
  intro s call hinv hdepth hcallable s' hsim
  exact Solves.invokeUpTo hsolves (by omega) hreach s call hinv hdepth hcallable s' hsim

/-- Answering calls keeps to every discipline. -/
theorem answers_invoke : D.Answers d invoke invoke := by
  intro s call hinv hdepth hcallable s' hsim
  have hleft := sim_depthLeft hsim
  exact Solves.invokeUpTo (fun _ => solves_self) (by omega) (by omega) s call hinv hdepth
    hcallable s' hsim

end Discipline

end TypeFlow
