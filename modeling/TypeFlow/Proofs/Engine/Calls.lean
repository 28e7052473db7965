import Mathlib
import TypeFlow.Proofs.Engine.Members
import TypeFlow.Proofs.Script.Nodes

/-!
# Walks over calls

Calling values and creating instances keeps to every discipline, as soon as answering single calls
does.  Two ways of answering calls that agree give the same outcomes.

## Main Definitions

* `Discipline.Callable` - a call that may be made
* `Discipline.Answers` - two ways of answering calls that agree at a depth

## Main Statements

* `Discipline.Does.captureFunc`, `Discipline.Does.hoist` - function values and declarations
* `Discipline.Answers.callValue`, `Discipline.Answers.callee` - calls of values
* `Discipline.Answers.instantiate`, `Discipline.Answers.constructValue` - instances
-/

namespace TypeFlow

namespace Discipline

variable {D : Discipline} {but : Option ClosureId} {s : Run}

/-! ### Function values and declarations -/

/-- Capturing a literal where it stands gives its function value. -/
theorem Does.captureFunc (hinv : D.Inv s) {scope : ScopeId} (hlive : D.Live s (.scope scope))
    {f : Func} (hstands : D.Stands s scope (.func f)) (binding : Option String) :
    D.Does but s (captureFunc scope f binding) fun r t => D.Good t r := by
  refine (Does.capture hinv hlive hstands).bind fun id t hinv hlead hcaptured => ?_
  have hliveC : D.Live t (.closure id) := hinv.live _ (Run.captured_handles hcaptured)
  have hgood : D.Good t (.closure id f.params.length) := by
    refine D.closure hliveC (fun hkeyed => ?_) hstands.1
    obtain ⟨c, hfound, hliteral, -⟩ := (hinv.indexed hkeyed).closures.found hcaptured
    exact ⟨c, hfound, hliteral, hinv.literals id c hfound⟩
  refine (Agree.when hinv (fun _ => Does.markSelfReferential hinv hliveC) fun _ => trivial).bind
    fun _ r hinv hlead' _ => ?_
  exact Agree.pure hinv (hlead'.good hgood)

/-- Hoisted variables are bound afterwards. -/
theorem Does.hoistVars (hinv : D.Inv s) {scope : ScopeId} (hlive : D.Live s (.scope scope))
    {names : List String} (hmay : ∀ name ∈ names, D.MayBind s scope name) :
    D.Does but s (hoistVars scope names) fun _ t => ∀ name ∈ names, t.Binds scope name := by
  induction names generalizing s with
  | nil => exact Agree.pure hinv (List.forall_mem_nil _)
  | cons name rest ih =>
    obtain ⟨hmayBind, hlater⟩ := List.forall_mem_cons.mp hmay
    refine (Does.bindVariable hinv hlive hmayBind D.never).bind fun _ t hinv hlead hbound => ?_
    refine (ih hinv (hlead.live hlive) fun k hmem => hlead.mayBind (hlater k hmem)).mono
      fun _ u _ hlead' hall => List.forall_mem_cons.mpr ⟨hlead'.steps.binds hbound, hall⟩

/-- Hoisted functions are bound afterwards. -/
theorem Does.hoistFuncs (hinv : D.Inv s) {scope : ScopeId} (hlive : D.Live s (.scope scope))
    {fs : List Func} (hstands : ∀ f ∈ fs, D.Stands s scope (.func f))
    (hmay : ∀ name ∈ fs.filterMap Func.name, D.MayBind s scope name) :
    D.Does but s (hoistFuncs scope fs) fun _ t =>
      ∀ name ∈ fs.filterMap Func.name, t.Binds scope name := by
  induction fs generalizing s with
  | nil => exact Agree.pure hinv (List.forall_mem_nil _)
  | cons f rest ih =>
    obtain ⟨hstands', hlater⟩ := List.forall_mem_cons.mp hstands
    rw [TypeFlow.hoistFuncs]
    refine (Does.captureFunc hinv hlive hstands' none).bind fun value t hinv hlead hgood => ?_
    cases hnamed : f.name with
    | none =>
      rw [List.filterMap_cons_none hnamed] at hmay ⊢
      exact ih hinv (hlead.live hlive) (fun g hmem => hlead.stands (hlater g hmem))
        fun k hmem => hlead.mayBind (hmay k hmem)
    | some name =>
      rw [List.filterMap_cons_some hnamed] at hmay ⊢
      obtain ⟨hmayN, hmayR⟩ := List.forall_mem_cons.mp hmay
      refine (Does.bindVariable hinv (hlead.live hlive) (hlead.mayBind hmayN) hgood).bind
        fun _ r hinv hlead' hbound => ?_
      have hleads := hlead.trans hlead'
      refine (ih hinv (hleads.live hlive) (fun g hmem => hleads.stands (hlater g hmem))
        fun k hmem => hleads.mayBind (hmayR k hmem)).mono fun _ u _ hlead'' hall => ?_
      exact List.forall_mem_cons.mpr ⟨hlead''.steps.binds hbound, hall⟩

/-- After hoisting, all names that a body declares are bound. -/
theorem Does.hoist (hinv : D.Inv s) {scope : ScopeId} (hlive : D.Live s (.scope scope))
    {body : List Stmt} (hstands : ∀ n ∈ Stmt.nodesAll false body, D.Stands s scope n) :
    D.Does but s (hoist scope body) fun _ t => ∀ name ∈ declaredNames body, t.Binds scope name := by
  have hmay : ∀ name ∈ declaredNames body, D.MayBind s scope name := by
    intro name hdeclared
    obtain ⟨n, hinside, hbinds⟩ :=
      mem_binds_iff.mpr (List.mem_append_left (caughtNames body) hdeclared)
    exact (hstands n hinside).mayBind hbinds
  obtain ⟨hmayV, hmayF⟩ := List.forall_mem_append.mp hmay
  refine (Does.hoistVars hinv hlive hmayV).bind fun _ t hinv hlead hbound => ?_
  refine (Does.hoistFuncs hinv (hlead.live hlive)
    (fun f hmem => hlead.stands (hstands _ (func_mem_of_hoisted hmem)))
    fun k hmem => hlead.mayBind (hmayF k hmem)).mono fun _ u _ hlead' hbound' => ?_
  exact List.forall_mem_append.mpr ⟨fun k hmem => hlead'.steps.binds (hbound k hmem), hbound'⟩

/-- Fields that a cell lacks may be written to it. -/
theorem Does.writeMissing (hinv : D.Inv s) {cell : CellId} (hlive : D.Live s (.cell cell))
    {fields : List (String × Ty)} (hgoods : ∀ e ∈ fields, D.Good s e.2) :
    D.Does but s (writeMissing cell fields) fun _ _ => True := by
  induction fields generalizing s with
  | nil => exact Agree.pure hinv trivial
  | cons e rest ih =>
    have hgo {t : Run} (hinv : D.Inv t) (hlead : D.Leads but s t) :=
      ih hinv (hlead.live hlive) fun f hmem => hlead.good (hgoods f (List.mem_cons_of_mem e hmem))
    refine (Does.askCell hinv hlive).bind fun c t hinv hlead _ => ?_
    refine Agree.ite (fun _ => hgo hinv hlead) fun _ => ?_
    refine (Does.writeCell hinv (hlead.live hlive) e.1
      (hlead.good (hgoods e List.mem_cons_self))).bind
      fun _ r hinv hlead' _ => ?_
    exact hgo hinv (hlead.trans hlead')

/-! ### Calls -/

/-- A call that may be made. -/
structure Callable (D : Discipline) (s : Run) (call : Call) : Prop where
  closure : D.Live s (.closure call.closure)
  this : D.Good s call.this
  args : ∀ a ∈ call.args, D.Good s a
  caller : D.Live s (.scope call.caller)
  constructing : ∀ id, call.constructing = some id → D.Live s (.ctor id)

/-- A call that may be made may be made later. -/
theorem Leads.callable {t : Run} (hlead : D.Leads but s t) {call : Call}
    (h : D.Callable s call) : D.Callable t call :=
  ⟨hlead.live h.closure, hlead.good h.this, hlead.goods h.args, hlead.live h.caller,
    fun id heq => hlead.live (h.constructing id heq)⟩

theorem good_resultOfNonFunction (callee : Ty) : D.Good s (resultOfNonFunction callee) := by
  unfold resultOfNonFunction
  split
  · exact D.never
  · exact D.any

/-- A callee that may be called. -/
def GoodCallee (D : Discipline) (s : Run) (callee : Callee) : Prop :=
  D.Good s callee.value ∧ D.Good s callee.this

/-- Two ways of answering calls that agree on all calls that may be made where `d` more activations
may be nested. -/
def Answers (D : Discipline) (d : Nat) (i i' : Invoke) : Prop :=
  ∀ s call, D.Inv s → s.depthLeft = d → D.Callable s call →
    D.Agree none s (i call) (i' call) fun r t => D.Good t r

section Answers

variable {d : Nat} {i i' : Invoke} (hanswers : D.Answers d i i')

include hanswers

/-- The calls of several closures, joined. -/
theorem Answers.invokeAll (hinv : D.Inv s) (hdepth : s.depthLeft = d) {call : ClosureId → Call}
    {acc : Ty} (hgood : D.Good s acc) {cs : List ClosureId}
    (hcallable : ∀ c ∈ cs, D.Callable s (call c)) :
    D.Agree but s (invokeAll i call acc cs) (invokeAll i' call acc cs) fun r t => D.Good t r := by
  induction cs generalizing s acc with
  | nil => exact Agree.pure hinv hgood
  | cons c cs ih =>
    refine (hanswers s _ hinv hdepth (hcallable c List.mem_cons_self)).weaken.bind
      fun ret t hinv hlead hgoodR => ?_
    refine ih hinv (hlead.depthLeft.trans hdepth) (D.join (hlead.good hgood) hgoodR)
      fun k hmem => ?_
    exact hlead.callable (hcallable k (List.mem_cons_of_mem c hmem))

/-- Calling a value keeps to the discipline. -/
theorem Answers.callValue (hinv : D.Inv s) (hdepth : s.depthLeft = d) {callee this : Ty}
    (hgood : D.Good s callee) (hgoodT : D.Good s this) {args : List Ty}
    (hgoods : ∀ a ∈ args, D.Good s a) (site : NodeId) {caller : ScopeId}
    (hlive : D.Live s (.scope caller)) :
    D.Agree but s (callValue i callee this args site caller)
      (callValue i' callee this args site caller) fun r t => D.Good t r := by
  unfold TypeFlow.callValue
  cases hpart : callee.funcPart? with
  | none => exact Agree.pure hinv (good_resultOfNonFunction callee)
  | some f =>
    have hgoodF := good_funcPart hgood hpart
    refine hanswers.invokeAll hinv hdepth (D.ret hgoodF) fun c hmem => ?_
    exact ⟨live_closures hgoodF c hmem, hgoodT, hgoods, hlive, nofun⟩

/-- Calling a callee with its receiver keeps to the discipline. -/
theorem Answers.callee (hinv : D.Inv s) (hdepth : s.depthLeft = d) {callee : Callee}
    (hgood : D.GoodCallee s callee) {args : List Ty} (hgoods : ∀ a ∈ args, D.Good s a)
    (site : NodeId) {caller : ScopeId} (hlive : D.Live s (.scope caller)) :
    D.Agree but s (callee.call i args site caller) (callee.call i' args site caller)
      fun r t => D.Good t r := by
  have hbound : D.Good s (args.headD .undefined) := by
    cases args with
    | nil => exact D.prim .undefined
    | cons a rest => exact hgoods a List.mem_cons_self
  have hplain : D.Agree but s (TypeFlow.callValue i callee.value callee.this args site caller)
      (TypeFlow.callValue i' callee.value callee.this args site caller) fun r t => D.Good t r :=
    hanswers.callValue hinv hdepth hgood.1 hgood.2 hgoods site hlive
  unfold Callee.call
  cases callee.this.func? with
  | none => exact hplain
  | some f =>
    refine Agree.ite (fun _ => ?_) fun _ => Agree.ite (fun _ => ?_) fun _ => hplain
    · exact hanswers.callValue hinv hdepth hgood.2 hbound
        (fun a hmem => hgoods a (List.mem_of_mem_tail hmem)) site hlive
    · exact hanswers.callValue hinv hdepth hgood.2 hbound
        (fun a hmem => List.eq_of_mem_replicate hmem ▸ D.any) site hlive

/-! ### Instances -/

/-- Running the ancestors that never ran, each on an instance of its own, keeps to the
discipline. -/
theorem Answers.runAncestors (hinv : D.Inv s) (hdepth : s.depthLeft = d) {args : List Ty}
    (hgoods : ∀ a ∈ args, D.Good s a) (site : NodeId) {caller : ScopeId}
    (hlive : D.Live s (.scope caller)) {ids : List CtorId}
    (hliveC : ∀ id ∈ ids, D.Live s (.ctor id)) :
    D.Agree but s (runAncestors i args site caller ids) (runAncestors i' args site caller ids)
      fun _ _ => True := by
  induction ids generalizing s with
  | nil => exact Agree.pure hinv trivial
  | cons id rest ih =>
    have hgo {t : Run} (hinv : D.Inv t) (hlead : D.Leads but s t) :=
      ih hinv (hlead.depthLeft.trans hdepth) (hlead.goods hgoods) (hlead.live hlive)
        fun j hmem => hlead.live (hliveC j (List.mem_cons_of_mem id hmem))
    refine (Does.askCtor hinv (hliveC id List.mem_cons_self)).bind fun c t hinv hlead hfound => ?_
    have hliveK : D.Live t (.ctor id) := hlead.live (hliveC id List.mem_cons_self)
    cases howner : c.closure with
    | none => exact hgo hinv hlead
    | some closure =>
      have hliveO : D.Live t (.closure closure) := by
        refine hinv.live _ (t.ctor_handles (Entry.handles_subset hfound ?_))
        refine List.mem_append_left _ (List.mem_map.mpr ⟨closure, ?_, rfl⟩)
        exact Option.mem_toList.mpr howner
      refine Agree.ite (fun _ => hgo hinv hlead) fun _ => ?_
      refine (Does.create hinv (hlead.live hlive) (fun k hsame => ?_) (List.forall_mem_nil _)).bind
        fun cell r hinv hlead' hhas => ?_
      · exact Option.some.inj hsame ▸ hliveK
      have hhasR := hlead'.live hliveK
      have hlead := hlead.trans hlead'
      refine (hanswers r _ hinv (hlead.depthLeft.trans hdepth)
        ⟨hlead'.live hliveO, D.ofInstance hhas hhasR, hlead.goods hgoods, hlead.live hlive,
        ?_⟩).weaken.bind
          fun _ q hinv hlead' _ => hgo hinv (hlead.trans hlead')
      exact fun k hsame => Option.some.inj hsame ▸ hhasR

/-- Creating an instance keeps to the discipline. -/
theorem Answers.instantiate (hinv : D.Inv s) (hdepth : s.depthLeft = d) {closure : ClosureId}
    (hlive : D.Live s (.closure closure)) {args : List Ty} (hgoods : ∀ a ∈ args, D.Good s a)
    (site : NodeId) {caller : ScopeId} (hliveS : D.Live s (.scope caller)) :
    D.Agree but s (instantiate i closure args site caller) (instantiate i' closure args site caller)
      fun r t => D.Good t r := by
  refine (Does.ctorOf hinv hlive).bind fun ctor t hinv hlead hliveK => ?_
  refine (Does.create hinv (hlead.live hliveS) (fun k hsame => ?_) (List.forall_mem_nil _)).bind
    fun cell t hinv hlead' hliveC => ?_
  · exact Option.some.inj hsame ▸ hliveK
  have hliveK := hlead'.live hliveK
  have hlead := hlead.trans hlead'
  have hvalue : D.Good t (.ofInstance cell ctor) := D.ofInstance hliveC hliveK
  refine (hanswers t _ hinv (hlead.depthLeft.trans hdepth)
    ⟨hlead.live hlive, hvalue, hlead.goods hgoods, hlead.live hliveS,
    fun k hsame => ?_⟩).weaken.bind
      fun _ t hinv hleads _ => ?_
  · exact Option.some.inj hsame ▸ hliveK
  refine (Does.ancestors hinv (hleads.live hliveK)).bind fun ids t hinv hlead' hliveA => ?_
  have hleads := hleads.trans hlead'
  have hleads' := hlead.trans hleads
  refine (hanswers.runAncestors hinv (hleads'.depthLeft.trans hdepth) (hleads'.goods hgoods) site
    (hleads'.live hliveS) hliveA).bind fun _ t hinv hlead' _ => ?_
  have hleads := hleads.trans hlead'
  refine (Does.instanceFields hinv (hleads.live hliveK)).bind fun fields t hinv hlead' hgoodF => ?_
  have hleads := hleads.trans hlead'
  refine (Does.writeMissing hinv (hleads.live hliveC) hgoodF).bind fun _ t hinv hlead' _ => ?_
  exact Agree.pure hinv ((hleads.trans hlead').good hvalue)

/-- Instances of several constructors, joined. -/
theorem Answers.instantiateAll (hinv : D.Inv s) (hdepth : s.depthLeft = d) {args : List Ty}
    (hgoods : ∀ a ∈ args, D.Good s a) (site : NodeId) {caller : ScopeId}
    (hliveS : D.Live s (.scope caller)) {acc : Ty} (hgood : D.Good s acc) {cs : List ClosureId}
    (hlive : ∀ c ∈ cs, D.Live s (.closure c)) :
    D.Agree but s (instantiateAll i args site caller acc cs)
      (instantiateAll i' args site caller acc cs) fun r t => D.Good t r := by
  induction cs generalizing s acc with
  | nil => exact Agree.pure hinv hgood
  | cons c cs ih =>
    refine (hanswers.instantiate hinv hdepth (hlive c List.mem_cons_self) hgoods site hliveS).bind
      fun value t hinv hlead hgoodV => ?_
    exact ih hinv (hlead.depthLeft.trans hdepth) (hlead.goods hgoods) (hlead.live hliveS)
      (D.join (hlead.good hgood) hgoodV) fun k hmem =>
      hlead.live (hlive k (List.mem_cons_of_mem c hmem))

/-- Calling a value with `new` keeps to the discipline. -/
theorem Answers.constructValue (hinv : D.Inv s) (hdepth : s.depthLeft = d) {callee : Ty}
    (hgood : D.Good s callee) {args : List Ty} (hgoods : ∀ a ∈ args, D.Good s a) (site : NodeId)
    {caller : ScopeId} (hliveS : D.Live s (.scope caller)) :
    D.Agree but s (constructValue i callee args site caller)
      (constructValue i' callee args site caller) fun r t => D.Good t r := by
  unfold TypeFlow.constructValue
  cases hpart : callee.funcPart? with
  | none => exact Agree.pure hinv (good_resultOfNonFunction callee)
  | some f =>
    have hgoodF := good_funcPart hgood hpart
    refine Agree.ite (fun _ => Agree.pure hinv (D.ret hgoodF)) fun _ => ?_
    exact hanswers.instantiateAll hinv hdepth hgoods site hliveS D.never (live_closures hgoodF)

end Answers

end Discipline

end TypeFlow
