import Mathlib
import TypeFlow.Proofs.Engine.Replay

/-!
# Declared signatures

A call that is followed joins its arguments into the declared parameters of the closure, and there
they stay.  A call from inside of a running call, and a call that is not followed since too many are
nested, leave all declared signatures as they are.

## Main Definitions

* `Run.Follows` - a call of the closure is followed, or answered as one of a function that returns
  only itself
* `Run.Covers` - the declared parameters of a closure cover arguments

## Main Statements

* `invoke_records` - a call that is followed ends with joining it into the declared signature
* `Run.Covers.later` - declared parameters go on covering what they cover
* `signatures_cover_followed_calls` - calls and instance creations
* `reentrant_call_not_covered` - a call from inside is not covered
-/

namespace TypeFlow

open Walk

/-- A call of the closure is followed, or it is answered as one of a function that returns only
itself. -/
def Run.Follows (s : Run) (k : ClosureId) : Prop :=
  (∃ c, s.closures.table[k]? = some c ∧ c.selfReferential = true) ∨
    (s.solve? k = none ∧ s.activations.length < s.options.maxCallDepth)

/-- The declared parameters of a closure cover the arguments, a missing one being `undefined`. -/
def Run.Covers (s : Run) (k : ClosureId) (args : List Ty) : Prop :=
  ∃ c, s.closures.table[k]? = some c ∧
    ∀ (i : Nat) p, c.params[i]? = some p → (args[i]?.getD .undefined).isSubtype p = true

/-! ### Calls that are followed -/

/-- A call of a closure, up to joining it into the declared signature. -/
def settleCall (solver : Func → ScopeId → Call → Walk Ty) (c : Closure) (call : Call) :
    Walk Ty := do
  let scope ← enterCall c call
  setSeed call.closure .never
  ensuring (solver c.func scope call) (Run.dropSeed call.closure)

/-- A call is settled, and then recorded. -/
theorem runCall_settled (solver : Func → ScopeId → Call → Walk Ty) (c : Closure) (call : Call) :
    runCall solver c call = settleCall solver c call >>= fun ret => do
      onClosures (Closures.recordCall call.closure call.args ret)
      return ret := by
  simp only [runCall_eq, settleCall, bind_assoc]
  rfl

section Follows

open Discipline

variable {D : Discipline} {s t : Run} {call : Call}

/-- A call that is followed would be followed later: the same calls run. -/
theorem Run.Follows.later {k : ClosureId} (h : s.Follows k) (hlead : D.Leads none s t) :
    t.Follows k := by
  rcases h with ⟨c, hfound, hmarked⟩ | ⟨hidle, hroom⟩
  · exact Or.inl ((Run.later_of_steps hlead.steps).marks k c hfound hmarked)
  · refine Or.inr ⟨?_, ?_⟩
    · have hseeds := hlead.keeps.seeds k nofun
      rw [hidle] at hseeds
      exact Option.map_eq_none_iff.mp hseeds
    · rw [hlead.keeps.depth, hlead.keeps.options]
      exact hroom

/-- Settling a call keeps to every discipline. -/
theorem Discipline.Does.settleCall (hinv : D.Inv s) (hcallable : D.Callable s call) {c : Closure}
    (hfound : s.closures.table[call.closure]? = some c) (hidle : s.solve? call.closure = none)
    (hroom : s.activations.length < s.options.maxCallDepth) :
    D.Does none s (settleCall (solve invoke) c call) fun r t => D.Good t r := by
  refine (Does.enterCall hinv hcallable hfound).bind fun scope t hinv' hlead hprepared => ?_
  have hidle' : t.solve? call.closure = none := by
    have hseeds := hlead.keeps.seeds call.closure nofun
    rw [hidle] at hseeds
    exact Option.map_eq_none_iff.mp hseeds
  have hdepth : s.depthLeft = s.depthLeft - 1 + 1 := by
    unfold Run.depthLeft
    omega
  have hreturns (r : Ty) (u : Run) (hinv : D.Inv u) (hgood : D.Good u r) :
      D.Does none u (pure r) fun r t => D.Good t r := Agree.pure hinv hgood
  have hsettled : D.Does none t (TypeFlow.setSeed call.closure .never >>= fun _ =>
      ensuring (solve invoke c.func scope call) (Run.dropSeed call.closure) >>= pure)
        fun r t => D.Good t r := by
    refine agree_seeded hinv' (hlead.callable hcallable).closure hidle' (fun u hinv'' hlead' => ?_)
      fun r u hinv _ hgood => hreturns r u hinv hgood
    exact solves_self invoke invoke answers_invoke u c.func scope call
      ⟨hinv'', (hlead'.depthLeft.trans hlead.depthLeft).trans hdepth,
        hinv''.liveFrame (hlead'.steps.prepared hprepared).1,
        fun _ => hlead'.steps.prepared hprepared, hinv.literals _ c hfound,
          hlead'.callable (hlead.callable hcallable)⟩
  simpa only [bind_pure] using hsettled

theorem recordCall_ok {k : ClosureId} {args : List Ty} {ret r : Ty}
    (hran : (do onClosures (Closures.recordCall k args ret); return ret : Walk Ty) s = .ok r t) :
    r = ret ∧ (∃ c, s.closures.table[k]? = some c) ∧
      t = (Update.closures (.record k args ret)).apply s := by
  have happlied := Closures.recordCall_apply s.closures k args ret
  rw [bind_apply, onClosures] at hran
  rw [Update.apply, Closures.Write.apply, after]
  cases hfound : s.closures.table[k]? with
  | none =>
    rw [hfound] at happlied
    rw [happlied] at hran
    cases hran
  | some c =>
    rw [hfound] at happlied
    rw [happlied] at hran ⊢
    cases hran
    exact ⟨rfl, ⟨c, rfl⟩, rfl⟩

/-- A call that is followed ends with joining it into the declared signature. -/
theorem invoke_records {ret : Ty} (hinv : D.Inv s) (hcallable : D.Callable s call)
    (hsim : D.Sim s s) (hfollows : s.Follows call.closure) (hran : invoke call s = .ok ret t) :
    ∃ u, D.Inv u ∧ (∃ c, u.closures.table[call.closure]? = some c) ∧
      t = (Update.closures (.record call.closure call.args ret)).apply u := by
  have hunfolded : invoke = invokeThen solve invoke := (invokeThen_unique invoke).mpr rfl
  rw [hunfolded, invokeThen_apply] at hran
  cases hfound : s.closures.table[call.closure]? with
  | none =>
    rw [hfound] at hran
    cases hran
  | some c =>
    rw [hfound] at hran
    dsimp only at hran
    by_cases hselfReferential : c.selfReferential = true
    · rw [if_pos hselfReferential] at hran
      obtain ⟨rfl, hcaptured, rfl⟩ := recordCall_ok hran
      have hlogged : D.Inv ((Update.event (.selfReferential c.func.id)).apply s) :=
        hinv.apply ⟨nofun, nofun, trivial⟩
      exact ⟨_, hlogged, hcaptured, rfl⟩
    -- a call that is followed is neither one from inside nor one too many
    · obtain ⟨hidle, hroom⟩ : s.solve? call.closure = none ∧
          s.activations.length < s.options.maxCallDepth := by
        rcases hfollows with ⟨c', hfound', hmarked⟩ | hboth
        · cases hfound.symm.trans hfound'
          exact absurd hmarked hselfReferential
        · exact hboth
      rw [if_neg hselfReferential, hidle] at hran
      dsimp only at hran
      rw [if_neg (Nat.not_le.mpr hroom), runCall_settled, bind_apply] at hran
      have hsettled := Does.settleCall hinv hcallable hfound hidle hroom s hsim
      cases hsettles : settleCall (solve invoke) c call s with
      | error e u =>
        rw [hsettles] at hran
        cases hran
      | ok r u =>
        rw [hsettles] at hran hsettled
        obtain ⟨rfl, hcaptured, rfl⟩ := recordCall_ok hran
        cases hsettled with
        | ok _ hinv _ _ => exact ⟨u, hinv, hcaptured, rfl⟩

/-- Creating an instance calls the closure, and what is true after the call is true in the end. -/
theorem Discipline.Does.instantiate_calls {P : Run → Prop} {k : ClosureId} {args : List Ty}
    {site : NodeId} {caller : ScopeId} (hloose : ¬ D.tight) (hinv : D.Inv s)
    (hgoods : ∀ a ∈ args, D.Good s a) (hstays : ∀ {t u}, D.Inv t → P t → D.Steps t u → P u)
    (hcalls : ∀ {t} cell ctor, D.Inv t →
      D.Does none t (invoke ⟨k, .ofInstance cell ctor, args, site, caller, some ctor⟩) fun _ u =>
        t.Follows k → P u) :
    D.Does none s (instantiate invoke k args site caller) fun r t =>
      (∃ cell ctor, r = .ofInstance cell ctor) ∧ (s.Follows k → P t) := by
  have hlive (r : Run) (d : Dangling) : D.Live r d := fun htight => absurd htight hloose
  refine (Does.ctorOf hinv (hlive _ _)).bind fun ctor t hinv hlead _ => ?_
  refine (Does.create hinv (hlive _ _) (fun _ _ => hlive _ _) (List.forall_mem_nil _)).bind
    fun cell u hinv lead₁ _ => ?_
  refine (hcalls cell ctor hinv).bind fun _ v hinv lead₂ hholds => ?_
  refine (Does.ancestors hinv (hlive _ _)).bind fun ids w hinv' lead₃ hliveA => ?_
  have hgoods' := (((hlead.trans lead₁).trans lead₂).trans lead₃).goods hgoods
  refine (answers_invoke.runAncestors hinv' rfl hgoods' site (hlive _ _) hliveA).bind
    fun _ x hinv' lead₄ _ => ?_
  refine (Does.instanceFields hinv' (hlive _ _)).bind fun fields y hinv' lead₅ hgoodF => ?_
  refine (Does.writeMissing hinv' (hlive _ _) hgoodF).bind fun _ z hinv' lead₆ _ => ?_
  refine Agree.pure hinv' ⟨⟨cell, ctor, rfl⟩, fun hfollows => ?_⟩
  have hleads := ((lead₃.trans lead₄).trans lead₅).trans lead₆
  exact hstays hinv (hholds (hfollows.later (hlead.trans lead₁))) hleads.steps

/-- A call that is not followed leaves the closures as they are. -/
theorem invoke_unfollowed {c : Closure} (hfound : s.closures.table[call.closure]? = some c)
    (hunfollowed : ¬ s.Follows call.closure) :
    ∃ ret t, invoke call s = .ok ret t ∧ t.closures = s.closures := by
  have hunfolded : invoke = invokeThen solve invoke := (invokeThen_unique invoke).mpr rfl
  have hne : ¬ c.selfReferential = true := fun hmarked => hunfollowed (Or.inl ⟨c, hfound, hmarked⟩)
  rw [hunfolded, invokeThen_apply, hfound]
  dsimp only
  rw [if_neg hne]
  cases hassumed : s.solve? call.closure with
  | some v => exact ⟨_, _, rfl, rfl⟩
  | none =>
    have hdeep : s.options.maxCallDepth ≤ s.activations.length :=
      Nat.not_lt.mp fun hroom => hunfollowed (Or.inr ⟨hassumed, hroom⟩)
    dsimp only
    rw [if_pos hdeep]
    exact ⟨_, _, rfl, rfl⟩

end Follows

/-! ### Declared parameters -/

section Covers

variable {s t : Run} {k : ClosureId} {args : List Ty}

theorem Ty.normal_arg (hnormal : ∀ a ∈ args, a.Normal) (i : Nat) :
    (args[i]?.getD .undefined).Normal := by
  cases hgiven : args[i]? with
  | none => trivial
  | some a => exact hnormal a (List.mem_of_getElem? hgiven)

theorem Run.param_normal (hnormal : s.Normal) {c : Closure} (hfound : s.closures.table[k]? = some c)
    {i : Nat} {p : Ty} (hparam : c.params[i]? = some p) : p.Normal := by
  refine hnormal p (Run.mem_types_of_slot? (l := .param k i) ?_)
  rw [Run.slot?, hfound]
  exact hparam

/-- A call that is joined into a declared signature is covered by it. -/
theorem Run.covers_record (hnormal : s.Normal) (hgiven : ∀ a ∈ args, a.Normal) {c : Closure}
    (hfound : s.closures.table[k]? = some c) (ret : Ty) :
    ((Update.closures (.record k args ret)).apply s).Covers k args := by
  have happlied := Closures.recordCall_apply s.closures k args ret
  rw [hfound] at happlied
  rw [Run.Covers, Update.apply, Closures.Write.apply, after, happlied]
  refine ⟨_, (Array.getElem?_modify ..).trans (by rw [if_pos rfl, hfound]; rfl), fun i p hget => ?_⟩
  rw [Closures.getElem?_joinArgs] at hget
  obtain ⟨old, hparam, rfl⟩ := Option.map_eq_some_iff.mp hget
  have hnormalA := Ty.normal_arg hgiven i
  have hlub := (Run.param_normal hnormal hfound hparam).isLub_join hnormalA
  exact (hnormalA.isSubtype_iff hlub.normal).mpr hlub.right

/-- Declared parameters go on covering what they cover. -/
theorem Run.Covers.update (h : s.Covers k args) (hnormal : s.Normal) (hgiven : ∀ a ∈ args, a.Normal)
    (u : Update) (hbrings : ∀ t ∈ u.types, t.Normal) : (u.apply s).Covers k args := by
  have hsame : (u.apply s).closures = s.closures → (u.apply s).Covers k args := fun heq => by
    rw [Run.Covers, heq]
    exact h
  obtain ⟨c, hfound, hcovers⟩ := h
  -- the entry of the closure, when some entry of the table is altered
  have haltered {cs : Closures} {id : ClosureId} {f : Closure → Closure}
      (heq : cs = { s.closures with table := s.closures.table.modify id f })
      (hparams : ∀ (i : Nat) p, (f c).params[i]? = some p →
        (args[i]?.getD .undefined).isSubtype p = true) :
      ∃ c, cs.table[k]? = some c ∧ ∀ (i : Nat) p, c.params[i]? = some p →
        (args[i]?.getD .undefined).isSubtype p = true := by
    rw [heq, Array.getElem?_modify]
    by_cases heq' : id = k
    · rw [if_pos heq', hfound]
      exact ⟨f c, rfl, hparams⟩
    · rw [if_neg heq']
      exact ⟨c, hfound, hcovers⟩
  cases u with
  | closures w =>
    cases w with
    | capture scope f =>
      rcases Closures.after_captureId s.closures scope f with heq | ⟨-, heq⟩
      · exact hsame heq
      · refine ⟨c, ?_, hcovers⟩
        rw [Update.apply, Closures.Write.apply, heq]
        exact getElem?_push_of_some hfound
    | record id given' ret =>
      rcases Closures.after_recordCall s.closures id given' ret with heq | heq
      · exact hsame heq
      · refine haltered heq fun i p hget => ?_
        dsimp only at hget
        rw [Closures.getElem?_joinArgs] at hget
        obtain ⟨old, hparam, rfl⟩ := Option.map_eq_some_iff.mp hget
        obtain ⟨-, hbrings⟩ := List.forall_mem_cons.mp hbrings
        obtain ⟨-, hbrings⟩ := List.forall_mem_cons.mp hbrings
        have hnormalA := Ty.normal_arg hgiven i
        have hnormalP := Run.param_normal hnormal hfound hparam
        have hlub := hnormalP.isLub_join (Ty.normal_arg hbrings i)
        have hbelow := (hnormalA.isSubtype_iff hnormalP).mp (hcovers i old hparam)
        exact (hnormalA.isSubtype_iff hlub.normal).mpr (hbelow.trans hlub.left)
    | mark id =>
      rcases Closures.after_markSelfReferential s.closures id with heq | heq
      · exact hsame heq
      · exact haltered heq hcovers
  | _ => exact hsame rfl

/-- Declared parameters go on covering what they cover. -/
theorem Run.Covers.later (h : s.Covers k args) (hnormal : s.Normal) (hgiven : ∀ a ∈ args, a.Normal)
    (hsteps : normalTypes.Steps s t) : t.Covers k args := by
  induction hsteps with
  | refl => exact h
  | tail hreaches hlast ih =>
    obtain ⟨u, hguard, rfl⟩ := hlast
    exact ih.update (Discipline.Steps.inv hreaches (normalTypes_inv hnormal)).good hgiven u
      hguard.good

/-! ### Calls and instances -/

section Calls

open Discipline

variable {this : Ty} {site : NodeId} {caller : ScopeId} {ret : Ty}

variable (hgiven : ∀ a ∈ args, a.Normal)

include hgiven

/-- A call that is followed is covered afterwards. -/
theorem does_invoke (hnormal : s.Normal) {c : ClosureId} (hnormalT : this.Normal)
    (constructing : Option CtorId) :
    normalTypes.Does none s (invoke ⟨c, this, args, site, caller, constructing⟩) fun r t =>
      r.Normal ∧ (s.Follows c → t.Covers c args) := by
  have hinv := normalTypes_inv hnormal
  have hcallable : normalTypes.Callable s ⟨c, this, args, site, caller, constructing⟩ :=
    ⟨fun htight => htight.elim, hnormalT, hgiven, fun htight => htight.elim,
      fun _ _ htight => htight.elim⟩
  refine (answers_invoke s _ hinv rfl hcallable).also fun ret t hran hfollows => ?_
  obtain ⟨u, hinv', ⟨c, hfound⟩, rfl⟩ := invoke_records hinv hcallable rfl hfollows hran
  exact Run.covers_record hinv'.good hgiven hfound ret

/-- The calls of several closures are covered afterwards, if they are followed. -/
theorem does_invokeAll (hnormal : s.Normal) (hnormalT : this.Normal) {acc : Ty}
    (hnormalA : acc.Normal) (cs : List ClosureId) :
    normalTypes.Does none s (invokeAll invoke (fun c => ⟨c, this, args, site, caller, none⟩) acc cs)
      fun _ t => ∀ k ∈ cs, s.Follows k → t.Covers k args := by
  induction cs generalizing s acc with
  | nil => exact Agree.pure (normalTypes_inv hnormal) nofun
  | cons c cs ih =>
    refine (does_invoke hgiven hnormal hnormalT none).bind
      fun r t hinv hlead ⟨hnormalR, hcovers⟩ => ?_
    refine (ih hinv.good (hnormalA.isLub_join hnormalR).normal).mono fun _ u _ hlead' hlater => ?_
    refine List.forall_mem_cons.mpr ⟨fun hfollows => ?_, fun k hmem hfollows => ?_⟩
    · exact (hcovers hfollows).later hinv.good hgiven hlead'.steps
    · exact hlater k hmem (hfollows.later hlead)

/-- The arguments of a new instance are covered by the parameters of its constructor. -/
theorem does_instantiate (hnormal : s.Normal) (k : ClosureId) :
    normalTypes.Does none s (instantiate invoke k args site caller) fun r t =>
      r.Normal ∧ (s.Follows k → t.Covers k args) := by
  refine (Does.instantiate_calls (P := fun t => t.Covers k args) id (normalTypes_inv hnormal) hgiven
    (fun hinv hcovers hsteps => hcovers.later hinv.good hgiven hsteps)
    fun cell ctor hinv => ?_).mono ?_
  · have hvalue : (Ty.ofInstance cell ctor).Normal := Ty.normal_ofInstance cell ctor
    exact (does_invoke hgiven hinv.good hvalue (some ctor)).mono fun _ _ _ _ hboth => hboth.2
  · rintro r t - - ⟨⟨cell, ctor, rfl⟩, hcovers⟩
    exact ⟨Ty.normal_ofInstance cell ctor, hcovers⟩

/-- The same for instances of several constructors. -/
theorem does_instantiateAll (hnormal : s.Normal) {acc : Ty} (hnormalA : acc.Normal)
    (cs : List ClosureId) :
    normalTypes.Does none s (instantiateAll invoke args site caller acc cs)
      fun _ t => ∀ k ∈ cs, s.Follows k → t.Covers k args := by
  induction cs generalizing s acc with
  | nil => exact Agree.pure (normalTypes_inv hnormal) nofun
  | cons c cs ih =>
    refine (does_instantiate hgiven hnormal c).bind fun r t hinv hlead ⟨hnormalR, hcovers⟩ => ?_
    refine (ih hinv.good (hnormalA.isLub_join hnormalR).normal).mono fun _ u _ hlead' hlater => ?_
    refine List.forall_mem_cons.mpr ⟨fun hfollows => ?_, fun k hmem hfollows => ?_⟩
    · exact (hcovers hfollows).later hinv.good hgiven hlead'.steps
    · exact hlater k hmem (hfollows.later hlead)

end Calls

end Covers

open Discipline in
/-- When a value is called, or instances are created with it, the arguments are covered afterwards
by the declared parameters of all its closures, as long as their calls are followed.  Where a call
is not followed, since it comes from inside of a running call of the same closure or since too many
calls are nested, it is answered without a change to any declared signature. -/
theorem signatures_cover_followed_calls (s : Run) (hnormal : s.Normal) (callee this : Ty)
    (args : List Ty) (hnormalC : callee.Normal) (hnormalT : this.Normal)
    (hgiven : ∀ a ∈ args, a.Normal) (site : NodeId) (caller : ScopeId) :
    (∀ f ret t, callee.funcPart? = some f →
      callValue invoke callee this args site caller s = .ok ret t →
        ∀ k ∈ f.closures, s.Follows k → t.Covers k args) ∧
    (∀ f ret t, callee.funcPart? = some f →
      constructValue invoke callee args site caller s = .ok ret t →
        ∀ k ∈ f.closures, s.Follows k → t.Covers k args) ∧
    (∀ k ret t, instantiate invoke k args site caller s = .ok ret t → s.Follows k →
      t.Covers k args) ∧
    ∀ k c constructing, s.closures.table[k]? = some c → ¬ s.Follows k →
      ∃ ret t, invoke ⟨k, this, args, site, caller, constructing⟩ s = .ok ret t ∧
        t.closures = s.closures := by
  have hholds {α : Type} {m : Walk α} {a : α} {t : Run} {Q : α → Run → Prop}
      (hdoes : normalTypes.Does none s m Q) (hran : m s = .ok a t) : Q a t := by
    have houtcome := hdoes s rfl
    rw [hran] at houtcome
    cases houtcome with
    | ok _ _ _ hholds => exact hholds
  refine ⟨fun f ret t hpart hran => ?_, fun f ret t hpart hran k hmem => ?_, fun k ret t hran => ?_,
    fun k c constructing hfound hunfollowed => ?_⟩
  · rw [callValue, hpart] at hran
    have hnormalR : f.ret.Normal := ((FuncTy.normal_iff f).mp (hnormalC.funcPart hpart)).2.1
    exact hholds (does_invokeAll hgiven hnormal hnormalT hnormalR f.closures) hran
  · rw [constructValue, hpart] at hran
    -- there is a closure to call, so the answer comes from instances
    have hclosures : ¬ f.closures.isEmpty = true := fun hempty => by
      rw [List.isEmpty_iff.mp hempty] at hmem
      cases hmem
    dsimp only at hran
    rw [if_neg hclosures] at hran
    have hnothing : Ty.never.Normal := trivial
    exact hholds (does_instantiateAll hgiven hnormal hnothing f.closures) hran k hmem
  · exact (hholds (does_instantiate hgiven hnormal k) hran).2
  · let call : Call := ⟨k, this, args, site, caller, constructing⟩
    have hfound : s.closures.table[call.closure]? = some c := hfound
    exact invoke_unfollowed hfound hunfollowed

/-- `function f(x) { f("text") }` and `f(1)`. -/
def callsItselfWithText : Program :=
  [⟨5, ⟨0, 0⟩, .function ⟨4, ⟨0, 0⟩, some "f", ["x"],
      [⟨3, ⟨0, 0⟩, .expr ⟨2, ⟨0, 0⟩, .call (some ⟨0, ⟨0, 0⟩, .ident "f"⟩)
        [⟨1, ⟨0, 0⟩, .literal .string⟩]⟩⟩]⟩⟩,
    ⟨9, ⟨0, 0⟩, .expr ⟨8, ⟨0, 0⟩, .call (some ⟨6, ⟨0, 0⟩, .ident "f"⟩)
      [⟨7, ⟨0, 0⟩, .literal .number⟩]⟩⟩]

/-- The state after the declaration of `f`. -/
def afterDeclaration : Run :=
  after (inferProgram (callsItselfWithText.take 1)) (Run.start ⟨2, 3, false, false⟩ [])

/-- `f(1)` is followed, and the declared parameter covers the number. -/
theorem signatures_cover_followed_calls_number :
    let callee := Ty.closure 0 1
    let t := after (callValue invoke callee .undefined [.number] 8 Env.global) afterDeclaration
    afterDeclaration.Normal ∧ afterDeclaration.Follows 0 ∧ t.Covers 0 [.number] := by
  intro callee t
  have hnormal : afterDeclaration.Normal := by decide
  have hfollows : afterDeclaration.Follows 0 := Or.inr ⟨by decide, by decide⟩
  have hgiven : ∀ a ∈ [Ty.number], a.Normal := by decide
  obtain ⟨hcovers, -⟩ := signatures_cover_followed_calls afterDeclaration hnormal callee .undefined
    [.number] (by decide) (by decide) hgiven 8 Env.global
  cases hran : callValue invoke callee .undefined [.number] 8 Env.global afterDeclaration with
  | ok ret u =>
    refine ⟨hnormal, hfollows, ?_⟩
    have hend : t = u := after_of_ok hran
    exact hend ▸ hcovers _ ret u rfl hran 0 (by decide) hfollows
  | error e u =>
    have hfine : (callValue invoke callee .undefined [.number] 8 Env.global).fault?
        afterDeclaration = none := by decide +kernel
    rw [Walk.fault?, hran] at hfine
    cases hfine

/-- The call of `f` inside of `f` is made, with a text, and succeeds.  Still the declared parameter
of `f` is a number, which does not cover the text. -/
theorem reentrant_call_not_covered :
    let t := after (inferProgram callsItselfWithText) (Run.start ⟨2, 3, false, false⟩ [])
    t.errors = [] ∧ OrdMap.get? t.nodeTypes 1 = some .string ∧
      OrdMap.get? t.nodeTypes 2 = some .undefined ∧
      t.closures.table[0]?.map (·.params) = some [.number] ∧ Ty.string.isSubtype .number = false ∧
      ¬ t.Covers 0 [.string] := by
  intro t
  have hparams : t.closures.table[0]?.map (·.params) = some [.number] := by decide +kernel
  refine ⟨by decide +kernel, by decide +kernel, by decide +kernel, hparams, by decide, ?_⟩
  rintro ⟨c, hfound, hcovers⟩
  rw [hfound] at hparams
  have hnumber : c.params = [.number] := Option.some.inj hparams
  have hbelow := hcovers 0 .number (by rw [hnumber]; rfl)
  revert hbelow
  decide

end TypeFlow
