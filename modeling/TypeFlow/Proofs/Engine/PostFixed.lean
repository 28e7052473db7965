import Mathlib
import TypeFlow.Proofs.Engine.Reruns

/-!
# Converged rounds

When the rounds of a body that calls itself converge, their result is a post-fixed point: the last
round ran with just this result assumed, returned a subtype of it and changed nothing that the
version counts.  One more round from the state it left does the same.

## Main Definitions

* `Converged` - a round from one state ends the loop over rounds in another one
* `PostFixed` - what is then true of the result
* `postFixedWatch` - watches out for rounds that converge to something else

## Main Statements

* `Converged.postFixed` - in a state in front of a round, what converges is a post-fixed point
* `solves_among` - watching normal states only is watching all states, when all states are normal
* `converged_rounds_postFixed` - no run of programs has a round that converges to something else

## Design Notes

That one more round does the same is read off the round itself: it is a computation after which the
version is the same, so it can be repeated.  What is repeated are the calls inside it, too, and
these are answered without a watch.
-/

namespace TypeFlow

open Walk

/-! ### Post-fixed points -/

/-- The state in front of one more round, with a result assumed. -/
def Run.resumed (e : Run) (k : ClosureId) (t : Ty) (recursed : Bool) (log : Array Event) : Run :=
  { e with solving := OrdMap.insert e.solving k ⟨t, recursed⟩, log := log }

/-- The round from `r` ends the loop over rounds with the result `t` in the state `e`.  The body was
called from inside in this round, and the result is not given up. -/
structure Converged (f : Func) (scope : ScopeId) (call : Call) (r : Run) (t : Ty) (e : Run) :
    Prop where
  ends : ∃ done, ∀ again, roundThen invoke f scope call again done r = .ok t e
  recursed : (e.solve? call.closure).map (·.recursed) = some true
  unfrozen : ∀ n, e.log.back? ≠ some (.frozen f.id n)

/-- The result `t` of the round from `r` to `e` is a post-fixed point: it was assumed in that round,
which returned a subtype of it and left the bindings, the cells and the constructors as they were;
and running the body once more with it succeeds, returns a subtype of it and leaves these as they
are. -/
structure PostFixed (f : Func) (scope : ScopeId) (call : Call) (r : Run) (t : Ty) (e : Run) :
    Prop where
  seed : (r.solve? call.closure).map (·.seed) = some t
  returned : ∃ ret u, runBody invoke f scope call r = .ok ret u ∧ ret.isSubtype t = true
  store : r.SameStore e
  again : ∀ recursed log, ∃ ret u,
    runBody invoke f scope call (e.resumed call.closure t recursed log) = .ok ret u ∧
      ret.isSubtype t = true ∧ e.SameStore u

/-- A watch that sees nothing at all. -/
def unwatched : Watch :=
  ⟨fun _ _ _ _ => False, .dangling (.scope Env.global)⟩

theorem unwatched_blind : Blind unwatched :=
  fun _ _ _ _ _ hsees => hsees

section Converged

variable {f : Func} {scope : ScopeId} {call : Call} {r e : Run} {t : Ty}

/-- The last round as it was run: its result is absorbed by the assumed one, and the version is the
same. -/
theorem Converged.ran (h : Converged f scope call r t e) :
    ∃ ret u ev, runBody invoke f scope call r = .ok ret u ∧ u.solve? call.closure = some ⟨t, true⟩ ∧
      t.join ret = t ∧ u.version = r.version ∧ e = u.logged ev := by
  obtain ⟨⟨done, hends⟩, hrecursed, hunfrozen⟩ := h
  -- a loop that stops instead of running another round
  have hends := hends fun _ => throw (.dangling (.scope scope))
  rw [roundThen_apply] at hends
  cases hran : runBody invoke f scope call r with
  | error e' u =>
    rw [hran] at hends
    cases hends
  | ok ret u =>
    rw [hran] at hends
    dsimp only at hends
    cases hassumed : u.solve? call.closure with
    | none =>
      rw [hassumed] at hends
      cases hends
      rw [hassumed] at hrecursed
      cases hrecursed
    | some v =>
      obtain ⟨seed, flag⟩ := v
      rw [hassumed] at hends
      cases flag with
      | false =>
        cases hends
        rw [hassumed] at hrecursed
        cases hrecursed
      | true =>
        dsimp only at hends
        split at hends
        · next hsettled =>
          cases hends
          rw [hsettled.1]
          exact ⟨ret, u, _, rfl, hassumed, hsettled.1, hsettled.2, rfl⟩
        · split at hends
          · cases hends
            exact absurd Array.back?_push (hunfrozen (done + 1))
          · cases hends

/-- Running a body leaves the running calls as they are, what they returned so far included. -/
theorem Ready.runBody_activations (hready : Ready f scope call r) {ret : Ty} {u : Run}
    (hran : runBody invoke f scope call r = .ok ret u) : u.activations = r.activations := by
  have hbody := proceeds_body (proceeds_invokeUpTo unwatched_blind r.depthLeft) hready le_rfl
  have htail := hbody.tail
  rw [runBody_apply] at hran
  cases hinside : inferBlock invoke scope f.body (r.pushed (call.activation scope)) with
  | error e t =>
    rw [hinside] at hran
    cases hran
  | ok _ t =>
    rw [hinside] at hran
    cases hran
    rwa [after_of_ok hinside] at htail

/-- Running the body once more from the state that a round left does what the round did, when the
version is the same after it. -/
theorem Ready.runBody_again (hready : Ready f scope call r) {ret : Ty} {u : Run}
    (hran : runBody invoke f scope call r = .ok ret u) (hversion : u.version = r.version)
    (hseed : (r.solve? call.closure).map (·.seed) = some t) (recursed : Bool) (log : Array Event) :
    ∃ v, runBody invoke f scope call (u.resumed call.closure t recursed log) = .ok ret v ∧
      u.SameStore v := by
  have hbody := proceeds_runBody (proceeds_invokeUpTo unwatched_blind r.depthLeft) hready le_rfl
  obtain ⟨hquiet, hagain⟩ := hbody.rerun trivial ret u hran hversion
  have hlead : anyWalk.Leads none r u := after_of_ok hran ▸ hbody.lead
  let v := u.resumed call.closure t recursed log
  have hseeds (id : ClosureId) : (v.solve? id).map (·.seed) = (r.solve? id).map (·.seed) := by
    by_cases hsame : id = call.closure
    · subst hsame
      rw [hseed]
      exact congrArg (Option.map _) (OrdMap.get?_insert_self u.solving call.closure ⟨t, recursed⟩)
    · rw [← hlead.keeps.seeds id nofun]
      exact congrArg (Option.map _) (OrdMap.get?_insert_of_ne u.solving _ hsame)
  -- what was assumed in front of the round may have been used in it
  have hecho : Echo (fun id => (r.solve? id).isSome = true) u r v := by
    have hcalls : u.activations = r.activations := hready.runBody_activations hran
    refine ⟨rfl, rfl, rfl, fun _ => rfl, rfl, hlead.keeps.options, hcalls, hseeds,
      fun id hidle => ?_,
      fun _ hassumed => hassumed⟩
    have hnone : r.solve? id = none := Option.not_isSome_iff_eq_none.mp hidle
    have hsame := hseeds id
    rw [hnone] at hsame
    rw [hnone, Option.map_eq_none_iff.mp hsame]
  obtain ⟨v', hran', hecho'⟩ := hagain _ u v nofun (.refl u) hecho
  refine ⟨v', hran', fun id => ?_, by rw [hecho'.heap], by rw [hecho'.protos]⟩
  rw [Run.bindings, Run.bindings, hecho'.env]

open Discipline in
/-- In a state in front of a round, what converges is a post-fixed point. -/
theorem Converged.postFixed (h : Converged f scope call r t e) (hready : Ready f scope call r)
    {d : Nat} (hnormal : normalTypes.Runnable d f scope call r) : PostFixed f scope call r t e := by
  obtain ⟨ret, u, ev, hran, hassumed, habsorbs, hversion, rfl⟩ := h.ran
  have houtcome : normalTypes.Outcome none r _ _ _ := answers_invoke.runBody hnormal r rfl
  rw [hran] at houtcome
  obtain ⟨hinv, hlead, hnormalR⟩ : normalTypes.Inv u ∧ normalTypes.Leads none r u ∧ ret.Normal := by
    cases houtcome with
    | ok _ hinv hlead hgood => exact ⟨hinv, hlead, hgood⟩
  have hnormalT : t.Normal :=
    hinv.good t (u.seed_types (List.mem_map.mpr ⟨_, OrdMap.mem_of_get? hassumed, rfl⟩))
  have hbelow : ret.isSubtype t = true := by
    rw [Ty.isSubtype, hnormalR.join_comm hnormalT, habsorbs]
    exact decide_eq_true rfl
  have hseed : (r.solve? call.closure).map (·.seed) = some t := by
    rw [← hlead.keeps.seeds call.closure (Option.some_ne_none _).symm, hassumed]
    rfl
  have hcounts := (widens_of_steps hlead.steps hnormal.inv.good).2
  have hstore := hcounts.version_eq_iff.mp hversion.symm
  refine ⟨hseed, ⟨ret, u, hran, hbelow⟩, ⟨hstore.bindings, hstore.cells, hstore.ctors⟩, ?_⟩
  intro recursed log
  obtain ⟨v, hrunBody, hsame⟩ := hready.runBody_again hran hversion hseed recursed log
  exact ⟨ret, v, hrunBody, hbelow, hsame.bindings, hsame.cells, hsame.ctors⟩

end Converged

/-! ### Watching for the rounds -/

/-- Watches out for rounds that converge to something that is no post-fixed point. -/
def postFixedWatch (fault : Fault) : Watch where
  Sees f scope call r := ∃ t e, Converged f scope call r t e ∧ ¬ PostFixed f scope call r t e
  fault := fault

/-- A watch that looks only at states in which all types are normal. -/
def Watch.amongNormal (w : Watch) : Watch where
  Sees f scope call s := (∃ d, normalTypes.Runnable d f scope call s) ∧ w.Sees f scope call s
  fault := w.fault

theorem postFixedWatch_blind (fault : Fault) : Blind (postFixedWatch fault).amongNormal := by
  rintro f scope call s hready ⟨⟨d, hnormal⟩, t, e, hconverged, hnot⟩
  exact hnot (hconverged.postFixed hready hnormal)

section Among

open Discipline

variable {w : Watch} {d : Nat} {s : Run}

/-- Rounds that are watched in normal states only agree with rounds that are watched in all
states. -/
theorem agree_roundsAmong {i i' : Invoke} (hanswers : normalTypes.Answers d i i') {f : Func}
    {scope : ScopeId} {call : Call} (rounds done : Nat)
    (hready : normalTypes.Runnable d f scope call s) :
    normalTypes.Agree (some call.closure) s (w.amongNormal.roundsUpTo i f scope call rounds done)
      (w.roundsUpTo i' f scope call rounds done) fun r _ => r.Normal := by
  induction rounds generalizing done s with
  | zero => exact Agree.pure hready.inv trivial
  | succ rounds ih =>
    rintro _ rfl
    rw [Watch.roundsUpTo, Watch.roundsUpTo]
    by_cases hsees : w.Sees f scope call s
    · have hsees' : w.amongNormal.Sees f scope call s := ⟨⟨d, hready⟩, hsees⟩
      rw [Watch.round, Watch.round, if_pos hsees, if_pos hsees']
      refine .error rfl hready.inv (Leads.refl s) ?_
      change normalTypes.Fails w.fault
      cases w.fault with
      | malformed e => trivial
      | dangling d => exact not_false
    · rw [Watch.round_of_not_sees _ hsees, w.amongNormal.round_of_not_sees
        fun hboth => hsees hboth.2]
      refine hanswers.roundThen hready (fun t hinv hlead _ => ?_) s rfl
      exact ih (done + 1) (hready.next hinv hlead)

/-- Watching normal states only is watching all states, when all states are normal. -/
theorem solves_among (w : Watch) (d : Nat) : normalTypes.Solves d w.amongNormal.solve w.solve := by
  intro i i' hanswers s f scope call hready
  refine agree_logSolve hready.inv fun t hinv hlead => ?_
  refine Agree.get (fun s' hsame => by cases hsame; rfl) ?_
  exact agree_roundsAmong hanswers _ 0 (hready.next hinv hlead)

/-- Calls agree as well: a run of programs meets normal states only. -/
theorem answers_among (w : Watch) (d : Nat) :
    normalTypes.Answers d w.amongNormal.invoke w.invoke := by
  rintro s call hinv hdepth hcallable _ rfl
  exact Solves.invokeUpTo (solves_among w) (by omega) (by omega) s call hinv hdepth hcallable s rfl

end Among

/-! ### Watching programs -/

section Programs

variable {n : Nat} {u : Run}

/-- What is not to be repeated may depend on all of the state. -/
theorem Proceeds.read {α : Type} {but : Option ClosureId} {g g' : Run → Walk α}
    {Q : α → Run → Prop} (hnext : Proceeds False but u (g u) (g' u) Q) :
    Proceeds False but u (MonadState.get >>= g) (MonadState.get >>= g') Q :=
  ⟨hnext.same, hnext.lead, hnext.tail, hnext.ok, hnext.stop, False.elim⟩

open Discipline in
theorem Repeats.report (m : Malformed) : Repeats (report m) :=
  note (fun u => Does.report (anyWalk.inv u) trivial m) fun _ => rfl

/-- An error that was reported is not reported again. -/
theorem proceeds_reportOnce (hcoherent : u.Coherent none) (m : Malformed) :
    Proceeds False none u (reportOnce m) (reportOnce m) fun _ t => t.Coherent none :=
  .read (.ite (fun _ => .pure hcoherent) fun _ => (Repeats.report m).proceeds hcoherent)

/-- A computation that goes on after a malformation. -/
theorem Proceeds.recovering {m m' : Walk Unit} {handle : Malformed → Walk Unit}
    (h : Proceeds False none u m m' fun _ t => t.Coherent none)
    (hhandles : ∀ e t, t.Coherent none →
      Proceeds False none t (handle e) (handle e) fun _ t => t.Coherent none) :
    Proceeds False none u (recovering m handle) (recovering m' handle) fun _ t =>
      t.Coherent none := by
  have hsame : TypeFlow.recovering m' handle u = TypeFlow.recovering m handle u := by
    rw [TypeFlow.recovering, TypeFlow.recovering, h.same]
  have hlead := h.lead
  have htail := h.tail
  cases hran : m u with
  | ok _ t =>
    have hgoes : TypeFlow.recovering m handle u = .ok () t := by rw [TypeFlow.recovering, hran]
    rw [after_of_ok hran] at hlead htail
    refine ⟨hsame, after_of_ok hgoes ▸ hlead, after_of_ok hgoes ▸ htail, ?_, ?_, False.elim⟩
    · intro _ r heq
      cases hgoes.symm.trans heq
      exact h.ok _ _ hran
    · intro e r heq
      cases hgoes.symm.trans heq
  | error e t =>
    rw [after_of_error hran] at hlead htail
    cases e with
    | malformed e =>
      have hgoes : TypeFlow.recovering m handle u = handle e t := by rw [TypeFlow.recovering, hran]
      have hleft : after (TypeFlow.recovering m handle) u = after (handle e) t := by
        rw [after, after, hgoes]
      have hnext := hhandles e t (h.stop e t hran)
      refine ⟨hsame, hleft ▸ hlead.trans hnext.lead, ?_, ?_, ?_, False.elim⟩
      · rw [hleft, hnext.tail, htail]
      · exact fun a r heq => hnext.ok a r (hgoes ▸ heq)
      · exact fun e r heq => hnext.stop e r (hgoes ▸ heq)
    | dangling d =>
      have hgoes : TypeFlow.recovering m handle u = .error (.dangling d) t := by
        rw [TypeFlow.recovering, hran]
      refine ⟨hsame, after_of_error hgoes ▸ hlead, after_of_error hgoes ▸ htail, ?_, ?_, False.elim⟩
      · intro a r heq
        cases hgoes.symm.trans heq
      · intro e r heq
        cases hgoes.symm.trans heq

variable {w : Watch} (hblind : Blind w)

include hblind

/-- A call proceeds, and a watch that sees nothing makes no difference to it. -/
theorem proceeds_invoke (n : Nat) :
    AnswersAgain n w.invoke := fun owner call pending u hcalling _ =>
  (proceeds_invokeUpTo hblind (u.depthLeft + 1) owner call pending u hcalling
    (Nat.lt_succ_self _)).congr rfl

/-- The statements of a program proceed, those without a flag. -/
theorem proceeds_inferFlagged {p : List (Stmt × Option Malformed)}
    (htidy : ∀ e ∈ p, e.2 = none → Tidy (e.1.nodes true))
    (hstanding : Standing n none Env.global u) :
    Proceeds False none u (inferFlagged invoke p) (inferFlagged w.invoke p) fun _ t =>
      t.Coherent none := by
  induction p generalizing u with
  | nil => exact .pure hstanding.coherent
  | cons e rest ih =>
    obtain ⟨htidy', hlater⟩ := List.forall_mem_cons.mp htidy
    obtain ⟨x, flag⟩ := e
    have hskips (ev : Event) (m : Malformed) : Repeats (do emit ev; report m) :=
      (Repeats.emit ev).bind fun _ => .report m
    refine Proceeds.bind ?_ fun _ t hlead hcoherent => ih hlater (hstanding.next hlead hcoherent)
    cases flag with
    | some m => exact (hskips _ m).proceeds hstanding.coherent
    | none =>
      have hcaptured : ∀ c ∈ x.captures, c.1.Tidy :=
        fun c hmem => x.fits.tidy x.opens (htidy' rfl) hmem
      refine .recovering (Proceeds.imp ((standingWalks (proceeds_invoke hblind n) none
        Env.global).inferStmt x hcaptured u hstanding) False.elim) fun m t hcoherent => ?_
      exact (hskips _ m).proceeds hcoherent

/-- Hoisting the declarations of a program proceeds. -/
theorem proceeds_hoistFlagged {p : List (Stmt × Option Malformed)}
    (htidy : ∀ e ∈ p, e.2 = none → Tidy (e.1.nodes true))
    (hstanding : Standing n none Env.global u) :
    Proceeds False none u (hoistFlagged p) (hoistFlagged p) fun _ t => t.Coherent none := by
  induction p generalizing u with
  | nil => exact .pure hstanding.coherent
  | cons e rest ih =>
    obtain ⟨htidy', hlater⟩ := List.forall_mem_cons.mp htidy
    obtain ⟨x, flag⟩ := e
    cases flag with
    | some m => exact ih hlater hstanding
    | none =>
      have hsingle : Stmt.capturesAll [x] = x.captures := List.append_nil _
      have hcaptured : ∀ c ∈ Stmt.capturesAll [x], c.1.Tidy := fun c hmem =>
        x.fits.tidy x.opens (htidy' rfl) (hsingle ▸ hmem)
      refine Proceeds.bind (((standingWalks (proceeds_invoke hblind n) none Env.global).hoist [x]
        hcaptured u hstanding).imp False.elim) fun _ t hlead hcoherent => ?_
      exact ih hlater (hstanding.next hlead hcoherent)

/-- A program proceeds. -/
theorem proceeds_inferProgramBy (p : Program) (hstanding : Standing n none Env.global u) :
    Proceeds False none u (inferProgramBy invoke p) (inferProgramBy w.invoke p)
      fun _ t => t.Coherent none := by
  have htidy : ∀ e ∈ p.zip p.flags, e.2 = none → Tidy (e.1.nodes true) := by
    rintro ⟨x, flag⟩ hmem rfl
    exact tidy_of_not_flagged hmem
  rw [inferProgramBy_eq, inferProgramBy_eq]
  refine ((Repeats.emit _).proceeds hstanding.coherent).bind fun _ t hlead hcoherent => ?_
  have hstanding := hstanding.next hlead hcoherent
  refine (proceeds_hoistFlagged hblind htidy hstanding).bind fun _ t hlead hcoherent => ?_
  have hstanding := hstanding.next hlead hcoherent
  refine (proceeds_inferFlagged hblind htidy hstanding).bind fun _ t hlead hcoherent => ?_
  exact (Repeats.emit _).proceeds hcoherent

/-- Programs one after the other proceed. -/
theorem proceeds_inferProgramsBy (ps : List Program) (hstanding : Standing n none Env.global u) :
    Proceeds False none u (inferProgramsBy invoke ps) (inferProgramsBy w.invoke ps)
      fun _ t => t.Coherent none := by
  induction ps generalizing u with
  | nil => exact .pure hstanding.coherent
  | cons p ps ih =>
    refine (proceeds_inferProgramBy hblind p hstanding).bind fun _ t hlead hcoherent => ?_
    exact ih (hstanding.next hlead hcoherent)

/-- A blind call proceeds. -/
theorem proceeds_callBlindly (id : ClosureId) (f : Func)
    (hstanding : Standing n none Env.global u) :
    Proceeds False none u (callBlindly invoke id f) (callBlindly w.invoke id f)
      fun _ t => t.Coherent none := by
  let walks := standingWalks (proceeds_invoke hblind n) none Env.global
  refine .read ?_
  cases u.protos.find? id with
  | some ctor =>
    refine ((walks.instantiate id _ f.id u hstanding).imp False.elim).bind fun _ t _ hcoherent => ?_
    exact .pure hcoherent
  | none =>
    refine ((walks.invoke id .any _ f.id u hstanding).imp False.elim).bind fun _ t _ hcoherent => ?_
    exact .pure hcoherent

/-- One sweep proceeds. -/
theorem proceeds_sweep (visited : List NodeId) (ks : List ClosureId)
    (hstanding : Standing n none Env.global u) :
    Proceeds False none u (sweep invoke visited ks) (sweep w.invoke visited ks)
      fun _ t => t.Coherent none := by
  induction ks generalizing u visited with
  | nil => exact .pure hstanding.coherent
  | cons k ks ih =>
    refine .askClosure (fun c c' houtline => ?_) fun c _ => ?_
    · rw [show c'.func = c.func from congrArg Prod.fst houtline]
    refine .ite (fun _ => ih visited hstanding) fun _ => ?_
    refine ((Repeats.emit _).proceeds hstanding.coherent).bind fun _ t hlead hcoherent => ?_
    have hstanding := hstanding.next hlead hcoherent
    refine ((proceeds_callBlindly hblind k c.func hstanding).recovering
      fun m t hcoherent => proceeds_reportOnce hcoherent m).bind fun _ t hlead hcoherent => ?_
    exact ih _ (hstanding.next hlead hcoherent)

/-- Sweeps proceed, however many there are. -/
theorem proceeds_sweepsUpTo (rounds : Nat) (visited : List NodeId)
    (hstanding : Standing n none Env.global u) :
    Proceeds False none u (sweepsUpTo invoke (fun _ => return ()) rounds visited)
      (sweepsUpTo w.invoke (fun _ => return ()) rounds visited) fun _ t => t.Coherent none := by
  induction rounds generalizing u visited with
  | zero => exact .pure hstanding.coherent
  | succ rounds ih =>
    refine .read ?_
    cases pendingClosures u.closures visited with
    | nil => exact .pure hstanding.coherent
    | cons k ks =>
      refine (proceeds_sweep hblind visited (k :: ks) hstanding).bind
        fun now t hlead hcoherent => ?_
      exact ih now (hstanding.next hlead hcoherent)

theorem proceeds_analyseUncalledBy (hstanding : Standing n none Env.global u) :
    Proceeds False none u (analyseUncalledBy invoke) (analyseUncalledBy w.invoke)
      fun _ t => t.Coherent none :=
  .read (proceeds_sweepsUpTo hblind _ [] hstanding)

end Programs

/-- A walk may start in the state before the first program. -/
theorem start_standing (options : Options) (globals : Globals) :
    Standing (options.maxCallDepth + 1) none Env.global (Run.start options globals) := by
  have hindexed := start_indexed options globals
  obtain ⟨b, k, henv, -⟩ := start_env options globals
  have hparentless {σ : ScopeId} {x : Scope}
      (hfound : (Run.start options globals).env.scopes[σ]? = some x) : x.parent = none := by
    rw [henv] at hfound
    cases List.mem_singleton.mp (Array.mem_toList_iff.mpr (Array.mem_of_getElem? hfound))
    rfl
  have hunkeyed (key : ActivationKey) (σ : ScopeId) :
      (Run.start options globals).env.activations.place? key ≠ some σ := by
    rw [henv]
    exact nofun
  have hframed : Framed (Run.start options globals).env (Run.start options globals).closures := by
    refine ⟨fun σ x p hfound hparent => ?_, nofun, fun key σ hled => absurd hled (hunkeyed key σ),
      nofun, nofun⟩
    cases (hparentless hfound).symm.trans hparent
  have hglobal := start_global options globals
  exact ⟨⟨hindexed, hframed, nofun⟩,
    ⟨.outside hglobal fun key => hunkeyed key _, hglobal, fun key => hunkeyed key _⟩,
    ⟨List.nodup_nil, fun id => ⟨nofun, nofun⟩⟩, Nat.lt_succ_self _⟩

section Engine

open Discipline

variable {s : Run}

/-- A run of the engine agrees under two ways of answering calls that agree. -/
theorem agree_engineBy {d : Nat} {i i' : Invoke} (hanswers : normalTypes.Answers d i i')
    (hinv : normalTypes.Inv s) (hdepth : s.depthLeft = d) (ps : List Program) :
    normalTypes.Agree none s (engineBy i ps) (engineBy i' ps) fun _ _ => True :=
  hanswers.engineBy trivial hinv hdepth fun _ _ _ _ => trivial

/-- A run of the engine proceeds. -/
theorem proceeds_engineBy {w : Watch} (hblind : Blind w) {n : Nat}
    (hstanding : Standing n none Env.global s) (ps : List Program) :
    Proceeds False none s (engineBy invoke ps) (engineBy w.invoke ps) fun _ t => t.Coherent none :=
  (proceeds_inferProgramsBy hblind ps hstanding).bind fun _ _ hlead hcoherent =>
    proceeds_analyseUncalledBy hblind (hstanding.next hlead hcoherent)

end Engine

/-- No run of programs has a round that converges to something that is no post-fixed point: stopping
at such a round makes no difference. -/
theorem converged_rounds_postFixed (options : Options) (globals : Globals)
    (hnormal : ∀ g ∈ globals, g.2.Normal) (ps : List Program) (fault : Fault) :
    engineBy (postFixedWatch fault).invoke ps (Run.start options globals) =
      (do inferPrograms ps; analyseUncalled : Walk Unit) (Run.start options globals) := by
  let w := postFixedWatch fault
  have hinv : normalTypes.Inv (Run.start options globals) :=
    normalTypes_inv (start_types options builtins_normal hnormal)
  have hamong := (agree_engineBy (answers_among w _) hinv rfl ps).eq rfl
  have hblind := proceeds_engineBy (postFixedWatch_blind fault) (start_standing options globals) ps
  have hunwatched : engineBy invoke ps = (do inferPrograms ps; analyseUncalled) := by
    rw [engineBy, inferProgramsBy_invoke]
    rfl
  rw [← hunwatched]
  exact hamong.symm.trans hblind.same

/-- `function f(x) { f(x); return x }` and `f(y)`. -/
def callsItself : Program :=
  [⟨0, ⟨0, 0⟩, .function ⟨1, ⟨0, 0⟩, some "f", ["x"],
      [⟨2, ⟨0, 0⟩, .expr ⟨3, ⟨0, 0⟩, .call (some ⟨4, ⟨0, 0⟩, .ident "f"⟩)
        [⟨5, ⟨0, 0⟩, .ident "x"⟩]⟩⟩, ⟨6, ⟨0, 0⟩, .ret (some ⟨7, ⟨0, 0⟩, .ident "x"⟩)⟩]⟩⟩,
    ⟨8, ⟨0, 0⟩, .expr ⟨9, ⟨0, 0⟩, .call (some ⟨10, ⟨0, 0⟩, .ident "f"⟩)
      [⟨11, ⟨0, 0⟩, .ident "y"⟩]⟩⟩]

/-- The second round of `f` converges to the type of `y`, which is a post-fixed point. -/
theorem converged_rounds_postFixed_callsItself :
    let s := Run.start ⟨2, 3, false, false⟩ [("y", .number)]
    (∀ g ∈ [("y", Ty.number)], g.2.Normal) ∧
    (Event.round 2 .number .number true).line ∈
      (after (inferPrograms [callsItself]) s).log.map Event.line ∧
    ∀ fault, engineBy (postFixedWatch fault).invoke [callsItself] s =
      (do inferPrograms [callsItself]; analyseUncalled : Walk Unit) s := by
  intro s
  have hnormal : ∀ g ∈ [("y", Ty.number)], g.2.Normal := by decide
  exact ⟨hnormal, by decide +kernel, converged_rounds_postFixed _ _ hnormal _⟩

end TypeFlow
