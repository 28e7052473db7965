import Mathlib
import TypeFlow.Result.Finish
import TypeFlow.Proofs.Engine.Watch
import TypeFlow.Proofs.Engine.Widening
import TypeFlow.Proofs.Script.Exposure

/-!
# The states that runs reach

A run of programs from the state before the first one, with the given options and globals.  What
holds in that state, and is kept by every update that walking the programs may make, holds at every
point of the run.

## Main Definitions

* `NodeClass.of` - the nodes of programs
* `runsOf` - the discipline of runs of programs: every node is walked where it stands
* `Run.Reached` - the states that a run may pass
* `Walk.Through` - computations that pass only states with a property

## Main Statements

* `Run.Reached.induct` - what every update keeps holds in all states that are reached
* `reached_inferPrograms`, `reached_analyseUncalled` - running programs, and then the functions that
  nothing called, passes such states
* `engineBy_of_unseen` - every round of a run begins in such a state, in a frame with all its names
* `Run.Reached.inferStmt` - walking a statement of the programs where it stands passes such states

## Design Notes

Handles in the given globals need not have entries.  A run that follows one stops, and the state
where it stops is reached like any other.
-/

namespace TypeFlow

/-! ### Writes that succeed -/

section Writes

open Walk

variable {α : Type} {a : α} {s : Run}

theorem onEnv_of_ok {m : EStateM Dangling Env α} {e : Env} (hran : m s.env = .ok a e) :
    onEnv m s = .ok a { s with env := e } := by
  rw [onEnv, hran]

theorem onClosures_of_ok {m : EStateM Dangling Closures α} {cs : Closures}
    (hran : m s.closures = .ok a cs) : onClosures m s = .ok a { s with closures := cs } := by
  rw [onClosures, hran]

theorem onHeap_of_ok {m : EStateM Dangling Heap α} {h : Heap} (hran : m s.heap = .ok a h) :
    onHeap m s = .ok a { s with heap := h } := by
  rw [onHeap, hran]

theorem onProtos_of_ok {m : EStateM Dangling Protos α} {g : Protos} (hran : m s.protos = .ok a g) :
    onProtos m s = .ok a { s with protos := g } := by
  rw [onProtos, hran]

end Writes

/-! ### Runs of programs -/

/-- The nodes of programs, function bodies included. -/
def NodeClass.of (ps : List Program) : NodeClass where
  Allowed n := ∃ p ∈ ps, n ∈ p.nodes
  body := by
    rintro f ⟨p, hlisted, hliteral⟩ n hinside
    exact ⟨p, hlisted, body_subset hliteral ((Stmt.opensAll f.body).outer_sublist.subset hinside)⟩

/-- Runs of programs.  The types are normal if those of the given globals are. -/
def runsOf (options : Options) (globals : Globals) (ps : List Program) : Discipline where
  toSimilarity := .equal
  toNodeClass := .of ps
  Good _ t := (∀ g ∈ globals, g.2.Normal) → t.Normal
  Within _ := True
  tight := False
  placed := True
  origin := some (Run.start options globals)
  mono _ hgood := hgood
  never _ := trivial
  any _ := trivial
  prim _ _ := trivial
  join ha hb hgiven := ((ha hgiven).isLub_join (hb hgiven)).normal
  member hgood hmem hgiven := (hgood hgiven).member hmem
  ret hgood hgiven := ((FuncTy.normal_iff _).mp (hgood hgiven)).2.1
  field hgood hmem hgiven := ((ObjTy.normal_iff _).mp (hgood hgiven)).1 _ hmem
  closure _ _ _ _ := Ty.normal_closure _ _
  ofCell _ _ := Ty.normal_ofCell _
  ofInstance _ _ _ := Ty.normal_ofInstance _ _
  prototypeOf _ _ := Ty.normal_prototypeOf _
  funcHandles htight := htight.elim
  cellHandles htight := htight.elim
  ctorHandles htight := htight.elim

/-- The states that a run of programs may pass. -/
def Run.Reached (options : Options) (globals : Globals) (ps : List Program) (s : Run) : Prop :=
  (runsOf options globals ps).Steps (Run.start options globals) s

section Reached

variable {options : Options} {globals : Globals} {ps : List Program} {s t : Run}

/-- The state before the first program satisfies the invariant of runs. -/
theorem start_inv (options : Options) (globals : Globals) (ps : List Program) :
    (runsOf options globals ps).Inv (Run.start options globals) where
  good t hstored hgiven := start_types options builtins_normal hgiven t hstored
  live _ _ htight := htight.elim
  literals _ _ hfound := nomatch hfound
  global htight := htight.elim
  within := trivial
  indexed _ := start_indexed options globals
  past _ hfirst := Option.some.inj hfirst ▸ .refl

namespace Run.Reached

/-- The invariant of runs holds in every state that is reached. -/
theorem inv (h : s.Reached options globals ps) : (runsOf options globals ps).Inv s :=
  Discipline.Steps.inv h (start_inv options globals ps)

/-- The types in a state that is reached are normal if those of the given globals are. -/
theorem normal (h : s.Reached options globals ps) (hgiven : ∀ g ∈ globals, g.2.Normal) :
    s.Normal :=
  fun t hstored => h.inv.good t hstored hgiven

/-- What holds before the first program and is kept by every update holds in all states that are
reached. -/
theorem induct {P : Run → Prop} (h : s.Reached options globals ps)
    (hfirst : P (Run.start options globals))
    (hupdate : ∀ r u, r.Reached options globals ps → (runsOf options globals ps).Guard r u → P r →
      P (u.apply r)) : P s := by
  induction h with
  | refl => exact hfirst
  | tail hreaches hlast ih =>
    obtain ⟨u, hguard, rfl⟩ := hlast
    exact hupdate _ u hreaches hguard ih

/-- A computation that keeps to the discipline leads to states that are reached. -/
theorem of_does (h : s.Reached options globals ps) {α : Type} {m : Walk α} {Q : α → Run → Prop}
    (hdoes : (runsOf options globals ps).Does none s m Q) :
    (after m s).Reached options globals ps :=
  h.trans (hdoes s rfl).after.2.steps

/-- Walking a statement of the programs where it stands goes on by steps. -/
theorem inferStmt (h : s.Reached options globals ps) {scope : ScopeId} {x : Stmt}
    (hnodes : ∀ n ∈ x.nodes false, (∃ p ∈ ps, n ∈ p.nodes) ∧ s.Encloses scope n) :
    (runsOf options globals ps).Steps s (after (TypeFlow.inferStmt invoke scope x) s) := by
  have hdoes : (runsOf options globals ps).Does none s (TypeFlow.inferStmt invoke scope x)
      fun _ _ => True := by
    refine Discipline.answers_invoke.inferStmt (C := fun n => n ∈ x.nodes false) x
      ⟨h.inv, rfl, fun htight => htight.elim, fun n hmem => ?_⟩ fun _ hmem => hmem
    exact ⟨(hnodes n hmem).1, fun _ => (hnodes n hmem).2⟩
  exact (hdoes s rfl).after.2.steps

end Run.Reached

/-! ### Whole runs -/

theorem Discipline.eq_of_sim {D : Discipline} (hequal : D.toSimilarity = .equal) {s s' : Run}
    (hsim : D.Sim s s') : s = s' := by
  rw [hequal] at hsim
  exact hsim

/-- Single updates lead from the state that a computation starts in to the one that it leaves, be it
that it succeeds or that it stops, and each of them from a state with a property to another one.
The computation itself need not make these updates and no others. -/
def Walk.Through {α : Type} (P : Run → Prop) (m : Walk α) (s : Run) : Prop :=
  Relation.ReflTransGen (fun t t' => P t ∧ P t' ∧ ∃ u : Update, t' = u.apply t) s (after m s)

/-- What keeps to a discipline leaves a state that has what the invariant of the discipline gives,
and updates between such states lead there. -/
theorem Discipline.Does.through {D : Discipline} {P : Run → Prop} (hholds : ∀ t, D.Inv t → P t)
    {α : Type} {m : Walk α} {Q : α → Run → Prop} (hsame : D.Sim s s) (hinv : D.Inv s)
    (hdoes : D.Does none s m Q) : m.Through P s ∧ P (after m s) := by
  obtain ⟨hends, hlead⟩ := (hdoes s hsame).after
  refine ⟨?_, hholds _ hends⟩
  have hsteps := hlead.steps
  unfold Walk.Through
  generalize after m s = t at hsteps
  induction hsteps with
  | refl => exact .refl
  | tail hreaches hlast ih =>
    obtain ⟨u, hguard, rfl⟩ := hlast
    have hbetween := Discipline.Steps.inv hreaches hinv
    exact ih.tail ⟨hholds _ hbetween, hholds _ (hbetween.apply hguard), u, rfl⟩

/-- Ending a run, where handles need have no entries. -/
theorem Discipline.Does.finish {D : Discipline} (order : NodeOrder)
    (hequal : D.toSimilarity = .equal) (hloose : ¬ D.tight) (hreports : D.reports)
    (hinv : D.Inv s) :
    D.Does none s (finish order) fun _ _ => True := by
  have hsame {s s' : Run} (hsim : D.Sim s s') : s' = s := (eq_of_sim hequal hsim).symm
  refine Agree.get (fun s' hsim => by rw [hsame hsim]) ?_
  refine (Does.emit hinv _).bind fun _ t hinv _ _ => ?_
  refine (Does.analyseUncalled hreports hinv).bind fun _ t hinv _ _ => ?_
  refine (Agree.ask (Q := fun _ _ => True) hinv (fun s' hsim => by rw [hsame hsim])
    (fun _ _ => trivial) fun _ _ => hloose).bind fun _ t hinv _ _ => ?_
  exact (Does.emit hinv _).bind fun _ t hinv _ _ => Agree.pure hinv trivial

/-- Running programs keeps to the discipline of runs. -/
theorem does_inferPrograms (options : Options) (globals : Globals) (ps : List Program) :
    (runsOf options globals ps).Does none (Run.start options globals) (inferPrograms ps)
      fun _ _ => True :=
  Discipline.Does.inferPrograms trivial (start_inv options globals ps) fun p hlisted _ hmem =>
    ⟨p, hlisted, (Stmt.opensAll p).outer_sublist.subset hmem⟩

/-- Running programs passes states that are reached. -/
theorem reached_inferPrograms (options : Options) (globals : Globals) (ps : List Program) :
    (after (inferPrograms ps) (Run.start options globals)).Reached options globals ps :=
  Run.Reached.of_does .refl (does_inferPrograms options globals ps)

/-- So does running the functions that nothing called after them. -/
theorem reached_analyseUncalled (options : Options) (globals : Globals) (ps : List Program) :
    (after (do inferPrograms ps; analyseUncalled) (Run.start options globals)).Reached options
      globals ps :=
  Run.Reached.of_does .refl <| (does_inferPrograms options globals ps).bind fun _ _ hinv _ _ =>
    Discipline.Does.analyseUncalled trivial hinv

/-! ### Rounds in the middle of a run -/

section Rounds

open Discipline

variable {D : Discipline} {w : Watch} {d : Nat}
variable (hequal : D.toSimilarity = .equal)
variable (hunseen : ∀ d f scope call s, D.Runnable d f scope call s → ¬ w.Sees f scope call s)

include hequal hunseen

/-- Rounds agree with watched rounds when the condition never holds. -/
theorem agree_roundsUnseen {i i' : Invoke} (hanswers : D.Answers d i i') {f : Func}
    {scope : ScopeId} {call : Call} (rounds done : Nat) (hready : D.Runnable d f scope call s) :
    D.Agree (some call.closure) s (roundsUpTo (fun _ => return .any) i f scope call rounds done)
      (w.roundsUpTo i' f scope call rounds done) fun r t => D.Good t r := by
  induction rounds generalizing done s with
  | zero => exact Agree.pure hready.inv D.any
  | succ rounds ih =>
    intro s' hsim
    obtain rfl := eq_of_sim hequal hsim
    rw [Watch.roundsUpTo, TypeFlow.roundsUpTo,
      w.round_of_not_sees (hunseen d f scope call s hready)]
    refine hanswers.roundThen hready (fun t hinv hlead _ => ?_) s hsim
    exact ih (done + 1) (hready.next hinv hlead)

/-- So does settling the result of a body. -/
theorem solves_unseen (d : Nat) : D.Solves d solve w.solve := by
  intro i i' hanswers s f scope call hready
  refine agree_logSolve hready.inv fun t hinv hlead => ?_
  refine Agree.get (fun s' hsim => by rw [sim_maxRounds hsim]) ?_
  exact agree_roundsUnseen hequal hunseen hanswers _ 0 (hready.next hinv hlead)

/-- So does answering a call. -/
theorem answers_unseen (d : Nat) : D.Answers d invoke w.invoke := by
  intro s call hinv hdepth hcallable s' hsim
  obtain rfl := eq_of_sim hequal hsim
  have hsolves := solves_unseen hequal hunseen
  exact Solves.invokeUpTo hsolves (by omega) (by omega) s call hinv hdepth hcallable s hsim

/-- What is not seen in the states in which a body may be run is not seen at all. -/
theorem Discipline.engineBy_unseen (hreports : D.reports) (hinv : D.Inv s)
    (hallowed : ∀ p ∈ ps, ∀ n ∈ Program.outerNodes p.unflagged, D.Allowed n) :
    engineBy w.invoke ps s = (do inferPrograms ps; analyseUncalled : Walk Unit) s := by
  have hagree := (answers_unseen hequal hunseen s.depthLeft).engineBy hreports hinv rfl hallowed
  rw [← engineBy_invoke]
  exact (hagree.eq hequal).symm

end Rounds

/-- Every round of a run begins in a state that is reached, in a frame that binds all names of its
function: what is not seen in such states is not seen at all. -/
theorem engineBy_of_unseen {w : Watch}
    (hunseen : ∀ f scope call s, s.Reached options globals ps →
      s.Prepared scope call.closure f → ¬ w.Sees f scope call s) :
    engineBy w.invoke ps (Run.start options globals) =
      (do inferPrograms ps; analyseUncalled : Walk Unit) (Run.start options globals) := by
  refine Discipline.engineBy_unseen (D := runsOf options globals ps) rfl
    (fun d f scope call s hready => ?_) trivial (start_inv options globals ps)
    fun p hlisted n hmem => ?_
  · exact hunseen f scope call s (hready.inv.past _ rfl) (hready.prepared trivial)
  · have houter := Stmt.nodesAll_mono p.unflagged_subset hmem
    exact ⟨p, hlisted, (Stmt.opensAll p).outer_sublist.subset houter⟩

end Reached

end TypeFlow
