import Mathlib
import TypeFlow.Proofs.Engine.Variables

/-!
# Frames own the names of their functions

From the moment a body starts, its frame binds the parameters, the name and the declarations of the
function, and only walking a `catch` clause of the body binds a further name in it.  What is
assigned and declared nowhere ends up in the global scope.

## Main Definitions

* `Run.Owns` - a scope binds the names of a function, and maybe names that its body catches under
* `Run.Housed` - every bound name has a place, and every running call has a frame with all its names
* `namesWatch` - watches out for bodies that start in a scope with other names

## Main Statements

* `Run.Housed.update` - a guarded update keeps names in their places
* `Run.Housed.owns` - a frame with all names of its function has no names but those
* `frames_own_names` - at every point of every run

## Design Notes

Hoisting goes through the region of a body, and the walk through its nodes.  That they agree is
`mem_binds_iff`: what the nodes of a body bind is what hoisting finds, together with what the body
catches under.
-/

namespace TypeFlow

/-- The running calls after an update: those before it, and the one that it adds. -/
theorem Update.activations_cases (u : Update) {s : Run} {a : Activation}
    (hrunning : a ∈ (u.apply s).activations) :
    (∃ b ∈ s.activations, b.scope = a.scope ∧ b.closure = a.closure) ∨ u = .push a := by
  cases u with
  | push b =>
    rcases List.mem_cons.mp hrunning with rfl | houter
    · exact .inr rfl
    · exact .inl ⟨a, houter, rfl, rfl⟩
  | pop => exact .inl ⟨a, List.mem_of_mem_tail hrunning, rfl, rfl⟩
  | returns t =>
    change a ∈ addReturns t s.activations at hrunning
    cases hcalls : s.activations with
    | nil =>
      rw [hcalls] at hrunning
      cases hrunning
    | cons b rest =>
      rw [hcalls] at hrunning
      rcases List.mem_cons.mp hrunning with rfl | houter
      · exact .inl ⟨b, List.mem_cons_self, rfl, rfl⟩
      · exact .inl ⟨a, List.mem_cons_of_mem _ houter, rfl, rfl⟩
  | _ => exact .inl ⟨a, hrunning, rfl, rfl⟩

namespace Run

/-- A scope binds the names of a function, and nothing else but names that its body catches
under. -/
def Owns (s : Run) (id : ScopeId) (f : Func) : Prop :=
  (∀ name ∈ f.ownNames, s.Binds id name) ∧
    ∀ name, s.Binds id name → name ∈ f.ownNames ∨ name ∈ caughtNames f.body

/-- Names are bound in the global scope, or in a frame of a function that has them, and running
calls have frames with all names of their functions. -/
structure Housed (s : Run) : Prop where
  indexed : s.Indexed
  names : ∀ id name, s.Binds id name →
    id = Env.global ∨ ∃ k f, s.IsFrame id k f ∧ name ∈ f.frameNames
  running : ∀ a ∈ s.activations, ∃ f, s.Prepared a.scope a.closure f

variable {s : Run} {options : Options} {globals : Globals} {ps : List Program}

/-- At the start only the given globals are bound. -/
theorem Housed.start (options : Options) (globals : Globals) :
    (Run.start options globals).Housed := by
  obtain ⟨b, n, henv, -⟩ := start_env options globals
  refine ⟨start_indexed options globals, ?_, List.forall_mem_nil _⟩
  rintro id name ⟨x, hfound, -⟩
  have hinside := (Array.getElem?_eq_some_iff.mp hfound).1
  rw [henv] at hinside
  exact .inl (Nat.lt_one_iff.mp hinside)

/-- A guarded update keeps names in their places. -/
theorem Housed.update (h : s.Housed) {u : Update}
    (hguard : (runsOf options globals ps).Guard s u) : (u.apply s).Housed where
  indexed := u.indexed h.indexed
  names id name hbound := by
    -- A new binding has the reason that its update was guarded by.
    have hplace : s.MayBind id name := by
      rcases u.binds_cases hbound with hprev | ⟨t, rfl⟩
      · exact .inr (.inl hprev)
      · exact hguard.reason trivial
    have hbefore : id = Env.global ∨ ∃ k f, s.IsFrame id k f ∧ name ∈ f.frameNames :=
      hplace.elim .inl fun hinner => hinner.elim (h.names id name) .inr
    exact hbefore.imp_right fun ⟨k, f, hframe, hnamed⟩ => ⟨k, f, hframe.mono (u.keeps s), hnamed⟩
  running a hruns := by
    have hstep : (runsOf options globals ps).Steps s (u.apply s) := .single ⟨u, hguard, rfl⟩
    rcases u.activations_cases hruns with ⟨b, houter, hscope, hclosure⟩ | rfl
    · obtain ⟨f, hprepared⟩ := h.running b houter
      exact ⟨f, hscope ▸ hclosure ▸ hstep.prepared hprepared⟩
    · obtain ⟨f, hprepared⟩ := hguard.reason.2 trivial
      exact ⟨f, hstep.prepared hprepared⟩

/-- At every point of a run names are in their places. -/
theorem Reached.housed (h : s.Reached options globals ps) : s.Housed :=
  h.induct (Housed.start options globals) fun _ _ _ hguard hhoused => hhoused.update hguard

variable {id : ScopeId} {k : ClosureId} {f : Func}

/-- The global scope is no frame. -/
theorem Housed.not_isFrame (h : s.Housed) : ¬ s.IsFrame Env.global k f := by
  rintro ⟨key, c, hentered, -⟩
  exact h.indexed.env.outside key hentered

/-- A frame binds names of its function only. -/
theorem Housed.mem_frameNames (h : s.Housed) (hframe : s.IsFrame id k f) {name : String}
    (hbound : s.Binds id name) : name ∈ f.frameNames := by
  rcases h.names id name hbound with rfl | ⟨k', f', hframe', hnamed⟩
  · exact absurd hframe h.not_isFrame
  · obtain ⟨rfl, rfl⟩ := hframe.unique h.indexed hframe'
    exact hnamed

/-- A frame with all names of its function has no names but those, and those that the function
catches under. -/
theorem Housed.owns (h : s.Housed) (hprepared : s.Prepared id k f) : s.Owns id f :=
  ⟨hprepared.2, fun _ hbound => List.mem_append.mp (h.mem_frameNames hprepared.1 hbound)⟩

end Run

/-- Watches out for bodies that start in a scope with other names than those of their function. -/
def namesWatch (fault : Fault) : Watch where
  Sees f scope call s := ¬ (s.IsFrame scope call.closure f ∧ s.Owns scope f)
  fault := fault

/-- **Frames own the names of their functions.**  At every point of a run, what is bound outside of
the global scope is bound in a frame of a function that has the name.  From the moment a body runs,
its frame binds the parameters, the name and the declarations of the function, and besides them at
most names that the body catches under, whatever the run does later.  Walking a statement where it
stands is such a continuation.  A write to a variable adds no name to any scope, unless nothing
binds the name: then it becomes a global.  Every round of every body, in programs and in the sweeps
after them, starts in a frame with these names: stopping at a round that does not makes no
difference. -/
theorem frames_own_names (options : Options) (globals : Globals) (ps : List Program) :
    (∀ s, s.Reached options globals ps →
      (∀ id name, s.Binds id name → id ≠ Env.global →
        ∃ k f, s.IsFrame id k f ∧ name ∈ f.ownNames ++ caughtNames f.body) ∧
      (∀ id k f, s.IsFrame id k f →
        ∀ name, s.Binds id name → name ∈ f.ownNames ++ caughtNames f.body) ∧
      (∀ a ∈ s.activations, ∃ f, s.IsFrame a.scope a.closure f ∧
        ∀ t, (runsOf options globals ps).Steps s t → t.Owns a.scope f) ∧
      (∀ scope x, (∀ n ∈ x.nodes false, (∃ p ∈ ps, n ∈ p.nodes) ∧ s.Encloses scope n) →
        (runsOf options globals ps).Steps s (after (inferStmt invoke scope x) s)) ∧
      ∀ scope, scope < s.env.scopes.size → ∀ name v,
        ∃ t, Target.write scope v (.variable name) s = .ok () t ∧
          ∀ id k, t.Binds id k → s.Binds id k ∨
            id = Env.global ∧ k = name ∧ s.env.Sees name scope none) ∧
    (after (do inferPrograms ps; analyseUncalled) (Run.start options globals)).Reached options
      globals ps ∧
    ∀ fault, engineBy (namesWatch fault).invoke ps (Run.start options globals) =
      (do inferPrograms ps; analyseUncalled : Walk Unit) (Run.start options globals) := by
  refine ⟨fun s hreached => ⟨fun id name hbound hinner => ?_, fun id k f hframe name hbound => ?_,
    fun a hruns => ?_, fun scope x hnodes => hreached.inferStmt hnodes,
    fun scope hinside name v => hreached.chained.write_binds hinside name v⟩,
    reached_analyseUncalled options globals ps, fun fault => ?_⟩
  · exact (hreached.housed.names id name hbound).resolve_left hinner
  · exact hreached.housed.mem_frameNames hframe hbound
  -- a running call has had its frame prepared, and names stay bound from then on
  · obtain ⟨f, hprepared⟩ := hreached.housed.running a hruns
    refine ⟨f, hprepared.1, fun t hsteps => ?_⟩
    have hlater : t.Reached options globals ps := hreached.trans hsteps
    exact hlater.housed.owns (hsteps.prepared hprepared)
  · refine engineBy_of_unseen fun f scope call s hreached hprepared => ?_
    exact not_not_intro ⟨hprepared.1, hreached.housed.owns hprepared⟩

/-- `{ try {} catch (e) {} z = 1 }`. -/
def catches : Stmt :=
  ⟨5, ⟨0, 0⟩, .block [⟨6, ⟨0, 0⟩, .guarded [] (some ⟨"e", []⟩) []⟩,
    ⟨7, ⟨0, 0⟩, .expr ⟨8, ⟨0, 0⟩, .assign none ⟨9, ⟨0, 0⟩, .ident "z"⟩
      ⟨10, ⟨0, 0⟩, .literal .number⟩⟩⟩]⟩

/-- `function f(p) { var v; function g() {} { try {} catch (e) {} z = 1 } }`. -/
def catcher : Func :=
  ⟨1, ⟨0, 0⟩, some "f", ["p"],
    [⟨2, ⟨0, 0⟩, .vars [⟨"v", none⟩]⟩, ⟨3, ⟨0, 0⟩, .function ⟨4, ⟨0, 0⟩, some "g", [], []⟩⟩,
      catches]⟩

/-- The state after the declaration of the function. -/
def Run.catcherDeclared : Run :=
  after (inferPrograms [[⟨0, ⟨0, 0⟩, .function catcher⟩]]) (Run.start ⟨2, 3, false, false⟩ [])

/-- The call of the function by a sweep. -/
def catcherCall : Call :=
  ⟨0, .any, [.any], 1, Env.global, none⟩

/-- The first half of the call. -/
def enterCatcher : Walk ScopeId :=
  enterCall ⟨catcher, Env.global, [.never], .never, 0, false⟩ catcherCall

/-- The state in which the body starts. -/
def Run.catcherStarts : Run :=
  (Update.push (catcherCall.activation 1)).apply (after enterCatcher Run.catcherDeclared)

/-- The names that the scopes bind. -/
def Run.boundNames (s : Run) : List (List String) :=
  s.env.scopes.toList.map fun x => x.bindings.map Prod.fst

/-- What a computation answers, if it does not stop. -/
def Walk.answer? {α : Type} (m : Walk α) (s : Run) : Option α :=
  match m s with
  | .ok a _ => some a
  | .error _ _ => none

/-- What is shown of the answer of a computation. -/
theorem Discipline.Does.answered {D : Discipline} {but : Option ClosureId} {s : Run} {α : Type}
    {m : Walk α} {Q : α → Run → Prop} (hdoes : D.Does but s m Q) (hself : D.Sim s s) {a : α}
    (hanswer : m.answer? s = some a) : Q a (after m s) := by
  have houtcome := hdoes s hself
  unfold Walk.answer? at hanswer
  unfold after
  cases hran : m s with
  | error e t =>
    rw [hran] at hanswer
    cases hanswer
  | ok b t =>
    rw [hran] at hanswer houtcome
    cases hanswer
    cases houtcome with
    | ok _ _ _ hholds => exact hholds

open Discipline in
/-- When the body starts, its frame has its parameter, its name and its declarations.  Walking the
block adds the name of the `catch` clause, and the assignment makes a global. -/
theorem frames_own_names_catcher :
    let ps : List Program := [[⟨0, ⟨0, 0⟩, .function catcher⟩]]
    let s := Run.catcherStarts
    let t := after (inferStmt invoke 1 catches) s
    s.Reached ⟨2, 3, false, false⟩ [] ps ∧ catcherCall.activation 1 ∈ s.activations ∧
    s.boundNames = [["f"], ["f", "g", "p", "v"]] ∧
    t.boundNames = [["f", "z"], ["e", "f", "g", "p", "v"]] ∧
    catcher.ownNames = ["p", "f", "v", "g"] ∧ caughtNames catcher.body = ["e"] ∧
    s.Owns 1 catcher ∧ t.Owns 1 catcher ∧
    ∀ fault, engineBy (namesWatch fault).invoke ps (Run.start ⟨2, 3, false, false⟩ []) =
      (do inferPrograms ps; analyseUncalled : Walk Unit) (Run.start ⟨2, 3, false, false⟩ []) := by
  intro ps s t
  obtain ⟨heverywhere, -, hwatched⟩ := frames_own_names ⟨2, 3, false, false⟩ [] ps
  let D := runsOf ⟨2, 3, false, false⟩ [] ps
  have hdeclared : Run.catcherDeclared.Reached ⟨2, 3, false, false⟩ [] ps :=
    reached_inferPrograms ⟨2, 3, false, false⟩ [] ps
  have hfound : Run.catcherDeclared.closures.table[0]? =
      some ⟨catcher, Env.global, [.never], .never, 0, false⟩ := rfl
  have hcallable : D.Callable Run.catcherDeclared catcherCall :=
    ⟨fun htight => htight.elim, D.any, List.forall_mem_singleton.mpr D.any,
      fun htight => htight.elim, nofun⟩
  have hentering : D.Does none Run.catcherDeclared enterCatcher
      fun scope t => t.Prepared scope 0 catcher := Does.enterCall hdeclared.inv hcallable hfound
  have hentered := hdeclared.of_does hentering
  have hprepared : (after enterCatcher Run.catcherDeclared).Prepared 1 0 catcher :=
    hentering.answered rfl (by decide +kernel)
  have hguard : D.Guard (after enterCatcher Run.catcherDeclared)
      (.push (catcherCall.activation 1)) :=
    ⟨fun t hmem _ => by rcases List.mem_pair.mp hmem with rfl | rfl <;> trivial,
      fun _ _ htight => htight.elim, by decide +kernel, fun _ => ⟨catcher, hprepared⟩⟩
  have hreached : s.Reached ⟨2, 3, false, false⟩ [] ps := hentered.tail ⟨_, hguard, rfl⟩
  obtain ⟨-, -, howned, hwalks, -⟩ := heverywhere s hreached
  obtain ⟨f, hframe, howns⟩ := howned (catcherCall.activation 1) List.mem_cons_self
  have hframe' : s.IsFrame 1 0 catcher := hprepared.1.mono (Update.keeps _ _)
  obtain ⟨-, rfl⟩ := hframe'.unique hreached.housed.indexed hframe
  have hlast : catches ∈ catcher.body := .tail _ (.tail _ (.head _))
  have hsteps := hwalks 1 catches fun n hmem => by
    have hinside := Stmt.nodes_subset_nodesAll hlast hmem
    exact ⟨D.body (hdeclared.inv.literals 0 _ hfound) n hinside,
      .inr ⟨0, catcher, hframe', hinside⟩⟩
  exact ⟨hreached, List.mem_cons_self, by decide +kernel, by decide +kernel, by decide, by decide,
    howns s .refl, howns t hsteps, hwatched⟩

end TypeFlow
