import Mathlib
import TypeFlow.Proofs.Engine.Repeats

/-!
# Calls that can be repeated

Whatever a call does, it leaves a coherent state; and when the version is the same after it, the
call can be repeated.  A watch whose condition never holds in front of a round makes no difference
to it.

## Main Definitions

* `Standing` - a state in which a walk stands in a scope
* `Calling` - a state in which a call is made
* `Ready` - a state in front of a round
* `Blind` - a watch that sees nothing in front of a round

## Main Statements

* `proceeds_enterCall`, `proceeds_runBody`, `proceeds_rounds` - the parts of a call
* `proceeds_invokeUpTo` - calls
* `standingWalks` - walks in lockstep

## Design Notes

A constructor runs on an instance that was created just before.  When the instance was there
already, the constructor has run before, or it cannot run from the scope at hand.  When it is new,
the version grew, and the call need not be repeated.
-/

namespace TypeFlow

open Walk

/-! ### States in which something happens -/

/-- A walk stands in a scope, and less than `n` calls may be nested in it. -/
structure Standing (n : Nat) (owner : Option Func) (σ : ScopeId) (s : Run) : Prop where
  coherent : s.Coherent none
  place : s.At owner σ
  aligned : s.Aligned
  deep : s.depthLeft < n

theorem Standing.next {n : Nat} {owner : Option Func} {σ : ScopeId} {s t : Run}
    (h : Standing n owner σ s) (hlead : anyWalk.Leads none s t) (hcoherent : t.Coherent none) :
    Standing n owner σ t :=
  ⟨hcoherent, h.place.later (Run.later_of_steps hlead.steps) hlead.keeps.running,
    h.aligned.keeps hlead.keeps, hlead.depthLeft.trans_lt h.deep⟩

/-- A call is made.  When it is one of a constructor, the constructor is about to run; or it has
run, or cannot run from the calling scope. -/
structure Calling (owner : Option Func) (call : Call) (pending : Option (CtorId × ScopeId))
    (s : Run) : Prop where
  coherent : s.Coherent pending
  place : s.At owner call.caller
  aligned : s.Aligned
  about : match call.constructing with
    | none => pending = none
    | some a => ∃ c, s.protos.ctors[a]? = some c ∧ c.closure = some call.closure ∧
      (pending = some (a, call.caller) ∨ pending = none ∧ s.Ran a call.caller)

/-- A call that is stuck leaves nothing about to run. -/
theorem Calling.stuck {owner : Option Func} {call : Call} {pending : Option (CtorId × ScopeId)}
    {s : Run} (h : Calling owner call pending s) (hstuck : s.Stuck call.closure call.caller) :
    s.Coherent none := by
  obtain ⟨hcoherent, -, -, habout⟩ := h
  cases hconstructing : call.constructing with
  | none =>
    rw [hconstructing] at habout
    exact habout ▸ hcoherent
  | some a =>
    rw [hconstructing] at habout
    obtain ⟨c, hfound, hclosure, rfl | ⟨rfl, -⟩⟩ := habout
    · refine ⟨hcoherent.indexed, hcoherent.framed, hcoherent.settled.settle ?_⟩
      exact ⟨c, hfound, Or.inr ⟨call.closure, hclosure, hstuck⟩⟩
    · exact hcoherent

/-- A body is about to be run for a call, in its activation scope. -/
structure Ready (f : Func) (scope : ScopeId) (call : Call) (s : Run) : Prop where
  coherent : s.Coherent none
  owned : s.Owned (some f) scope
  stack : StackOf s.env (call.closure :: s.running) scope
  aligned : s.AlignedBut call.closure
  room : s.activations.length < s.options.maxCallDepth

namespace Ready

variable {f : Func} {scope : ScopeId} {call : Call} {s t : Run}

theorem next (h : Ready f scope call s) (hlead : anyWalk.Leads none s t)
    (hcoherent : t.Coherent none) : Ready f scope call t where
  coherent := hcoherent
  owned := h.owned.later (Run.later_of_steps hlead.steps)
  stack := by
    rw [hlead.keeps.running]
    exact h.stack.later (Run.later_of_steps hlead.steps)
  aligned := h.aligned.keeps hlead.keeps
  room := by
    rw [hlead.keeps.depth, hlead.keeps.options]
    exact h.room

theorem assuming (h : Ready f scope call s) (seed : Ty) :
    Ready f scope call (s.assuming call.closure seed) :=
  ⟨h.coherent.tables ⟨rfl, rfl, rfl, rfl, rfl⟩, h.owned, h.stack, h.aligned.assuming seed, h.room⟩

/-- The body runs. -/
theorem pushed (h : Ready f scope call s) {n : Nat} (hdeep : s.depthLeft ≤ n) :
    Standing n (some f) scope (s.pushed (call.activation scope)) where
  coherent := h.coherent.tables ⟨rfl, rfl, rfl, rfl, rfl⟩
  place := ⟨h.stack, h.owned⟩
  aligned := h.aligned.pushed rfl
  deep := by
    have hroom := h.room
    have hpushed : (s.pushed (call.activation scope)).depthLeft =
        s.options.maxCallDepth - (s.activations.length + 1) := rfl
    unfold Run.depthLeft at hdeep
    omega

end Ready

/-! ### Instances -/

theorem Run.Coherent.weaken {s : Run} (h : s.Coherent none) {pending : Option (CtorId × ScopeId)} :
    s.Coherent pending :=
  ⟨h.indexed, h.framed, fun i cell a hfound hctor _ => h.settled i cell a hfound hctor nofun⟩

theorem Heap.create_nil (site : AllocSite) : Heap.create site [] = Heap.cellFor site := by
  rw [Heap.create]
  simp only [Heap.writeAll, pure_bind, bind_pure]

open Discipline in
/-- An instance is created: it was there already, or the version grows. -/
theorem proceeds_createInstance {inside : Prop} {u : Run} (hcoherent : u.Coherent none)
    (node : NodeId) (σ : ScopeId) (a : CtorId) :
    Proceeds inside none u (onHeap (Heap.create ⟨node, σ, some a⟩ []))
      (onHeap (Heap.create ⟨node, σ, some a⟩ [])) fun _ t =>
        (t = u ∧ u.Ran a σ) ∨ (t.Coherent (some (a, σ)) ∧ t.protos = u.protos ∧
          t.version ≠ u.version) := by
  rw [Heap.create_nil]
  refine .onHeap (Does.cellFor (anyWalk.inv u) (anyWalk.live u _) fun _ _ => anyWalk.live u _) ?_ ?_
  · intro id h hran
    have hweakened : u.Coherent (some (a, σ)) := hcoherent.weaken
    have hupdated := hweakened.apply (u := .heap (.alloc ⟨node, σ, some a⟩)) fun b hctor => by
      cases hctor
      rfl
    rw [Update.apply, Heap.Write.apply, after, hran] at hupdated
    rw [Heap.cellFor_apply] at hran
    cases hled : u.heap.bySite.place? ⟨node, σ, some a⟩ with
    | some k =>
      -- the instance is there already, so its constructor has run or cannot run from here
      rw [hled] at hran
      cases hran
      obtain ⟨cell, hfound, hsite⟩ := hcoherent.indexed.heap.found hled
      have hsettled := hcoherent.settled id cell a hfound (by rw [hsite])
        (Option.some_ne_none _).symm
      rw [hsite] at hsettled
      exact Or.inl ⟨rfl, hsettled⟩
    | none =>
      -- a new cell is counted, so this is no computation that could be repeated
      rw [hled] at hran
      cases hran
      refine Or.inr ⟨hupdated, rfl, ?_⟩
      simp only [Run.version]
      omega
  · intro id h hran hchanges
    rw [Heap.cellFor_apply] at hran
    split at hran
    · cases hran
      rfl
    · cases hran
      exact absurd hchanges (Nat.succ_ne_self _)

theorem ctorOf_spec {k : ClosureId} {s t : Run} {a : CtorId} (hran : ctorOf k s = .ok a t) :
    t.protos.find? k = some a := by
  have hrun : ctorOf k s = ((ask fun s => s.closures.closure k) >>= fun c =>
    onProtos (Protos.ctorFor k c.func.name) : Walk CtorId) s := rfl
  rw [hrun, bind_apply, ask, Closures.closure] at hran
  cases hfound : s.closures.table[k]? with
  | none =>
    rw [hfound] at hran
    cases hran
  | some c =>
    rw [hfound] at hran
    dsimp only at hran
    rw [onProtos] at hran
    cases hmade : Protos.ctorFor k c.func.name s.protos with
    | error d g =>
      rw [hmade] at hran
      cases hran
    | ok b g =>
      rw [hmade] at hran
      cases hran
      exact Protos.ctorFor_spec hmade

/-- Ways of answering calls that may be repeated, where less than `n` calls may be nested. -/
def AnswersAgain (n : Nat) (i' : Invoke) : Prop :=
  ∀ owner call pending u, Calling owner call pending u → u.depthLeft < n →
    Proceeds (pending = none) none u (invoke call) (i' call) fun _ t => t.Coherent none

section Instances

variable {n : Nat} {i' : Invoke} (hanswers : AnswersAgain n i')
variable {owner : Option Func} {σ : ScopeId} {u : Run}

include hanswers

/-- A constructor runs on an instance of its own. -/
theorem proceeds_runOnInstance {inside : Prop} (hstanding : Standing n owner σ u) {a : CtorId}
    {c : Ctor} {k : ClosureId} (hfound : u.protos.ctors[a]? = some c)
    (hclosure : c.closure = some k) (args : List Ty) (node : NodeId) :
    Proceeds inside none u (runOnInstance invoke k a args node σ) (runOnInstance i' k a args node σ)
      fun _ t => t.Coherent none := by
  refine (proceeds_createInstance hstanding.coherent node σ a).bindCounted
    fun cell t hlead hmade => ?_
  have hplace := hstanding.place.later (Run.later_of_steps hlead.steps) hlead.keeps.running
  have haligned := hstanding.aligned.keeps hlead.keeps
  have hdeep := hlead.depthLeft.trans_lt hstanding.deep
  let call : Call := ⟨k, .ofInstance cell a, args, node, σ, some a⟩
  rcases hmade with ⟨rfl, hran⟩ | ⟨hcoherent, hprotos, hgrown⟩
  · have hcalling : Calling owner call none t :=
      ⟨hstanding.coherent, hplace, haligned, c, hfound, hclosure, Or.inr ⟨rfl, hran⟩⟩
    refine ((hanswers owner call none t hcalling hdeep).imp fun _ => rfl).bind
      fun _ r _ hcoherent => ?_
    exact .pure hcoherent
  · have hcalling : Calling owner call (some (a, σ)) t :=
      ⟨hcoherent, hplace, haligned, c, hprotos ▸ hfound, hclosure, Or.inl rfl⟩
    refine ((hanswers owner call _ t hcalling hdeep).imp fun hhere => absurd hhere.2 hgrown).bind
      fun _ r _ hcoherent => ?_
    exact .pure hcoherent

/-- Walks in lockstep, from where a walk stands. -/
def standingWalks (owner : Option Func) (σ : ScopeId) : Lockstep σ invoke i' where
  Rel m m' := ∀ u, Standing n owner σ u →
    Proceeds (owner.isSome = true) none u m m' fun _ t => t.Coherent none
  Captured := Captures owner
  pure _ _ hstanding := .pure hstanding.coherent
  bind hfirst hnext u hstanding := (hfirst u hstanding).bind fun a t hlead hcoherent =>
    hnext a t (hstanding.next hlead hcoherent)
  malformed kind node span _ hstanding := .malformed hstanding.coherent kind node span
  record node t _ hstanding := (Repeats.record node t).proceeds hstanding.coherent
  noteAccess node _ hstanding := (Repeats.noteAccess node).proceeds hstanding.coherent
  thisType _ hstanding := Repeats.thisType.proceeds hstanding.coherent
  addReturn node span t _ hstanding := .addReturn hstanding.coherent node span t
  readVariable name _ hstanding := (Repeats.readVariable σ name).proceeds hstanding.coherent
  writeVariable name t _ hstanding := (Repeats.writeVariable σ name t).proceeds hstanding.coherent
  bindVariable name t _ hstanding := (Repeats.bindVariable σ name t).proceeds hstanding.coherent
  readMember t property _ hstanding := (Repeats.readMember t property).proceeds hstanding.coherent
  writeMember t property value through _ hstanding :=
    (Repeats.writeMember t property value through).proceeds hstanding.coherent
  createObject node fields _ hstanding :=
    (Repeats.createObject node σ fields).proceeds hstanding.coherent
  captureFunc f binding hcaptures _ hstanding :=
    .captureFunc (d := (f, binding)) hstanding.coherent hstanding.place.owned hcaptures
  invoke closure this args site u hstanding :=
    (hanswers owner ⟨closure, this, args, site, σ, none⟩ none u
      ⟨hstanding.coherent, hstanding.place, hstanding.aligned, rfl⟩ hstanding.deep).imp fun _ => rfl
  startInstance closure args site u hstanding := by
    refine (((Repeats.ctorOf closure).proceeds hstanding.coherent).also fun a t hran =>
      ctorOf_spec hran).bind fun ctor t hlead hmade => ?_
    obtain ⟨hcoherent, hled⟩ := hmade
    obtain ⟨c, hfound, hclosure⟩ := hcoherent.indexed.protos.find?_eq_some_iff.mp hled
    refine (proceeds_runOnInstance hanswers (hstanding.next hlead hcoherent) hfound hclosure args
      site).bind
      fun cell r _ hcoherent => ?_
    exact .pure hcoherent
  runAncestor args site id u hstanding := by
    have hasked : Proceeds (owner.isSome = true) none u (ask fun s => s.protos.ctor id)
        (ask fun s => s.protos.ctor id) fun c t => t.Coherent none ∧ t.protos.ctors[id]? = some c :=
      .ask (fun c hread => ⟨hstanding.coherent, Protos.ctor_eq_ok hread⟩)
        fun base e v c hquiet hecho hread => by rw [hecho.protos, hquiet.protos]; exact hread
    refine hasked.bind fun c t hlead hfound => ?_
    obtain ⟨hcoherent, hfound⟩ := hfound
    cases hclosure : c.closure with
    | none => exact .pure hcoherent
    | some closure =>
      refine .ite (fun _ => .pure hcoherent) fun _ => ?_
      refine (proceeds_runOnInstance hanswers (hstanding.next hlead hcoherent) hfound hclosure args
        site).bind
        fun _ r _ hcoherent => ?_
      exact .pure hcoherent
  askProtos look _ hstanding := (Repeats.askProtos look).proceeds hstanding.coherent
  writeMissing cell fields _ hstanding :=
    (Repeats.writeMissing cell fields).proceeds hstanding.coherent

end Instances

/-! ### Entering a call -/

/-- A mark that is set already. -/
theorem Protos.markAnalysed_of_analysed {g : Protos} {a : CtorId} {c : Ctor}
    (hfound : g.ctors[a]? = some c) (hdone : c.analysed = true) :
    markAnalysed a g = .ok () g := by
  rw [markAnalysed_apply, hfound]
  have hsame : g.ctors.modify a (fun c => { c with analysed := true }) = g.ctors := by
    refine Array.ext_getElem? fun i => ?_
    rw [Array.getElem?_modify]
    split
    · next heq =>
      subst heq
      rw [hfound, Option.map_some, ← hdone]
    · rfl
  simp only [hsame]

section Enter

variable {owner : Option Func} {call : Call} {pending : Option (CtorId × ScopeId)} {u : Run}

open Discipline in
/-- The constructor that was about to run is noted; one that has run is noted already. -/
theorem proceeds_noteConstructing (hcalling : Calling owner call pending u)
    (hruns : ¬ u.Stuck call.closure call.caller) {s : Run} (hlead : anyWalk.Leads none u s)
    (hcoherent : s.Coherent pending) :
    Proceeds (pending = none) none s (noteConstructing call.constructing)
      (noteConstructing call.constructing) fun _ t => t.Coherent none := by
  have hlater := Run.later_of_steps hlead.steps
  obtain ⟨-, -, -, habout⟩ := hcalling
  cases hconstructing : call.constructing with
  | none =>
    rw [hconstructing] at habout
    exact .pure (habout ▸ hcoherent)
  | some a =>
    rw [hconstructing] at habout
    obtain ⟨c, hfound, hclosure, habout⟩ := habout
    have hdoes : anyWalk.Does none s (onProtos (Protos.markAnalysed a)) fun _ _ => True :=
      Does.markAnalysed (anyWalk.inv s) (anyWalk.live s _)
    rcases habout with rfl | ⟨rfl, c', hfound', hwhy⟩
    -- the constructor is the one in question: from here on it has run
    · obtain ⟨d, hget, -⟩ := hlater.ctor hfound
      have hmarked := Protos.markAnalysed_apply s.protos a
      rw [hget] at hmarked
      have hgoes : onProtos (Protos.markAnalysed a) s =
          .ok () ((Update.protos (.analysed a)).apply s) := by
        rw [Update.apply, Protos.Write.apply, after, onProtos, hmarked]
      have hupdated := hcoherent.apply (u := .protos (.analysed a)) trivial
      refine ⟨rfl, (hdoes s rfl).after.2, by rw [noteConstructing, after_of_ok hgoes]; rfl,
        ?_, ?_, ?_⟩
      · intro _ t hran
        cases hgoes.symm.trans hran
        refine ⟨hupdated.indexed, hupdated.framed,
          hupdated.settled.settle ⟨{ d with analysed := true }, ?_, Or.inl rfl⟩⟩
        rw [Update.apply, Protos.Write.apply, after, hmarked]
        exact (Array.getElem?_modify ..).trans (by rw [if_pos rfl, hget]; rfl)
      · intro e t hran
        cases hgoes.symm.trans hran
      · intro heq
        cases heq
    -- the constructor was marked before, since it could not have been stuck
    · cases hfound.symm.trans hfound'
      have hdone : c.analysed = true := by
        rcases hwhy with hdone | ⟨k, hconstructing, hstuck⟩
        · exact hdone
        · cases hclosure.symm.trans hconstructing
          exact absurd hstuck hruns
      obtain ⟨d, hget, hdone'⟩ := hlater.analysed a c hfound hdone
      have hmarked := Protos.markAnalysed_of_analysed hget hdone'
      refine .onProtos hdoes ?_ ?_
      · intro _ g hran
        cases hmarked.symm.trans hran
        exact hcoherent
      · intro _ g hran _
        cases hmarked.symm.trans hran
        rfl

/-- The first half of a call: its activation scope is entered. -/
theorem proceeds_enterCall (hcalling : Calling owner call pending u) {c : Closure}
    (hfound : u.closures.table[call.closure]? = some c)
    (hruns : ¬ u.Stuck call.closure call.caller) :
    Proceeds (pending = none) none u (enterCall c call) (enterCall c call) fun σ t =>
      t.Coherent none ∧ t.Owned (some c.func) σ ∧
        t.env.activations.place? call.key = some σ := by
  refine (Proceeds.enterScope hcalling.coherent hfound).bind fun σ t hlead hentered => ?_
  obtain ⟨hcoherent, hled⟩ := hentered
  obtain ⟨c', hfound', hfunc, -⟩ := (Run.later_of_steps hlead.steps).literal hfound
  have howned : t.Owned (some c.func) σ := ⟨call.key, c', hled, hfound', hfunc⟩
  refine ((Repeats.bindParams σ _ _).proceeds hcoherent).bind fun _ t₁ lead₁ hcoherent => ?_
  refine ((Repeats.bindSelf σ _ _).proceeds hcoherent).bind fun _ t₂ lead₂ hcoherent => ?_
  have lead₃ := lead₁.trans lead₂
  have hcaptures : ∀ f ∈ hoistedFuncs c.func.body, Captures (some c.func) (f, none) := fun f hmem =>
    capture_of_hoisted hmem
  have hhoists := Proceeds.hoist hcoherent (howned.later (Run.later_of_steps lead₃.steps)) hcaptures
  refine (hhoists.imp fun _ => rfl).bind fun _ t₃ lead₄ hcoherent => ?_
  have lead₅ := lead₃.trans lead₄
  refine (proceeds_noteConstructing hcalling hruns (hlead.trans lead₅) hcoherent).bind
    fun _ t₄ lead₆ hcoherent => ?_
  have hlater := Run.later_of_steps (lead₅.trans lead₆).steps
  exact .pure ⟨hcoherent, howned.later hlater, hlater.tables.activations _ _ hled⟩

end Enter

/-! ### Bodies and rounds -/

/-- A watch that sees nothing in front of a round. -/
def Blind (w : Watch) : Prop :=
  ∀ f scope call s, Ready f scope call s → ¬ w.Sees f scope call s

open Discipline in
/-- Another result is assumed. -/
theorem proceeds_setSeed {inside : Prop} (u : Run) (k : ClosureId) (seed : Ty) :
    Proceeds inside (some k) u (setSeed k seed) (setSeed k seed) fun _ t =>
      t = u.assuming k seed where
  same := rfl
  lead := by
    have hdoes : anyWalk.Does (some k) u (setSeed k seed) fun _ _ => True :=
      Does.setSeed (anyWalk.inv u) (anyWalk.live u _) trivial
    exact (hdoes u rfl).after.2
  tail := rfl
  ok a t hran := by
    cases hran
    rfl
  stop e t hran := nomatch hran
  rerun _ a t hran _ := by
    cases hran
    refine ⟨SameTables.quiet ⟨rfl, rfl, rfl, rfl, rfl⟩, fun base e v _ _ hecho => ?_⟩
    exact ⟨v.assuming k seed, rfl, hecho.insert k ⟨seed, false⟩⟩

section Rounds

variable {n : Nat} {i' : Invoke} (hanswers : AnswersAgain n i')
variable {f : Func} {scope : ScopeId} {call : Call} {s : Run}

include hanswers

/-- The statements of a body. -/
theorem proceeds_body (hready : Ready f scope call s) (hdeep : s.depthLeft ≤ n) :
    Proceeds True none (s.pushed (call.activation scope)) (inferBlock invoke scope f.body)
      (inferBlock i' scope f.body) fun _ t => t.Coherent none :=
  ((standingWalks hanswers (some f) scope).inferBlock f.body (fun _ hmem => hmem) _
    (hready.pushed hdeep)).imp fun _ => rfl

open Discipline in
/-- Running a body once. -/
theorem proceeds_runBody (hready : Ready f scope call s) (hdeep : s.depthLeft ≤ n) :
    Proceeds True none s (runBody invoke f scope call) (runBody i' f scope call)
      fun _ t => t.Coherent none := by
  let a := call.activation scope
  have haround (i : Invoke) : Around (·.pushed a) Run.popActivation
      (fun _ t => f.resultOf t.returned) (inferBlock i scope f.body) (runBody i f scope call) :=
    ⟨fun hran => by rw [runBody_apply, hran], fun hran => by rw [runBody_apply, hran]⟩
  refine .around (proceeds_body hanswers hready hdeep) (haround invoke) (haround i')
    ⟨rfl, rfl, rfl, rfl, rfl⟩ (fun _ => ⟨rfl, rfl, rfl, rfl, rfl⟩) ?_ ?_ ?_ ?_ ?_
  · intro t hlead
    have hguard : anyWalk.Guard s (.push a) :=
      ⟨fun _ _ => trivial, fun _ _ => anyWalk.live s _, hready.room, fun hplaced => hplaced.elim⟩
    have hpopped : anyWalk.Guard t .pop :=
      ⟨fun _ _ => trivial, fun _ _ => anyWalk.live t _, trivial⟩
    exact ⟨(Relation.ReflTransGen.single ⟨_, hguard, rfl⟩).trans
      (hlead.steps.trans (.single ⟨_, hpopped, rfl⟩)), Run.Keeps.pop (a := a) hlead.keeps⟩
  · intro t htail
    exact congrArg List.tail htail
  · exact fun _ t hcoherent => hcoherent.tables ⟨rfl, rfl, rfl, rfl, rfl⟩
  · intro base e v hother hecho
    refine ⟨nofun, hecho.env, hecho.heap, hecho.protos, hecho.closures, hecho.captures,
      hecho.options, ?_, hecho.seeds, hecho.solving, hecho.assumed⟩
    exact congrArg (a :: ·) hecho.activations
  · intro base e t v _ _ hecho
    refine ⟨⟨hecho.env, hecho.heap, hecho.protos, hecho.closures, hecho.captures,
      hecho.options, ?_, hecho.seeds, hecho.solving, hecho.assumed⟩, ?_⟩
    · exact congrArg List.tail hecho.activations
    · rw [Run.returned, Run.returned, Run.current?, Run.current?, hecho.activations]

/-- The loop over rounds. -/
theorem proceeds_rounds {w : Watch} (hblind : Blind w) (rounds done : Nat)
    (hready : Ready f scope call s) (hdeep : s.depthLeft ≤ n) :
    Proceeds True (some call.closure) s
      (roundsUpTo (fun _ => return .any) invoke f scope call rounds done)
      (w.roundsUpTo i' f scope call rounds done) fun _ t => t.Coherent none := by
  induction rounds generalizing done s with
  | zero => exact .pure hready.coherent
  | succ rounds ih =>
    -- in front of a round the watch sees nothing, so the watched round is a plain one
    refine Proceeds.congr ?_ (w.round_of_not_sees (hblind f scope call s hready))
    rw [TypeFlow.roundsUpTo]
    unfold roundThen
    refine .get ?_ fun base e v _ hquiet hecho => by rw [hecho.version hquiet]
    have hbody := (proceeds_runBody hanswers hready hdeep).mono
      fun _ t hlead hcoherent => And.intro hlead (hready.next hlead hcoherent)
    refine hbody.weaken.bind fun ret t _ hran => ?_
    obtain ⟨hlead, hready⟩ := hran
    -- whether to go on is told by the version, the assumed result and the options
    refine .get ?_ fun base e v hother hquiet hecho => by
      rw [hecho.version hquiet, hecho.solving call.closure (hother _ rfl), hecho.options]
    cases hassumed : t.solve? call.closure with
    | none => exact .pure hready.coherent
    | some v =>
      obtain ⟨seed, recursed⟩ := v
      cases recursed with
      | false => exact .pure hready.coherent
      | true =>
        have hemits (ev : Event) := (Repeats.emit ev none t hready.coherent).mono
          fun _ r hlead' hcoherent => And.intro hlead' (hready.next hlead' hcoherent)
        refine (hemits _).weaken.bind fun _ r _ hnoted => ?_
        obtain ⟨hlead', hready⟩ := hnoted
        refine .ite (fun _ => .pure hready.coherent) fun _ => .ite (fun _ => ?_) fun _ => ?_
        · exact ((Repeats.emit _).proceeds hready.coherent).bind
            fun _ q _ hcoherent => .pure hcoherent
        · refine (proceeds_setSeed r call.closure _).bind fun _ q _ heq => ?_
          subst heq
          refine ih (done + 1) (hready.assuming _) ?_
          exact (hlead.trans hlead').depthLeft.trans_le hdeep

open Discipline in
/-- Settling the result of a body. -/
theorem proceeds_solve {w : Watch} (hblind : Blind w) (hready : Ready f scope call s)
    (hdeep : s.depthLeft ≤ n) :
    Proceeds True (some call.closure) s (solve invoke f scope call) (w.solve i' f scope call)
      fun _ t => t.Coherent none := by
  have hemits (ev : Event) := (Repeats.emit ev none s hready.coherent).mono
    fun _ r hlead hcoherent => And.intro hlead (hready.next hlead hcoherent)
  refine (hemits _).weaken.bind fun _ r _ hnoted => ?_
  obtain ⟨hlead, hready⟩ := hnoted
  have haround (m : Walk Ty) : Around (fun s => s) (·.logged .exitSolve) (fun a _ => a) m
      (ensuring m fun s => { s with log := s.log.push .exitSolve }) :=
    ⟨fun hran => by rw [ensuring, hran]; rfl, fun hran => by rw [ensuring, hran]; rfl⟩
  have hrounds : Proceeds True (some call.closure) r
      (get >>= fun s => TypeFlow.roundsUpTo (fun _ => return .any) invoke f scope call
        (max 1 s.options.maxRounds) 0)
      (get >>= fun s => w.roundsUpTo i' f scope call (max 1 s.options.maxRounds) 0)
      fun _ t => t.Coherent none :=
    .get (proceeds_rounds hanswers hblind _ 0 hready (hlead.depthLeft.trans_le hdeep))
      fun base e v _ hquiet hecho => by rw [hecho.options]
  refine .around hrounds (haround _) (haround _) ⟨rfl, rfl, rfl, rfl, rfl⟩
    (fun _ => ⟨rfl, rfl, rfl, rfl, rfl⟩) ?_ ?_ ?_ ?_ ?_
  · intro t hlead
    have hguard : anyWalk.Guard t (.event .exitSolve) :=
      ⟨fun _ _ => trivial, fun _ _ => anyWalk.live t _, trivial⟩
    exact hlead.trans (Leads.of_local hguard rfl)
  · exact fun t htail => htail
  · exact fun _ t hcoherent => hcoherent.tables ⟨rfl, rfl, rfl, rfl, rfl⟩
  · exact fun base e v hother hecho => ⟨hother, hecho⟩
  · exact fun base e t v a _ hecho => ⟨hecho.core rfl rfl, rfl⟩

/-- The second half of a call, when nothing was assumed of its closure. -/
theorem proceeds_runEntered {w : Watch} (hblind : Blind w) {c : Closure} {u : Run}
    (hidle : u.solve? call.closure = none)
    (hready : Ready c.func scope call (u.assuming call.closure .never)) (hdeep : u.depthLeft ≤ n) :
    Proceeds True none u (runEntered (solve invoke) c call scope)
      (runEntered (w.solve i') c call scope) fun _ t => t.Coherent none := by
  -- the assumed result is there around the rounds only, and the call is recorded after it is
  -- dropped
  have hsplit (solver : Func → ScopeId → Call → Walk Ty) : runEntered solver c call scope =
      (setSeed call.closure .never >>= fun _ =>
        ensuring (solver c.func scope call) (Run.dropSeed call.closure)) >>= fun ret => do
          onClosures (Closures.recordCall call.closure call.args ret)
          return ret := by
    rw [bind_assoc]
    rfl
  have hseeded (m : Walk Ty) (s : Run) : (setSeed call.closure .never >>= fun _ =>
      ensuring m (Run.dropSeed call.closure)) s =
        ensuring m (Run.dropSeed call.closure) (s.assuming call.closure .never) := rfl
  have haround (m : Walk Ty) : Around (·.assuming call.closure .never) (Run.dropSeed call.closure)
      (fun a _ => a) m (setSeed call.closure .never >>= fun _ =>
        ensuring m (Run.dropSeed call.closure)) :=
    ⟨fun hran => by rw [hseeded, ensuring, hran], fun hran => by rw [hseeded, ensuring, hran]⟩
  rw [hsplit, hsplit]
  refine Proceeds.bind (Q := fun _ t => t.Coherent none) ?_ fun ret t _ hcoherent => ?_
  · refine .around (proceeds_solve hanswers hblind hready hdeep) (haround _) (haround _)
      ⟨rfl, rfl, rfl, rfl, rfl⟩ (fun _ => ⟨rfl, rfl, rfl, rfl, rfl⟩) ?_ ?_ ?_ ?_ ?_
    · intro t hlead
      have hset : Proceeds True _ u _ _ _ := proceeds_setSeed u call.closure .never
      exact ((hset.lead.trans hlead).unseed hidle).2
    · exact fun t htail => htail
    · exact fun _ t hcoherent => hcoherent.tables ⟨rfl, rfl, rfl, rfl, rfl⟩
    -- no result is assumed for the closure outside, so assuming one concerns no pending call
    · intro base e v _ hecho
      refine ⟨fun k heq hmem => ?_, hecho.insert call.closure ⟨.never, false⟩⟩
      cases heq
      have hassumed := hecho.assumed call.closure hmem
      rw [hidle] at hassumed
      cases hassumed
    · exact fun base e t v _ hother hecho => ⟨hecho.dropSeed (hother _ rfl), rfl⟩
  · exact ((Repeats.recordCall _ _ _).proceeds hcoherent).bind
      fun _ r _ hcoherent => .pure hcoherent

end Rounds

/-! ### Calls -/

open Discipline in
/-- The assumed result of a closure is used. -/
theorem proceeds_noteRecursion {inside : Prop} {u : Run} (hcoherent : u.Coherent none)
    {k : ClosureId} {v : Solve} (hassumed : u.solve? k = some v) :
    Proceeds inside none u (noteRecursion k v.seed) (noteRecursion k v.seed)
      fun _ t => t.Coherent none where
  same := rfl
  lead := ((Does.noteRecursion (anyWalk.inv u) (anyWalk.live u _) hassumed) u rfl).after.2
  tail := rfl
  ok a t hran := by
    cases hran
    exact hcoherent.tables ⟨rfl, rfl, rfl, rfl, rfl⟩
  stop e t hran := nomatch hran
  rerun _ a t hran _ := by
    cases hran
    refine ⟨SameTables.quiet ⟨rfl, rfl, rfl, rfl, rfl⟩, fun base e v' _ _ hecho => ?_⟩
    exact ⟨_, rfl, hecho.insert k ⟨v.seed, true⟩⟩

section Calls

variable {owner : Option Func} {call : Call} {pending : Option (CtorId × ScopeId)} {u : Run}

theorem Calling.not_stuck (hcalling : Calling owner call pending u) {c : Closure}
    (hfound : u.closures.table[call.closure]? = some c) (hne : c.selfReferential ≠ true)
    (hidle : u.solve? call.closure = none)
    (hroom : ¬ u.options.maxCallDepth ≤ u.activations.length) :
    ¬ u.Stuck call.closure call.caller := by
  rintro (⟨d, hfound', hmarked⟩ | ⟨stack, hleads, hwhy⟩)
  · cases hfound.symm.trans hfound'
    exact hne hmarked
  · cases hleads.unique hcalling.coherent.indexed.env hcalling.place.stack
    rcases hwhy with hrunning | hfull
    · have hassumed := (hcalling.aligned.assumed _).mp hrunning
      rw [hidle] at hassumed
      cases hassumed
    · rw [Run.running, List.length_map] at hfull
      exact hroom hfull

theorem runCall_outline (solver : Func → ScopeId → Call → Walk Ty) {c c' : Closure}
    (houtline : c'.outline = c.outline) (call : Call) :
    runCall solver c' call = runCall solver c call := by
  have hfunc : c'.func = c.func := congrArg Prod.fst houtline
  have hscope : c'.scope = c.scope := congrArg (fun o => o.2.1) houtline
  simp only [runCall, enterScope, hfunc, hscope]

/-- Calls can be repeated, and a watch that sees nothing makes no difference to them. -/
theorem proceeds_invokeUpTo {w : Watch} (hblind : Blind w) (n : Nat) :
    AnswersAgain n (w.invokeUpTo n) := by
  induction n with
  | zero => exact fun _ _ _ _ _ hdeep => absurd hdeep (Nat.not_lt_zero _)
  | succ n ih =>
    intro owner call pending u hcalling hdeep
    have hunfolded : invoke = invokeThen solve invoke := (invokeThen_unique invoke).mpr rfl
    rw [hunfolded, Watch.invokeUpTo, invokeUpTo]
    refine .askClosure (fun c c' houtline => ?_) fun c hfound => .ite (fun hselfReferential => ?_)
      fun hne => ?_
    -- what a call does depends on the outline of its closure, not on its recorded signature
    · have hfunc : c'.func = c.func := congrArg Prod.fst houtline
      have hmark : c'.selfReferential = c.selfReferential := congrArg (fun o => o.2.2) houtline
      simp only [hfunc, hmark, depthReached, runCall_outline _ houtline]
    -- a function that returns only itself never runs: the constructor is stuck
    · have hcoherent := hcalling.stuck (Or.inl ⟨c, hfound, hselfReferential⟩)
      refine ((Repeats.emit _).proceeds hcoherent).bind fun _ t _ hcoherent => ?_
      refine ((Repeats.recordCall _ _ _).proceeds hcoherent).bind fun _ t _ hcoherent => ?_
      exact .pure hcoherent
    · refine .get ?_ fun base e v _ hquiet hecho => ?_
      · cases hassumed : u.solve? call.closure with
        | some v =>
          -- a result is assumed just for what runs, and what runs does not run again
          have hrunning : call.closure ∈ u.running :=
            (hcalling.aligned.assumed _).mpr (by rw [hassumed]; rfl)
          have hcoherent :=
            hcalling.stuck (Or.inr ⟨u.running, hcalling.place.stack, Or.inl hrunning⟩)
          exact (proceeds_noteRecursion hcoherent hassumed).bind
            fun _ t _ hcoherent => .pure hcoherent
        | none =>
          refine .get (.ite (fun hfull => ?_) fun hroom => ?_) fun base e v _ hquiet hecho => by
            rw [hecho.options, hecho.activations]
          -- too many calls are nested, and the calls that lead to a scope are always the same
          · have hstack : u.options.maxCallDepth ≤ u.running.length := by
              rwa [Run.running, List.length_map]
            have hcoherent :=
              hcalling.stuck (Or.inr ⟨u.running, hcalling.place.stack, Or.inr hstack⟩)
            exact (Repeats.depthReached c).proceeds hcoherent
          · rw [runCall_eq, runCall_eq]
            refine (proceeds_enterCall hcalling hfound
              (hcalling.not_stuck hfound hne hassumed hroom)).bind fun σ t hlead hentered => ?_
            obtain ⟨hcoherent, howned, hled⟩ := hentered
            have hidle : t.solve? call.closure = none := by
              have hseeds := hlead.keeps.seeds call.closure (Option.some_ne_none _).symm
              rw [hassumed] at hseeds
              exact Option.map_eq_none_iff.mp hseeds
            have hplace := hcalling.place.later (Run.later_of_steps hlead.steps) hlead.keeps.running
            -- in its frame the body may be run, with one activation less to be nested
            have hready : Ready c.func σ call (t.assuming call.closure .never) := by
              refine ⟨hcoherent.tables ⟨rfl, rfl, rfl, rfl, rfl⟩, howned, .inside hled hplace.stack,
                (hcalling.aligned.keeps hlead.keeps).assuming hidle .never, ?_⟩
              change t.activations.length < t.options.maxCallDepth
              rw [hlead.keeps.depth, hlead.keeps.options]
              exact Nat.lt_of_not_le hroom
            refine (proceeds_runEntered ih hblind hidle hready ?_).imp fun _ => trivial
            exact Nat.le_of_lt_succ (hlead.depthLeft.trans_lt hdeep)
      · have hseeds := hecho.seeds call.closure
        cases hassumed : u.solve? call.closure with
        | none =>
          rw [hassumed] at hseeds
          rw [Option.map_eq_none_iff.mp hseeds]
        | some x =>
          rw [hassumed] at hseeds
          obtain ⟨y, hfound', hsame⟩ := Option.map_eq_some_iff.mp hseeds
          rw [hfound']
          dsimp only
          rw [hsame]

end Calls

end TypeFlow
