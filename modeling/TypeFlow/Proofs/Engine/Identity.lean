import Mathlib
import TypeFlow.Proofs.Engine.Reached
import TypeFlow.Proofs.Engine.Repeats
import TypeFlow.Proofs.Engine.Stack
import TypeFlow.Proofs.Store.Interning

/-!
# The identity of entries

Scopes, closures, cells and constructors are found again by their keys, each through an index beside
its table.  However the operations of a run are interleaved, and whatever else is added to the
tables, index and table stay inverse to each other: an entry is answered exactly for its own key,
and it keeps the key for ever.

## Main Definitions

* `Run.Touches`, `Run.Goes` - one change of the state, and changes one after the other
* `Run.Interned` - indices and tables agree, and scopes hang below the scopes that their closures
  were made in
* `Run.Interns` - an operation answers one index for one key

## Main Statements

* `Run.Goes.interned` - indices and tables stay in agreement
* `Run.Reached.activated` - every scope of a run but the global one belongs to one activation
* `interning_exact` - the operations that find entries again do so exactly

## Design Notes

The changes considered are more than those of a run: any update may be made at any time, except that
the scope of an activation is entered for a closure that exists, below the scope that the closure
was made in.  Scopes and constructors without a key may be added as well.

A closure, a cell and a constructor carry their keys, so that the index can be compared with the
entries.  A scope does not tell its activation; what is known of it is that different activations
have different scopes, and none has the global one.
-/

namespace TypeFlow

open Walk

/-! ### Changes of the state -/

/-- When a scope is entered, it is for a closure that exists, below the scope that the closure was
made in. -/
def Update.EntersClosure (s : Run) : Update → Prop
  | .env (.enter key parent owner) =>
    ∃ c, s.closures.table[key.closure]? = some c ∧ parent = c.scope ∧ owner = some c.func.id
  | _ => True

/-- One change of the state: an update, or a scope or a constructor without a key. -/
inductive Run.Touches (s : Run) : Run → Prop where
  | update (u : Update) : u.EntersClosure s → s.Touches (u.apply s)
  | newScope (parent : ScopeId) (owner : Option NodeId) :
    s.Touches { s with env := after (Env.newScope parent owner) s.env }
  | define (name : Option String) (parent : Option CtorId) (ownFields : Fields) :
    s.Touches { s with protos := after (Protos.define name parent ownFields) s.protos }

/-- Changes one after the other. -/
abbrev Run.Goes : Run → Run → Prop :=
  Relation.ReflTransGen Run.Touches

variable {s t : Run}

theorem Run.Touches.extends (h : s.Touches t) : s.Extends t := by
  cases h with
  | update u => exact u.keeps s
  | newScope parent owner =>
    have hsame : ∀ x, Scope.entry.key x = Scope.entry.key x := fun _ => rfl
    exact { Run.Extends.refl s with scopes := Grows.push hsame _ _ }
  | define name parent ownFields =>
    have hsame : ∀ x, Ctor.entry.key x = Ctor.entry.key x := fun _ => rfl
    exact { Run.Extends.refl s with ctors := Grows.push hsame _ _ }

theorem Run.Goes.extends (h : s.Goes t) : s.Extends t := by
  induction h with
  | refl => exact Run.Extends.refl s
  | tail _ hlast ih => exact ih.trans hlast.extends

/-- The updates that walks make. -/
theorem Run.Goes.of_steps {D : Discipline} (h : D.Steps s t) : s.Goes t := by
  refine Relation.ReflTransGen.mono (fun r q hstep => ?_) _ _ h
  obtain ⟨u, hguard, rfl⟩ := hstep
  refine .update u ?_
  have hreason := hguard.reason
  cases u with
  | env w =>
    cases w with
    | bind id name v => trivial
    | enter key parent owner => exact hreason
  | _ => trivial

theorem Run.Goes.of_does {α : Type} {m : Walk α} {Q : α → Run → Prop}
    (hdoes : anyWalk.Does none s m Q) : s.Goes (after m s) :=
  .of_steps (hdoes s rfl).after.2.steps

/-! ### Indices and tables -/

/-- A scope is that of an activation: the index leads to it, it hangs below the scope that the
closure was made in, and it belongs to the closure's literal. -/
def Run.IsActivation (s : Run) (id : ScopeId) (key : ActivationKey) : Prop :=
  s.env.activations.place? key = some id ∧ ∃ x c, s.env.scopes[id]? = some x ∧
    s.closures.table[key.closure]? = some c ∧ x.parent = some c.scope ∧ x.owner = some c.func.id

/-- Indices and tables agree.  The scope of an activation hangs below the scope that its closure was
made in, and belongs to the literal of the closure. -/
structure Run.Interned (s : Run) : Prop where
  indexed : s.Indexed
  frames : ∀ key id, s.env.activations.place? key = some id → s.IsActivation id key

/-- Before the first program there are no activations. -/
theorem start_interned (options : Options) (globals : Globals) :
    (Run.start options globals).Interned := by
  obtain ⟨b, n, henv, -⟩ := start_env options globals
  refine ⟨start_indexed options globals, fun key id hled => ?_⟩
  rw [henv] at hled
  cases hled

/-- The scope of an activation stays its scope. -/
theorem Run.IsActivation.extends {id : ScopeId} {key : ActivationKey} (h : s.IsActivation id key)
    (hext : s.Extends t) : t.IsActivation id key := by
  obtain ⟨hled, x, c, hscope', hclosure, hparent', howner'⟩ := h
  obtain ⟨x', hscope'', hsame⟩ := hext.scopes id x hscope'
  obtain ⟨c', hclosure', hsame'⟩ := hext.closures _ c hclosure
  have hparent : x'.parent = x.parent := congrArg Prod.fst hsame
  have howner : x'.owner = x.owner := congrArg Prod.snd hsame
  have hfunc : c'.func = c.func := congrArg Prod.fst hsame'
  have hscope : c'.scope = c.scope := congrArg Prod.snd hsame'
  refine ⟨hext.activations _ _ hled, x', c', hscope'', hclosure', ?_, ?_⟩
  · rw [hparent, hscope]
    exact hparent'
  · rw [howner, hfunc]
    exact howner'

/-- A new scope without an activation leaves the scopes of activations apart. -/
theorem Env.Indexed.newScope {e : Env} (h : e.Indexed) (parent : ScopeId) (owner : Option NodeId) :
    (after (Env.newScope parent owner) e).Indexed := by
  change Env.Indexed { e with scopes := e.scopes.push ⟨some parent, owner, []⟩ }
  have hgrown : e.scopes.size ≤ (e.scopes.push ⟨some parent, owner, []⟩).size := by
    rw [Array.size_push]
    exact Nat.le_succ _
  refine ⟨Nat.lt_of_lt_of_le h.global hgrown, ⟨fun hled => ?_, h.injects.apart⟩, h.outside⟩
  exact Nat.lt_of_lt_of_le (h.injects.inside hled) hgrown

/-- A scope that is entered is that of its activation. -/
theorem Run.isActivation_enter {key : ActivationKey} {c : Closure}
    (hclosure : s.closures.table[key.closure]? = some c)
    (habsent : s.env.activations.place? key = none) :
    ((Update.env (.enter key c.scope (some c.func.id))).apply s).IsActivation s.env.scopes.size
      key := by
  have hentered : after (Env.enter key c.scope (some c.func.id)) s.env =
      { s.env with
        scopes := s.env.scopes.push ⟨some c.scope, some c.func.id, []⟩
        activations := s.env.activations.note key s.env.scopes.size } := by
    rw [after, Env.enter_apply, habsent]
  rw [Run.IsActivation, Update.apply, Env.Write.apply, hentered]
  exact ⟨(Index.place?_note ..).trans (if_pos rfl), _, c, Array.getElem?_push_size, hclosure, rfl,
    rfl⟩

/-- One change keeps indices and tables in agreement. -/
theorem Run.Interned.touches (h : s.Interned) (hstep : s.Touches t) : t.Interned := by
  have hext := hstep.extends
  cases hstep with
  | update u henters =>
    refine ⟨u.indexed h.indexed, fun key id hled => ?_⟩
    cases u with
    | env w =>
      -- the only new place in the index is that of a scope that was entered
      rcases (w.index s.env).place_cases hled with hplace | ⟨hlisted, habsent, rfl, -⟩
      · exact (h.frames key id hplace).extends hext
      · cases w with
        | bind id name v => cases hlisted
        | enter key' parent owner =>
          cases List.mem_singleton.mp hlisted
          obtain ⟨c, hclosure, rfl, rfl⟩ := henters
          exact isActivation_enter hclosure habsent
    | _ => exact (h.frames key id hled).extends hext
  | newScope parent owner =>
    exact ⟨{ h.indexed with env := h.indexed.env.newScope parent owner },
      fun key id hled => (h.frames key id hled).extends hext⟩
  | define name parent ownFields =>
    exact ⟨{ h.indexed with protos := Indexes.push_none h.indexed.protos rfl },
      fun key id hled => (h.frames key id hled).extends hext⟩

/-- Indices and tables stay in agreement, whatever changes are made one after the other. -/
theorem Run.Goes.interned (h : s.Goes t) (hinterned : s.Interned) : t.Interned := by
  induction h with
  | refl => exact hinterned
  | tail _ hlast ih => exact ih.touches hlast

/-- A run adds scopes for activations only: every scope but the global one belongs to exactly one
activation. -/
theorem Run.Reached.activated {options : Options} {globals : Globals} {ps : List Program}
    (h : s.Reached options globals ps) {id : ScopeId} (hinside : id < s.env.scopes.size)
    (hne : id ≠ Env.global) : ∃! key, s.env.activations.place? key = some id := by
  have hled : ∃ key, s.env.activations.place? key = some id := by
    refine h.induct (P := fun r => id < r.env.scopes.size →
      ∃ key, r.env.activations.place? key = some id) (fun hinside => ?_)
      (fun r u _ _ ih hinside => ?_) hinside
    · obtain ⟨b, n, henv, -⟩ := start_env options globals
      rw [henv] at hinside
      exact absurd (Nat.lt_one_iff.mp hinside) hne
    · by_cases hlt : id < r.env.scopes.size
      · obtain ⟨key, hled⟩ := ih hlt
        exact ⟨key, (u.keeps r).activations _ _ hled⟩
      · cases u with
        | env w =>
          cases w with
          | bind scope name v =>
            exact absurd (Env.size_bind r.env scope name v ▸ hinside) hlt
          | enter key parent owner =>
            change id < (after (Env.enter key parent owner) r.env).scopes.size at hinside
            change ∃ key', (after (Env.enter key parent owner) r.env).activations.place? key' = _
            rcases Env.after_enter r.env key parent owner with hsame | ⟨-, heq⟩
            · exact absurd (hsame ▸ hinside) hlt
            · rw [heq, Array.size_push] at hinside
              rw [heq]
              refine ⟨key, (Index.place?_note ..).trans ?_⟩
              rw [if_pos rfl]
              exact congrArg some (Nat.le_antisymm (Nat.le_of_not_lt hlt)
                (Nat.le_of_lt_succ hinside))
        | _ => exact absurd hinside hlt
  obtain ⟨key, hled⟩ := hled
  exact ⟨key, hled, fun key' hled' => (h.inv.indexed trivial).env.injects.apart hled' hled⟩

/-! ### Exact operations -/

/-- From a state on, an operation answers one index for one key.  It answers whenever its argument
fits, the entry at the index carries the key at all later times, and at all later times exactly the
arguments with the same key are answered by the same index. -/
def Run.Interns {α κ : Type} (s : Run) (op : α → Walk Nat) (key : α → κ)
    (Fits : Run → α → Prop) (Carries : Run → Nat → κ → Prop) : Prop :=
  ∀ a, Fits s a → ∃ id s', op a s = .ok id s' ∧ ∀ t, s'.Goes t → Carries t id (key a) ∧
    ∀ b, Fits t b → ∃ id' t', op b t = .ok id' t' ∧ (id' = id ↔ key b = key a)

/-- A closure is that of a literal, by the literal's identity, in a scope. -/
def Run.IsCapture (s : Run) (id : ClosureId) (place : NodeId × ScopeId) : Prop :=
  ∃ c, s.closures.table[id]? = some c ∧ c.func.id = place.1 ∧ c.scope = place.2

/-- A cell is that of an allocation site. -/
def Run.IsAllocated (s : Run) (id : CellId) (site : AllocSite) : Prop :=
  ∃ c, s.heap.cells[id]? = some c ∧ c.site = site

/-- A constructor is that of a closure. -/
def Run.IsConstructor (s : Run) (id : CtorId) (closure : ClosureId) : Prop :=
  ∃ c, s.protos.ctors[id]? = some c ∧ c.closure = some closure

/-- An operation is exact when its answer carries the key, and is that of an entry exactly for the
key that the entry carries. -/
theorem Run.Interned.interns {α κ : Type} {op : α → Walk Nat} {key : α → κ}
    {Fits : Run → α → Prop} {Carries : Run → Nat → κ → Prop} (h : s.Interned)
    (hanswers : ∀ u a, u.Interned → Fits u a →
      ∃ id u', op a u = .ok id u' ∧ u.Goes u' ∧ Carries u' id (key a) ∧
        ∀ i k, Carries u i k → (id = i ↔ key a = k))
    (hcarries : ∀ u v i k, u.Interned → u.Goes v → Carries u i k → Carries v i k) :
    s.Interns op key Fits Carries := by
  intro a hfits
  obtain ⟨id, s', hran, hgoes, hcarried, -⟩ := hanswers s a h hfits
  refine ⟨id, s', hran, fun t hlater => ?_⟩
  have hinterned := hgoes.interned h
  have hkept := hcarries s' t id (key a) hinterned hlater hcarried
  refine ⟨hkept, fun b hfits => ?_⟩
  obtain ⟨id', t', hran', -, -, hsame⟩ := hanswers t b (hlater.interned hinterned) hfits
  exact ⟨id', t', hran', hsame id (key a) hkept⟩

/-! ### Scopes -/

/-- Entering a scope answers the scope of an activation exactly for the activation's key. -/
theorem Run.IsActivation.index_eq_iff {id : ScopeId} {k : ActivationKey} (h : s.IsActivation id k)
    (hinterned : s.Interned) (key : ActivationKey) :
    (s.env.activations.place? key).getD s.env.scopes.size = id ↔ key = k :=
  hinterned.indexed.env.injects.answer_eq_iff h.1

/-- The scope of an activation. -/
theorem Run.Interned.enter (h : s.Interned) :
    s.Interns
      (fun a : ActivationKey × Closure =>
        Prod.fst <$> onEnv (Env.enter a.1 a.2.scope (some a.2.func.id)))
      Prod.fst (fun t a => t.closures.table[a.1.closure]? = some a.2) Run.IsActivation := by
  refine h.interns (fun u a hinterned hclosure => ?_) fun u v i key hinterned hgoes hisActivation =>
    hisActivation.extends hgoes.extends
  obtain ⟨key, c⟩ := a
  obtain ⟨new, e, hran⟩ := Env.enter_answers key c.scope (some c.func.id) u.env
  have hgoes : u.Goes { u with env := e } := by
    have hends : (Update.env (.enter key c.scope (some c.func.id))).apply u =
        { u with env := e } := by
      change { u with env := after (Env.enter key c.scope (some c.func.id)) u.env } = _
      rw [after, hran]
    exact hends ▸ .single (.update _ ⟨c, hclosure, rfl, rfl⟩)
  refine ⟨_, { u with env := e }, ?_, hgoes, ?_, fun i k hisActivation =>
    hisActivation.index_eq_iff hinterned key⟩
  · change EStateM.map _ (onEnv (Env.enter key c.scope (some c.func.id))) u = _
    rw [EStateM.map, onEnv_of_ok hran]
  · exact (hgoes.interned hinterned).frames key _ (Env.enter_spec hran)

/-- The scope that a call runs in is that of its activation: it tells the closure, the calling node
and the calling scope. -/
theorem Run.Interned.enterScope (h : s.Interned) :
    s.Interns (fun a : Call × Closure => TypeFlow.enterScope a.2 a.1) (fun a => a.1.key)
      (fun t a => t.closures.table[a.1.closure]? = some a.2) Run.IsActivation := by
  refine h.interns (fun u a hinterned hclosure => ?_) fun u v i key hinterned hgoes hisActivation =>
    hisActivation.extends hgoes.extends
  obtain ⟨call, c⟩ := a
  have hspec := enterScope_apply c call u
  have hgoes := Run.Goes.of_does
    (Discipline.Does.enterScope (anyWalk.inv u) hclosure (anyWalk.live u (.scope call.caller)))
  -- both when the scope was there and when it is new, the index leads to what is answered
  obtain ⟨u', hran, hled⟩ : ∃ u', TypeFlow.enterScope c call u =
      .ok ((u.env.activations.place? call.key).getD u.env.scopes.size) u' ∧
        u'.env.activations.place? call.key =
          some ((u.env.activations.place? call.key).getD u.env.scopes.size) := by
    cases hled : u.env.activations.place? call.key with
    | some id =>
      rw [hled] at hspec
      exact ⟨u, hspec, hled⟩
    | none =>
      rw [hled] at hspec
      exact ⟨_, hspec, (Index.place?_note ..).trans (if_pos rfl)⟩
  rw [after, hran] at hgoes
  exact ⟨_, u', hran, hgoes, (hgoes.interned hinterned).frames _ _ hled,
    fun i k hisActivation => hisActivation.index_eq_iff hinterned call.key⟩

/-! ### Closures, cells and constructors -/

/-- The closure of a literal in a scope. -/
theorem Run.Interned.capture (h : s.Interned) :
    s.Interns (fun a : ScopeId × Func => onClosures (Closures.captureId a.1 a.2))
      (fun a => (a.2.id, a.1)) (fun _ _ => True) Run.IsCapture := by
  refine h.interns (fun u a hinterned _ => ?_) fun u v i place _ hgoes hisCapture => ?_
  · obtain ⟨scope, f⟩ := a
    obtain ⟨cs, hran⟩ := Closures.captureId_answers scope f u.closures
    have hrun := onClosures_of_ok hran
    have hgoes : u.Goes { u with closures := cs } := by
      have hends : (Update.closures (.capture scope f)).apply u = { u with closures := cs } := by
        change { u with closures := after (Closures.captureId scope f) u.closures } = _
        rw [after, hran]
      exact hends ▸ .single (.update _ trivial)
    have hindexed : cs.Indexed := (hgoes.interned hinterned).indexed.closures
    refine ⟨_, _, hrun, hgoes, hindexed.found (Closures.captureId_spec hran), ?_⟩
    rintro i k ⟨c, hfound, hliteral, hplace⟩
    refine Index.Injects.answer_eq_iff (Indexes.injects hinterned.indexed.closures) ?_
    refine (hinterned.indexed.closures _ _).mpr ⟨c, hfound, ?_⟩
    rw [Closure.place, hliteral, hplace]
  · obtain ⟨c, hfound, hliteral, hscope⟩ := hisCapture
    obtain ⟨c', hfound', hsame⟩ := hgoes.extends.closures _ c hfound
    have hliteral' : c'.func = c.func := congrArg Prod.fst hsame
    have hscope' : c'.scope = c.scope := congrArg Prod.snd hsame
    exact ⟨c', hfound', hliteral' ▸ hliteral, hscope' ▸ hscope⟩

/-- The cell of an allocation site. -/
theorem Run.Interned.create (h : s.Interned) :
    s.Interns (fun a : AllocSite × List (String × Ty) => onHeap (Heap.create a.1 a.2))
      Prod.fst (fun _ _ => True) Run.IsAllocated := by
  refine h.interns (fun u a hinterned _ => ?_) fun u v i site _ hgoes hisAllocated => ?_
  · obtain ⟨site, fields⟩ := a
    obtain ⟨cells, hran, hled⟩ := Heap.create_answers hinterned.indexed.heap site fields
    have hrun := onHeap_of_ok hran
    have hgoes : u.Goes { u with heap := cells } := by
      have hdoes : anyWalk.Does none u (onHeap (Heap.create site fields)) _ :=
        Discipline.Does.create (anyWalk.inv u) (anyWalk.live u _) (fun _ _ => anyWalk.live u _)
          fun _ _ => trivial
      have hgoes := Run.Goes.of_does hdoes
      rwa [after, hrun] at hgoes
    have hindexed : cells.Indexed := (hgoes.interned hinterned).indexed.heap
    refine ⟨_, _, hrun, hgoes, hindexed.found hled, ?_⟩
    rintro i k ⟨c, hfound, hisAllocated⟩
    refine Index.Injects.answer_eq_iff (Indexes.injects hinterned.indexed.heap) ?_
    exact (hinterned.indexed.heap _ _).mpr ⟨c, hfound, congrArg some hisAllocated⟩
  · obtain ⟨c, hfound, hisAllocated⟩ := hisAllocated
    obtain ⟨c', hfound', hsame⟩ := hgoes.extends.cells _ c hfound
    exact ⟨c', hfound', Eq.trans hsame hisAllocated⟩

/-- The constructor of a closure. -/
theorem Run.Interned.constructor (h : s.Interned) :
    s.Interns (fun a : ClosureId × Option String => onProtos (Protos.ctorFor a.1 a.2))
      Prod.fst (fun _ _ => True) Run.IsConstructor := by
  refine h.interns (fun u a hinterned _ => ?_) fun u v i closure _ hgoes hisConstructor => ?_
  · obtain ⟨closure, name⟩ := a
    obtain ⟨g, hran⟩ := Protos.ctorFor_answers closure name u.protos
    have hrun := onProtos_of_ok hran
    have hgoes : u.Goes { u with protos := g } := by
      have hends : (Update.protos (.ctor closure name)).apply u = { u with protos := g } := by
        change { u with protos := after (Protos.ctorFor closure name) u.protos } = _
        rw [after, hran]
      exact hends ▸ .single (.update _ trivial)
    have hindexed : g.Indexed := (hgoes.interned hinterned).indexed.protos
    refine ⟨_, _, hrun, hgoes, hindexed.find?_eq_some_iff.mp (Protos.ctorFor_spec hran), ?_⟩
    rintro i k ⟨c, hfound, hisConstructor⟩
    refine Index.Injects.answer_eq_iff (Indexes.injects hinterned.indexed.protos) ?_
    exact (hinterned.indexed.protos _ _).mpr ⟨c, hfound, hisConstructor⟩
  · obtain ⟨c, hfound, hisConstructor⟩ := hisConstructor
    obtain ⟨c', hfound', hsame⟩ := hgoes.extends.ctors _ c hfound
    exact ⟨c', hfound', (congrArg Prod.snd hsame).trans hisConstructor⟩

/-! ### Runs -/

/-- **Interning is exact.**  Whatever a run does, and whatever else is added to the tables, every
index is inverse to its table: it leads from a key exactly to the closure, the cell or the
constructor that carries the key, and from different activations to different scopes, none of them
the global one; in a run every other scope belongs to exactly one activation.  From every state on,
the scope of an activation is answered again exactly for the same closure, calling node and calling
scope; a closure for the same literal and scope; a cell for the same allocation site; a constructor
for the same closure.  The entries carry these keys for ever, and scopes hang below the scopes that
their closures were made in.  So two calls run in one scope only if they are of one closure, from
one node and in one scope. -/
theorem interning_exact (options : Options) (globals : Globals) :
    (∀ ps, (Run.start options globals).Goes
      (after (inferPrograms ps) (Run.start options globals))) ∧
    (∀ s : Run, (∀ a : Action, s.Goes (after a.run s)) ∧
      ∀ order, s.Goes (after (finish order) s)) ∧
    (∀ ps s, s.Reached options globals ps → (Run.start options globals).Goes s ∧
      ∀ id < s.env.scopes.size, id ≠ Env.global →
        ∃! key, s.env.activations.place? key = some id) ∧
    ∀ s, (Run.start options globals).Goes s →
      s.Indexed ∧
      s.Interns
        (fun a : ActivationKey × Closure =>
          Prod.fst <$> onEnv (Env.enter a.1 a.2.scope (some a.2.func.id)))
        Prod.fst (fun t a => t.closures.table[a.1.closure]? = some a.2) Run.IsActivation ∧
      s.Interns (fun a : ScopeId × Func => onClosures (Closures.captureId a.1 a.2))
        (fun a => (a.2.id, a.1)) (fun _ _ => True) Run.IsCapture ∧
      s.Interns (fun a : AllocSite × List (String × Ty) => onHeap (Heap.create a.1 a.2))
        Prod.fst (fun _ _ => True) Run.IsAllocated ∧
      s.Interns (fun a : ClosureId × Option String => onProtos (Protos.ctorFor a.1 a.2))
        Prod.fst (fun _ _ => True) Run.IsConstructor ∧
      s.Interns (fun a : Call × Closure => enterScope a.2 a.1) (fun a => a.1.key)
        (fun t a => t.closures.table[a.1.closure]? = some a.2) Run.IsActivation := by
  have hany {s : Run} (d : Dangling) : anyWalk.Live s d := anyWalk.live s d
  refine ⟨fun ps => ?_, fun s => ⟨fun a => ?_, fun order => ?_⟩, fun ps s hreached => ⟨?_, ?_⟩,
    fun s hgoes => ?_⟩
  · exact .of_does (Discipline.Does.inferPrograms trivial (anyWalk.inv _) fun _ _ _ _ => trivial)
  · exact .of_does (Discipline.Does.action (anyWalk.inv s) (fun _ _ => trivial) (fun d _ => hany d)
      fun _ _ => trivial)
  · exact .of_does (Discipline.Does.finish order rfl id trivial (anyWalk.inv s))
  · exact .of_steps hreached
  · exact fun id hinside hne => hreached.activated hinside hne
  · have hinterned := hgoes.interned (start_interned options globals)
    exact ⟨hinterned.indexed, hinterned.enter, hinterned.capture, hinterned.create,
      hinterned.constructor, hinterned.enterScope⟩

/-- `function f(x) {}`, called with a number and with a text. -/
def twoCalls : Program :=
  [⟨0, ⟨0, 0⟩, .function ⟨1, ⟨0, 0⟩, some "f", ["x"], []⟩⟩,
    ⟨2, ⟨0, 0⟩, .expr ⟨3, ⟨0, 0⟩, .call (some ⟨4, ⟨0, 0⟩, .ident "f"⟩)
      [⟨5, ⟨0, 0⟩, .literal .number⟩]⟩⟩,
    ⟨6, ⟨0, 0⟩, .expr ⟨7, ⟨0, 0⟩, .call (some ⟨8, ⟨0, 0⟩, .ident "f"⟩)
      [⟨9, ⟨0, 0⟩, .literal .string⟩]⟩⟩]

/-- The two calls run in scopes of their own, and at no later time would one of them run in the
scope of the other. -/
theorem interning_exact_twoCalls :
    let s := after (inferPrograms [twoCalls]) (Run.start ⟨2, 3, false, false⟩ [])
    let first : Call := ⟨0, .undefined, [], 3, Env.global, none⟩
    let second : Call := ⟨0, .undefined, [], 7, Env.global, none⟩
    (Run.start ⟨2, 3, false, false⟩ []).Goes s ∧ s.Indexed ∧
    s.env.activations.place? first.key = some 1 ∧ s.env.activations.place? second.key = some 2 ∧
    ∃ c id s', s.closures.table[0]? = some c ∧ enterScope c first s = .ok id s' ∧
      ∀ t c', s'.Goes t → t.closures.table[0]? = some c' →
        ∃ id' t', enterScope c' second t = .ok id' t' ∧ id' ≠ id := by
  intro s first second
  obtain ⟨hruns, -, -, hexactly⟩ := interning_exact ⟨2, 3, false, false⟩ []
  have hgoes := hruns [twoCalls]
  obtain ⟨c, hclosure⟩ : ∃ c, s.closures.table[0]? = some c :=
    Option.isSome_iff_exists.mp (by decide +kernel)
  obtain ⟨hindexed, -, -, -, -, hcalls⟩ := hexactly s hgoes
  obtain ⟨id, s', hran, hlater⟩ := hcalls (first, c) hclosure
  refine ⟨hgoes, hindexed, by decide +kernel, by decide +kernel, c, id, s', hclosure, hran,
    fun t c' hgoes hclosure' => ?_⟩
  obtain ⟨id', t', hran', hsame⟩ := (hlater t hgoes).2 (second, c') hclosure'
  refine ⟨id', t', hran', fun heq => ?_⟩
  have hsites : (7 : Nat) = 3 := congrArg ActivationKey.site (hsame.mp heq)
  cases hsites

end TypeFlow
