import Mathlib
import TypeFlow.Proofs.Engine.Coherence

/-!
# Repeating a computation

A computation that leaves the version as it is can be repeated: run once more, in a state with the
tables that came out, it does the same and changes no table.

## Main Definitions

* `Quiet` - tables of which only closures and empty scopes have grown
* `Echo` - a state in which a computation is repeated
* `Rerun` - a computation that does the same when it is repeated
* `Proceeds` - what is shown of two computations in a coherent state

## Main Statements

* `Proceeds.pure`, `Proceeds.bind`, `Proceeds.get` - the rules
* `Proceeds.ask`, `Proceeds.counted`, `Proceeds.note` - reads, updates that the version counts, and
  updates that do not concern the tables
* `Proceeds.around` - a computation between two changes of the state

## Design Notes

A computation is repeated with the tables that come out at the end of a longer one, which hold
everything that was added after it too.  What it looks up by a key is found at the same place there,
since tables only grow at their ends.  The running calls and the assumed results are those of the
first time.  Only whether an assumed result has been used may differ, for closures that were running
when the longer computation began.
-/

namespace TypeFlow

open Walk

/-! ### Quiet stretches -/

/-- All scopes are still there, as they were, and so are all activations. -/
structure Env.KeptIn (e e' : Env) : Prop where
  scopes : ∀ (σ : ScopeId) x, e.scopes[σ]? = some x → e'.scopes[σ]? = some x
  activations : e.activations.Extends e'.activations

theorem Env.KeptIn.refl (e : Env) : e.KeptIn e :=
  ⟨fun _ _ hfound => hfound, .refl _⟩

/-- Scopes that are kept twice are kept. -/
theorem Env.KeptIn.trans {e e' e'' : Env} (h : e.KeptIn e') (h' : e'.KeptIn e'') :
    e.KeptIn e'' :=
  ⟨fun σ x hfound => h'.scopes σ x (h.scopes σ x hfound), h.activations.trans h'.activations⟩

/-- Nothing that is counted has changed: cells and constructors are the same, scopes and closures
are the same as far as they were there, and are found as before. -/
structure Quiet (s t : Run) : Prop where
  changes : t.env.changes = s.env.changes
  scopes : s.env.KeptIn t.env
  closures : ∀ (k : ClosureId) c, s.closures.table[k]? = some c →
    t.closures.table[k]?.map Closure.outline = some c.outline
  captures : s.closures.bySite.Extends t.closures.bySite
  heap : t.heap = s.heap
  protos : t.protos = s.protos

namespace Quiet

variable {s t r : Run}

theorem refl (s : Run) : Quiet s s :=
  ⟨rfl, .refl _, fun _ _ hfound => by rw [hfound]; rfl, .refl _, rfl, rfl⟩

/-- What stays quiet twice has changed nothing that is counted. -/
theorem trans (h : Quiet s t) (h' : Quiet t r) : Quiet s r where
  changes := h'.changes.trans h.changes
  scopes := h.scopes.trans h'.scopes
  closures k c hfound := by
    obtain ⟨c', hfound', hsame⟩ := Option.map_eq_some_iff.mp (h.closures k c hfound)
    rw [h'.closures k c' hfound', hsame]
  captures := h.captures.trans h'.captures
  heap := h'.heap.trans h.heap
  protos := h'.protos.trans h.protos

/-- The version tells that nothing that is counted has changed. -/
theorem version (h : Quiet s t) : t.version = s.version := by
  rw [Run.version, Run.version, h.changes, h.heap, h.protos]

end Quiet

/-- Two states that differ in no table, and have the same options. -/
structure SameTables (s t : Run) : Prop where
  env : t.env = s.env
  closures : t.closures = s.closures
  heap : t.heap = s.heap
  protos : t.protos = s.protos
  options : t.options = s.options

namespace SameTables

variable {s t : Run}

/-- States with the same tables differ in nothing that is counted. -/
theorem quiet (h : SameTables s t) : Quiet s t where
  changes := by rw [h.env]
  scopes := by rw [h.env]; exact .refl _
  closures k c hfound := by rw [h.closures, hfound]; rfl
  captures := by rw [h.closures]; exact .refl _
  heap := h.heap
  protos := h.protos

end SameTables

/-- Whether a state is coherent is told by its tables. -/
theorem Run.Coherent.tables {s t : Run} {pending : Option (CtorId × ScopeId)}
    (h : s.Coherent pending) (hsame : SameTables s t) : t.Coherent pending := by
  obtain ⟨henv, hclosures, hheap, hprotos, hoptions⟩ := hsame
  obtain ⟨hindexed, hframed, hsettled⟩ := h
  have hindexed' : t.Indexed :=
    ⟨henv ▸ hindexed.env, hclosures ▸ hindexed.closures, hheap ▸ hindexed.heap,
      hprotos ▸ hindexed.protos⟩
  refine ⟨hindexed', by rw [henv, hclosures]; exact hframed, fun i cell a hfound hctor hne => ?_⟩
  rw [hheap] at hfound
  have hran := hsettled i cell a hfound hctor hne
  unfold Run.Ran Run.Stuck at hran ⊢
  rw [henv, hclosures, hprotos, hoptions]
  exact hran

/-- A state in which a computation is repeated that started in `u`, with the tables of `e`.  Which
assumed results have been used may differ for the closures in `base`. -/
structure Echo (base : ClosureId → Prop) (e u v : Run) : Prop where
  env : v.env = e.env
  heap : v.heap = e.heap
  protos : v.protos = e.protos
  closures : ∀ k : ClosureId,
    v.closures.table[k]?.map Closure.outline = e.closures.table[k]?.map Closure.outline
  captures : v.closures.bySite = e.closures.bySite
  options : v.options = u.options
  activations : v.activations = u.activations
  seeds : ∀ id, (v.solve? id).map (·.seed) = (u.solve? id).map (·.seed)
  solving : ∀ id, ¬ base id → v.solve? id = u.solve? id
  assumed : ∀ id, base id → (u.solve? id).isSome = true

namespace Echo

variable {base : ClosureId → Prop} {e u v : Run}

/-- A computation is repeated at the version at which it started. -/
theorem version (h : Echo base e u v) (hquiet : Quiet u e) : v.version = u.version := by
  rw [← hquiet.version, Run.version, Run.version, h.env, h.heap, h.protos]

/-- The same is assumed for a closure both times. -/
theorem insert (h : Echo base e u v) (k : ClosureId) (x : Solve) :
    Echo base e { u with solving := OrdMap.insert u.solving k x }
      { v with solving := OrdMap.insert v.solving k x } := by
  have solve? (s : Run) (id : ClosureId) :
      Run.solve? { s with solving := OrdMap.insert s.solving k x } id =
        if id = k then some x else s.solve? id := by
    split
    · next hsame => exact hsame ▸ OrdMap.get?_insert_self s.solving id x
    · next hne => exact OrdMap.get?_insert_of_ne s.solving x hne
  refine ⟨h.env, h.heap, h.protos, h.closures, h.captures, h.options, h.activations, fun id => ?_,
    fun id hne => ?_, fun id hmem => ?_⟩
  · rw [solve?, solve?]
    split
    · rfl
    · exact h.seeds id
  · rw [solve?, solve?, h.solving id hne]
  · rw [solve?]
    split
    · rfl
    · exact h.assumed id hmem

/-- An assumed result that is dropped the first time is dropped when it is repeated. -/
theorem dropSeed (h : Echo base e u v) {k : ClosureId} (hother : ¬ base k) :
    Echo base e (u.dropSeed k) (v.dropSeed k) := by
  have solve? (s : Run) (id : ClosureId) :
      (s.dropSeed k).solve? id = if id = k then none else s.solve? id := by
    split
    · next hsame => exact hsame ▸ OrdMap.get?_erase_self s.solving id
    · next hne => exact OrdMap.get?_erase_of_ne s.solving hne
  refine ⟨h.env, h.heap, h.protos, h.closures, h.captures, h.options, h.activations, fun id => ?_,
    fun id hother => ?_, fun id hmem => ?_⟩
  · rw [solve?, solve?]
    split
    · rfl
    · exact h.seeds id
  · rw [solve?, solve?, h.solving id hother]
  · have hne : id ≠ k := fun hsame => hother (hsame ▸ hmem)
    rw [solve?, if_neg hne]
    exact h.assumed id hmem

end Echo

/-- A computation that went from `u` to `t` with the result `a` does the same when it is repeated,
with the tables of any later state. -/
structure Rerun {α : Type} (but : Option ClosureId) (u : Run) (m : Walk α) (a : α) (t : Run) :
    Prop where
  quiet : Quiet u t
  again : ∀ base e v, (∀ k, but = some k → ¬ base k) → Quiet t e → Echo base e u v →
    ∃ v', m v = .ok a v' ∧ Echo base e t v'

/-- What is shown of two computations in a state: they do the same, keep the running calls and leave
a state as it should be; and the first one can be repeated when the version stays, if it has to. -/
structure Proceeds (inside : Prop) (but : Option ClosureId) (u : Run) {α : Type} (m m' : Walk α)
    (Q : α → Run → Prop) : Prop where
  same : m' u = m u
  lead : anyWalk.Leads but u (after m u)
  tail : (after m u).activations.tail = u.activations.tail
  ok : ∀ a t, m u = .ok a t → Q a t
  stop : ∀ e t, m u = .error (.malformed e) t → t.Coherent none
  rerun : inside → ∀ a t, m u = .ok a t → t.version = u.version → Rerun but u m a t

/-! ### Rules -/

section Rules

variable {inside : Prop} {but : Option ClosureId} {u : Run} {α β : Type}
variable {m m' : Walk α} {f f' : α → Walk β} {Q Q' : α → Run → Prop} {R : β → Run → Prop}

theorem after_of_ok {a : α} {t : Run} (hran : m u = .ok a t) : after m u = t := by
  rw [after, hran]

theorem after_of_error {e : Fault} {t : Run} (hran : m u = .error e t) : after m u = t := by
  rw [after, hran]

/-- What is shown of the result may be weakened. -/
theorem Proceeds.mono (h : Proceeds inside but u m m' Q)
    (hweaker : ∀ a t, anyWalk.Leads but u t → Q a t → Q' a t) : Proceeds inside but u m m' Q' :=
  ⟨h.same, h.lead, h.tail, fun a t hran => hweaker a t (after_of_ok hran ▸ h.lead) (h.ok a t hran),
    h.stop, h.rerun⟩

/-- A fact about the outcome of a computation may be added to what is shown of it. -/
theorem Proceeds.also (h : Proceeds inside but u m m' Q) (hfact : ∀ a t, m u = .ok a t → Q' a t) :
    Proceeds inside but u m m' fun a t => Q a t ∧ Q' a t :=
  ⟨h.same, h.lead, h.tail, fun a t hran => ⟨h.ok a t hran, hfact a t hran⟩, h.stop, h.rerun⟩

theorem Proceeds.imp {inside' : Prop} (h : Proceeds inside but u m m' Q)
    (hneeds : inside' → inside) :
    Proceeds inside' but u m m' Q :=
  ⟨h.same, h.lead, h.tail, h.ok, h.stop, fun hhere => h.rerun (hneeds hhere)⟩

/-- The second computation matters only in the state in question. -/
theorem Proceeds.congr {m'' : Walk α} (h : Proceeds inside but u m m' Q) (hsame : m'' u = m' u) :
    Proceeds inside but u m m'' Q :=
  ⟨hsame.trans h.same, h.lead, h.tail, h.ok, h.stop, h.rerun⟩

theorem Proceeds.weaken (h : Proceeds inside none u m m' Q) : Proceeds inside but u m m' Q where
  same := h.same
  lead := h.lead.weaken
  tail := h.tail
  ok := h.ok
  stop := h.stop
  rerun hhere a t hran hversion := by
    obtain ⟨hquiet, hagain⟩ := h.rerun hhere a t hran hversion
    exact ⟨hquiet, fun base e v _ => hagain base e v nofun⟩

/-- A value is given again, in a state that is left alone. -/
theorem Proceeds.pure {a : α} (hholds : Q a u) : Proceeds inside but u (pure a) (pure a) Q where
  same := rfl
  lead := Discipline.Leads.refl u
  tail := rfl
  ok b t hran := by
    cases hran
    exact hholds
  stop e t hran := nomatch hran
  rerun _ b t hran _ := by
    cases hran
    exact ⟨.refl u, fun _ _ v _ _ hecho => ⟨v, rfl, hecho⟩⟩

/-- What follows a computation that raises the version need not be repeated. -/
theorem Proceeds.bindCounted (hfirst : Proceeds inside but u m m' Q)
    (hnext : ∀ a t, anyWalk.Leads but u t → Q a t →
      Proceeds (inside ∧ t.version = u.version) but t (f a) (f' a) R) :
    Proceeds inside but u (m >>= f) (m' >>= f') R := by
  have happly (v : Run) := bind_apply m f v
  cases hran : m u with
  | error e t =>
    have hrun : (m >>= f) u = .error e t := by rw [happly, hran]
    have hleft := after_of_error hrun
    rw [← after_of_error hran] at hleft
    refine ⟨?_, hleft ▸ hfirst.lead, hleft ▸ hfirst.tail, ?_, ?_, ?_⟩
    · rw [bind_apply, hrun, hfirst.same, hran]
    · intro b r heq
      cases hrun.symm.trans heq
    · intro e' r heq
      cases hrun.symm.trans heq
      exact hfirst.stop e' t hran
    · intro _ b r heq
      cases hrun.symm.trans heq
  | ok a t =>
    have hlead : anyWalk.Leads but u t := after_of_ok hran ▸ hfirst.lead
    have hsecond := hnext a t hlead (hfirst.ok a t hran)
    have hrun : (m >>= f) u = f a t := by rw [happly, hran]
    have hleft : after (m >>= f) u = after (f a) t := by rw [after, after, hrun]
    refine ⟨?_, hleft ▸ hlead.trans hsecond.lead, ?_, ?_, ?_, ?_⟩
    · rw [bind_apply, hfirst.same, hran, hrun]
      exact hsecond.same
    · rw [hleft, hsecond.tail, ← hfirst.tail, after_of_ok hran]
    · exact fun b r heq => hsecond.ok b r (hrun ▸ heq)
    · exact fun e r heq => hsecond.stop e r (hrun ▸ heq)
    · intro hhere b r heq hversion
      replace heq : f a t = .ok b r := hrun.symm.trans heq
      -- the version grows neither in the first part nor in the second one
      have hle := Run.version_le_of_steps hlead.steps
      have hle' := Run.version_le_of_steps hsecond.lead.steps
      rw [after_of_ok heq] at hle'
      have hrerun := hfirst.rerun hhere a t hran (by omega)
      have hrerun' := hsecond.rerun ⟨hhere, by omega⟩ b r heq (by omega)
      refine ⟨hrerun.quiet.trans hrerun'.quiet, fun base e v hother hquiet hecho => ?_⟩
      obtain ⟨v₁, ran₁, echo₁⟩ := hrerun.again base e v hother (hrerun'.quiet.trans hquiet) hecho
      obtain ⟨v₂, ran₂, echo₂⟩ := hrerun'.again base e v₁ hother hquiet echo₁
      exact ⟨v₂, by rw [happly, ran₁]; exact ran₂, echo₂⟩

/-- Computations one after the other.  When the version stays over both it stays over each, so the
first one is repeated with the tables that the second one left. -/
theorem Proceeds.bind (hfirst : Proceeds inside but u m m' Q)
    (hnext : ∀ a t, anyWalk.Leads but u t → Q a t → Proceeds inside but t (f a) (f' a) R) :
    Proceeds inside but u (m >>= f) (m' >>= f') R :=
  hfirst.bindCounted fun a t hlead hholds => (hnext a t hlead hholds).imp And.left

/-- Reading the state: what is done next may depend on what is the same when it is repeated. -/
theorem Proceeds.get {g g' : Run → Walk α} (hnext : Proceeds inside but u (g u) (g' u) Q)
    (hsame : ∀ base e v, (∀ k, but = some k → ¬ base k) → Quiet u e → Echo base e u v → g v = g u) :
    Proceeds inside but u (get >>= g) (get >>= g') Q where
  same := hnext.same
  lead := hnext.lead
  tail := hnext.tail
  ok := hnext.ok
  stop := hnext.stop
  rerun hhere a t hran hversion := by
    obtain ⟨hquiet, hagain⟩ := hnext.rerun hhere a t hran hversion
    refine ⟨hquiet, fun base e v hother hlater hecho => ?_⟩
    obtain ⟨v', hran', hecho'⟩ := hagain base e v hother hlater hecho
    refine ⟨v', ?_, hecho'⟩
    change g v v = _
    rw [hsame base e v hother (hquiet.trans hlater) hecho]
    exact hran'

/-- A test on values comes out the same when it is repeated. -/
theorem Proceeds.ite {c : Prop} [Decidable c] {n n' : Walk α}
    (hproceeds : c → Proceeds inside but u m m' Q)
    (hproceeds' : ¬ c → Proceeds inside but u n n' Q) :
    Proceeds inside but u (if c then m else n) (if c then m' else n') Q := by
  split
  · exact hproceeds ‹_›
  · exact hproceeds' ‹_›

/-- A malformation stops the computation again. -/
theorem Proceeds.malformed (hcoherent : u.Coherent none) (kind : Malformation) (node : NodeId)
    (span : Span) : Proceeds inside but u (Walk.malformed kind node span : Walk α)
      (Walk.malformed kind node span) Q where
  same := rfl
  lead := Discipline.Leads.refl u
  tail := rfl
  ok a t hran := nomatch hran
  stop e t hran := by
    cases hran
    exact hcoherent
  rerun _ a t hran := nomatch hran

/-- A computation on a closure that is read from the table. -/
theorem askClosure_apply (id : ClosureId) (g : Closure → Walk α) (s : Run) :
    ((Walk.ask fun s => s.closures.closure id) >>= g) s =
      match s.closures.table[id]? with
      | none => .error (.dangling (.closure id)) s
      | some c => g c s := by
  rw [bind_apply, Walk.ask, Closures.closure]
  cases s.closures.table[id]? <;> rfl

/-- Following the handle of a closure: what is done next may depend on its outline only. -/
theorem Proceeds.askClosure {id : ClosureId} {g g' : Closure → Walk α}
    (houtline : ∀ c c', c'.outline = c.outline → g c' = g c)
    (hnext : ∀ c, u.closures.table[id]? = some c → Proceeds inside but u (g c) (g' c) Q) :
    Proceeds inside but u ((Walk.ask fun s => s.closures.closure id) >>= g)
      ((Walk.ask fun s => s.closures.closure id) >>= g') Q := by
  cases hfound : u.closures.table[id]? with
  | none =>
    have hstops := askClosure_apply id g u
    have hstops' := askClosure_apply id g' u
    rw [hfound] at hstops hstops'
    have hleft := after_of_error hstops
    refine ⟨hstops'.trans hstops.symm, hleft.symm ▸ Discipline.Leads.refl u, by rw [hleft],
      ?_, ?_, ?_⟩
    · intro a t hran
      cases hstops.symm.trans hran
    · intro e t hran
      cases hstops.symm.trans hran
    · intro _ a t hran
      cases hstops.symm.trans hran
  | some c =>
    have hgoes := askClosure_apply id g u
    have hgoes' := askClosure_apply id g' u
    rw [hfound] at hgoes hgoes'
    dsimp only at hgoes hgoes'
    have hleft : after ((Walk.ask fun s => s.closures.closure id) >>= g) u = after (g c) u := by
      rw [after, after, hgoes]
    obtain ⟨hsame, hlead, htail, hok, hstop, hrerun⟩ := hnext c hfound
    refine ⟨by rw [hgoes, hgoes', hsame], hleft ▸ hlead, hleft ▸ htail, ?_, ?_, ?_⟩
    · exact fun a t hran => hok a t (hgoes ▸ hran)
    · exact fun e t hran => hstop e t (hgoes ▸ hran)
    · intro hhere a t hran hversion
      obtain ⟨hquiet, hagain⟩ := hrerun hhere a t (hgoes ▸ hran) hversion
      refine ⟨hquiet, fun base e v hother hlater hecho => ?_⟩
      obtain ⟨v', hran', hecho'⟩ := hagain base e v hother hlater hecho
      -- when it is repeated the closure may have another signature, but it has the same outline
      have hkept := (hecho.closures id).trans ((hquiet.trans hlater).closures id c hfound)
      obtain ⟨c', hfound', houtline'⟩ := Option.map_eq_some_iff.mp hkept
      refine ⟨v', ?_, hecho'⟩
      rw [askClosure_apply, hfound']
      dsimp only
      rw [houtline c c' houtline']
      exact hran'

/-- Following handles. -/
theorem Proceeds.ask {look : Run → Except Dangling α} (hholds : ∀ a, look u = .ok a → Q a u)
    (hreads : ∀ base e v a, Quiet u e → Echo base e u v → look u = .ok a → look v = .ok a) :
    Proceeds inside but u (Walk.ask look) (Walk.ask look) Q := by
  cases hfound : look u with
  | error d =>
    have hstops : Walk.ask look u = .error (.dangling d) u := by rw [Walk.ask, hfound]
    have hleft := after_of_error hstops
    refine ⟨rfl, hleft.symm ▸ Discipline.Leads.refl u, by rw [hleft], ?_, ?_, ?_⟩
    · intro a t hran
      cases hstops.symm.trans hran
    · intro e t hran
      cases hstops.symm.trans hran
    · intro _ a t hran
      cases hstops.symm.trans hran
  | ok a =>
    have hsucceeds : Walk.ask look u = .ok a u := by rw [Walk.ask, hfound]
    have hleft := after_of_ok hsucceeds
    refine ⟨rfl, hleft.symm ▸ Discipline.Leads.refl u, by rw [hleft], ?_, ?_, ?_⟩
    · intro b t hran
      cases hsucceeds.symm.trans hran
      exact hholds a hfound
    · intro e t hran
      cases hsucceeds.symm.trans hran
    · intro _ b t hran _
      cases hsucceeds.symm.trans hran
      refine ⟨.refl u, fun base e v _ hquiet hecho => ⟨v, ?_, hecho⟩⟩
      rw [Walk.ask, hreads base e v a hquiet hecho hfound]

end Rules

/-! ### Single steps -/

section Steps

variable {inside : Prop} {but : Option ClosureId} {u : Run} {α : Type} {m : Walk α}
variable {P Q : α → Run → Prop}

/-- A step that leaves the state as it is unless the version grows. -/
theorem Proceeds.counted (hdoes : anyWalk.Does but u m P)
    (hcalls : (after m u).activations = u.activations)
    (hfollows : ∀ e t, m u ≠ .error (.malformed e) t) (hholds : ∀ a t, m u = .ok a t → Q a t)
    (hcounts : ∀ a t, m u = .ok a t → t.version = u.version →
      t = u ∧ ∀ base e v, Quiet u e → Echo base e u v → m v = .ok a v) :
    Proceeds inside but u m m Q where
  same := rfl
  lead := (hdoes u rfl).after.2
  tail := by rw [hcalls]
  ok := hholds
  stop e t hran := absurd hran (hfollows e t)
  rerun _ a t hran hversion := by
    obtain ⟨rfl, heq⟩ := hcounts a t hran hversion
    exact ⟨.refl t, fun base e v _ hquiet hecho => ⟨v, heq base e v hquiet hecho, hecho⟩⟩

/-- A step on one part of the state. -/
theorem Proceeds.onPart {σ : Type} {op : EStateM Dangling σ α} (part : Run → σ)
    (put : σ → Run → Run)
    (hsucceeds : ∀ s a x, op (part s) = .ok a x → m s = .ok a (put x s))
    (hstops : ∀ s d x, op (part s) = .error d x → m s = .error (.dangling d) (put x s))
    (hrestore : ∀ s, put (part s) s = s) (hcalls : ∀ x, (put x u).activations = u.activations)
    (hdoes : anyWalk.Does but u m P) (hholds : ∀ a x, op (part u) = .ok a x → Q a (put x u))
    (hcounts : ∀ a x, op (part u) = .ok a x → (put x u).version = u.version → x = part u ∧
      ∀ base e v, Quiet u e → Echo base e u v → op (part v) = .ok a (part v)) :
    Proceeds inside but u m m Q := by
  cases hran : op (part u) with
  | error d x =>
    replace hstops := hstops u d x hran
    refine .counted hdoes ?_ ?_ ?_ ?_
    · rw [after_of_error hstops, hcalls]
    · exact fun e t heq => nomatch hstops.symm.trans heq
    · exact fun a t heq => nomatch hstops.symm.trans heq
    · exact fun a t heq => nomatch hstops.symm.trans heq
  | ok a x =>
    have heq' := hsucceeds u a x hran
    refine .counted hdoes ?_ ?_ ?_ ?_
    · rw [after_of_ok heq', hcalls]
    · exact fun e t heq => nomatch heq'.symm.trans heq
    · intro b t heq
      cases heq'.symm.trans heq
      exact hholds a x hran
    · intro b t heq hversion
      cases heq'.symm.trans heq
      obtain ⟨rfl, hagain⟩ := hcounts a x hran hversion
      refine ⟨hrestore u, fun base e v hquiet hecho => ?_⟩
      rw [hsucceeds v a (part v) (hagain base e v hquiet hecho), hrestore]

/-- An operation on the environment proceeds when, unless it is counted, it changes nothing, and
answers the same in every environment that the given one is kept in. -/
theorem Proceeds.onEnv {op : EStateM Dangling Env α} (hdoes : anyWalk.Does but u (onEnv op) P)
    (hholds : ∀ a x, op u.env = .ok a x → Q a { u with env := x })
    (hcounts : ∀ a x, op u.env = .ok a x → x.changes = u.env.changes → x = u.env ∧
      ∀ y, u.env.KeptIn y → op y = .ok a y) :
    Proceeds inside but u (Walk.onEnv op) (Walk.onEnv op) Q := by
  refine .onPart Run.env (fun x s => { s with env := x })
    (fun _ _ _ hran => by simp only [Walk.onEnv, hran])
    (fun _ _ _ hran => by simp only [Walk.onEnv, hran]) (fun _ => rfl)
    (fun _ => rfl) hdoes hholds ?_
  intro a x hran hversion
  simp only [Run.version] at hversion
  obtain ⟨hsame, heq⟩ := hcounts a x hran (by omega)
  refine ⟨hsame, fun base e v hquiet hecho => ?_⟩
  rw [hecho.env]
  exact heq e.env hquiet.scopes

/-- The same for the heap, which is the same when nothing is counted. -/
theorem Proceeds.onHeap {op : EStateM Dangling Heap α} (hdoes : anyWalk.Does but u (onHeap op) P)
    (hholds : ∀ a h, op u.heap = .ok a h → Q a { u with heap := h })
    (hcounts : ∀ a h, op u.heap = .ok a h → h.changes = u.heap.changes → h = u.heap) :
    Proceeds inside but u (Walk.onHeap op) (Walk.onHeap op) Q := by
  refine .onPart Run.heap (fun h s => { s with heap := h })
    (fun _ _ _ hran => by simp only [Walk.onHeap, hran])
    (fun _ _ _ hran => by simp only [Walk.onHeap, hran]) (fun _ => rfl)
    (fun _ => rfl) hdoes hholds ?_
  intro a h hran hversion
  simp only [Run.version] at hversion
  cases hcounts a h hran (by omega)
  refine ⟨rfl, fun base e v hquiet hecho => ?_⟩
  rw [hecho.heap, hquiet.heap]
  exact hran

/-- The same for the prototype graph, which is the same when nothing is counted. -/
theorem Proceeds.onProtos {op : EStateM Dangling Protos α}
    (hdoes : anyWalk.Does but u (onProtos op) P)
    (hholds : ∀ a g, op u.protos = .ok a g → Q a { u with protos := g })
    (hcounts : ∀ a g, op u.protos = .ok a g → g.changes = u.protos.changes → g = u.protos) :
    Proceeds inside but u (Walk.onProtos op) (Walk.onProtos op) Q := by
  refine .onPart Run.protos (fun g s => { s with protos := g })
    (fun _ _ _ hran => by simp only [Walk.onProtos, hran])
    (fun _ _ _ hran => by simp only [Walk.onProtos, hran]) (fun _ => rfl)
    (fun _ => rfl) hdoes hholds ?_
  intro a g hran hversion
  simp only [Run.version] at hversion
  cases hcounts a g hran (by omega)
  refine ⟨rfl, fun base e v hquiet hecho => ?_⟩
  rw [hecho.protos, hquiet.protos]
  exact hran

end Steps

/-! ### Notes for the report -/

/-- What a walk works with: not what is collected for the report. -/
def Run.core (s : Run) : Run :=
  { s with
    nodeTypes := []
    funcScopes := []
    accessSites := []
    seeded := []
    unbound := []
    errors := []
    log := #[] }

section Core

variable {s t : Run}

/-- Tables belong to what a walk works with. -/
theorem SameTables.core (hsame : t.core = s.core) : SameTables s t :=
  ⟨(congrArg Run.env hsame :), (congrArg Run.closures hsame :), (congrArg Run.heap hsame :),
    (congrArg Run.protos hsame :), (congrArg Run.options hsame :)⟩

theorem Run.core_activations (hsame : t.core = s.core) : t.activations = s.activations :=
  (congrArg Run.activations hsame :)

theorem Run.core_solve? (hsame : t.core = s.core) (id : ClosureId) : t.solve? id = s.solve? id :=
  (congrArg (fun r => OrdMap.get? r.solving id) hsame :)

/-- What is collected for the report does not matter when a computation is repeated. -/
theorem Echo.core {base : ClosureId → Prop} {e u v u' v' : Run} (h : Echo base e u v)
    (hsame : u'.core = u.core) (hsame' : v'.core = v.core) : Echo base e u' v' := by
  have htables := SameTables.core hsame
  have htables' := SameTables.core hsame'
  exact {
    env := htables'.env.trans h.env
    heap := htables'.heap.trans h.heap
    protos := htables'.protos.trans h.protos
    closures := fun k => by rw [htables'.closures, h.closures]
    captures := by rw [htables'.closures, h.captures]
    options := by rw [htables.options, htables'.options, h.options]
    activations := by rw [Run.core_activations hsame, Run.core_activations hsame', h.activations]
    seeds := fun id => by rw [Run.core_solve? hsame, Run.core_solve? hsame', h.seeds]
    solving := fun id hother => by
      rw [Run.core_solve? hsame, Run.core_solve? hsame', h.solving id hother]
    assumed := fun id hmem => by rw [Run.core_solve? hsame, h.assumed id hmem] }

end Core

/-- A change of what is collected for the report proceeds. -/
theorem Proceeds.note {inside : Prop} {but : Option ClosureId} {u : Run} {change : Run → Run}
    {P Q : Unit → Run → Prop} (hdoes : anyWalk.Does but u (modify change) P)
    (hsame : ∀ s, (change s).core = s.core) (hholds : Q () (change u)) :
    Proceeds inside but u (modify change) (modify change) Q where
  same := rfl
  lead := (hdoes u rfl).after.2
  tail := by
    change (change u).activations.tail = u.activations.tail
    rw [Run.core_activations (hsame u)]
  ok a t hran := by
    cases hran
    exact hholds
  stop e t hran := nomatch hran
  rerun _ a t hran _ := by
    cases hran
    refine ⟨(SameTables.core (hsame u)).quiet, fun base e v _ _ hecho => ?_⟩
    exact ⟨change v, rfl, hecho.core (hsame u) (hsame v)⟩

/-! ### Computations in a changed state -/

section Around

variable {inside : Prop} {but but' : Option ClosureId} {u : Run} {α β : Type} {m m' : Walk α}
variable {n n' : Walk β} {Q : α → Run → Prop} {R : β → Run → Prop}

/-- A computation in a state that is changed before it and after it, also when it stops. -/
structure Around (prep post : Run → Run) (result : α → Run → β) (m : Walk α) (n : Walk β) :
    Prop where
  ok : ∀ {s a t}, m (prep s) = .ok a t → n s = .ok (result a t) (post t)
  error : ∀ {s e t}, m (prep s) = .error e t → n s = .error e (post t)

/-- The changes before and after it do not concern the tables. -/
theorem Proceeds.around {prep post : Run → Run} {result : α → Run → β}
    (h : Proceeds inside but' (prep u) m m' Q) (hrun : Around prep post result m n)
    (hrun' : Around prep post result m' n') (hsameTables : SameTables u (prep u))
    (hbehind : ∀ t, SameTables t (post t))
    (hlead : ∀ t, anyWalk.Leads but' (prep u) t → anyWalk.Leads but u (post t))
    (htail : ∀ t, t.activations.tail = (prep u).activations.tail →
      (post t).activations.tail = u.activations.tail)
    (hholds : ∀ a t, Q a t → R (result a t) (post t))
    (henters : ∀ base e v, (∀ k, but = some k → ¬ base k) → Echo base e u v →
      (∀ k, but' = some k → ¬ base k) ∧ Echo base e (prep u) (prep v))
    (hleaves : ∀ base e t v a, (∀ k, but' = some k → ¬ base k) → Echo base e t v →
      Echo base e (post t) (post v) ∧ result a v = result a t) :
    Proceeds inside but u n n' R := by
  have hstarted : (prep u).version = u.version := hsameTables.quiet.version
  cases hran : m (prep u) with
  | error e t =>
    have hstops := hrun.error hran
    have hleft := after_of_error hstops
    have hinner := after_of_error hran
    refine ⟨(hrun'.error (h.same.trans hran)).trans hstops.symm, hleft ▸ hlead t (hinner ▸ h.lead),
      ?_, ?_, ?_, ?_⟩
    · exact hleft ▸ htail t (hinner ▸ h.tail)
    · exact fun b r heq => nomatch hstops.symm.trans heq
    · intro d r heq
      cases hstops.symm.trans heq
      exact (h.stop d t hran).tables (hbehind t)
    · exact fun _ b r heq => nomatch hstops.symm.trans heq
  | ok a t =>
    have hgoes := hrun.ok hran
    have hleft := after_of_ok hgoes
    have hinner := after_of_ok hran
    refine ⟨(hrun'.ok (h.same.trans hran)).trans hgoes.symm, hleft ▸ hlead t (hinner ▸ h.lead),
      ?_, ?_, ?_, ?_⟩
    · exact hleft ▸ htail t (hinner ▸ h.tail)
    · intro b r heq
      cases hgoes.symm.trans heq
      exact hholds a t (h.ok a t hran)
    · exact fun d r heq => nomatch hgoes.symm.trans heq
    · intro hhere b r heq hversion
      cases hgoes.symm.trans heq
      -- what stands around the computation changes no table, so the version stays inside too
      have hended : (post t).version = t.version := (hbehind t).quiet.version
      obtain ⟨hquiet, hagain⟩ := h.rerun hhere a t hran (by omega)
      refine ⟨(hsameTables.quiet.trans hquiet).trans (hbehind t).quiet,
        fun base e v hother hlater hecho => ?_⟩
      obtain ⟨hother', hecho'⟩ := henters base e v hother hecho
      have hquiet' := (hbehind t).quiet.trans hlater
      obtain ⟨v', hran', hecho''⟩ := hagain base e (prep v) hother' hquiet' hecho'
      obtain ⟨hechoes, hsame⟩ := hleaves base e t v' a hother' hecho''
      exact ⟨post v', by rw [hrun.ok hran', hsame], hechoes⟩

end Around

end TypeFlow
