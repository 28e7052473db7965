import Mathlib
import TypeFlow.Proofs.Engine.Stack
import TypeFlow.Proofs.Engine.Widening

/-!
# Coherent states

What is true of the tables at every point of a run, beyond the types in them.  A scope tells which
calls run when a walk stands in it, a captured literal tells whether its closure is marked, and an
instance tells that its constructor has run, or that it cannot run.

## Main Definitions

* `StackOf` - the closures whose calls lead to a scope, innermost first
* `Framed` - scopes come after their parents, and closures are marked as their literals tell
* `Run.Stuck` - a closure whose body is not run by a call from a scope
* `Run.Settled` - constructors with instances have run, or are stuck
* `Run.Coherent` - both, and indices that agree with the tables
* `Run.At` - a walk stands in a scope, inside of a function or outside of all
* `Run.Later` - a state whose tables have grown from those of another one

## Main Statements

* `StackOf.unique` - a scope determines the calls that lead to it
* `Run.later_of_steps` - a run only makes tables grow
* `Run.Coherent.apply` - most updates keep a state coherent
* `Run.Coherent.enter`, `Run.Coherent.captured` - so do new scopes and new closures

## Design Notes

The version of a state does not count closures, empty scopes and the flag of constructors that have
run.  Coherence says that nothing is lost by this: the first two are found again, and the flag is
set as soon as there is an instance, which is counted.
-/

namespace TypeFlow

/-! ### The calls that lead to a scope -/

/-- The closures whose calls lead to a scope, innermost first. -/
inductive StackOf (e : Env) : List ClosureId → ScopeId → Prop where
  | outside {σ : ScopeId} : σ < e.scopes.size → (∀ key, e.activations.place? key ≠ some σ) →
      StackOf e [] σ
  | inside {σ : ScopeId} {key : ActivationKey} {stack : List ClosureId} :
      e.activations.place? key = some σ → StackOf e stack key.caller →
        StackOf e (key.closure :: stack) σ

/-- A scope determines the calls that lead to it. -/
theorem StackOf.unique {e : Env} (hindexed : e.Indexed) {σ : ScopeId}
    {stack stack' : List ClosureId} (h : StackOf e stack σ) (h' : StackOf e stack' σ) :
    stack = stack' := by
  induction h generalizing stack' with
  | outside _ hnone =>
    cases h' with
    | outside => rfl
    | inside hled => exact absurd hled (hnone _)
  | inside hled _ ih =>
    cases h' with
    | outside _ hnone => exact absurd hled (hnone _)
    | inside hled' hrest =>
      cases hindexed.injects.apart hled hled'
      rw [ih hrest]

/-! ### States that have grown -/

/-- The tables have grown: entries keep their identity, new activations have new scopes, marks of
closures and of constructors that have run stay, and so do the options. -/
structure Run.Later (s t : Run) : Prop where
  tables : s.Extends t
  fresh : ∀ key σ, t.env.activations.place? key = some σ → σ < s.env.scopes.size →
    s.env.activations.place? key = some σ
  options : t.options = s.options
  marks : ∀ (k : ClosureId) c, s.closures.table[k]? = some c → c.selfReferential = true →
    ∃ c', t.closures.table[k]? = some c' ∧ c'.selfReferential = true
  analysed : ∀ (k : CtorId) c, s.protos.ctors[k]? = some c → c.analysed = true →
    ∃ c', t.protos.ctors[k]? = some c' ∧ c'.analysed = true

namespace Run.Later

variable {s t r : Run}

theorem refl (s : Run) : s.Later s :=
  ⟨.refl s, fun _ _ hled _ => hled, rfl, fun _ c hfound hmarked => ⟨c, hfound, hmarked⟩,
    fun _ c hfound hdone => ⟨c, hfound, hdone⟩⟩

/-- A state that is later than a later one is later. -/
theorem trans (h : s.Later t) (h' : t.Later r) : s.Later r where
  tables := h.tables.trans h'.tables
  fresh key σ hled hinside :=
    h.fresh key σ (h'.fresh key σ hled (Nat.lt_of_lt_of_le hinside h.tables.scopes.size_le)) hinside
  options := h'.options.trans h.options
  marks k c hfound hmarked := by
    obtain ⟨c', hfound', hmarked'⟩ := h.marks k c hfound hmarked
    exact h'.marks k c' hfound' hmarked'
  analysed k c hfound hdone := by
    obtain ⟨c', hfound', hdone'⟩ := h.analysed k c hfound hdone
    exact h'.analysed k c' hfound' hdone'

/-- A closure keeps its literal and its scope. -/
theorem literal (h : s.Later t) {k : ClosureId} {c : Closure}
    (hfound : s.closures.table[k]? = some c) :
    ∃ c', t.closures.table[k]? = some c' ∧ c'.func = c.func ∧ c'.scope = c.scope := by
  obtain ⟨c', hfound', hsame⟩ := h.tables.closures k c hfound
  exact ⟨c', hfound', congrArg Prod.fst hsame, congrArg Prod.snd hsame⟩

/-- A scope that belonged to no activation still belongs to none. -/
theorem outside (h : s.Later t) {σ : ScopeId} (hinside : σ < s.env.scopes.size)
    (hnone : ∀ key, s.env.activations.place? key ≠ some σ) (key : ActivationKey) :
    t.env.activations.place? key ≠ some σ :=
  fun hled => hnone key (h.fresh key σ hled hinside)

/-- A constructor keeps its closure. -/
theorem ctor (h : s.Later t) {k : CtorId} {c : Ctor} (hfound : s.protos.ctors[k]? = some c) :
    ∃ c', t.protos.ctors[k]? = some c' ∧ c'.closure = c.closure := by
  obtain ⟨c', hfound', hsame⟩ := h.tables.ctors k c hfound
  exact ⟨c', hfound', congrArg Prod.snd hsame⟩

end Run.Later

/-- The calls that lead to a scope stay the same. -/
theorem StackOf.later {s t : Run} {σ : ScopeId} {stack : List ClosureId}
    (h : StackOf s.env stack σ) (hlater : s.Later t) : StackOf t.env stack σ := by
  induction h with
  | outside hinside hnone =>
    exact .outside (Nat.lt_of_lt_of_le hinside hlater.tables.scopes.size_le)
      (hlater.outside hinside hnone)
  | inside hled _ ih => exact .inside (hlater.tables.activations _ _ hled) ih

/-- A closure that returns only itself stays marked. -/
theorem Closures.Write.marks (w : Closures.Write) (cs : Closures) :
    Grows (fun c c' => c.selfReferential = true → c'.selfReferential = true) cs.table
      (w.apply cs).table := by
  have hrefl (c : Closure) (hmarked : c.selfReferential = true) :
      c.selfReferential = true := hmarked
  cases w with
  | capture scope f =>
    rcases Closures.after_captureId cs scope f with hsame | ⟨-, heq⟩
    · rw [Closures.Write.apply, hsame]
      exact Grows.refl hrefl _
    · rw [Closures.Write.apply, heq]
      exact Grows.push hrefl _ _
  | record id args ret =>
    rcases Closures.after_recordCall cs id args ret with hsame | heq
    · rw [Closures.Write.apply, hsame]
      exact Grows.refl hrefl _
    · rw [Closures.Write.apply, heq]
      exact Grows.modify hrefl fun c _ hmarked => hmarked
  | mark id =>
    rcases Closures.after_markSelfReferential cs id with hsame | heq
    · rw [Closures.Write.apply, hsame]
      exact Grows.refl hrefl _
    · rw [Closures.Write.apply, heq]
      exact Grows.modify hrefl fun c _ _ => rfl

/-- A constructor that has run stays marked. -/
theorem Protos.Write.analysed_grows (w : Protos.Write) (g : Protos) :
    Grows (fun c c' => c.analysed = true → c'.analysed = true) g.ctors (w.apply g).ctors := by
  have hrefl (c : Ctor) (hdone : c.analysed = true) : c.analysed = true := hdone
  have halter (id : CtorId) (changed : Ctor → Bool) {f : Ctor → Ctor}
      (hkeeps : ∀ c, (f c).analysed = c.analysed) :
      Grows (fun c c' => c.analysed = true → c'.analysed = true) g.ctors
        (after (Protos.alter id changed f) g).ctors := by
    rcases Protos.after_alter g id changed f with hsame | ⟨c, -, -, heq⟩
    · rw [hsame]
      exact Grows.refl hrefl _
    · rw [heq]
      exact Grows.modify hrefl fun c _ hdone => (hkeeps c).trans hdone
  cases w with
  | ctor closure name =>
    rcases Protos.after_ctorFor g closure name with hsame | ⟨-, heq⟩
    · rw [Protos.Write.apply, hsame]
      exact Grows.refl hrefl _
    · rw [Protos.Write.apply, heq]
      exact Grows.push hrefl _ _
  | method id name t => exact halter id _ fun _ => rfl
  | ownField id name t => exact halter id _ fun _ => rfl
  | parent id p => exact halter id _ fun _ => rfl
  | share id other =>
    rcases Protos.after_share g id other with hsame | heq
    · rw [Protos.Write.apply, hsame]
      exact Grows.refl hrefl _
    · rw [Protos.Write.apply, heq]
      exact halter id _ fun _ => rfl
  | analysed id =>
    rcases Protos.after_markAnalysed g id with hsame | heq
    · rw [Protos.Write.apply, hsame]
      exact Grows.refl hrefl _
    · rw [Protos.Write.apply, heq]
      exact Grows.modify hrefl fun _ _ _ => rfl

/-- Every update makes the tables grow. -/
theorem Update.later (u : Update) (s : Run) : s.Later (u.apply s) where
  tables := u.keeps s
  fresh key σ hled hinside := by
    cases u with
    | env w =>
      rcases (w.index s.env).place_cases hled with hplace | ⟨-, -, heq, -⟩
      · exact hplace
      · exact absurd (heq ▸ hinside) (Nat.lt_irrefl _)
    | _ => exact hled
  options := by cases u <;> rfl
  marks k c hfound hmarked := by
    have hkept : s.closures = (u.apply s).closures →
        ∃ c', (u.apply s).closures.table[k]? = some c' ∧ c'.selfReferential = true :=
      fun hsame => ⟨c, hsame ▸ hfound, hmarked⟩
    cases u with
    | closures w =>
      obtain ⟨c', hfound', hmarks⟩ := w.marks s.closures k c hfound
      exact ⟨c', hfound', hmarks hmarked⟩
    | _ => exact hkept rfl
  analysed k c hfound hdone := by
    have hkept : s.protos = (u.apply s).protos →
        ∃ c', (u.apply s).protos.ctors[k]? = some c' ∧ c'.analysed = true :=
      fun hsame => ⟨c, hsame ▸ hfound, hdone⟩
    cases u with
    | protos w =>
      obtain ⟨c', hfound', hanalysed⟩ := w.analysed_grows s.protos k c hfound
      exact ⟨c', hfound', hanalysed hdone⟩
    | _ => exact hkept rfl

/-- A run only makes tables grow. -/
theorem Run.later_of_steps {D : Discipline} {s t : Run} (hsteps : D.Steps s t) : s.Later t := by
  induction hsteps with
  | refl => exact .refl s
  | tail _ hlast ih =>
    obtain ⟨u, -, rfl⟩ := hlast
    exact ih.trans (u.later _)

/-- A run keeps the indices in agreement with the tables. -/
theorem Run.indexed_of_steps {D : Discipline} {s t : Run} (hsteps : D.Steps s t)
    (hindexed : s.Indexed) : t.Indexed := by
  induction hsteps with
  | refl => exact hindexed
  | tail _ hlast ih =>
    obtain ⟨u, -, rfl⟩ := hlast
    exact u.indexed ih

/-- A run does not lower the version. -/
theorem Run.version_le_of_steps {D : Discipline} {s t : Run} (hsteps : D.Steps s t) :
    s.version ≤ t.version := by
  induction hsteps with
  | refl => exact Nat.le_refl _
  | tail _ hlast ih =>
    obtain ⟨u, -, rfl⟩ := hlast
    exact ih.trans (u.counts _).version_le

/-! ### Scopes and closures -/

/-- What a run looks at in a closure: not its declared signature. -/
def Closure.outline (c : Closure) : Func × ScopeId × Bool :=
  (c.func, c.scope, c.selfReferential)

/-- Scopes come after their parents, and closures are marked as the literals tell that they were
captured from. -/
structure Framed (e : Env) (cs : Closures) : Prop where
  ordered : ∀ (σ : ScopeId) x p, e.scopes[σ]? = some x → x.parent = some p → p < σ
  defined : ∀ (k : ClosureId) c, cs.table[k]? = some c → c.scope < e.scopes.size
  keyed : ∀ key σ, e.activations.place? key = some σ → ∃ o, cs.table[key.closure]? = some o
  tidy : ∀ (k : ClosureId) c, cs.table[k]? = some c → c.func.Tidy
  marked : ∀ (k : ClosureId) c key o d, cs.table[k]? = some c →
    e.activations.place? key = some c.scope → cs.table[key.closure]? = some o →
      d ∈ Stmt.capturesAll o.func.body → d.1.id = c.func.id → c.selfReferential = d.marks

/-- An entry with the same outline, where an outline is known. -/
theorem exists_of_map_eq {α β : Type} {f : α → β} {x y : Option α} {a : α}
    (hsame : y.map f = x.map f) (hfound : y = some a) : ∃ b, x = some b ∧ f b = f a := by
  subst hfound
  exact Option.map_eq_some_iff.mp hsame.symm

/-- Only the parents of scopes, their activations and the outlines of closures matter. -/
theorem Framed.congr {e e' : Env} {cs cs' : Closures} (h : Framed e cs)
    (hparents : ∀ σ : ScopeId, e'.scopes[σ]?.map Scope.parent = e.scopes[σ]?.map Scope.parent)
    (hsize : e'.scopes.size = e.scopes.size) (hactivations : e'.activations = e.activations)
    (houtlines : ∀ k : ClosureId,
      cs'.table[k]?.map Closure.outline = cs.table[k]?.map Closure.outline) :
    Framed e' cs' where
  ordered σ x p hfound hparent := by
    obtain ⟨y, hfound', hsame⟩ := exists_of_map_eq (hparents σ) hfound
    exact h.ordered σ y p hfound' (hsame.trans hparent)
  defined k c hfound := by
    obtain ⟨c', hfound', hsame⟩ := exists_of_map_eq (houtlines k) hfound
    have hscope : c'.scope = c.scope := congrArg (fun o => o.2.1) hsame
    rw [hsize, ← hscope]
    exact h.defined k c' hfound'
  keyed key σ hled := by
    obtain ⟨o, hfound⟩ := h.keyed key σ (hactivations ▸ hled)
    obtain ⟨o', hfound', -⟩ := exists_of_map_eq (houtlines key.closure).symm hfound
    exact ⟨o', hfound'⟩
  tidy k c hfound := by
    obtain ⟨c', hfound', hsame⟩ := exists_of_map_eq (houtlines k) hfound
    have hfunc : c'.func = c.func := congrArg Prod.fst hsame
    exact hfunc ▸ h.tidy k c' hfound'
  marked k c key o d hfound hled howner hinside hsame := by
    obtain ⟨c', hfound', houtline⟩ := exists_of_map_eq (houtlines k) hfound
    obtain ⟨o', howner', houtline'⟩ := exists_of_map_eq (houtlines key.closure) howner
    have hfunc : c'.func = c.func := congrArg Prod.fst houtline
    have hscope : c'.scope = c.scope := congrArg (fun o => o.2.1) houtline
    have hmark : c'.selfReferential = c.selfReferential := congrArg (fun o => o.2.2) houtline
    have hfunc' : o'.func = o.func := congrArg Prod.fst houtline'
    rw [← hmark]
    refine h.marked k c' key o' d hfound' ?_ howner' ?_ ?_
    · rw [hscope, ← hactivations]; exact hled
    · rw [hfunc']; exact hinside
    · rw [hfunc]; exact hsame

/-! ### Instances -/

/-- A call of the closure from the scope does not run its body: the closure returns only itself, or
it runs already, or too many calls are nested. -/
def Run.Stuck (s : Run) (k : ClosureId) (σ : ScopeId) : Prop :=
  (∃ c, s.closures.table[k]? = some c ∧ c.selfReferential = true) ∨
    ∃ stack, StackOf s.env stack σ ∧ (k ∈ stack ∨ s.options.maxCallDepth ≤ stack.length)

/-- What cannot run from a scope cannot run from it later: the calls that lead to the scope are the
same. -/
theorem Run.Stuck.later {s t : Run} {k : ClosureId} {σ : ScopeId} (h : s.Stuck k σ)
    (hlater : s.Later t) : t.Stuck k σ := by
  rcases h with ⟨c, hfound, hmarked⟩ | ⟨stack, hleads, hwhy⟩
  · exact Or.inl (hlater.marks k c hfound hmarked)
  · exact Or.inr ⟨stack, hleads.later hlater, hlater.options ▸ hwhy⟩

/-- A constructor that has run, or that cannot run from the scope. -/
def Run.Ran (s : Run) (a : CtorId) (σ : ScopeId) : Prop :=
  ∃ c, s.protos.ctors[a]? = some c ∧
    (c.analysed = true ∨ ∃ k, c.closure = some k ∧ s.Stuck k σ)

/-- A constructor that has run, or cannot run, stays so. -/
theorem Run.Ran.later {s t : Run} {a : CtorId} {σ : ScopeId} (h : s.Ran a σ) (hlater : s.Later t) :
    t.Ran a σ := by
  obtain ⟨c, hfound, hdone | ⟨k, hclosure, hstuck⟩⟩ := h
  · obtain ⟨c', hfound', hdone'⟩ := hlater.analysed a c hfound hdone
    exact ⟨c', hfound', Or.inl hdone'⟩
  · obtain ⟨c', hfound', hsame⟩ := hlater.ctor hfound
    exact ⟨c', hfound', Or.inr ⟨k, hsame.trans hclosure, hstuck.later hlater⟩⟩

/-- Constructors with instances have run, or cannot run from where the instance was created; apart
from one constructor that is about to run from a scope. -/
def Run.Settled (pending : Option (CtorId × ScopeId)) (s : Run) : Prop :=
  ∀ (i : CellId) cell a, s.heap.cells[i]? = some cell → cell.site.ctor = some a →
    pending ≠ some (a, cell.site.scope) → s.Ran a cell.site.scope

/-- All instances were there before, apart from those of a constructor that is about to run. -/
theorem Run.Settled.later {s t : Run} {pending : Option (CtorId × ScopeId)} (h : s.Settled pending)
    (hlater : s.Later t)
    (hcells : ∀ (i : CellId) cell a, t.heap.cells[i]? = some cell → cell.site.ctor = some a →
      pending ≠ some (a, cell.site.scope) → ∃ (j : CellId) (old : Cell),
        s.heap.cells[j]? = some old ∧ old.site = cell.site) :
    t.Settled pending := by
  intro i cell a hfound hctor hne
  obtain ⟨j, old, hfound', hsame⟩ := hcells i cell a hfound hctor hne
  have hran := h j old a hfound' (hsame ▸ hctor) (hsame ▸ hne)
  rw [hsame] at hran
  exact hran.later hlater

/-- The constructor that was about to run has run, or turned out to be stuck. -/
theorem Run.Settled.settle {s : Run} {a : CtorId} {σ : ScopeId} (h : s.Settled (some (a, σ)))
    (hran : s.Ran a σ) : s.Settled none := by
  intro i cell b hfound hctor _
  by_cases hsame : (b, cell.site.scope) = (a, σ)
  · obtain ⟨rfl, hscope⟩ := Prod.mk.inj hsame
    rw [hscope]
    exact hran
  · exact h i cell b hfound hctor fun heq => hsame (Option.some.inj heq).symm

/-- Everything that is true of the tables at every point of a run, apart from a constructor that is
about to run. -/
structure Run.Coherent (pending : Option (CtorId × ScopeId)) (s : Run) : Prop where
  indexed : s.Indexed
  framed : Framed s.env s.closures
  settled : s.Settled pending

/-- An update that keeps states coherent wherever it happens. -/
def Update.IsPlain (pending : Option (CtorId × ScopeId)) : Update → Prop
  | .env (.enter _ _ _) => False
  | .closures (.capture _ _) => False
  | .closures (.mark _) => False
  | .heap (.alloc site) => ∀ a, site.ctor = some a → pending = some (a, site.scope)
  | _ => True

/-- A binding leaves the parents of scopes alone. -/
theorem Env.parents_bind (e : Env) (id : ScopeId) (name : String) (t : Ty) (σ : ScopeId) :
    (after (Env.bind id name t) e).scopes[σ]?.map Scope.parent = e.scopes[σ]?.map Scope.parent := by
  rcases Env.after_bind e id name t with hsame | ⟨x, -, -, heq⟩
  · rw [hsame]
  · rw [heq, Env.setBindings, Array.getElem?_modify]
    split
    · rw [Option.map_map]
      rfl
    · rfl

theorem Env.size_bind (e : Env) (id : ScopeId) (name : String) (t : Ty) :
    (after (Env.bind id name t) e).scopes.size = e.scopes.size := by
  rcases Env.after_bind e id name t with hsame | ⟨x, -, -, heq⟩
  · rw [hsame]
  · rw [heq, Env.setBindings, Array.size_modify]

/-- A recorded call leaves the outline of every closure alone. -/
theorem Closures.outlines_recordCall (cs : Closures) (id : ClosureId) (args : List Ty) (ret : Ty)
    (k : ClosureId) :
    (after (Closures.recordCall id args ret) cs).table[k]?.map Closure.outline =
      cs.table[k]?.map Closure.outline := by
  rcases Closures.after_recordCall cs id args ret with hsame | heq
  · rw [hsame]
  · rw [heq, Array.getElem?_modify]
    split
    · rw [Option.map_map]
      rfl
    · rfl

namespace Run.Coherent

variable {s : Run} {pending : Option (CtorId × ScopeId)}

/-- An update that is plain keeps coherence: it adds no scope, no closure and no instance of a
constructor. -/
theorem apply (h : s.Coherent pending) {u : Update} (hplain : u.IsPlain pending) :
    (u.apply s).Coherent pending := by
  refine ⟨u.indexed h.indexed, ?_, ?_⟩
  · cases u with
    | env w =>
      cases w with
      | bind id name t =>
        exact h.framed.congr (Env.parents_bind s.env id name t) (Env.size_bind s.env id name t)
          ((Env.Write.bind id name t).index s.env).eq_of_nil fun _ => rfl
      | enter key parent owner => exact hplain.elim
    | closures w =>
      cases w with
      | capture scope f => exact hplain.elim
      | mark id => exact hplain.elim
      | record id args ret =>
        exact h.framed.congr (fun _ => rfl) rfl rfl
          (Closures.outlines_recordCall s.closures id args ret)
    | _ => exact h.framed
  -- all instances were there before, apart from one of the constructor in question
  · refine h.settled.later (u.later s) fun i cell a hfound hctor hne => ?_
    cases u with
    | heap w =>
      rcases (w.edit s.heap).keys_cases hfound with ⟨old, hfound', hsame⟩ | hnew
      · exact ⟨i, old, hfound', hsame.symm⟩
      · cases w with
        | field id name t => cases hnew
        | alloc site =>
          have hsame : cell.site = site := List.mem_singleton.mp hnew
          rw [hsame] at hctor hne
          exact absurd (hplain a hctor) hne
    | _ => exact ⟨i, cell, hfound, rfl⟩

end Run.Coherent

/-! ### Where a walk stands -/

/-- A scope is an activation scope of a function, or belongs to no function. -/
def Run.Owned (owner : Option Func) (σ : ScopeId) (s : Run) : Prop :=
  match owner with
  | none => σ < s.env.scopes.size ∧ ∀ key, s.env.activations.place? key ≠ some σ
  | some f => ∃ key c, s.env.activations.place? key = some σ ∧
      s.closures.table[key.closure]? = some c ∧ c.func = f

/-- An activation scope of a function stays one. -/
theorem Run.Owned.later {s t : Run} {owner : Option Func} {σ : ScopeId} (h : s.Owned owner σ)
    (hlater : s.Later t) : t.Owned owner σ := by
  cases owner with
  | none =>
    obtain ⟨hinside, hnone⟩ := h
    exact ⟨Nat.lt_of_lt_of_le hinside hlater.tables.scopes.size_le, hlater.outside hinside hnone⟩
  | some f =>
    obtain ⟨key, c, hled, hfound, hfunc⟩ := h
    obtain ⟨c', hfound', hfunc', -⟩ := hlater.literal hfound
    exact ⟨key, c', hlater.tables.activations _ _ hled, hfound', hfunc'.trans hfunc⟩

/-- An activation scope of a function is a scope, as the index agrees with the table. -/
theorem Run.Owned.inside {s : Run} (hindexed : s.Indexed) {owner : Option Func} {σ : ScopeId}
    (h : s.Owned owner σ) : σ < s.env.scopes.size := by
  cases owner with
  | none => exact h.1
  | some f =>
    obtain ⟨key, c, hled, -⟩ := h
    exact hindexed.env.injects.inside hled

/-- A walk stands in a scope: in an activation scope of a function, or outside of all functions. -/
structure Run.At (owner : Option Func) (σ : ScopeId) (s : Run) : Prop where
  stack : StackOf s.env s.running σ
  owned : s.Owned owner σ

/-- A walk still stands where it stood, as long as the same calls run. -/
theorem Run.At.later {s t : Run} {owner : Option Func} {σ : ScopeId} (h : s.At owner σ)
    (hlater : s.Later t) (hsame : t.running = s.running) : t.At owner σ :=
  ⟨hsame ▸ h.stack.later hlater, h.owned.later hlater⟩

/-- The literals that may be captured where a walk stands. -/
def Captures (owner : Option Func) (c : Capture) : Prop :=
  match owner with
  | none => c.1.Tidy
  | some f => c ∈ Stmt.capturesAll f.body

/-! ### New scopes -/

theorem getElem?_push_of_some {α : Type} {xs : Array α} {i : Nat} {a b : α}
    (hfound : xs[i]? = some a) : (xs.push b)[i]? = some a := by
  rw [Array.getElem?_push_lt (Array.getElem?_eq_some_iff.mp hfound).1]
  exact (Array.getElem?_eq_getElem _).symm.trans hfound

/-- A new activation scope comes after its parent, the scope that its closure was captured in. -/
theorem Framed.enter {e : Env} {cs : Closures} (h : Framed e cs) {key : ActivationKey} {c : Closure}
    (hfound : cs.table[key.closure]? = some c) (owner : Option NodeId) :
    Framed (after (Env.enter key c.scope owner) e) cs := by
  rcases Env.after_enter e key c.scope owner with hsame | ⟨-, heq⟩
  · rw [hsame]
    exact h
  rw [heq]
  constructor
  · intro σ x p hget hparent
    rcases getElem?_push_cases hget with hprev | ⟨rfl, rfl⟩
    · exact h.ordered σ x p hprev hparent
    · cases hparent
      exact h.defined _ c hfound
  · intro k c' hget
    rw [Array.size_push]
    exact Nat.lt_succ_of_lt (h.defined k c' hget)
  · intro key' σ hled
    dsimp only at hled
    rw [Index.place?_note] at hled
    split at hled
    · next hsame => exact ⟨c, hsame ▸ hfound⟩
    · exact h.keyed key' σ hled
  · exact h.tidy
  · intro k c' key' o d hget hled howned hinside hsame
    dsimp only at hled
    rw [Index.place?_note] at hled
    split at hled
    · -- the scope of a closure is no new one
      exact absurd (Option.some.inj hled) (Nat.ne_of_gt (h.defined k c' hget))
    · exact h.marked k c' key' o d hget hled howned hinside hsame

/-- Entering the scope of a call keeps a state coherent. -/
theorem Run.Coherent.enter {s : Run} {pending : Option (CtorId × ScopeId)} (h : s.Coherent pending)
    {key : ActivationKey} {c : Closure} (hfound : s.closures.table[key.closure]? = some c)
    (owner : Option NodeId) : ((Update.env (.enter key c.scope owner)).apply s).Coherent pending :=
  ⟨Update.indexed _ h.indexed, h.framed.enter hfound owner, h.settled.later (Update.later _ s)
    fun i cell _ hfound _ _ => ⟨i, cell, hfound, rfl⟩⟩

/-! ### New closures -/

theorem modify_push_size {α : Type} (xs : Array α) (a : α) (f : α → α) :
    (xs.push a).modify xs.size f = xs.push (f a) := by
  refine Array.ext_getElem? fun i => ?_
  rw [Array.getElem?_modify, Array.getElem?_push, Array.getElem?_push]
  by_cases hlast : i = xs.size
  · rw [if_pos hlast.symm, if_pos hlast, if_pos hlast]
    rfl
  · rw [if_neg (Ne.symm hlast), if_neg hlast, if_neg hlast]

/-- The closure that is captured in a scope. -/
def newClosure (scope : ScopeId) (c : Capture) : Closure :=
  ⟨c.1, scope, List.replicate c.1.params.length .never, .never, 0, c.marks⟩

/-- The closures after one of them was found for a literal. -/
def Closures.marked (cs : Closures) (d : Capture) (k : ClosureId) : Closures :=
  if d.marks then
    { cs with table := cs.table.modify k fun c => { c with selfReferential := true } }
  else
    cs

/-- A mark that is there already makes no difference. -/
theorem Closures.marked_eq {cs : Closures} {d : Capture} {k : ClosureId} {c : Closure}
    (hfound : cs.table[k]? = some c) (hselfReferential : c.selfReferential = d.marks) :
    cs.marked d k = cs := by
  unfold marked
  split
  · next hmarks =>
    have hsame : (cs.table.modify k fun c => { c with selfReferential := true }) = cs.table := by
      refine Array.ext_getElem? fun i => ?_
      rw [Array.getElem?_modify]
      split
      · next hsame =>
        subst hsame
        rw [hfound, Option.map_some, ← hselfReferential.trans hmarks]
      · rfl
    rw [hsame]
  · rfl

/-- The closures after one more was captured. -/
def Closures.captured (cs : Closures) (σ : ScopeId) (d : Capture) : Closures :=
  ⟨cs.table.push (newClosure σ d), cs.bySite.note (d.1.id, σ) cs.table.size⟩

/-- A literal is captured by finding or adding its closure, which is marked when the literal returns
only itself. -/
theorem captureFunc_eq (σ : ScopeId) (d : Capture) : captureFunc σ d.1 d.2 = (do
    let id ← Walk.onClosures (Closures.captureId σ d.1)
    Walk.when (d.marks = true) (Walk.onClosures (Closures.markSelfReferential id))
    return .closure id d.1.params.length) :=
  rfl

/-- Capturing a literal that has a closure in the scope. -/
theorem captureFunc_found {σ : ScopeId} {d : Capture} {s : Run} {k : ClosureId} {c : Closure}
    (hled : s.closures.bySite.place? (d.1.id, σ) = some k)
    (hfound : s.closures.table[k]? = some c) :
    captureFunc σ d.1 d.2 s = .ok (.closure k d.1.params.length)
      { s with closures := s.closures.marked d k } := by
  rw [captureFunc_eq, bind_apply, Walk.onClosures, Closures.captureId_apply, hled]
  dsimp only
  rw [bind_apply, Walk.when]
  unfold Closures.marked
  cases d.marks with
  | false => rfl
  | true =>
    simp only [if_true, Walk.onClosures, Closures.markSelfReferential_apply, hfound]
    rfl

/-- Capturing a literal that has no closure in the scope yet. -/
theorem captureFunc_absent {σ : ScopeId} {d : Capture} {s : Run}
    (habsent : s.closures.bySite.place? (d.1.id, σ) = none) :
    captureFunc σ d.1 d.2 s = .ok (.closure s.closures.table.size d.1.params.length)
      { s with closures := s.closures.captured σ d } := by
  rw [captureFunc_eq, bind_apply, Walk.onClosures, Closures.captureId_apply, habsent]
  dsimp only
  rw [bind_apply, Walk.when]
  unfold Closures.captured newClosure
  cases d.marks with
  | false => rfl
  | true =>
    simp only [if_true, Walk.onClosures, Closures.markSelfReferential_apply,
      Array.getElem?_push_size, modify_push_size]
    rfl

/-- A literal that may be captured where a walk stands is marked in one way there. -/
theorem Framed.marks_eq {s : Run} (h : Framed s.env s.closures) {f : Func} {σ : ScopeId}
    (howned : s.Owned (some f) σ) {d : Capture} (hcaptures : Captures (some f) d) {k : ClosureId}
    {c : Closure} (hfound : s.closures.table[k]? = some c) (hscope : c.scope = σ)
    (hsame : c.func.id = d.1.id) : c.selfReferential = d.marks := by
  obtain ⟨key, o, hled, howner, rfl⟩ := howned
  exact h.marked k c key o d hfound (hscope ▸ hled) howner hcaptures hsame.symm

/-- A literal that may be captured where a walk stands is tidy. -/
theorem Captures.tidy {s : Run} (h : Framed s.env s.closures) {owner : Option Func} {σ : ScopeId}
    (howned : s.Owned owner σ) {d : Capture} (hcaptures : Captures owner d) : d.1.Tidy := by
  cases owner with
  | none => exact hcaptures
  | some f =>
    obtain ⟨key, o, -, hfound, rfl⟩ := howned
    exact (h.tidy _ o hfound).capture hcaptures

/-- Setting a mark where it says nothing of the literals of a function. -/
theorem Framed.mark {e : Env} {cs : Closures} (h : Framed e cs) {k : ClosureId} {c : Closure}
    (hfound : cs.table[k]? = some c) (hnone : ∀ key, e.activations.place? key ≠ some c.scope) :
    Framed e
      { cs with table := cs.table.modify k fun c => { c with selfReferential := true } } := by
  have hkept {i : ClosureId} {b : Closure}
      (hget : (cs.table.modify k fun c => { c with selfReferential := true })[i]? = some b) :
      ∃ a, cs.table[i]? = some a ∧ a.func = b.func ∧ a.scope = b.scope ∧ (i ≠ k → a = b) := by
    rcases getElem?_modify_cases hget with hprev | ⟨rfl, a, hprev, rfl⟩
    · exact ⟨b, hprev, rfl, rfl, fun _ => rfl⟩
    · exact ⟨a, hprev, rfl, rfl, fun hne => absurd rfl hne⟩
  constructor
  · exact h.ordered
  · intro i b hget
    obtain ⟨a, hprev, -, hsame, -⟩ := hkept hget
    exact hsame ▸ h.defined i a hprev
  · intro key σ hled
    obtain ⟨o, hprev⟩ := h.keyed key σ hled
    dsimp only
    rw [Array.getElem?_modify]
    split
    · exact ⟨_, by rw [hprev, Option.map_some]⟩
    · exact ⟨o, hprev⟩
  · intro i b hget
    obtain ⟨a, hprev, hsame, -, -⟩ := hkept hget
    exact hsame ▸ h.tidy i a hprev
  · intro i b key o d hget hled howned hinside hsame
    obtain ⟨a, hprev, hfunc, hplace, heq⟩ := hkept hget
    obtain ⟨o', howned', hfunc', -, -⟩ := hkept howned
    -- the marked closure was captured outside of all functions, where nothing is asked of marks
    by_cases hik : i = k
    · subst hik
      cases hfound.symm.trans hprev
      exact absurd (hplace ▸ hled) (hnone key)
    · rw [← heq hik]
      refine h.marked i a key o' d hprev (hplace ▸ hled) howned' (hfunc' ▸ hinside) ?_
      rw [hfunc]
      exact hsame

/-- A new closure is marked as its literal tells, and the scope that it was captured in has no other
literal with its identity. -/
theorem Framed.push {e : Env} {cs : Closures} (h : Framed e cs) {σ : ScopeId}
    (hwithin : σ < e.scopes.size) {d : Capture} (htidy : d.1.Tidy)
    (hunique : ∀ key o d', e.activations.place? key = some σ → cs.table[key.closure]? = some o →
      d' ∈ Stmt.capturesAll o.func.body → d'.1.id = d.1.id → d' = d) :
    Framed e (cs.captured σ d) := by
  -- an activation scope belongs to a closure that was there before
  have hget {τ : ScopeId} {key : ActivationKey} {o : Closure}
      (hled : e.activations.place? key = some τ)
      (howner : (cs.table.push (newClosure σ d))[key.closure]? = some o) :
      cs.table[key.closure]? = some o := by
    obtain ⟨o', hprev⟩ := h.keyed key τ hled
    rw [getElem?_push_of_some hprev] at howner
    exact hprev.trans howner
  constructor
  · exact h.ordered
  · intro k c hfound
    rcases getElem?_push_cases hfound with hprev | ⟨-, rfl⟩
    · exact h.defined k c hprev
    · exact hwithin
  · intro key τ hled
    obtain ⟨o, hprev⟩ := h.keyed key τ hled
    exact ⟨o, getElem?_push_of_some hprev⟩
  · intro k c hfound
    rcases getElem?_push_cases hfound with hprev | ⟨-, rfl⟩
    · exact h.tidy k c hprev
    · exact htidy
  · intro k c key o d' hfound hled howner hinside hsame
    rcases getElem?_push_cases hfound with hprev | ⟨-, rfl⟩
    · exact h.marked k c key o d' hprev hled (hget hled howner) hinside hsame
    · rw [hunique key o d' hled (hget hled howner) hinside hsame]
      rfl

open Discipline in
theorem does_captureFunc (scope : ScopeId) (d : Capture) (s : Run) :
    anyWalk.Does none s (captureFunc scope d.1 d.2) fun _ _ => True :=
  Does.captureFunc (anyWalk.inv s) (anyWalk.live s _) (anyWalk.stands s _ _) d.2

/-- Capturing a literal where a walk stands keeps the state coherent. -/
theorem Run.Coherent.captured {s : Run} {pending : Option (CtorId × ScopeId)}
    (h : s.Coherent pending) {owner : Option Func} {σ : ScopeId} (howned : s.Owned owner σ)
    {d : Capture} (hcaptures : Captures owner d) :
    (after (captureFunc σ d.1 d.2) s).Coherent pending := by
  have hsteps := (does_captureFunc σ d s s rfl).after.2.steps
  have hlater := later_of_steps hsteps
  have hindexed := indexed_of_steps hsteps h.indexed
  unfold after at hlater hindexed ⊢
  cases hled : s.closures.bySite.place? (d.1.id, σ) with
  | some k =>
    obtain ⟨c, hfound, hliteral, hscope⟩ := h.indexed.closures.found hled
    rw [captureFunc_found hled hfound] at hlater hindexed ⊢
    refine ⟨hindexed, ?_, h.settled.later hlater fun i cell _ hfound _ _ => ⟨i, cell, hfound, rfl⟩⟩
    cases owner with
    | none =>
      obtain ⟨-, hnone⟩ := howned
      change Framed s.env (s.closures.marked d k)
      unfold Closures.marked
      split
      · exact h.framed.mark hfound (hscope ▸ hnone)
      · exact h.framed
    | some f =>
      -- inside of a function the mark is set already
      have hmarks := h.framed.marks_eq howned hcaptures hfound hscope hliteral
      change Framed s.env (s.closures.marked d k)
      rw [Closures.marked_eq hfound hmarks]
      exact h.framed
  | none =>
    rw [captureFunc_absent hled] at hlater hindexed ⊢
    refine ⟨hindexed, ?_, h.settled.later hlater fun i cell _ hfound _ _ => ⟨i, cell, hfound, rfl⟩⟩
    have htidy := hcaptures.tidy h.framed howned
    refine h.framed.push (howned.inside h.indexed) htidy
      fun key o d' hled hfound hinside hsame => ?_
    cases owner with
    | none => exact absurd hled (howned.2 key)
    | some f =>
      obtain ⟨key', o', hled', hfound', rfl⟩ := howned
      cases h.indexed.env.injects.apart hled hled'
      cases hfound'.symm.trans hfound
      exact (h.framed.tidy _ o hfound).unique hinside hcaptures hsame

end TypeFlow
