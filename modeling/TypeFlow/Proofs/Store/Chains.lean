import Mathlib
import TypeFlow.Proofs.Store.Reads

/-!
# Chains of scopes

Looking a name up follows the parents of a scope.  When every parent comes before its children, the
walk ends, and the bound on its steps is never met.  A write to a name is seen by the lookups that
walk to it, and by no others.

## Main Definitions

* `Env.Founded` - every scope but the global one has a parent, which comes before it
* `Env.Sees` - where a walk along the parents ends, without a bound on its steps
* `Env.Joined` - an environment in which a type was joined into one name of a scope

## Main Statements

* `Env.Founded.sees` - every walk ends
* `Env.Sees.resolveIn` - the bounded walk ends where the unbounded one does
* `Env.Sees.get?` - a lookup answers what the scope at the end of the walk binds
* `Env.Joined.lookup_of_ne` - a write to a name changes no lookup of another name
* `Env.Joined.lookup_bound`, `Env.Joined.lookup_global` - what is looked up after a write
-/

namespace TypeFlow

namespace Env

/-- Every scope but the global one has a parent, which comes before it; the global one has none. -/
structure Founded (e : Env) : Prop where
  top : ∃ x, e.scopes[global]? = some x ∧ x.parent = none
  below : ∀ (i : Nat) x, e.scopes[i]? = some x → i ≠ global → ∃ p, x.parent = some p ∧ p < i

/-- Where a walk along the parents ends: at the nearest scope that binds the name, or beyond the
last one. -/
inductive Sees (e : Env) (name : String) : ScopeId → Option ScopeId → Prop where
  | here {id : ScopeId} {x : Scope} : e.scopes[id]? = some x →
    OrdMap.contains x.bindings name = true → Sees e name id (some id)
  | top {id : ScopeId} {x : Scope} : e.scopes[id]? = some x →
    OrdMap.contains x.bindings name = false → x.parent = none → Sees e name id none
  | up {id parent : ScopeId} {x : Scope} {r : Option ScopeId} : e.scopes[id]? = some x →
    OrdMap.contains x.bindings name = false → x.parent = some parent → Sees e name parent r →
      Sees e name id r

/-- What the scope at the end of a walk binds to a name. -/
def boundAt (e : Env) (name : String) (r : Option ScopeId) : Option Ty :=
  r.bind fun owner => e.scopes[owner]?.bind fun x => OrdMap.get? x.bindings name

variable {e e' : Env} {name : String}

/-! ### Walks -/

theorem Founded.parent_lt (h : e.Founded) {i p : ScopeId} {x : Scope}
    (hfound : e.scopes[i]? = some x) (hlink : x.parent = some p) : p < i := by
  by_cases hfirst : i = global
  · obtain ⟨y, hget, hnone⟩ := h.top
    rw [hfirst, hget] at hfound
    cases hfound
    cases hlink.symm.trans hnone
  · obtain ⟨q, hlink', hlt⟩ := h.below i x hfound hfirst
    cases hlink.symm.trans hlink'
    exact hlt

theorem Founded.eq_global (h : e.Founded) {i : ScopeId} {x : Scope} (hfound : e.scopes[i]? = some x)
    (hlink : x.parent = none) : i = global := by
  by_contra hne
  obtain ⟨p, hlink', -⟩ := h.below i x hfound hne
  cases hlink.symm.trans hlink'

/-- Every walk ends. -/
theorem Founded.sees (h : e.Founded) (name : String) {id : ScopeId} (hinside : id < e.scopes.size) :
    ∃ r, e.Sees name id r := by
  -- The parent comes before the scope, so its walk is given by the induction.
  induction id using Nat.strong_induction_on with
  | _ id ih =>
    have hfound := Array.getElem?_eq_getElem hinside
    cases hbound : OrdMap.contains e.scopes[id].bindings name with
    | true => exact ⟨some id, .here hfound hbound⟩
    | false =>
      cases hlink : e.scopes[id].parent with
      | none => exact ⟨none, .top hfound hbound hlink⟩
      | some p =>
        have hlt : p < id := h.parent_lt hfound hlink
        obtain ⟨r, hsees⟩ := ih p hlt (hlt.trans hinside)
        exact ⟨r, .up hfound hbound hlink hsees⟩

/-- The bounded walk ends where the unbounded one does, whatever the bound, from the place of the
scope on. -/
theorem Sees.resolveIn {id : ScopeId} {r : Option ScopeId} (hsees : e.Sees name id r)
    (h : e.Founded) {steps : Nat} (hlt : id < steps) : e.resolveIn name steps id = .ok r := by
  induction hsees generalizing steps with
  | here hfound hbound =>
    obtain ⟨steps, rfl⟩ := Nat.exists_eq_succ_of_ne_zero (Nat.ne_zero_of_lt hlt)
    rw [Env.resolveIn, scope, hfound]
    exact if_pos hbound
  | top hfound hbound hlink =>
    obtain ⟨steps, rfl⟩ := Nat.exists_eq_succ_of_ne_zero (Nat.ne_zero_of_lt hlt)
    rw [Env.resolveIn, scope, hfound]
    simp only [hbound, hlink, Bool.false_eq_true, if_false]
  | up hfound hbound hlink _ ih =>
    obtain ⟨steps, rfl⟩ := Nat.exists_eq_succ_of_ne_zero (Nat.ne_zero_of_lt hlt)
    have hlt' := h.parent_lt hfound hlink
    rw [Env.resolveIn, scope, hfound]
    simp only [hbound, hlink, Bool.false_eq_true, if_false]
    exact ih (Nat.lt_of_lt_of_le hlt' (Nat.le_of_lt_succ hlt))

theorem Sees.inside {id : ScopeId} {r : Option ScopeId} (hsees : e.Sees name id r) :
    id < e.scopes.size := by
  cases hsees with
  | here hfound => exact (Array.getElem?_eq_some_iff.mp hfound).1
  | top hfound => exact (Array.getElem?_eq_some_iff.mp hfound).1
  | up hfound => exact (Array.getElem?_eq_some_iff.mp hfound).1

theorem Sees.resolve {id : ScopeId} {r : Option ScopeId} (hsees : e.Sees name id r)
    (h : e.Founded) : e.resolve id name = .ok r :=
  hsees.resolveIn h (Nat.lt_succ_of_lt hsees.inside)

theorem Sees.binds {id owner : ScopeId} (hsees : e.Sees name id (some owner)) :
    ∃ x, e.scopes[owner]? = some x ∧ OrdMap.contains x.bindings name = true := by
  generalize heq : some owner = r at hsees
  induction hsees with
  | here hfound hbound =>
    cases heq
    exact ⟨_, hfound, hbound⟩
  | top => cases heq
  | up _ _ _ _ ih => exact ih heq

/-- A name that a walk does not find is not bound in the global scope. -/
theorem Sees.unbound {id : ScopeId} (hsees : e.Sees name id none) (h : e.Founded) :
    ∃ x, e.scopes[global]? = some x ∧ OrdMap.contains x.bindings name = false := by
  generalize heq : (none : Option ScopeId) = r at hsees
  induction hsees with
  | here => cases heq
  | top hfound hbound hlink =>
    cases h.eq_global hfound hlink
    exact ⟨_, hfound, hbound⟩
  | up _ _ _ _ ih => exact ih heq

/-- A lookup answers what the scope at the end of the walk binds. -/
theorem Sees.get? {id : ScopeId} {r : Option ScopeId} (hsees : e.Sees name id r) (h : e.Founded) :
    e.get? id name = .ok (e.boundAt name r) := by
  rw [get?_eq, hsees.resolve h]
  cases r with
  | none => rfl
  | some owner =>
    obtain ⟨x, hfound, -⟩ := hsees.binds
    simp only [scope, boundAt, hfound, Option.bind_some]

theorem Sees.lookup {id : ScopeId} {r : Option ScopeId} (hsees : e.Sees name id r) (h : e.Founded) :
    e.lookup id name = .ok ((e.boundAt name r).getD .any) := by
  change (e.get? id name >>= fun t => pure (t.getD .any)) = _
  rw [hsees.get? h]
  rfl

/-! ### Writes -/

/-- An environment in which a type was joined into one name of a scope. -/
structure Joined (e e' : Env) (id : ScopeId) (name : String) (t : Ty) : Prop where
  size : e'.scopes.size = e.scopes.size
  scopes : ∀ (i : Nat) x, e.scopes[i]? = some x → ∃ y, e'.scopes[i]? = some y ∧
    y.parent = x.parent ∧ ∀ k, OrdMap.get? y.bindings k =
      if i = id ∧ k = name then some (Fields.widened x.bindings name t)
      else OrdMap.get? x.bindings k

theorem bind_joined {id : ScopeId} (hinside : id < e.scopes.size) (name : String) (t : Ty) :
    ∃ changed e', bind id name t e = .ok changed e' ∧ e.Joined e' id name t := by
  have hfound := Array.getElem?_eq_getElem hinside
  rw [bind_apply, hfound]
  dsimp only
  cases hwidens : Fields.widens e.scopes[id].bindings name t with
  | true =>
    refine ⟨true, _, rfl, Array.size_modify, fun i x hget => ?_⟩
    simp only [setBindings, Array.getElem?_modify, hget, Option.map_some]
    by_cases heq : id = i
    · subst heq
      cases hfound.symm.trans hget
      rw [if_pos rfl]
      refine ⟨_, rfl, rfl, fun k => ?_⟩
      by_cases hsame : k = name
      · rw [hsame, Fields.widen, OrdMap.get?_insert_self, if_pos ⟨rfl, rfl⟩]
      · rw [Fields.widen, OrdMap.get?_insert_of_ne _ _ hsame, if_neg fun h => hsame h.2]
    · rw [if_neg heq]
      exact ⟨x, rfl, rfl, fun k => (if_neg fun h => heq h.1.symm).symm⟩
  | false =>
    refine ⟨false, e, rfl, rfl, fun i x hget => ⟨x, hget, rfl, fun k => ?_⟩⟩
    split
    · next his =>
      obtain ⟨rfl, rfl⟩ := his
      cases hfound.symm.trans hget
      simpa [Fields.widens] using hwidens
    · rfl

namespace Joined

variable {id : ScopeId} {t : Ty}

theorem getElem?_eq_none (h : e.Joined e' id name t) {i : Nat} (habsent : e.scopes[i]? = none) :
    e'.scopes[i]? = none := by
  rw [Array.getElem?_eq_none_iff] at habsent ⊢
  rwa [h.size]

/-- A walk is the same when no scope gains the name that is looked for. -/
theorem resolve_eq (h : e.Joined e' id name t) {k : String}
    (hkeeps : ∀ x, e.scopes[id]? = some x → k = name → OrdMap.contains x.bindings k = true)
    (σ : ScopeId) : e'.resolve σ k = e.resolve σ k := by
  have hwalks (steps : Nat) (σ : ScopeId) : e'.resolveIn k steps σ = e.resolveIn k steps σ := by
    induction steps generalizing σ with
    | zero => rfl
    | succ steps ih =>
      rw [Env.resolveIn, Env.resolveIn, Env.scope, Env.scope]
      cases hget : e.scopes[σ]? with
      | none => rw [h.getElem?_eq_none hget]
      | some x =>
        obtain ⟨y, hget', hparent, hgets⟩ := h.scopes σ x hget
        -- Only one binding was altered; if it is the one looked for, the scope had it before.
        have hcontains : OrdMap.contains y.bindings k = OrdMap.contains x.bindings k := by
          rw [OrdMap.contains, hgets]
          split
          · next his =>
            obtain ⟨rfl, rfl⟩ := his
            exact (hkeeps x hget rfl).symm
          · rfl
        rw [hget']
        simp only [hcontains, hparent, ih]
  rw [resolve, resolve, h.size]
  exact hwalks _ σ

/-- A write to a name changes no lookup of another name. -/
theorem lookup_of_ne (h : e.Joined e' id name t) {k : String} (hne : k ≠ name) (σ : ScopeId) :
    e'.lookup σ k = e.lookup σ k := by
  have hsame : e'.get? σ k = e.get? σ k := by
    rw [get?_eq, get?_eq, h.resolve_eq fun _ _ heq => absurd heq hne]
    rcases e.resolve σ k with d | _ | owner
    · rfl
    · rfl
    · dsimp only
      rw [Env.scope, Env.scope]
      cases hget : e.scopes[owner]? with
      | none => rw [h.getElem?_eq_none hget]
      | some x =>
        obtain ⟨y, hget', -, hgets⟩ := h.scopes owner x hget
        rw [hget']
        simp only [hgets, hne, and_false, if_false]
  rw [lookup, lookup, hsame]

/-- Writing keeps the parents. -/
theorem founded (h : e.Joined e' id name t) (hfounded : e.Founded) : e'.Founded := by
  have hbefore {i : Nat} {y : Scope} (hfound : e'.scopes[i]? = some y) :
      ∃ x, e.scopes[i]? = some x ∧ y.parent = x.parent := by
    cases hget : e.scopes[i]? with
    | none => cases (h.getElem?_eq_none hget).symm.trans hfound
    | some x =>
      obtain ⟨y', hfound', hparent, -⟩ := h.scopes i x hget
      cases hfound'.symm.trans hfound
      exact ⟨x, rfl, hparent⟩
  constructor
  · obtain ⟨x, hget, hnone⟩ := hfounded.top
    obtain ⟨y, hget', hparent, -⟩ := h.scopes _ x hget
    exact ⟨y, hget', hparent.trans hnone⟩
  · intro i y hfound hne
    obtain ⟨x, hget, hparent⟩ := hbefore hfound
    obtain ⟨p, hlink, hlt⟩ := hfounded.below i x hget hne
    exact ⟨p, hparent.trans hlink, hlt⟩

/-- A name that is written where it is bound has the joined type. -/
theorem lookup_bound (h : e.Joined e' id name t) (hfounded : e.Founded) {σ : ScopeId}
    (hsees : e.Sees name σ (some id)) :
    ∃ x, e.scopes[id]? = some x ∧ e'.lookup σ name = .ok (Fields.widened x.bindings name t) := by
  obtain ⟨x, hfound, hbound⟩ := hsees.binds
  obtain ⟨y, hfound', -, hgets⟩ := h.scopes id x hfound
  refine ⟨x, hfound, ?_⟩
  have hresolved : e'.resolve σ name = .ok (some id) := by
    rw [h.resolve_eq fun x' hfound' _ => ?_, hsees.resolve hfounded]
    cases hfound.symm.trans hfound'
    exact hbound
  change (e'.get? σ name >>= fun t => pure (t.getD .any)) = _
  rw [get?_eq, hresolved]
  simp only [Env.scope, hfound', hgets, true_and, if_true]
  rfl

/-- A name that no scope along the chain binds is found in the global scope, once it is written
there. -/
theorem lookup_global (h : e.Joined e' global name t) (hfounded : e.Founded) {σ : ScopeId}
    (hsees : e.Sees name σ none) : e'.lookup σ name = .ok t := by
  obtain ⟨x, hget, habsent⟩ := hsees.unbound hfounded
  obtain ⟨y, hget', -, hgets⟩ := h.scopes _ x hget
  -- The walk is as before up to its last scope, which is the global one.
  have hsees' : e'.Sees name σ (some global) := by
    generalize heq : (none : Option ScopeId) = r at hsees
    induction hsees with
    | here => cases heq
    | @top i z hfound hbound hlink =>
      cases hfounded.eq_global hfound hlink
      refine .here hget' ?_
      rw [OrdMap.contains, hgets, if_pos ⟨rfl, rfl⟩]
      rfl
    | @up i p z r hfound hbound hlink _ ih =>
      obtain ⟨y, hfound', hparent, hgets⟩ := h.scopes i z hfound
      have hne : i ≠ global := by
        rintro rfl
        exact Nat.not_lt_zero p (hfounded.parent_lt hfound hlink)
      refine .up hfound' ?_ (hparent.trans hlink) (ih heq)
      rw [OrdMap.contains, hgets, if_neg fun h => hne h.1]
      exact hbound
  have hfirst : Fields.widened x.bindings name t = t := by
    rw [OrdMap.contains, Option.isSome_eq_false_iff, Option.isNone_iff_eq_none] at habsent
    rw [Fields.widened, habsent]
  rw [hsees'.lookup (h.founded hfounded)]
  simp only [boundAt, Option.bind_some, hget', hgets, true_and, if_true, Option.getD_some, hfirst]

end Joined

end Env

end TypeFlow
