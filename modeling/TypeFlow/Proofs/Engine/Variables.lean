import Mathlib
import TypeFlow.Proofs.Engine.Reached
import TypeFlow.Proofs.Store.Chains

/-!
# Variables

At every point of a run the parents of scopes come before them, so every lookup ends.  Writing a
variable is seen by looking it up from the same scope, and by no lookup of another name.

## Main Definitions

* `Run.Chained` - parents come before their children, and closures were made in scopes that exist

## Main Statements

* `Run.Reached.chained` - states that are reached are chained
* `Run.Chained.write` - what is looked up after a write to a variable
* `Run.Chained.write_binds` - only names that nothing binds are new after it, as globals
-/

namespace TypeFlow

open Walk

/-- Writing keeps parents before their children, when scopes are entered below scopes that exist. -/
theorem Env.Founded.write {e : Env} (h : e.Founded) (w : Env.Write)
    (henters : ∀ key parent owner, w = .enter key parent owner → parent < e.scopes.size) :
    (w.apply e).Founded := by
  have htop : ∃ y, (w.apply e).scopes[Env.global]? = some y ∧ y.parent = none := by
    obtain ⟨x, hfound, hnone⟩ := h.top
    obtain ⟨y, hfound', hsame⟩ := (w.edit e).keeps _ x hfound
    exact ⟨y, hfound', (congrArg Prod.fst hsame).trans hnone⟩
  refine ⟨htop, fun i y hfound hne => ?_⟩
  cases w with
  | bind id name t =>
    obtain ⟨x, hget, hsame⟩ :=
      (((Write.bind id name t).edit e).keys_cases hfound).resolve_right List.not_mem_nil
    obtain ⟨p, hlink, hlt⟩ := h.below i x hget hne
    exact ⟨p, (congrArg Prod.fst hsame).trans hlink, hlt⟩
  | enter key parent owner =>
    rcases Env.after_enter e key parent owner with hsame | ⟨-, hpushed⟩
    · rw [Env.Write.apply, hsame] at hfound
      exact h.below i y hfound hne
    · rw [Env.Write.apply, hpushed] at hfound
      rcases getElem?_push_cases hfound with hget | ⟨rfl, rfl⟩
      · exact h.below i y hget hne
      · exact ⟨parent, rfl, henters key parent owner rfl⟩

namespace Run

/-- The parents of scopes come before them, and closures were made in scopes that exist. -/
structure Chained (s : Run) : Prop where
  founded : s.env.Founded
  captured : ∀ (k : Nat) c, s.closures.table[k]? = some c → c.scope < s.env.scopes.size

variable {s : Run} {options : Options} {globals : Globals} {ps : List Program}

theorem Chained.start (options : Options) (globals : Globals) :
    (Run.start options globals).Chained := by
  obtain ⟨b, n, henv, -⟩ := start_env options globals
  refine ⟨⟨?_, fun i x hfound hne => ?_⟩, fun k c hfound => ?_⟩
  · rw [henv]
    exact ⟨_, rfl, rfl⟩
  · rw [henv] at hfound
    have hinside : i < 1 := (Array.getElem?_eq_some_iff.mp hfound).1
    exact absurd (Nat.lt_one_iff.mp hinside) hne
  · have hnone : (#[] : Array Closure)[k]? = some c := hfound
    cases hnone

/-- An update of a run keeps the chains. -/
theorem Chained.update (h : s.Chained) {u : Update}
    (hguard : (runsOf options globals ps).Guard s u) : (u.apply s).Chained := by
  have hgrown := (u.keeps s).scopes.size_le
  constructor
  · cases u with
    | env w =>
      -- A scope is entered below the one that its closure was made in.
      refine h.founded.write w fun key parent owner heq => ?_
      subst heq
      obtain ⟨c, hfound, rfl, -⟩ := hguard.reason
      exact h.captured _ c hfound
    | _ => exact h.founded
  · intro k c hfound
    have hlt (c' : Closure) (hget : s.closures.table[k]? = some c') (hsame : c.scope = c'.scope) :
        c.scope < (u.apply s).env.scopes.size :=
      hsame ▸ Nat.lt_of_lt_of_le (h.captured k c' hget) hgrown
    cases u with
    | closures w =>
      rcases (w.edit s.closures).keys_cases hfound with ⟨c', hget, hsame⟩ | hnew
      · exact hlt c' hget (congrArg Prod.snd hsame)
      · cases w with
        | capture scope f =>
          have hsame : (c.func, c.scope) = (f, scope) := List.mem_singleton.mp hnew
          rw [(Prod.mk.inj hsame).2]
          rcases hguard.reason.2 trivial with rfl | hhas
          · obtain ⟨x, hfound, -⟩ := h.founded.top
            exact (Array.getElem?_eq_some_iff.mp hfound).1
          · exact hhas
        | record id args ret => cases hnew
        | mark id => cases hnew
    | _ => exact hlt c hfound rfl

/-- States that are reached are chained. -/
theorem Reached.chained (h : s.Reached options globals ps) : s.Chained :=
  h.induct (Chained.start options globals) fun _ _ _ hguard hchained => hchained.update hguard

/-! ### Writing variables -/

/-- A write to a variable succeeds.  It joins the type into the scope where the lookup of the
variable ends, and into the global scope when nothing binds it. -/
theorem Chained.write_joined (h : s.Chained) {scope : ScopeId} (hinside : scope < s.env.scopes.size)
    (name : String) (v : Ty) :
    ∃ r e, s.env.Sees name scope r ∧
      Target.write scope v (.variable name) s = .ok () { s with env := e } ∧
      s.env.Joined e (r.getD Env.global) name v := by
  obtain ⟨r, hsees⟩ := h.founded.sees name hinside
  have hresolved := hsees.resolve h.founded
  cases r with
  | none =>
    -- a name that no scope binds is bound in the global one
    have hfirst : Env.global < s.env.scopes.size := by
      obtain ⟨x, hfound, -⟩ := h.founded.top
      exact (Array.getElem?_eq_some_iff.mp hfound).1
    obtain ⟨changed, e, hran, hjoined⟩ := Env.bind_joined hfirst name v
    have hmissed : Env.assign scope name v s.env = .ok none s.env := by
      rw [Env.assign_apply, hresolved]
    refine ⟨none, e, hsees, ?_, hjoined⟩
    change EStateM.bind (onEnv (Env.assign scope name v)) _ s = _
    rw [EStateM.bind, onEnv_of_ok hmissed]
    change EStateM.bind (onEnv (Env.bind Env.global name v)) _ s = _
    rw [EStateM.bind, onEnv_of_ok hran]
    rfl
  | some owner =>
    obtain ⟨x, hfound, hbound⟩ := hsees.binds
    obtain ⟨changed, e, hran, hjoined⟩ :=
      Env.bind_joined (Array.getElem?_eq_some_iff.mp hfound).1 name v
    have hassigned : Env.assign scope name v s.env = .ok (some owner) e := by
      rw [Env.assign_apply, hresolved]
      simp only [hran]
    refine ⟨some owner, e, hsees, ?_, hjoined⟩
    change EStateM.bind (onEnv (Env.assign scope name v)) _ s = _
    rw [EStateM.bind, onEnv_of_ok hassigned]
    rfl

/-- A write to a variable is seen by looking the variable up from the same scope, and by no lookup
of another name. -/
theorem Chained.write (h : s.Chained) {scope : ScopeId} (hinside : scope < s.env.scopes.size)
    (name : String) (v : Ty) :
    ∃ t, Target.write scope v (.variable name) s = .ok () t ∧
      (∃ w, t.env.lookup scope name = .ok w ∧
        (w = v ∨ ∃ old, s.env.lookup scope name = .ok old ∧ old ∈ s.types ∧ w = old.join v)) ∧
      ∀ scope' name', name' ≠ name → t.env.lookup scope' name' = s.env.lookup scope' name' := by
  obtain ⟨r, e, hsees, hran, hjoined⟩ := h.write_joined hinside name v
  refine ⟨{ s with env := e }, hran, ?_, fun scope' name' hne => hjoined.lookup_of_ne hne scope'⟩
  cases r with
  | none => exact ⟨v, hjoined.lookup_global h.founded hsees, .inl rfl⟩
  | some owner =>
    obtain ⟨x, hfound, hbound⟩ := hsees.binds
    obtain ⟨old, hhas⟩ := Option.isSome_iff_exists.mp hbound
    obtain ⟨x', hfound', hlooked⟩ := hjoined.lookup_bound h.founded hsees
    cases hfound.symm.trans hfound'
    refine ⟨_, hlooked, .inr ⟨old, ?_, ?_, ?_⟩⟩
    · rw [hsees.lookup h.founded]
      simp only [Env.boundAt, Option.bind_some, hfound, hhas, Option.getD_some]
    · exact s.scope_types (Entry.types_subset hfound (Fields.mem_types (OrdMap.mem_of_get? hhas)))
    · rw [Fields.widened, hhas]

/-- A write to a variable makes a global of a name that nothing binds, and binds no other name. -/
theorem Chained.write_binds (h : s.Chained) {scope : ScopeId}
    (hinside : scope < s.env.scopes.size) (name : String) (v : Ty) :
    ∃ t, Target.write scope v (.variable name) s = .ok () t ∧
      ∀ id k, t.Binds id k → s.Binds id k ∨
        id = Env.global ∧ k = name ∧ s.env.Sees name scope none := by
  obtain ⟨r, e, hsees, hran, hjoined⟩ := h.write_joined hinside name v
  refine ⟨{ s with env := e }, hran, fun id k => ?_⟩
  rintro ⟨y, hfound, hbound⟩
  cases hget : s.env.scopes[id]? with
  | none => cases (hjoined.getElem?_eq_none hget).symm.trans hfound
  | some x =>
    obtain ⟨y', hfound', -, hgets⟩ := hjoined.scopes id x hget
    cases hfound'.symm.trans hfound
    rw [OrdMap.contains, hgets] at hbound
    by_cases his : id = r.getD Env.global ∧ k = name
    · obtain ⟨rfl, rfl⟩ := his
      cases r with
      | none => exact .inr ⟨rfl, rfl, hsees⟩
      | some owner => exact .inl hsees.binds
    · rw [if_neg his] at hbound
      exact .inl ⟨x, hget, hbound⟩

/-- The variable is at least as wide as what was written, when types are normal. -/
theorem Reached.write (h : s.Reached options globals ps) {scope : ScopeId}
    (hinside : scope < s.env.scopes.size) (name : String) (v : Ty) :
    ∃ t, Target.write scope v (.variable name) s = .ok () t ∧
      ((∀ g ∈ globals, g.2.Normal) → v.Normal →
        ∃ w, t.env.lookup scope name = .ok w ∧ v.isSubtype w = true) ∧
      ∀ scope' name', name' ≠ name → t.env.lookup scope' name' = s.env.lookup scope' name' := by
  obtain ⟨t, hran, ⟨w, hlooked, his⟩, hlookup⟩ := h.chained.write hinside name v
  refine ⟨t, hran, fun hgiven hnormal => ⟨w, hlooked, ?_⟩, hlookup⟩
  rcases his with rfl | ⟨old, -, hstored, rfl⟩
  · exact (hnormal.isSubtype_iff hnormal).mpr hnormal.le_refl
  · have hlub := (h.normal hgiven old hstored).isLub_join hnormal
    exact (hnormal.isSubtype_iff hlub.normal).mpr hlub.right

end Run

end TypeFlow
