import Mathlib
import TypeFlow.Proofs.Engine.Variables
import TypeFlow.Proofs.Result.Remembered
import TypeFlow.Proofs.Result.Reports
import TypeFlow.Proofs.Result.Tables

/-!
# Variables in the result

The result of a run has a scope for every scope of the state, with the same parent and the same
names.  Looking a name up in the result walks along the same chain, and answers what the resolver
makes of the type that the state has for the name.

## Main Definitions

* `Run.Remembers` - what a resolver can remember that has answered for stored types
* `TypeMap.Mirrors` - the scopes of a result have the parents and the names of those of a state

## Main Statements

* `Env.Sees.bindingIn?` - a lookup in the result ends where the lookup in the state does
* `Run.resolve_typeOfBinding` - and answers the type in the state, resolved
* `chains_founded` - chains of scopes are well-founded, and both lookups agree

## Design Notes

One resolver is used for everything at the end of a run, and what it answers may depend on what it
resolved before: `binding_resolved_apart`.  A type that is not tangled is answered as by a resolver
of its own.
-/

namespace TypeFlow

open Resolve

/-! ### Resolving bindings one after the other -/

/-- What a resolver can remember: nothing at first, then what it has answered for stored types. -/
inductive Run.Remembers (s : Run) : Memo → Prop
  | nothing : s.Remembers Memo.empty
  | answer {memo memo' : Memo} {t r : Ty} : s.Remembers memo → t ∈ s.types →
      resolve s t memo = .ok (r, memo') → s.Remembers memo'

section Turns

variable {s : Run} {memo memo' : Memo}

/-- Only unfolded answers are remembered. -/
theorem Run.Remembers.each (hmemo : s.Remembers memo) : memo.Each (Unfolds s) := by
  induction hmemo with
  | nothing => exact Memo.each_empty _
  | answer _ _ hran ih => exact resolveOn_each ih hran

theorem resolveNodes_remembers {order rs : List (NodeId × Ty)} (hmemo : s.Remembers memo)
    (hstored : ∀ e ∈ order, e.2 ∈ s.types)
    (hran : resolveNodes s order memo = .ok (rs, memo')) : s.Remembers memo' := by
  induction order generalizing memo rs with
  | nil =>
    cases hran
    exact hmemo
  | cons e order ih =>
    obtain ⟨hfirst, hlater⟩ := List.forall_mem_cons.mp hstored
    obtain ⟨r, memo₁, hnode, hran⟩ := Resolve.bind_eq_ok.mp hran
    obtain ⟨rs', memo₂, hrest, hran⟩ := Resolve.bind_eq_ok.mp hran
    cases hran
    exact ih (hmemo.answer hfirst hnode) hlater hrest

/-- Resolving bindings keeps the names, and adds answers for stored types to the memory. -/
theorem enterFields_remembers {fs gs : Fields} (hmemo : s.Remembers memo)
    (hstored : fs.types ⊆ s.types) (hran : enterFields (resolve s) fs memo = .ok (gs, memo')) :
    s.Remembers memo' ∧ ∀ name, OrdMap.contains gs name = OrdMap.contains fs name := by
  induction fs generalizing memo gs with
  | nil =>
    cases hran
    exact ⟨hmemo, fun _ => rfl⟩
  | cons e fs ih =>
    obtain ⟨hfirst, hlater⟩ := List.cons_subset.mp hstored
    obtain ⟨r, memo₁, hentry, hran⟩ := Resolve.bind_eq_ok.mp hran
    obtain ⟨rs, memo₂, hrest, hran⟩ := Resolve.bind_eq_ok.mp hran
    cases hran
    obtain ⟨hmemo', hnames⟩ := ih (hmemo.answer hfirst hentry) hlater hrest
    refine ⟨hmemo', fun name => ?_⟩
    have hname := hnames name
    unfold OrdMap.contains at hname ⊢
    rw [OrdMap.get?, OrdMap.get?]
    split
    · rfl
    · exact hname

/-- The type of a name is resolved after other stored types. -/
theorem enterFields_get? {fs gs : Fields} {name : String} {t : Ty} (hmemo : s.Remembers memo)
    (hstored : fs.types ⊆ s.types) (hran : enterFields (resolve s) fs memo = .ok (gs, memo'))
    (hbound : OrdMap.get? fs name = some t) :
    ∃ memo₁ memo₂ r, s.Remembers memo₁ ∧ resolve s t memo₁ = .ok (r, memo₂) ∧
      OrdMap.get? gs name = some r := by
  induction fs generalizing memo gs with
  | nil => cases hbound
  | cons e fs ih =>
    obtain ⟨hfirst, hlater⟩ := List.cons_subset.mp hstored
    obtain ⟨r, memo₁, hentry, hran⟩ := Resolve.bind_eq_ok.mp hran
    obtain ⟨rs, memo₂, hrest, hran⟩ := Resolve.bind_eq_ok.mp hran
    cases hran
    rw [OrdMap.get?] at hbound ⊢
    by_cases hname : name = e.1
    · rw [if_pos hname] at hbound ⊢
      cases hbound
      exact ⟨memo, memo₁, r, hmemo, hentry, rfl⟩
    · rw [if_neg hname] at hbound ⊢
      exact ih (hmemo.answer hfirst hentry) hlater hrest hbound

/-- The scopes are resolved one after the other, each of them after other stored types. -/
theorem resolveScopes_getElem? {xs : List Scope} {infos : List ScopeInfo}
    (hmemo : s.Remembers memo) (hstored : ∀ x ∈ xs, x.bindings.types ⊆ s.types)
    (hran : resolveScopes s xs memo = .ok (infos, memo')) {i : Nat} {x : Scope}
    (hscope : xs[i]? = some x) :
    ∃ memo₁ memo₂ bindings, s.Remembers memo₁ ∧
      enterFields (resolve s) x.bindings memo₁ = .ok (bindings, memo₂) ∧
        infos[i]? = some ⟨x.parent, x.owner, bindings⟩ := by
  induction xs generalizing memo infos i with
  | nil => cases hscope
  | cons y xs ih =>
    obtain ⟨hfirst, hlater⟩ := List.forall_mem_cons.mp hstored
    obtain ⟨bindings, memo₁, hentered, hran⟩ := Resolve.bind_eq_ok.mp hran
    obtain ⟨others, memo₂, hrest, hran⟩ := Resolve.bind_eq_ok.mp hran
    cases hran
    cases i with
    | zero =>
      cases hscope
      exact ⟨memo, memo₁, bindings, hmemo, hentered, rfl⟩
    | succ i => exact ih (enterFields_remembers hmemo hfirst hentered).1 hlater hrest hscope

theorem resolveScopes_length {xs : List Scope} {infos : List ScopeInfo}
    (hran : resolveScopes s xs memo = .ok (infos, memo')) : infos.length = xs.length := by
  induction xs generalizing memo infos with
  | nil =>
    cases hran
    rfl
  | cons y xs ih =>
    obtain ⟨bindings, memo₁, -, hran⟩ := Resolve.bind_eq_ok.mp hran
    obtain ⟨others, memo₂, hrest, hran⟩ := Resolve.bind_eq_ok.mp hran
    cases hran
    exact congrArg Nat.succ (ih hrest)

end Turns

/-! ### Walks in the result -/

/-- The scopes of a result have the parents and the names of those of an environment. -/
structure TypeMap.Mirrors (m : TypeMap) (e : Env) : Prop where
  size : m.scopes.size = e.scopes.size
  scopes : ∀ (i : Nat) x, e.scopes[i]? = some x → ∃ info, m.scopes[i]? = some info ∧
    info.parent = x.parent ∧
      ∀ name, OrdMap.contains info.bindings name = OrdMap.contains x.bindings name

/-- What the scope of a result at the end of a walk binds to a name. -/
def TypeMap.boundAt (m : TypeMap) (name : String) (r : Option ScopeId) : Option Ty :=
  r.bind fun owner => m.scopes[owner]?.bind fun info => OrdMap.get? info.bindings name

/-- A walk in the result ends where the walk in the state does, whatever the bound on its steps,
from the place of the scope on. -/
theorem Env.Sees.bindingIn? {e : Env} {m : TypeMap} {name : String} {id : ScopeId}
    {r : Option ScopeId} (hsees : e.Sees name id r) (hfounded : e.Founded) (hmirrors : m.Mirrors e)
    {steps : Nat} (hsteps : id < steps) : m.bindingIn? name steps id = m.boundAt name r := by
  induction hsees generalizing steps with
  | @here i x hscope hbound =>
    obtain ⟨steps, rfl⟩ := Nat.exists_eq_succ_of_ne_zero (Nat.ne_zero_of_lt hsteps)
    obtain ⟨info, hinfo, -, hnames⟩ := hmirrors.scopes i x hscope
    obtain ⟨t, ht⟩ := Option.isSome_iff_exists.mp ((hnames name).trans hbound)
    simp only [TypeMap.bindingIn?, TypeMap.boundAt, Option.bind_some, hinfo, ht]
  | @top i x hscope hunbound hlink =>
    obtain ⟨steps, rfl⟩ := Nat.exists_eq_succ_of_ne_zero (Nat.ne_zero_of_lt hsteps)
    obtain ⟨info, hinfo, hparent, hnames⟩ := hmirrors.scopes i x hscope
    have habsent : OrdMap.get? info.bindings name = none :=
      Option.not_isSome_iff_eq_none.mp (Bool.eq_false_iff.mp ((hnames name).trans hunbound))
    simp only [TypeMap.bindingIn?, hinfo, habsent, hparent, hlink]
    rfl
  | @up i p x r hscope hunbound hlink _ ih =>
    obtain ⟨steps, rfl⟩ := Nat.exists_eq_succ_of_ne_zero (Nat.ne_zero_of_lt hsteps)
    obtain ⟨info, hinfo, hparent, hnames⟩ := hmirrors.scopes i x hscope
    have habsent : OrdMap.get? info.bindings name = none :=
      Option.not_isSome_iff_eq_none.mp (Bool.eq_false_iff.mp ((hnames name).trans hunbound))
    have hlt := hfounded.parent_lt hscope hlink
    simp only [TypeMap.bindingIn?, hinfo, habsent, hparent, hlink]
    exact ih (Nat.lt_of_lt_of_le hlt (Nat.le_of_lt_succ hsteps))

/-- So the lookup of a name in the result answers what the scope binds in which the walk ends. -/
theorem Env.Sees.typeOfBinding {e : Env} {m : TypeMap} {name : String} {id : ScopeId}
    {r : Option ScopeId} (hsees : e.Sees name id r) (hfounded : e.Founded)
    (hmirrors : m.Mirrors e) : m.typeOfBinding id name = (m.boundAt name r).getD .any := by
  have hinside : id < m.scopes.size := hmirrors.size ▸ hsees.inside
  rw [TypeMap.typeOfBinding, hsees.bindingIn? hfounded hmirrors (Nat.lt_succ_of_lt hinside)]

/-! ### Variables of a result -/

section Shown

variable {s : Run} {order : NodeOrder} {m : TypeMap} {memo : Memo}
  (hbuilt : buildTypeMapIn s (order.list s.nodeTypes) Memo.empty = .ok (m, memo))

include hbuilt

/-- The scopes of a result are resolved after the types of nodes. -/
theorem buildTypeMapIn_scopes :
    ∃ memo₁ memo₂ infos, s.Remembers memo₁ ∧
      resolveScopes s s.env.scopes.toList memo₁ = .ok (infos, memo₂) ∧
      m.scopes = infos.toArray := by
  obtain ⟨nodes, memo₁, hnodes, hbuilt⟩ := Resolve.bind_eq_ok.mp hbuilt
  obtain ⟨infos, memo₂, hscopes, hbuilt⟩ := Resolve.bind_eq_ok.mp hbuilt
  obtain ⟨funcs, _, -, hbuilt⟩ := Resolve.bind_eq_ok.mp hbuilt
  obtain ⟨top, _, -, hbuilt⟩ := Resolve.bind_eq_ok.mp hbuilt
  obtain ⟨globals, _, -, hbuilt⟩ := Resolve.bind_eq_ok.mp hbuilt
  obtain ⟨ctors, _, -, hbuilt⟩ := Resolve.bind_eq_ok.mp hbuilt
  cases hbuilt
  refine ⟨memo₁, memo₂, infos, resolveNodes_remembers .nothing (fun e he => ?_) hnodes,
    hscopes, rfl⟩
  exact s.node_types (List.mem_map_of_mem ((order.perm _).mem_iff.mp he))

/-- A scope of the result has the bindings of the scope of the state, resolved in turn. -/
theorem buildTypeMapIn_scope {i : Nat} {x : Scope} (hscope : s.env.scopes[i]? = some x) :
    ∃ memo₁ memo₂ bindings, s.Remembers memo₁ ∧
      enterFields (resolve s) x.bindings memo₁ = .ok (bindings, memo₂) ∧
        m.scopes[i]? = some ⟨x.parent, x.owner, bindings⟩ := by
  obtain ⟨memo₁, memo₂, infos, hmemo, hscopes, hm⟩ := buildTypeMapIn_scopes hbuilt
  rw [hm, List.getElem?_toArray]
  refine resolveScopes_getElem? hmemo (fun x hx t ht => ?_) hscopes
    (Array.getElem?_toList.trans hscope)
  exact s.scope_types (List.mem_flatMap.mpr ⟨x, hx, ht⟩)

/-- The result has the scopes of the state, with their parents and their names. -/
theorem buildTypeMapIn_mirrors : m.Mirrors s.env := by
  constructor
  · obtain ⟨memo₁, memo₂, infos, -, hscopes, hm⟩ := buildTypeMapIn_scopes hbuilt
    rw [hm, List.size_toArray, resolveScopes_length hscopes, Array.length_toList]
  · intro i x hscope
    obtain ⟨memo₁, memo₂, bindings, hmemo, hentered, hinfo⟩ := buildTypeMapIn_scope hbuilt hscope
    have hstored : x.bindings.types ⊆ s.types := fun t ht =>
      s.scope_types (Entry.types_subset hscope ht)
    exact ⟨_, hinfo, rfl, (enterFields_remembers hmemo hstored hentered).2⟩

/-- What the scope of a result binds at the end of a walk is what the scope of the state binds
there, resolved after other stored types. -/
theorem buildTypeMapIn_boundAt {name : String} {id : ScopeId} {r : Option ScopeId}
    (hsees : s.env.Sees name id r) :
    ∃ memo₁ memo₂, s.Remembers memo₁ ∧
      resolve s ((s.env.boundAt name r).getD .any) memo₁ =
        .ok ((m.boundAt name r).getD .any, memo₂) := by
  cases r with
  | none => exact ⟨Memo.empty, Memo.empty, .nothing, rfl⟩
  | some owner =>
    obtain ⟨x, hscope, hbound⟩ := hsees.binds
    obtain ⟨t, ht⟩ := Option.isSome_iff_exists.mp hbound
    obtain ⟨memo₁, memo₂, bindings, hmemo, hentered, hinfo⟩ := buildTypeMapIn_scope hbuilt hscope
    have hstored : x.bindings.types ⊆ s.types := fun t ht =>
      s.scope_types (Entry.types_subset hscope ht)
    obtain ⟨memo₃, memo₄, u, hmemo', hturn, hu⟩ := enterFields_get? hmemo hstored hentered ht
    refine ⟨memo₃, memo₄, hmemo', ?_⟩
    simp only [Env.boundAt, TypeMap.boundAt, Option.bind_some, hscope, hinfo, ht, hu,
      Option.getD_some]
    exact hturn

/-- The type of a variable in the result is the type that is looked up for it in the state,
resolved after other stored types. -/
theorem Run.resolve_typeOfBinding (hchained : s.Chained) {scope : ScopeId}
    (hinside : scope < s.env.scopes.size) (name : String) :
    ∃ t memo₁ memo₂, s.env.lookup scope name = .ok t ∧ s.Remembers memo₁ ∧
      resolve s t memo₁ = .ok (m.typeOfBinding scope name, memo₂) := by
  obtain ⟨r, hsees⟩ := hchained.founded.sees name hinside
  obtain ⟨memo₁, memo₂, hmemo, hturn⟩ := buildTypeMapIn_boundAt hbuilt hsees
  rw [hsees.typeOfBinding hchained.founded (buildTypeMapIn_mirrors hbuilt)]
  exact ⟨_, memo₁, memo₂, hsees.lookup hchained.founded, hmemo, hturn⟩

omit hbuilt in
/-- What is looked up for a variable refers to entries of the tables. -/
theorem Run.holds_lookup (hvalid : s.Valid) (hchained : s.Chained) {scope : ScopeId}
    (hinside : scope < s.env.scopes.size) {name : String} {t : Ty}
    (hlookup : s.env.lookup scope name = .ok t) : s.Holds t := by
  obtain ⟨r, hsees⟩ := hchained.founded.sees name hinside
  have ht : (s.env.boundAt name r).getD .any = t :=
    Except.ok.inj ((hsees.lookup hchained.founded).symm.trans hlookup)
  rw [← ht]
  cases hbound : s.env.boundAt name r with
  | none => exact fun d hmem => nomatch hmem
  | some u =>
    have hget : s.env.get? scope name = .ok (some u) := hbound ▸ hsees.get? hchained.founded
    exact hvalid.stored (s.scope_types (Env.get?_mem hget))

/-- A variable whose type is not tangled has the type that a resolver of its own answers. -/
theorem Run.resolve_lookup (hchained : s.Chained) (hvalid : s.Valid) {scope : ScopeId}
    (hinside : scope < s.env.scopes.size) {name : String} {t : Ty}
    (hlookup : s.env.lookup scope name = .ok t) (huntangled : s.Untangled t) :
    (resolve s t).run' Memo.empty = .ok (m.typeOfBinding scope name) := by
  obtain ⟨u, memo₁, memo₂, hu, hmemo, hturn⟩ :=
    Run.resolve_typeOfBinding hbuilt hchained hinside name
  cases hu.symm.trans hlookup
  have hholds := Run.holds_lookup hvalid hchained hinside hlookup
  exact resolve_fresh hvalid hholds huntangled hmemo.each hturn

end Shown

/-! ### Runs -/

theorem inferPrograms_calm (ps : List Program) : (inferPrograms ps).Calm := by
  induction ps with
  | nil => exact .pure ()
  | cons p ps ih => exact (inferProgram_calm p).bind fun _ => ih

section Runs

variable {options : Options} {globals : Globals} {order : NodeOrder} {ps : List Program}
  {m : TypeMap} {s t : Run}

/-- The log is not looked at. -/
theorem buildTypeMapIn_logged (s : Run) (e : Event) (order : List (NodeId × Ty)) :
    buildTypeMapIn (s.logged e) order = buildTypeMapIn s order := by
  have hview : (s.logged e).view = s.view := rfl
  have hself : s.view = s.view := rfl
  exact (buildTypeMapIn_view hview order).trans (buildTypeMapIn_view hself order).symm

/-- The result of a run is put together from the state that the run ends in. -/
theorem buildTypeMapIn_of_finish (hran : finish order s = .ok m t) :
    ∃ memo, buildTypeMapIn t (order.list t.nodeTypes) Memo.empty = .ok (m, memo) := by
  obtain ⟨v, -, hbuilt, rfl⟩ := finish_eq_ok hran
  -- The last event is logged after the result was put together.
  rw [buildTypeMapIn_logged]
  exact Resolve.run'_eq_ok.mp hbuilt

/-- Programs are run, and the run is ended. -/
def analysePrograms (order : NodeOrder) (ps : List Program) : Walk TypeMap := do
  inferPrograms ps
  finish order

/-- Analysing programs leaves a state that the programs reach. -/
theorem reached_analysePrograms (order : NodeOrder) (options : Options) (globals : Globals)
    (ps : List Program) :
    (after (analysePrograms order ps) (Run.start options globals)).Reached options globals ps :=
  Run.Reached.of_does .refl <| (does_inferPrograms options globals ps).bind fun _ _ hinv _ _ =>
    Discipline.Does.finish order rfl id trivial hinv

/-- From globals without handles, a run ends, in a state in which all handles have entries. -/
theorem analysePrograms_ok (order : NodeOrder) (options : Options) (ps : List Program)
    (hglobals : ∀ g ∈ globals, g.2.handles = []) :
    ∃ m t, analysePrograms order ps (Run.start options globals) = .ok m t ∧ t.Valid := by
  have hvalid := start_valid options hglobals
  have hdoes : validHandles.Does none (Run.start options globals) (analysePrograms order ps)
      fun _ _ => True :=
    (Discipline.Does.inferPrograms trivial ((validHandles_inv_iff _).mpr hvalid)
      fun _ _ _ _ => trivial).bind fun _ t hinv _ _ => finish_does order hinv
  have hsound := sound_of_does hvalid hdoes
  obtain ⟨m, t, hran⟩ := hsound.ends ((inferPrograms_calm ps).bind fun _ => finish_calm order)
  have hends := hsound.valid
  rw [after, hran] at hends
  exact ⟨m, t, hran, hends⟩

/-- The state in which an analysis ends: its chains of scopes are well-founded, and the result is
put together from it. -/
theorem analysePrograms_ends
    (hran : analysePrograms order ps (Run.start options globals) = .ok m t) :
    t.Chained ∧ ∃ memo, buildTypeMapIn t (order.list t.nodeTypes) Memo.empty = .ok (m, memo) := by
  obtain ⟨_, u, -, hfinished⟩ := TypeFlow.bind_eq_ok.mp hran
  have hreached := reached_analysePrograms order options globals ps
  rw [after, hran] at hreached
  exact ⟨hreached.chained, buildTypeMapIn_of_finish hfinished⟩

end Runs

/-- **Chains of scopes are well-founded, and both lookups agree.**  At every point of a run every
scope but the global one has a parent that comes before it, so walks along the parents end, without
meeting the bound on their steps.  After a write to a variable its lookup from the same scope gives
a supertype of what was written, and lookups of other names are as before.  When the run has ended,
in whatever order the nodes are resolved, the result answers for every variable what the state has
for it, resolved after other stored types; and from globals without handles it ends, a type that is
not tangled being resolved as by a resolver of its own. -/
theorem chains_founded (options : Options) (globals : Globals) (ps : List Program)
    (order : NodeOrder) :
    (∀ s, s.Reached options globals ps →
      s.env.Founded ∧ ∀ scope, scope < s.env.scopes.size → ∀ name,
        (∃ r, s.env.Sees name scope r ∧
          ∀ steps, scope < steps → s.env.resolveIn name steps scope = .ok r) ∧
        ∀ v, ∃ t, Target.write scope v (.variable name) s = .ok () t ∧
          ((∀ g ∈ globals, g.2.Normal) → v.Normal →
            ∃ w, t.env.lookup scope name = .ok w ∧ v.isSubtype w = true) ∧
          ∀ scope' name', name' ≠ name →
            t.env.lookup scope' name' = s.env.lookup scope' name') ∧
    (after (inferPrograms ps) (Run.start options globals)).Reached options globals ps ∧
    (after (analysePrograms order ps) (Run.start options globals)).Reached options globals ps ∧
    (∀ m t, analysePrograms order ps (Run.start options globals) = .ok m t →
      m.scopes.size = t.env.scopes.size ∧ ∀ scope, scope < t.env.scopes.size → ∀ name,
        (∀ steps, scope < steps →
          m.bindingIn? name steps scope = m.bindingIn? name (m.scopes.size + 1) scope) ∧
        ∃ u memo memo', t.env.lookup scope name = .ok u ∧ t.Remembers memo ∧
          resolve t u memo = .ok (m.typeOfBinding scope name, memo')) ∧
    ((∀ g ∈ globals, g.2.handles = []) →
      ∃ m t, analysePrograms order ps (Run.start options globals) = .ok m t ∧
        ∀ scope, scope < t.env.scopes.size → ∀ name u, t.env.lookup scope name = .ok u →
          t.Untangled u → (resolve t u).run' Memo.empty = .ok (m.typeOfBinding scope name)) := by
  refine ⟨fun s hreached => ⟨hreached.chained.founded, fun scope hinside name => ⟨?_, ?_⟩⟩,
    reached_inferPrograms options globals ps, reached_analysePrograms order options globals ps,
    fun m t hran => ?_, fun hglobals => ?_⟩
  · obtain ⟨r, hsees⟩ := hreached.chained.founded.sees name hinside
    exact ⟨r, hsees, fun steps hsteps => hsees.resolveIn hreached.chained.founded hsteps⟩
  · exact fun v => hreached.write hinside name v
  · obtain ⟨hchained, memo, hbuilt⟩ := analysePrograms_ends hran
    have hmirrors := buildTypeMapIn_mirrors hbuilt
    refine ⟨hmirrors.size, fun scope hinside name => ⟨fun steps hsteps => ?_,
      Run.resolve_typeOfBinding hbuilt hchained hinside name⟩⟩
    obtain ⟨r, hsees⟩ := hchained.founded.sees name hinside
    -- the look-up follows the scopes of the state, which the result mirrors
    have hinside' : scope < m.scopes.size + 1 := hmirrors.size ▸ Nat.lt_succ_of_lt hinside
    rw [hsees.bindingIn? hchained.founded hmirrors hsteps,
      hsees.bindingIn? hchained.founded hmirrors hinside']
  · obtain ⟨m, t, hran, hvalid⟩ := analysePrograms_ok order options ps hglobals
    obtain ⟨hchained, memo, hbuilt⟩ := analysePrograms_ends hran
    refine ⟨m, t, hran, fun scope hinside name u hlookup huntangled => ?_⟩
    exact Run.resolve_lookup hbuilt hchained hvalid hinside hlookup huntangled

/-- `function f(x) { return function() { x = ""; g = 1 } }` and `f(1)()`. -/
def nestedWrite : Program :=
  [⟨0, ⟨0, 0⟩, .function ⟨1, ⟨0, 0⟩, some "f", ["x"],
      [⟨2, ⟨0, 0⟩, .ret (some ⟨3, ⟨0, 0⟩, .function ⟨4, ⟨0, 0⟩, none, [],
        [⟨5, ⟨0, 0⟩, .expr ⟨6, ⟨0, 0⟩, .assign none ⟨7, ⟨0, 0⟩, .ident "x"⟩
            ⟨8, ⟨0, 0⟩, .literal .string⟩⟩⟩,
          ⟨9, ⟨0, 0⟩, .expr ⟨10, ⟨0, 0⟩, .assign none ⟨11, ⟨0, 0⟩, .ident "g"⟩
            ⟨12, ⟨0, 0⟩, .literal .number⟩⟩⟩]⟩⟩)⟩]⟩⟩,
    ⟨13, ⟨0, 0⟩, .expr ⟨14, ⟨0, 0⟩, .call (some ⟨15, ⟨0, 0⟩, .call
      (some ⟨16, ⟨0, 0⟩, .ident "f"⟩) [⟨17, ⟨0, 0⟩, .literal .number⟩]⟩) []⟩⟩]

/-- The state that the program leaves behind. -/
def Run.nestedWrite : Run :=
  after (inferPrograms [TypeFlow.nestedWrite]) (Run.start ⟨2, 3, false, false⟩ [])

/-- The inner function writes a variable of the outer one, and a name that becomes a global. -/
theorem chains_founded_nestedWrite :
    Run.nestedWrite.Reached ⟨2, 3, false, false⟩ [] [nestedWrite] ∧
    Run.nestedWrite.env.scopes.map Scope.parent = #[none, some 0, some 1] ∧
    (∃ t w, Target.write 2 .null (.variable "x") Run.nestedWrite = .ok () t ∧
      t.env.lookup 2 "x" = .ok w ∧ Ty.null.isSubtype w = true ∧
      t.env.lookup 2 "g" = Run.nestedWrite.env.lookup 2 "g") ∧
    ∃ m t, analysePrograms .ascending [nestedWrite] (Run.start ⟨2, 3, false, false⟩ []) = .ok m t ∧
      t.env.scopes.size = 3 ∧ ∃ u, t.env.lookup 2 "x" = .ok u ∧ t.Untangled u ∧
        (resolve t u).run' Memo.empty = .ok (m.typeOfBinding 2 "x") := by
  obtain ⟨heverywhere, hreached, -, -, hends⟩ :=
    chains_founded ⟨2, 3, false, false⟩ [] [nestedWrite] .ascending
  obtain ⟨-, heach⟩ := heverywhere Run.nestedWrite hreached
  obtain ⟨t, hran, hwider, hlookup⟩ := (heach 2 (by decide +kernel) "x").2 .null
  obtain ⟨w, hlooked, hsub⟩ := hwider nofun trivial
  refine ⟨hreached, by decide +kernel, ⟨t, w, hran, hlooked, hsub, hlookup 2 "g" (by decide)⟩, ?_⟩
  obtain ⟨m, t, hran, hresolved⟩ := hends nofun
  have hfinal : after (analysePrograms .ascending [nestedWrite])
      (Run.start ⟨2, 3, false, false⟩ []) = t := by
    rw [after, hran]
  have hsize : t.env.scopes.size = 3 := by
    rw [← hfinal]
    decide +kernel
  have hlooked : t.env.lookup 2 "x" = .ok (.union [.string, .number]) := by
    rw [← hfinal]
    decide +kernel
  have huntangled : t.Untangled (.union [.string, .number]) := by
    refine Run.untangled_of_scattered ?_ (by decide)
    rw [← hfinal]
    decide +kernel
  refine ⟨m, t, hran, hsize, _, hlooked, huntangled, ?_⟩
  exact hresolved 2 (by rw [hsize]; decide) "x" _ hlooked huntangled

/-- Two objects, one inside the other, are assigned to one variable.  A resolver of its own cuts the
inner object in the type of the variable; the result has the object resolved there, since the inner
object was resolved before. -/
theorem binding_resolved_apart :
    ∃ m t, analysePrograms .ascending [sharing.dropLast] (Run.start .standard []) = .ok m t ∧
      t.env.lookup 0 "c" = .ok Ty.sharing ∧
      (resolve t Ty.sharing).run' Memo.empty = .ok (.record [("n", .number), ("x", .any)]) ∧
      m.typeOfBinding 0 "c" =
        .record [("n", .number), ("x", .record [("n", .number)])] := by
  obtain ⟨m, t, hran, -⟩ : ∃ m t, analysePrograms .ascending [sharing.dropLast]
      (Run.start .standard []) = .ok m t ∧ t.Valid :=
    analysePrograms_ok .ascending .standard _ nofun
  have hfinal :
      after (analysePrograms .ascending [sharing.dropLast]) (Run.start .standard []) = t := by
    rw [after, hran]
  obtain ⟨-, memo, hbuilt⟩ := analysePrograms_ends hran
  have hshown : ((buildTypeMapIn t (NodeOrder.ascending.list t.nodeTypes)).run' Memo.empty).map
      (·.typeOfBinding 0 "c") =
      .ok (.record [("n", .number), ("x", .record [("n", .number)])]) := by
    rw [← hfinal]
    decide +kernel
  rw [Resolve.run'_eq_ok.mpr ⟨memo, hbuilt⟩] at hshown
  refine ⟨m, t, hran, ?_, ?_, Except.ok.inj hshown⟩
  · rw [← hfinal]
    decide +kernel
  · rw [← hfinal]
    decide +kernel

end TypeFlow
