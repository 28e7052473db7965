import Mathlib
import TypeFlow.Proofs.Engine.Programs
import TypeFlow.Proofs.Types.Handles

/-!
# Validity of handles

Every handle in the state of a run has an entry in the table that it indexes, at every point of the
run.  No walk ever follows a handle without an entry.

## Main Definitions

* `Run.allHandles` - the handles in a state, those in its types included
* `Run.Valid` - the states in which every handle has an entry
* `Walk.Sound` - computations that pass only valid states and follow only handles with entries

## Main Statements

* `start_valid` - the state before the first program is valid when the given globals carry no
  handles
* `sound_of_does` - what keeps to the discipline of valid handles is sound
* `Walk.Sound.ends` - what is sound runs to its end, when no malformation stops it

## Design Notes

Validity is the invariant of a tight discipline: a type may be stored when all handles in it have
entries.  Entries are never removed, so what may be stored once may be stored ever after.
-/

namespace TypeFlow

/-! ### Valid states -/

/-- The handles in a state: that of the global scope, those in the tables, in the running calls and
in the notes, and those in its types. -/
def Run.allHandles (s : Run) : List Dangling :=
  .scope Env.global :: s.handles ++ s.types.flatMap Ty.handles

/-- Every handle in the state has an entry. -/
def Run.Valid (s : Run) : Prop :=
  ∀ d ∈ s.allHandles, s.HasEntry d

instance (s : Run) : Decidable s.Valid :=
  inferInstanceAs (Decidable (∀ d ∈ s.allHandles, s.HasEntry d))

/-- Every handle in the type has an entry. -/
def Run.Holds (s : Run) (t : Ty) : Prop :=
  ∀ d ∈ t.handles, s.HasEntry d

/-- Walks in which every handle has an entry. -/
def validHandles : Discipline where
  toSimilarity := .equal
  toNodeClass := .all
  Good := Run.Holds
  Within _ := True
  tight := True
  mono hext hholds d hmem := hext.hasEntry (hholds d hmem)
  never _ hmem := nomatch hmem
  any _ hmem := nomatch hmem
  prim _ _ hmem := nomatch hmem
  join ha hb := Ty.handles_join ha hb
  member hholds hmem d hinside := hholds d (Ty.handles_member hmem hinside)
  ret hholds d hmem := hholds d (FuncTy.mem_handles.mpr (.inr (.inr hmem)))
  field hholds hmem d hinside := hholds d (ObjTy.mem_handles.mpr (.inr ⟨_, hmem, hinside⟩))
  closure hhas _ _ d hmem := by
    rw [Ty.handles_closure] at hmem
    cases List.mem_singleton.mp hmem
    exact hhas trivial
  ofCell hhas d hmem := by
    cases List.mem_singleton.mp hmem
    exact hhas trivial
  ofInstance hhas hhasK d hmem := by
    rcases List.mem_pair.mp hmem with rfl | rfl
    · exact hhas trivial
    · exact hhasK trivial
  prototypeOf hhas d hmem := by
    cases List.mem_singleton.mp hmem
    exact hhas trivial
  funcHandles _ _ _ hholds id hmem :=
    hholds _ (FuncTy.mem_handles.mpr (.inl (List.mem_map_of_mem hmem)))
  cellHandles _ _ _ hholds id hmem :=
    hholds _ (ObjTy.mem_handles.mpr (.inl (List.mem_append_left _ (List.mem_map_of_mem hmem))))
  ctorHandles _ _ _ hholds id hmem :=
    hholds _ (ObjTy.mem_handles.mpr (.inl (List.mem_append_right _ (List.mem_map_of_mem hmem))))

theorem validHandles_inv_iff (s : Run) : validHandles.Inv s ↔ s.Valid := by
  constructor
  · intro hinv d hmem
    rcases List.mem_append.mp hmem with houtside | hinside
    · rcases List.mem_cons.mp houtside with rfl | hheld
      · exact hinv.global trivial
      · exact hinv.live d hheld trivial
    · obtain ⟨t, hstored, hwithin⟩ := List.mem_flatMap.mp hinside
      exact hinv.good t hstored d hwithin
  · intro hvalid
    have houtside : ∀ d ∈ Dangling.scope Env.global :: s.handles, s.HasEntry d := fun d hmem =>
      hvalid d (List.mem_append_left _ hmem)
    refine ⟨fun t hstored d hwithin => ?_, fun d hheld _ => ?_, fun _ _ _ => trivial, fun _ => ?_,
      trivial, False.elim, nofun⟩
    · exact hvalid d (List.mem_append_right _ (List.mem_flatMap.mpr ⟨t, hstored, hwithin⟩))
    · exact houtside d (List.mem_cons_of_mem _ hheld)
    · exact houtside _ List.mem_cons_self

/-! ### Sound computations -/

/-- One update from a valid state to a valid one. -/
def Run.ValidStep (s t : Run) : Prop :=
  s.Valid ∧ t.Valid ∧ ∃ u : Update, t = u.apply s

/-- A computation that leaves a valid state, whether it succeeds or stops, and that does not stop at
a handle without an entry. -/
structure Walk.Sound {α : Type} (m : Walk α) (s : Run) : Prop where
  valid : (after m s).Valid
  /-- Updates between valid states lead to the state that is left. -/
  through : Relation.ReflTransGen Run.ValidStep s (after m s)
  follows : ∀ d t, m s ≠ .error (.dangling d) t

theorem validSteps_of_steps {s t : Run} (hsteps : validHandles.Steps s t) (hvalid : s.Valid) :
    Relation.ReflTransGen Run.ValidStep s t := by
  induction hsteps with
  | refl => exact .refl
  | tail hreaches hlast ih =>
    obtain ⟨u, hguard, rfl⟩ := hlast
    have hinv := Discipline.Steps.inv hreaches ((validHandles_inv_iff s).mpr hvalid)
    refine ih.tail ⟨(validHandles_inv_iff _).mp hinv, ?_, u, rfl⟩
    exact (validHandles_inv_iff _).mp (hinv.apply hguard)

theorem sound_of_does {α : Type} {m : Walk α} {Q : α → Run → Prop} {s : Run} (hvalid : s.Valid)
    (h : validHandles.Does none s m Q) : m.Sound s := by
  have houtcome := h s rfl
  obtain ⟨hinv, hlead⟩ := houtcome.after
  refine ⟨(validHandles_inv_iff _).mp hinv, validSteps_of_steps hlead.steps hvalid, ?_⟩
  exact fun d t hstopped => houtcome.fails hstopped trivial

/-- A sound computation that no malformation stops runs to its end. -/
theorem Walk.Sound.ends {α : Type} {m : Walk α} {s : Run} (hsound : m.Sound s) (hcalm : m.Calm) :
    ∃ a t, m s = .ok a t := by
  cases hran : m s with
  | ok a t => exact ⟨a, t, rfl⟩
  | error e t =>
    cases e with
    | malformed e => exact absurd hran (hcalm s e t)
    | dangling d => exact absurd hran (hsound.follows d t)

/-- A program runs to its end from a valid state. -/
theorem inferProgram_ok {s : Run} (hvalid : s.Valid) (p : Program) :
    ∃ t, inferProgram p s = .ok () t := by
  have hsound := sound_of_does hvalid (Discipline.Does.inferProgram trivial
    ((validHandles_inv_iff s).mpr hvalid) (p := p) fun _ _ => trivial)
  obtain ⟨_, t, hran⟩ := hsound.ends (inferProgram_calm p)
  exact ⟨t, hran⟩

/-! ### The state before the first program -/

theorem builtins_handles : ∀ g ∈ Globals.builtins, g.2.handles = [] := by
  decide

/-- The state before the first program is valid when the given globals carry no handles. -/
theorem start_valid (options : Options) {globals : Globals}
    (hplain : ∀ g ∈ globals, g.2.handles = []) : (Run.start options globals).Valid := by
  have hplain' : ∀ t ∈ (Run.start options globals).types, t.handles = [] :=
    start_types options builtins_handles hplain
  intro d hmem
  rw [Run.allHandles, start_handles] at hmem
  rcases List.mem_append.mp hmem with houtside | hinside
  · cases List.mem_singleton.mp houtside
    exact start_global options globals
  · obtain ⟨t, hstored, hwithin⟩ := List.mem_flatMap.mp hinside
    rw [hplain' t hstored] at hwithin
    cases hwithin

end TypeFlow
