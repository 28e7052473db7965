import Mathlib
import TypeFlow.Proofs.Result.Detached

/-!
# What the result depends on

The result of a run is put together from what inference looks at.  Besides, it only passes on the
errors and the unbound names that were collected on the way.

## Main Statements

* `resolve_view` - resolving types depends only on what inference looks at
* `buildTypeMapIn_view` - so does the result, apart from the errors and the unbound names
* `buildTypeMapIn_passes` - these are passed on
-/

namespace TypeFlow

open Resolve

section View

variable {s s' : Run} (hsame : s'.view = s.view)

include hsame

/-! ### Resolving types -/

/-- Signatures are read from the closure table. -/
theorem joinSignatures_view : joinSignatures s' = joinSignatures s := by
  have hclosures : s'.closures = s.closures := (congrArg Run.closures hsame :)
  funext enter acc ids
  induction ids generalizing acc with
  | nil => rfl
  | cons id rest ih => simp only [joinSignatures, hclosures, ih]

/-- Fields are read from the heap. -/
theorem joinCells_view : joinCells s' = joinCells s := by
  have hheap : s'.heap = s.heap := (congrArg Run.heap hsame :)
  funext enter acc ids
  induction ids generalizing acc with
  | nil => rfl
  | cons id rest ih => simp only [joinCells, hheap, ih]

/-- Members of classes are read from the prototype graph. -/
theorem joinProtos_view : joinProtos s' = joinProtos s := by
  have hprotos : s'.protos = s.protos := (congrArg Run.protos hsame :)
  funext enter acc ids
  induction ids generalizing acc with
  | nil => rfl
  | cons id rest ih => simp only [joinProtos, hprotos, ih]

/-- One step of resolving a type depends on the tables only. -/
theorem answerBy_view (part stored : Path → Ty → Resolve Ty) :
    answerBy s' part stored = answerBy s part stored := by
  have hexpanded : expand s' part stored = expand s part stored := by
    funext path t
    cases t with
    | func f => rw [expand, expand, joinSignatures_view hsame]
    | obj o => rw [expand, expand, joinCells_view hsame, joinProtos_view hsame]
    | _ => rfl
  funext path t
  rw [answerBy, answerBy, hexpanded]

/-- Resolving types depends only on what inference looks at. -/
theorem resolve_view : resolve s' = resolve s := by
  have hon (path : Path) (t : Ty) : resolveOn s' path t = resolveOn s path t := by
    refine resolve_induction (s := s) (fun path t hparts hstored => ?_) path t
    rw [resolveOn_eq, resolveOn_eq, answerBy_view hsame]
    exact answerBy_congr hparts hstored
  funext t
  exact hon Path.empty t

/-! ### The result -/

theorem resolveNodes_view : resolveNodes s' = resolveNodes s := by
  have hsites : s'.accessSites = s.accessSites := (congrArg Run.accessSites hsame :)
  funext nodes
  induction nodes with
  | nil => rfl
  | cons e rest ih => simp only [resolveNodes, resolve_view hsame, hsites, ih]

theorem resolveScopes_view : resolveScopes s' = resolveScopes s := by
  funext scopes
  induction scopes with
  | nil => rfl
  | cons x rest ih => simp only [resolveScopes, resolve_view hsame, ih]

theorem resolveFuncs_view : resolveFuncs s' = resolveFuncs s := by
  funext acc id cs
  induction cs generalizing acc id with
  | nil => rfl
  | cons c rest ih => simp only [resolveFuncs, resolve_view hsame, ih]

theorem literalOf_view : literalOf s' = literalOf s := by
  have hclosures : s'.closures = s.closures := (congrArg Run.closures hsame :)
  funext closure
  cases closure with
  | none => rfl
  | some id => rw [literalOf, literalOf, hclosures]

theorem resolveGlobals_view : resolveGlobals s' = resolveGlobals s := by
  have hseeded : s'.seeded = s.seeded := (congrArg Run.seeded hsame :)
  have hprotos : s'.protos = s.protos := (congrArg Run.protos hsame :)
  have hclasses : classOf s' = classOf s := by
    funext closure
    rw [classOf, classOf, hprotos]
  funext bindings
  induction bindings with
  | nil => rfl
  | cons e rest ih =>
    simp only [resolveGlobals, resolve_view hsame, literalOf_view hsame, hseeded, hclasses, ih]

/-- What is shown of constructors, of their literals and of the classes of their parents depends on
the tables only. -/
theorem resolveCtors_view : resolveCtors s' = resolveCtors s := by
  have hprotos : s'.protos = s.protos := (congrArg Run.protos hsame :)
  funext globals id cs
  induction cs generalizing id with
  | nil => rfl
  | cons c rest ih =>
    simp only [resolveCtors, resolve_view hsame, literalOf_view hsame, hprotos, ih]

/-- The result depends only on what inference looks at; the errors and the unbound names are passed
on. -/
theorem buildTypeMapIn_view (order : List (NodeId × Ty)) :
    buildTypeMapIn s' order =
      (fun m => { m with errors := s'.errors, unbound := s'.unbound }) <$>
        buildTypeMapIn s order := by
  have henv : s'.env = s.env := (congrArg Run.env hsame :)
  have hclosures : s'.closures = s.closures := (congrArg Run.closures hsame :)
  have hprotos : s'.protos = s.protos := (congrArg Run.protos hsame :)
  have hfuncScopes : s'.funcScopes = s.funcScopes := (congrArg Run.funcScopes hsame :)
  simp only [buildTypeMapIn, resolveNodes_view hsame, resolveScopes_view hsame,
    resolveFuncs_view hsame, resolveGlobals_view hsame, resolveCtors_view hsame, henv,
    hclosures, hprotos, hfuncScopes, map_bind, map_pure]

end View

/-- The errors and the unbound names of a run are passed on. -/
theorem buildTypeMapIn_passes {s : Run} {order : List (NodeId × Ty)} {m : TypeMap}
    {memo memo' : Memo} (hbuilt : buildTypeMapIn s order memo = .ok (m, memo')) :
    m.errors = s.errors ∧ m.unbound = s.unbound := by
  obtain ⟨nodes, _, -, hbuilt⟩ := Resolve.bind_eq_ok.mp hbuilt
  obtain ⟨scopes, _, -, hbuilt⟩ := Resolve.bind_eq_ok.mp hbuilt
  obtain ⟨funcs, _, -, hbuilt⟩ := Resolve.bind_eq_ok.mp hbuilt
  obtain ⟨top, _, -, hbuilt⟩ := Resolve.bind_eq_ok.mp hbuilt
  obtain ⟨globals, _, -, hbuilt⟩ := Resolve.bind_eq_ok.mp hbuilt
  obtain ⟨ctors, _, -, hbuilt⟩ := Resolve.bind_eq_ok.mp hbuilt
  cases hbuilt
  exact ⟨rfl, rfl⟩

/-- States that inference cannot tell apart have the same result, apart from the errors and the
unbound names. -/
theorem buildTypeMapIn_ok_view {s s' : Run} (hsame : s'.view = s.view)
    {order : List (NodeId × Ty)} {m : TypeMap} {memo memo' : Memo}
    (hbuilt : buildTypeMapIn s order memo = .ok (m, memo')) :
    buildTypeMapIn s' order memo =
      .ok ({ m with errors := s'.errors, unbound := s'.unbound }, memo') := by
  rw [buildTypeMapIn_view hsame, ← bind_pure_comp]
  exact Resolve.bind_eq_ok.mpr ⟨m, memo', hbuilt, rfl⟩

end TypeFlow
