import Mathlib
import TypeFlow.Proofs.Engine.Reached
import TypeFlow.Proofs.Types.Everywhere

/-!
# Values are references

As long as nothing is bound before a run, the types of the run are references: a function is known
by its closures, an object by its cells or by the constructors whose prototype object it is, and
nothing is known of either by value.  So all aliases of a value see each other's writes, and types
do not grow with what is stored behind them.

## Main Definitions

* `FuncTy.IsReference`, `ObjTy.IsReference` - functions and objects that are known by handles only
* `Ty.Flat`, `Run.Flat` - all functions and objects in a type, or in a state, are such

## Main Statements

* `joinClosed_isReference` - joins of references are references
* `types_stay_flat` - runs pass flat states only

## Design Notes

The built-in library is bound by value, which is why a run that starts with it holds types that are
not flat.
-/

namespace TypeFlow

/-! ### References -/

/-- A function that is known by its closures only. -/
structure FuncTy.IsReference (f : FuncTy) : Prop where
  closures : f.closures ≠ []
  params : ∀ p ∈ f.params, p = .never
  ret : f.ret = .never

/-- An object that is known by its handles only; an instance is held in a cell. -/
structure ObjTy.IsReference (o : ObjTy) : Prop where
  fields : o.fields = []
  handles : o.cells ≠ [] ∨ o.protoOf ≠ []
  held : o.ctors ≠ [] → o.cells ≠ []

/-- All functions and objects in the type, at any depth, are references. -/
def Ty.Flat (t : Ty) : Prop :=
  t.Everywhere FuncTy.IsReference ObjTy.IsReference

/-- All types in the state are flat. -/
def Run.Flat (s : Run) : Prop :=
  ∀ t ∈ s.types, t.Flat

/-! ### Joins -/

theorem OrdSet.union_ne_nil {s t : List Nat} (h : s ≠ [] ∨ t ≠ []) : OrdSet.union s t ≠ [] := by
  rcases h with hleft | hright
  · obtain ⟨a, hmem⟩ := List.exists_mem_of_ne_nil s hleft
    exact List.ne_nil_of_mem (OrdSet.mem_union.mpr (.inl hmem))
  · obtain ⟨a, hmem⟩ := List.exists_mem_of_ne_nil t hright
    exact List.ne_nil_of_mem (OrdSet.mem_union.mpr (.inr hmem))

theorem OrdSet.ne_nil_of_union {s t : List Nat} (h : OrdSet.union s t ≠ []) :
    s ≠ [] ∨ t ≠ [] := by
  obtain ⟨a, hmem⟩ := List.exists_mem_of_ne_nil _ h
  exact (OrdSet.mem_union.mp hmem).imp List.ne_nil_of_mem List.ne_nil_of_mem

/-- Parameters of which nothing is known join to such parameters. -/
theorem Ty.joinParams_never {as bs : List Ty} (ha : ∀ p ∈ as, p = .never)
    (hb : ∀ p ∈ bs, p = .never) : ∀ p ∈ Ty.joinParams as bs, p = .never := by
  rw [Ty.joinParams_eq_zipWith]
  intro p hmem
  obtain ⟨a, b, hpair, rfl⟩ : ∃ a b, (a, b) ∈ as.zip bs ∧ a.join b = p := by
    rw [← List.map_uncurry_zip_eq_zipWith] at hmem
    obtain ⟨⟨a, b⟩, hpair, heq⟩ := List.mem_map.mp hmem
    exact ⟨a, b, hpair, heq⟩
  obtain ⟨hleft, hright⟩ := List.of_mem_zip hpair
  rw [ha a hleft, hb b hright, never_join]

/-- Joins of references are references. -/
theorem joinClosed_isReference : JoinClosed FuncTy.IsReference ObjTy.IsReference where
  func f g h hf hg heq := by
    rw [FuncTy.join?_eq] at heq
    split at heq
    · cases heq
      refine ⟨OrdSet.union_ne_nil (.inl hf.closures), Ty.joinParams_never hf.params hg.params, ?_⟩
      show f.ret.join g.ret = .never
      rw [hf.ret, hg.ret, Ty.never_join]
    · cases heq
  obj o p ho hp := by
    rw [ObjTy.join_eq]
    refine ⟨?_, ?_, fun hinstances => ?_⟩
    · show Ty.joinFields o.fields p.fields = []
      rw [ho.fields, hp.fields, Ty.joinFields]
    · rcases ho.handles with hcells | hprotoOf
      · exact .inl (OrdSet.union_ne_nil (.inl hcells))
      · exact .inr (OrdSet.union_ne_nil (.inl hprotoOf))
    · exact OrdSet.union_ne_nil ((OrdSet.ne_nil_of_union hinstances).imp ho.held hp.held)

/-! ### Flat types -/

namespace Ty

/-- Joins of flat types are flat. -/
theorem Flat.join {a b : Ty} (ha : a.Flat) (hb : b.Flat) : (a.join b).Flat :=
  Ty.Everywhere.join joinClosed_isReference ha hb

/-- A function that is a reference is flat. -/
theorem flat_func {f : FuncTy} (h : f.IsReference) : (Ty.func f).Flat := by
  rw [Ty.Flat, Ty.Everywhere, FuncTy.everywhere_iff]
  refine ⟨h, fun p hmem => ?_, ?_⟩
  · rw [h.params p hmem]
    trivial
  · rw [h.ret]
    trivial

/-- An object that is a reference is flat. -/
theorem flat_obj {o : ObjTy} (h : o.IsReference) : (Ty.obj o).Flat := by
  rw [Ty.Flat, Ty.Everywhere, ObjTy.everywhere_iff]
  refine ⟨h, fun e hmem => ?_⟩
  rw [h.fields] at hmem
  cases hmem

theorem flat_closure (id : ClosureId) (arity : Nat) : (Ty.closure id arity).Flat :=
  flat_func ⟨by simp, fun _ hmem => List.eq_of_mem_replicate hmem, rfl⟩

theorem flat_ofCell (id : CellId) : (Ty.ofCell id).Flat :=
  flat_obj ⟨rfl, by simp, by simp⟩

theorem flat_ofInstance (id : CellId) (ctor : CtorId) : (Ty.ofInstance id ctor).Flat :=
  flat_obj ⟨rfl, by simp, by simp⟩

theorem flat_prototypeOf (ctor : CtorId) : (Ty.prototypeOf ctor).Flat :=
  flat_obj ⟨rfl, by simp, by simp⟩

end Ty

/-! ### Flat states -/

/-- Walks in which all types are flat. -/
def flatTypes : Discipline where
  toSimilarity := .equal
  toNodeClass := .all
  Good _ t := t.Flat
  Within _ := True
  tight := False
  mono _ hgood := hgood
  never := trivial
  any := trivial
  prim _ := trivial
  join ha hb := ha.join hb
  member hgood hmem := hgood.member hmem
  ret hgood := (FuncTy.everywhere_iff _).mp (by rwa [Ty.Flat, Ty.Everywhere] at hgood) |>.2.2
  field hgood hmem :=
    (ObjTy.everywhere_iff _).mp (by rwa [Ty.Flat, Ty.Everywhere] at hgood) |>.2 _ hmem
  closure _ _ _ := Ty.flat_closure _ _
  ofCell _ := Ty.flat_ofCell _
  ofInstance _ _ := Ty.flat_ofInstance _ _
  prototypeOf _ := Ty.flat_prototypeOf _
  funcHandles htight := htight.elim
  cellHandles htight := htight.elim
  ctorHandles htight := htight.elim

/-- The states of flat walks are the flat states. -/
theorem flatTypes_inv_iff (s : Run) : flatTypes.Inv s ↔ s.Flat :=
  ⟨fun hinv => hinv.good, fun hflat => ⟨hflat, fun _ _ htight => htight.elim, fun _ _ _ => trivial,
    fun htight => htight.elim, trivial, False.elim, nofun⟩⟩

/-- Nothing is stored before the first program when nothing is bound. -/
theorem start_flat {options : Options} (hbare : options.seedBuiltins = false) :
    (Run.start options []).Flat := by
  have hnone : (Run.start options []).types = [] := by
    simp only [Run.start, hbare]
    rfl
  intro t hstored
  rw [hnone] at hstored
  cases hstored

/-! ### Runs -/

/-- Looks out for rounds that begin in a state with a type that is not flat. -/
def structureWatch (fault : Fault) : Watch where
  Sees _ _ _ s := ¬ s.Flat
  fault := fault

/-- **Values are references.**  When neither the built-in library nor other globals are bound before
a run, all types in its state are flat, at every point of the run: on the way from one update to the
next, and so in front of every round of every body.  Every operation of a walk that is given flat
types leads from flat states to flat states, whether it succeeds or stops. -/
theorem types_stay_flat :
    (∀ options : Options, options.seedBuiltins = false → ∀ (ps : List Program) (order : NodeOrder),
      let s := Run.start options []
      Walk.Through Run.Flat (do inferPrograms ps; finish order) s ∧
      (after (inferPrograms ps) s).Flat ∧ (after (do inferPrograms ps; finish order) s).Flat ∧
      ∀ fault, engineBy (structureWatch fault).invoke ps s =
        (do inferPrograms ps; analyseUncalled : Walk Unit) s) ∧
    ∀ s : Run, s.Flat → ∀ a : Action, (∀ t ∈ a.types, t.Flat) →
      a.run.Through Run.Flat s ∧ (after a.run s).Flat := by
  constructor
  · intro options hbare ps order s
    have hflat := start_flat hbare
    have hinv := (flatTypes_inv_iff s).mpr hflat
    have hruns : flatTypes.Does none s (inferPrograms ps) fun _ _ => True :=
      Discipline.Does.inferPrograms trivial hinv fun _ _ _ _ => trivial
    have hwhole : flatTypes.Does none s (do inferPrograms ps; finish order) fun _ _ => True :=
      hruns.bind fun _ _ hinv _ _ => Discipline.Does.finish order rfl id trivial hinv
    have hinFlat (t : Run) (hinv : flatTypes.Inv t) : t.Flat := (flatTypes_inv_iff t).mp hinv
    obtain ⟨hthrough, hends⟩ := hwhole.through hinFlat rfl hinv
    refine ⟨hthrough, (hruns.through hinFlat rfl hinv).2, hends, fun fault => ?_⟩
    refine Discipline.engineBy_unseen (D := flatTypes) rfl (fun d f scope call t hready => ?_)
      trivial hinv fun _ _ _ _ => trivial
    exact not_not_intro hready.inv.good
  · intro s hflat a hgiven
    have hinv := (flatTypes_inv_iff s).mpr hflat
    have hdoes : flatTypes.Does none s a.run fun _ _ => True :=
      Discipline.Does.action hinv hgiven (fun _ _ htight => htight.elim) fun _ _ => trivial
    exact hdoes.through (fun t hinv => (flatTypes_inv_iff t).mp hinv) rfl hinv

/-- `function F(x) { this.x = x }`, `F.prototype.m = function() { return this }`,
`var o = true ? new F({}) : F.prototype` and `o.m()`. -/
def instanceOrPrototype : Program :=
  [⟨0, ⟨0, 0⟩, .function ⟨1, ⟨0, 0⟩, some "F", ["x"],
      [⟨2, ⟨0, 0⟩, .expr ⟨3, ⟨0, 0⟩, .assign none ⟨4, ⟨0, 0⟩, .member ⟨5, ⟨0, 0⟩, .this⟩ "x"⟩
        ⟨6, ⟨0, 0⟩, .ident "x"⟩⟩⟩]⟩⟩,
    ⟨7, ⟨0, 0⟩, .expr ⟨8, ⟨0, 0⟩, .assign none
      ⟨9, ⟨0, 0⟩, .member ⟨10, ⟨0, 0⟩, .member ⟨11, ⟨0, 0⟩, .ident "F"⟩ "prototype"⟩ "m"⟩
      ⟨12, ⟨0, 0⟩, .function ⟨13, ⟨0, 0⟩, none, [],
        [⟨14, ⟨0, 0⟩, .ret (some ⟨15, ⟨0, 0⟩, .this⟩)⟩]⟩⟩⟩⟩,
    ⟨16, ⟨0, 0⟩, .vars [⟨"o", some ⟨17, ⟨0, 0⟩, .conditional ⟨18, ⟨0, 0⟩, .literal .boolean⟩
      ⟨19, ⟨0, 0⟩, .construct ⟨20, ⟨0, 0⟩, .ident "F"⟩ [⟨21, ⟨0, 0⟩, .object []⟩]⟩
      ⟨22, ⟨0, 0⟩, .member ⟨23, ⟨0, 0⟩, .ident "F"⟩ "prototype"⟩⟩⟩]⟩,
    ⟨24, ⟨0, 0⟩, .expr ⟨25, ⟨0, 0⟩, .call
      (some ⟨26, ⟨0, 0⟩, .member ⟨27, ⟨0, 0⟩, .ident "o"⟩ "m"⟩) []⟩⟩]

/-- The variable holds an instance or the prototype object, its method returns either, and the field
of the instance is an object: all of them are known by handles. -/
theorem types_stay_flat_instanceOrPrototype :
    let s := Run.start ⟨2, 3, false, false⟩ []
    let t := after (inferPrograms [instanceOrPrototype]) s
    (⟨2, 3, false, false⟩ : Options).seedBuiltins = false ∧
    t.slot? (.binding Env.global "o") = some (.obj ⟨[], [1], [0], [0]⟩) ∧
    t.slot? (.node 25) = some (.obj ⟨[], [1], [0], [0]⟩) ∧
    t.slot? (.field 1 "x") = some (.ofCell 0) ∧ t.Flat ∧
    (after (do inferPrograms [instanceOrPrototype]; finish .ascending) s).Flat := by
  intro s t
  obtain ⟨-, hruns, hends, -⟩ :=
    types_stay_flat.1 ⟨2, 3, false, false⟩ rfl [instanceOrPrototype] .ascending
  exact ⟨rfl, by decide +kernel, by decide +kernel, by decide +kernel, hruns, hends⟩

end TypeFlow
