import Mathlib
import TypeFlow.Proofs.Engine.Receivers
import TypeFlow.Proofs.Store.Links

/-!
# Lookups distribute over joins

A joined receiver has the fields, cells and chains of both receivers.  What is found for a name in
its cells, and what is found along its chains, is the join of what is found for each of the two,
where a receiver for which nothing is found counts for nothing.

## Main Definitions

* `Ty.chains` - where the chains of a receiver start

## Main Statements

* `Ty.Normal.objPart?_join` - the object of a joined receiver
* `Heap.lookupField_merge`, `Protos.findMethod_merge` - fields, and methods, of a joined receiver
* `lookups_distribute_over_joins` - both, with the results that in-range handles promise

## Design Notes

Two receivers may hold functions of different arity.  Their join is `any`, which has no object, and
every chain is lost: methods are found for a joined receiver only when the join is precise.  The
join of two objects always is.

Types are normal, as all types are that are built by joins.  That is what makes the joins of the
same types equal when they are taken in another order, as they are along the sorted handles of a
joined object.
-/

namespace TypeFlow

/-! ### The object of a join -/

/-- The object among the alternatives of a precise join is the join of the objects. -/
theorem Ty.Normal.objPart?_join {a b : Ty} (ha : a.Normal) (hb : b.Normal)
    (hprecise : a.join b ≠ .any) :
    (a.join b).objPart? = Option.merge ObjTy.join a.objPart? b.objPart? := by
  by_cases hna : a = .never
  · subst hna
    rw [Ty.never_join]
    exact Option.merge_none_left.symm
  by_cases hnb : b = .never
  · subst hnb
    rw [Ty.join_never]
    exact Option.merge_none_right.symm
  -- a side that is `any` makes the join `any`
  have hpa : a ≠ .any := by
    rintro rfl
    exact hprecise (Ty.any_join b)
  have hpb : b ≠ .any := by
    rintro rfl
    exact hprecise (Ty.join_any a)
  by_cases hsame : a = b
  · subst hsame
    rw [Ty.join_self]
    cases hpart : a.objPart? with
    | none => rfl
    | some o =>
      have hjoined := Ty.obj_join (ha.objPart hpart) (ha.objPart hpart)
      rw [Ty.join_self] at hjoined
      exact congrArg some (Ty.obj.inj hjoined)
  -- past the special cases the join is made of merged parts, and objects merge apart from the rest
  · have hjoined := Ty.join_of_ne hna hnb hpa hpb hsame
    rw [Parts.add_eq _ hb hpb] at hjoined
    cases hmerged : a.parts.merge b.parts with
    | none =>
      rw [hmerged] at hjoined
      exact absurd hjoined hprecise
    | some r =>
      rw [hmerged] at hjoined
      have hwhole : (a.join b).parts = r := hjoined ▸ Ty.parts_ofMembers r
      obtain ⟨func?, -, rfl⟩ := Option.map_eq_some_iff.mp hmerged
      exact congrArg Parts.obj? hwhole

theorem Heap.joinFound_eq_merge (x y : Option Ty) : joinFound x y = Option.merge Ty.join x y := by
  cases x <;> cases y <;> rfl

/-! ### Fields -/

/-- What a joined object shows under a name is the join of what both objects show. -/
theorem Heap.lookupField_merge {h : Heap} (hcells : ∀ t ∈ Cell.entry.typesIn h.cells, t.Normal)
    {a b : ObjTy} (hnormalA : a.Normal) (hnormalB : b.Normal)
    (hinside : ∀ id ∈ a.cells ++ b.cells, id < h.cells.size) (name : String) :
    ∃ x y, h.lookupField a name = .ok x ∧ h.lookupField b name = .ok y ∧
      h.lookupField (a.join b) name = .ok (Option.merge Ty.join x y) := by
  have hinsideJ : ∀ id ∈ (a.join b).cells, id < h.cells.size := by
    intro id hmem
    rw [ObjTy.join_eq] at hmem
    exact hinside id (List.mem_append.mpr (OrdSet.mem_union.mp hmem))
  obtain ⟨r, hlooked⟩ := lookupField_total hinsideJ name
  obtain ⟨x, y, hlookedA, hlookedB, rfl⟩ := lookupField_join hcells hnormalA hnormalB hlooked
  exact ⟨x, y, hlookedA, hlookedB, joinFound_eq_merge x y ▸ hlooked⟩

/-! ### Methods -/

/-- The constructors with whose chains the methods of a receiver are looked up. -/
def Ty.chains (receiver : Ty) : List CtorId :=
  (receiver.objPart?.map fun o => o.ctors ++ o.protoOf).getD []

/-- The chains of a precise join are those of the two receivers. -/
theorem Ty.Normal.mem_chains_join {a b : Ty} (ha : a.Normal) (hb : b.Normal)
    (hprecise : a.join b ≠ .any) (id : CtorId) :
    id ∈ (a.join b).chains ↔ id ∈ a.chains ∨ id ∈ b.chains := by
  rw [Ty.chains, ha.objPart?_join hb hprecise, Ty.chains, Ty.chains]
  cases a.objPart? with
  | none => simp
  | some o =>
    cases b.objPart? with
    | none => simp
    | some p => exact ObjTy.mem_chains_join

namespace Protos

variable {g : Protos} {a b : Ty}

theorem findMethod_eq_lookupAll (g : Protos) (receiver : Ty) (name : String) :
    g.findMethod receiver name = g.lookupAll name none receiver.chains := by
  unfold findMethod Ty.chains
  cases receiver.objPart? <;> rfl

/-- What a joined receiver inherits under a name is the join of what both receivers inherit. -/
theorem findMethod_merge (hctors : ∀ t ∈ Ctor.entry.typesIn g.ctors, t.Normal) (hlinked : g.Linked)
    (ha : a.Normal) (hb : b.Normal) (hprecise : a.join b ≠ .any)
    (hinside : ∀ id ∈ a.chains ++ b.chains, id < g.ctors.size) (name : String) :
    ∃ x y, g.findMethod a name = .ok x ∧ g.findMethod b name = .ok y ∧
      g.findMethod (a.join b) name = .ok (Option.merge Ty.join x y) := by
  have hmem_iff := ha.mem_chains_join hb hprecise
  have hinsideJ : ∀ id ∈ (a.join b).chains, id < g.ctors.size := fun id hmem =>
    hinside id (List.mem_append.mpr ((hmem_iff id).mp hmem))
  simp only [findMethod_eq_lookupAll]
  obtain ⟨r, hfound⟩ := lookupAll_total hlinked name none hinsideJ
  obtain ⟨x, y, hfoundA, hfoundB, rfl⟩ := lookupAll_join hctors hmem_iff hfound
  exact ⟨x, y, hfoundA, hfoundB, Heap.joinFound_eq_merge x y ▸ hfound⟩

end Protos

/-- **Lookups distribute over joins of receivers.**  In a heap and a graph with normal types, for
receivers whose handles have entries: looking a field up in a joined object, and looking a method up
for it, succeeds and gives the join of what is found for the two objects, none being neutral.  For
methods the same holds of any two receivers whose join is precise, unions among them. -/
theorem lookups_distribute_over_joins (h : Heap) (g : Protos)
    (hcells : ∀ t ∈ Cell.entry.typesIn h.cells, t.Normal)
    (hctors : ∀ t ∈ Ctor.entry.typesIn g.ctors, t.Normal) (hlinked : g.Linked) (name : String) :
    (∀ a b : ObjTy, a.Normal → b.Normal →
      (∀ id ∈ a.cells ++ b.cells, id < h.cells.size) →
        ∃ x y, h.lookupField a name = .ok x ∧ h.lookupField b name = .ok y ∧
          h.lookupField (a.join b) name = .ok (Option.merge Ty.join x y)) ∧
    (∀ a b : ObjTy, a.Normal → b.Normal →
      (∀ id ∈ (a.ctors ++ a.protoOf) ++ (b.ctors ++ b.protoOf), id < g.ctors.size) →
        ∃ x y, g.findMethod (.obj a) name = .ok x ∧ g.findMethod (.obj b) name = .ok y ∧
          g.findMethod ((Ty.obj a).join (.obj b)) name = .ok (Option.merge Ty.join x y)) ∧
    ∀ a b : Ty, a.Normal → b.Normal → a.join b ≠ .any →
      (∀ id ∈ a.chains ++ b.chains, id < g.ctors.size) →
        ∃ x y, g.findMethod a name = .ok x ∧ g.findMethod b name = .ok y ∧
          g.findMethod (a.join b) name = .ok (Option.merge Ty.join x y) := by
  refine ⟨fun a b ha hb hinside => Heap.lookupField_merge hcells ha hb hinside name, ?_, ?_⟩
  · intro a b ha hb hinside
    have hprecise : (Ty.obj a).join (.obj b) ≠ .any := by simp [Ty.obj_join ha hb]
    have hnormalA : (Ty.obj a).Normal := by rwa [Ty.Normal]
    have hnormalB : (Ty.obj b).Normal := by rwa [Ty.Normal]
    exact Protos.findMethod_merge hctors hlinked hnormalA hnormalB hprecise hinside name
  · intro a b ha hb hprecise hinside
    exact Protos.findMethod_merge hctors hlinked ha hb hprecise hinside name

/-- Three objects with a field `x`: two functions of different arity, and a number. -/
def clashingCells : Heap where
  cells := #[⟨⟨0, 0, none⟩, [("x", .signature [.string] .number)]⟩,
    ⟨⟨1, 0, none⟩, [("x", .number)]⟩, ⟨⟨2, 0, none⟩, [("x", .signature [] .null)]⟩]
  bySite := ((Index.empty.note ⟨0, 0, none⟩ 0).note ⟨1, 0, none⟩ 1).note ⟨2, 0, none⟩ 2
  changes := 6

/-- Three constructors around a cycle: the first shares the table of the second, the second has the
third as a parent, and the third the first.  The last two have a method `x`. -/
def circle : Protos where
  ctors := #[⟨some "A", none, [], [1], [], [], false⟩,
    ⟨some "B", none, [2], [], [("x", .string)], [], false⟩,
    ⟨some "C", none, [0], [], [("x", .number)], [], false⟩]
  byClosure := .empty
  changes := 8

/-- Two receivers that share a cell and a constructor.  The functions in their other cells clash, so
the joined field is `any`; their chains show a text and a number, and the joined method is a
union. -/
theorem lookups_distribute_over_joins_overlapping :
    let a : ObjTy := ⟨[("x", .string)], [0, 1], [1], []⟩
    let b : ObjTy := ⟨[], [1, 2], [0, 1], [2]⟩
    ((∀ t ∈ Cell.entry.typesIn clashingCells.cells, t.Normal) ∧
      (∀ t ∈ Ctor.entry.typesIn circle.ctors, t.Normal) ∧ circle.Linked ∧ a.Normal ∧ b.Normal) ∧
    (∃ x y, clashingCells.lookupField a "x" = .ok x ∧ clashingCells.lookupField b "x" = .ok y ∧
      clashingCells.lookupField (a.join b) "x" = .ok (Option.merge Ty.join x y) ∧
        Option.merge Ty.join x y = some .any) ∧
    ∃ x y, circle.findMethod (.obj a) "x" = .ok x ∧ circle.findMethod (.obj b) "x" = .ok y ∧
      circle.findMethod ((Ty.obj a).join (.obj b)) "x" = .ok (Option.merge Ty.join x y) ∧
        Option.merge Ty.join x y = some (.union [.string, .number]) := by
  intro a b
  have hcells : ∀ t ∈ Cell.entry.typesIn clashingCells.cells, t.Normal := by decide
  have hctors : ∀ t ∈ Ctor.entry.typesIn circle.ctors, t.Normal := by decide
  have hlinked : circle.Linked := by decide
  have hnormalA : a.Normal := (ObjTy.normal_iff a).mpr (by decide)
  have hnormalB : b.Normal := (ObjTy.normal_iff b).mpr (by decide)
  obtain ⟨hfields, hmethods, -⟩ :=
    lookups_distribute_over_joins clashingCells circle hcells hctors hlinked "x"
  obtain ⟨x, y, hfieldA, hfieldB, hfield⟩ := hfields a b hnormalA hnormalB (by decide)
  obtain ⟨u, v, hmethodA, hmethodB, hmethod⟩ := hmethods a b hnormalA hnormalB (by decide)
  have hjoined : clashingCells.lookupField (a.join b) "x" = .ok (some .any) := by decide +kernel
  have hinherited : circle.findMethod ((Ty.obj a).join (.obj b)) "x" =
      .ok (some (.union [.string, .number])) := by
    decide +kernel
  exact ⟨⟨hcells, hctors, hlinked, hnormalA, hnormalB⟩,
    ⟨x, y, hfieldA, hfieldB, hfield, Except.ok.inj (hfield.symm.trans hjoined)⟩,
    u, v, hmethodA, hmethodB, hmethod, Except.ok.inj (hmethod.symm.trans hinherited)⟩

end TypeFlow
