import Mathlib
import TypeFlow.Proofs.Types.Lattice

/-!
# Structural subtyping

Subtyping given by rules on the alternatives of the two types, with no join in them: `never` fits
everything, everything fits `any`, and of two other types the one fits the other when each of its
alternatives has a counterpart there.  A primitive has itself as its counterpart, a function a
function of its arity, an object an object with all its fields and all its handles; parameters,
results and fields fit in their turn.

## Main Definitions

* `Ty.Fits`, `FuncTy.Fits`, `ObjTy.Fits` - the rules for types, for their functions and for their
  objects

## Main Statements

* `Ty.Fits.le`, `Ty.Le.fits` - the rules give the precision order
* `subtyping_structural` - being a subtype, which compares a join, is what the rules give

## Design Notes

Parameters and results are both compared in the direction of the types.  A parameter type is what
a function has been called with so far, so a function that saw more arguments is the wider one.
-/

namespace TypeFlow

mutual

/-- The first type fits the second one. -/
inductive Ty.Fits : Ty → Ty → Prop
  | never (b : Ty) : Ty.Fits .never b
  | any (a : Ty) : Ty.Fits a .any
  | alternatives {a b : Ty} :
    a ≠ .never → a ≠ .any → b ≠ .never → b ≠ .any →
    (∀ p, Ty.prim p ∈ a.members → Ty.prim p ∈ b.members) →
    FuncTy.Fits a.funcPart? b.funcPart? →
    ObjTy.Fits a.objPart? b.objPart? →
    Ty.Fits a b

/-- There is no function on the left, or it fits the function on the right. -/
inductive FuncTy.Fits : Option FuncTy → Option FuncTy → Prop
  | absent (g? : Option FuncTy) : FuncTy.Fits none g?
  | meets {f g : FuncTy} :
    f.arity = g.arity →
    (∀ (i : Nat) (x y : Ty), f.params[i]? = some x → g.params[i]? = some y → Ty.Fits x y) →
    Ty.Fits f.ret g.ret →
    f.closures ⊆ g.closures →
    FuncTy.Fits (some f) (some g)

/-- There is no object on the left, or it fits the object on the right. -/
inductive ObjTy.Fits : Option ObjTy → Option ObjTy → Prop
  | absent (p? : Option ObjTy) : ObjTy.Fits none p?
  | meets {o p : ObjTy} :
    (∀ name, (o.field? name).isSome → (p.field? name).isSome) →
    (∀ name x y, o.field? name = some x → p.field? name = some y → Ty.Fits x y) →
    o.cells ⊆ p.cells →
    o.ctors ⊆ p.ctors →
    o.protoOf ⊆ p.protoOf →
    ObjTy.Fits (some o) (some p)

end

/-! ### Primitives as alternatives -/

theorem Ty.mem_primPart {t : Ty} {p : Prim} : p ∈ t.primPart ↔ .prim p ∈ t.members := by
  rw [Ty.primPart, List.mem_filterMap]
  constructor
  · rintro ⟨m, hmem, heq⟩
    cases m <;> simp [Ty.prim?] at heq
    exact heq ▸ hmem
  · intro hmem
    exact ⟨.prim p, hmem, rfl⟩

/-! ### From the rules to the order -/

/-- What fits by the rules is below in the order. -/
theorem Ty.Fits.le {a b : Ty} (h : a.Fits b) (ha : a.Normal) : a.Le b := by
  induction a using Ty.partsInduction generalizing b with
  | step a hfunc hobj =>
    cases h with
    | never => exact Ty.never_le b
    | any => exact Ty.le_any a
    | alternatives _ hpa _ _ hprims hfuncs hobjs =>
      refine Ty.le_of_parts hpa ⟨fun p hmem => ?_, fun f hf => ?_, fun o ho => ?_⟩
      · exact Ty.mem_primPart.mpr (hprims p (Ty.mem_primPart.mp hmem))
      · obtain ⟨ihParams, ihRet⟩ := hfunc f hf
        obtain ⟨hnormalParams, hnormalRet, -⟩ := (FuncTy.normal_iff f).mp (ha.funcPart hf)
        change a.funcPart? = some f at hf
        rw [hf] at hfuncs
        generalize hg : b.funcPart? = g? at hfuncs
        cases hfuncs with
        | meets harity hparams hret hclosures =>
          refine ⟨_, hg, harity, fun i x y hx hy => ?_, ihRet hret hnormalRet, hclosures⟩
          have hmem := List.mem_of_getElem? hx
          exact ihParams x hmem (hparams i x y hx hy) (hnormalParams x hmem)
      · obtain ⟨hnormalFields, hascends, -⟩ := (ObjTy.normal_iff o).mp (ha.objPart ho)
        have ihFields := hobj o ho
        change a.objPart? = some o at ho
        rw [ho] at hobjs
        generalize hp : b.objPart? = p? at hobjs
        cases hobjs with
        | meets hnames hfields hcells hctors hprotoOf =>
          refine ⟨_, hp, fun e hmem => ?_, hcells, hctors, hprotoOf⟩
          -- fields are listed once, so the type that is found under the name is the one in the list
          have hfound : o.field? e.1 = some e.2 := hascends.get?_of_mem hmem
          obtain ⟨y, hy⟩ :=
            Option.isSome_iff_exists.mp (hnames e.1 (Option.isSome_of_eq_some hfound))
          exact ⟨y, hy, ihFields e hmem (hfields e.1 e.2 y hfound hy) (hnormalFields e hmem)⟩

/-! ### From the order to the rules -/

/-- Only `never` is below `never`: a normal type without alternatives is `never`. -/
theorem Ty.Le.eq_never {a : Ty} (h : a.Le .never) (ha : a.Normal) : a = .never :=
  h.antisymm ha trivial (Ty.never_le a)

/-- What is below in the order fits by the rules. -/
theorem Ty.Le.fits {a b : Ty} (h : a.Le b) (ha : a.Normal) : a.Fits b := by
  induction a using Ty.partsInduction generalizing b with
  | step a hfunc hobj =>
    by_cases hna : a = .never
    · exact hna ▸ .never b
    by_cases hpb : b = .any
    · exact hpb ▸ .any a
    -- the rules have `never` only on the left, where the order has it as the least type
    have hnb : b ≠ .never := by
      rintro rfl
      exact hna (h.eq_never ha)
    obtain ⟨hprims, hfuncs, hobjs⟩ := h.parts hpb
    refine .alternatives hna (h.precise hpb) hnb hpb (fun p hmem => ?_) ?_ ?_
    · exact Ty.mem_primPart.mp (hprims p (Ty.mem_primPart.mpr hmem))
    · cases hf : a.funcPart? with
      | none => exact .absent _
      | some f =>
        obtain ⟨g, hg, hfg⟩ := hfuncs f hf
        obtain ⟨ihParams, ihRet⟩ := hfunc f hf
        obtain ⟨hnormalParams, hnormalRet, -⟩ := (FuncTy.normal_iff f).mp (ha.funcPart hf)
        change b.funcPart? = some g at hg
        rw [hg]
        refine .meets hfg.arity (fun i x y hx hy => ?_) (ihRet hfg.ret hnormalRet) hfg.closures
        have hmem := List.mem_of_getElem? hx
        exact ihParams x hmem (hfg.params i x y hx hy) (hnormalParams x hmem)
    · cases ho : a.objPart? with
      | none => exact .absent _
      | some o =>
        obtain ⟨p, hp, hop⟩ := hobjs o ho
        obtain ⟨hnormalFields, -, -⟩ := (ObjTy.normal_iff o).mp (ha.objPart ho)
        change b.objPart? = some p at hp
        rw [hp]
        refine .meets (fun name hheld => ?_) (fun name x y hx hy => ?_) hop.cells hop.ctors
          hop.protoOf
        · obtain ⟨x, hx⟩ := Option.isSome_iff_exists.mp hheld
          obtain ⟨y, hy, -⟩ := hop.fields _ (OrdMap.mem_of_get? hx)
          exact Option.isSome_of_eq_some hy
        · have hmem := OrdMap.mem_of_get? hx
          obtain ⟨y', hy', hle⟩ := hop.fields _ hmem
          cases hy.symm.trans hy'
          exact hobj o ho _ hmem hle (hnormalFields _ hmem)

/-- **Subtyping is structural.**  For normal types, joining the first into the second changes
nothing exactly when the first fits the second by the rules. -/
theorem subtyping_structural {a b : Ty} (ha : a.Normal) (hb : b.Normal) :
    a.isSubtype b = true ↔ a.Fits b := by
  rw [ha.isSubtype_iff hb]
  exact ⟨fun hle => hle.fits ha, fun hfits => hfits.le ha⟩

/-- A function below a function in a union, its parameter and a field of its result widened; and the
same function with another parameter, which has no counterpart there. -/
theorem subtyping_structural_nested :
    let narrow := Ty.func ⟨[.string], .record [("x", .null)], [2]⟩
    let wide := Ty.union [.number,
      .func ⟨[.union [.string, .null]], .obj ⟨[("x", .any), ("y", .number)], [4], [], [0]⟩, [1, 2]⟩]
    let longer := Ty.func ⟨[.string, .string], .record [("x", .null)], [2]⟩
    (narrow.Normal ∧ wide.Normal ∧ longer.Normal) ∧ narrow.Fits wide ∧ ¬ wide.Fits narrow ∧
      ¬ longer.Fits wide := by
  intro narrow wide longer
  have hn : narrow.Normal := by decide
  have hw : wide.Normal := by decide
  have hl : longer.Normal := by decide
  refine ⟨⟨hn, hw, hl⟩, (subtyping_structural hn hw).mp (by decide), fun hfits => ?_,
    fun hfits => ?_⟩
  · exact absurd ((subtyping_structural hw hn).mpr hfits) (by decide)
  · exact absurd ((subtyping_structural hl hw).mpr hfits) (by decide)

end TypeFlow
