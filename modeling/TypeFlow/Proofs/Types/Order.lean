import Mathlib
import TypeFlow.Proofs.Types.Normal

/-!
# The precision order

The order of types by precision, defined over their parts: `a` is at most `b` when `b` is `any`, or
when every alternative of `a` is covered by one of `b`.  A function is covered by a function of the
same arity that covers its parameters, its result and its closures; an object by an object that
covers all its fields and has all its handles.

## Main Definitions

* `Ty.Le`, `FuncTy.Le`, `ObjTy.Le` - the order of types, of functions and of objects

## Main Statements

* `Ty.Normal.le_refl`, `Ty.Le.trans`, `Ty.Le.antisymm` - a partial order on normal types

## Design Notes

Parameters are compared by position and fields by name, so that neither side of a comparison has to
be taken apart together with the other.  Transitivity needs no normal form.  Reflexivity needs the
fields to ascend, and antisymmetry needs normal forms throughout.
-/

namespace TypeFlow

/-- `a` is at most `b`: no less precise. -/
def Ty.Le (a b : Ty) : Prop :=
  b = .any ∨ a ≠ .any ∧ (∀ p ∈ a.primPart, p ∈ b.primPart) ∧
    (∀ f, a.funcPart? = some f → ∃ g, b.funcPart? = some g ∧
      f.params.length = g.params.length ∧
      (∀ (i : Nat) x y, f.params[i]? = some x → g.params[i]? = some y → Ty.Le x y) ∧
      Ty.Le f.ret g.ret ∧ f.closures ⊆ g.closures) ∧
    (∀ o, a.objPart? = some o → ∃ p, b.objPart? = some p ∧
      (∀ e ∈ o.fields, ∃ t, OrdMap.get? p.fields e.1 = some t ∧ Ty.Le e.2 t) ∧
      o.cells ⊆ p.cells ∧ o.ctors ⊆ p.ctors ∧ o.protoOf ⊆ p.protoOf)
termination_by sizeOf a
decreasing_by
  all_goals first
    | exact (FuncTy.sizeOf_param (List.mem_of_getElem? ‹_›)).trans (Ty.sizeOf_funcPart ‹_›)
    | exact (FuncTy.sizeOf_ret _).trans (Ty.sizeOf_funcPart ‹_›)
    | exact (ObjTy.sizeOf_field ‹_›).trans (Ty.sizeOf_objPart ‹_›)

/-- The order of function types: parameters by position, result, closures. -/
structure FuncTy.Le (f g : FuncTy) : Prop where
  arity : f.params.length = g.params.length
  params : ∀ (i : Nat) (x y : Ty), f.params[i]? = some x → g.params[i]? = some y → x.Le y
  ret : f.ret.Le g.ret
  closures : f.closures ⊆ g.closures

/-- The order of object types: fields by name, handles. -/
structure ObjTy.Le (o p : ObjTy) : Prop where
  fields : ∀ e ∈ o.fields, ∃ t, OrdMap.get? p.fields e.1 = some t ∧ e.2.Le t
  cells : o.cells ⊆ p.cells
  ctors : o.ctors ⊆ p.ctors
  protoOf : o.protoOf ⊆ p.protoOf

/-- What the first option holds lies below what the second one holds. -/
def CoveredBy {α : Type} (L : α → α → Prop) (p q : Option α) : Prop :=
  ∀ x, p = some x → ∃ y, q = some y ∧ L x y

/-- The order of precise types: every part is covered. -/
structure Parts.Le (p q : Parts) : Prop where
  prims : ∀ x ∈ p.prims, x ∈ q.prims
  func : CoveredBy FuncTy.Le p.func? q.func?
  obj : CoveredBy ObjTy.Le p.obj? q.obj?

/-- A type is at most `any`, and a precise one at most what covers its parts. -/
theorem Ty.le_iff (a b : Ty) : a.Le b ↔ b = .any ∨ a ≠ .any ∧ a.parts.Le b.parts := by
  rw [Ty.Le]
  refine or_congr_right (and_congr_right fun _ => ⟨?_, ?_⟩)
  · rintro ⟨hprims, hfunc, hobj⟩
    refine ⟨hprims, fun f heq => ?_, fun o heq => ?_⟩
    · obtain ⟨g, heq', harity, hparams, hret, hclosures⟩ := hfunc f heq
      exact ⟨g, heq', harity, hparams, hret, hclosures⟩
    · obtain ⟨p, heq', hfields, hcells, hctors, hprotoOf⟩ := hobj o heq
      exact ⟨p, heq', hfields, hcells, hctors, hprotoOf⟩
  · rintro ⟨hprims, hfunc, hobj⟩
    refine ⟨hprims, fun f heq => ?_, fun o heq => ?_⟩
    · obtain ⟨g, heq', hle⟩ := hfunc f heq
      exact ⟨g, heq', hle.arity, hle.params, hle.ret, hle.closures⟩
    · obtain ⟨p, heq', hle⟩ := hobj o heq
      exact ⟨p, heq', hle.fields, hle.cells, hle.ctors, hle.protoOf⟩

theorem Ty.le_any (a : Ty) : a.Le .any :=
  (Ty.le_iff a .any).mpr (Or.inl rfl)

theorem Ty.never_le (b : Ty) : Ty.never.Le b := by
  refine (Ty.le_iff _ b).mpr (Or.inr ⟨by simp, ?_, ?_, ?_⟩)
  · intro x hmem
    exact absurd hmem List.not_mem_nil
  · intro f heq
    cases heq
  · intro o heq
    cases heq

theorem Ty.Le.eq_any {b : Ty} (h : Ty.any.Le b) : b = .any := by
  rcases (Ty.le_iff _ b).mp h with heq | ⟨hne, -⟩
  · exact heq
  · exact absurd rfl hne

/-- Below a precise type there are only precise types. -/
theorem Ty.Le.precise {a b : Ty} (h : a.Le b) (hpb : b ≠ .any) : a ≠ .any := by
  rintro rfl
  exact hpb h.eq_any

theorem Ty.Le.parts {a b : Ty} (h : a.Le b) (hpb : b ≠ .any) : a.parts.Le b.parts := by
  rcases (Ty.le_iff a b).mp h with heq | ⟨-, hparts⟩
  · exact absurd heq hpb
  · exact hparts

theorem Ty.le_of_parts {a b : Ty} (hpa : a ≠ .any) (h : a.parts.Le b.parts) : a.Le b :=
  (Ty.le_iff a b).mpr (Or.inr ⟨hpa, h⟩)

/-! ### A partial order -/

/-- The order is reflexive on normal types. -/
theorem Ty.Normal.le_refl {t : Ty} (h : t.Normal) : t.Le t := by
  induction t using Ty.partsInduction with
  | step t hfunc hobj =>
    by_cases hprecise : t = .any
    · exact hprecise ▸ Ty.le_any t
    · refine Ty.le_of_parts hprecise ⟨fun x hmem => hmem, fun f heq => ⟨f, heq, ?_⟩,
        fun o heq => ⟨o, heq, ?_⟩⟩
      · obtain ⟨hparams, hret⟩ := hfunc f heq
        obtain ⟨hnormalParams, hnormalRet, -⟩ := (FuncTy.normal_iff f).mp (h.funcPart heq)
        refine ⟨rfl, fun i x y hx hy => ?_, hret hnormalRet, List.Subset.refl _⟩
        rw [hx] at hy
        cases hy
        have hmem := List.mem_of_getElem? hx
        exact hparams x hmem (hnormalParams x hmem)
      · obtain ⟨hnormalFields, hascends, -⟩ := (ObjTy.normal_iff o).mp (h.objPart heq)
        refine ⟨fun e hmem => ?_, List.Subset.refl _, List.Subset.refl _, List.Subset.refl _⟩
        exact ⟨e.2, hascends.get?_of_mem hmem, hobj o heq e hmem (hnormalFields e hmem)⟩

/-- The same for functions. -/
theorem FuncTy.Normal.le_refl {f : FuncTy} (h : f.Normal) : f.Le f := by
  have hnormal : (Ty.func f).Normal := by rwa [Ty.Normal]
  obtain ⟨g, heq, hle⟩ := (hnormal.le_refl.parts (by simp)).func f rfl
  cases heq
  exact hle

/-- The same for objects: a field that stands in an ascending map is the one that is found there. -/
theorem ObjTy.Normal.le_refl {o : ObjTy} (h : o.Normal) : o.Le o := by
  have hnormal : (Ty.obj o).Normal := by rwa [Ty.Normal]
  obtain ⟨p, heq, hle⟩ := (hnormal.le_refl.parts (by simp)).obj o rfl
  cases heq
  exact hle

/-- The order is transitive. -/
theorem Ty.Le.trans {a b c : Ty} (hab : a.Le b) (hbc : b.Le c) : a.Le c := by
  induction a using Ty.partsInduction generalizing b c with
  | step a hfunc hobj =>
    by_cases hpc : c = .any
    · exact hpc ▸ Ty.le_any a
    · have hpb := hbc.precise hpc
      have hpab := hab.parts hpb
      have hpbc := hbc.parts hpc
      refine Ty.le_of_parts (hab.precise hpb) ⟨?_, ?_, ?_⟩
      · exact fun x hmem => hpbc.prims x (hpab.prims x hmem)
      · intro f heq
        obtain ⟨hparams, hret⟩ := hfunc f heq
        obtain ⟨g, heq', hfg⟩ := hpab.func f heq
        obtain ⟨h, heq'', hgh⟩ := hpbc.func g heq'
        refine ⟨h, heq'', hfg.arity.trans hgh.arity, fun i x z hx hz => ?_, hret hfg.ret hgh.ret,
          fun id hmem => hgh.closures (hfg.closures hmem)⟩
        -- The functions have one arity, so the one in the middle has a parameter here too.
        have hbound : i < g.params.length := by
          have := (List.getElem?_eq_some_iff.mp hx).1
          rw [hfg.arity] at this
          exact this
        have hy := List.getElem?_eq_getElem hbound
        exact hparams x (List.mem_of_getElem? hx) (hfg.params i x _ hx hy) (hgh.params i _ z hy hz)
      · intro o heq
        obtain ⟨p, heq', hop⟩ := hpab.obj o heq
        obtain ⟨q, heq'', hpq⟩ := hpbc.obj p heq'
        refine ⟨q, heq'', fun e hmem => ?_, fun id hmem => hpq.cells (hop.cells hmem),
          fun id hmem => hpq.ctors (hop.ctors hmem), fun id hmem => hpq.protoOf (hop.protoOf hmem)⟩
        obtain ⟨t, ht, het⟩ := hop.fields e hmem
        obtain ⟨u, hu, htu⟩ := hpq.fields _ (OrdMap.mem_of_get? ht)
        exact ⟨u, hu, hobj o heq e hmem het htu⟩

/-- Two ascending sets of handles that contain each other are equal. -/
theorem OrdSet.Ascending.antisymm {s t : List Nat} (hs : OrdSet.Ascending s)
    (ht : OrdSet.Ascending t) (hst : s ⊆ t) (hts : t ⊆ s) : s = t :=
  hs.ext ht fun _ => ⟨fun hmem => hst hmem, fun hmem => hts hmem⟩

/-- Antisymmetry for functions, given it for their parameters and results. -/
theorem FuncTy.Le.antisymm {f g : FuncTy} (hf : f.Normal) (hg : g.Normal) (hfg : f.Le g)
    (hgf : g.Le f)
    (hparams : ∀ p ∈ f.params, ∀ q, p.Normal → q.Normal → p.Le q → q.Le p → p = q)
    (hret : ∀ q, f.ret.Normal → q.Normal → f.ret.Le q → q.Le f.ret → f.ret = q) : f = g := by
  obtain ⟨hnormalParams, hnormalRet, hascends⟩ := (FuncTy.normal_iff f).mp hf
  obtain ⟨hnormalParams', hnormalRet', hascends'⟩ := (FuncTy.normal_iff g).mp hg
  have hsameParams : f.params = g.params := by
    refine List.ext_getElem? fun i => ?_
    by_cases hbound : i < f.params.length
    · have hbound' : i < g.params.length := hfg.arity ▸ hbound
      have hx := List.getElem?_eq_getElem hbound
      have hy := List.getElem?_eq_getElem hbound'
      have hmemx := List.mem_of_getElem? hx
      have hmemy := List.mem_of_getElem? hy
      rw [hx, hy, hparams _ hmemx _ (hnormalParams _ hmemx) (hnormalParams' _ hmemy)
        (hfg.params i _ _ hx hy) (hgf.params i _ _ hy hx)]
    · rw [List.getElem?_eq_none (Nat.le_of_not_lt hbound),
        List.getElem?_eq_none (hfg.arity ▸ Nat.le_of_not_lt hbound)]
  have hsameRet := hret g.ret hnormalRet hnormalRet' hfg.ret hgf.ret
  have hsameClosures := hascends.antisymm hascends' hfg.closures hgf.closures
  cases f
  cases g
  simp_all

/-- Antisymmetry for objects, given it for their fields. -/
theorem ObjTy.Le.antisymm {o p : ObjTy} (ho : o.Normal) (hp : p.Normal) (hop : o.Le p)
    (hpo : p.Le o)
    (hfields : ∀ e ∈ o.fields, ∀ t, e.2.Normal → t.Normal → e.2.Le t → t.Le e.2 → e.2 = t) :
    o = p := by
  obtain ⟨hnormal, hascends, hcells, hctors, hprotoOf⟩ := (ObjTy.normal_iff o).mp ho
  obtain ⟨hnormal', hascends', hcells', hctors', hprotoOf'⟩ := (ObjTy.normal_iff p).mp hp
  have hsameFields : o.fields = p.fields := by
    -- ascending maps are equal when they answer every lookup alike
    refine hascends.ext hascends' fun name => ?_
    cases ht : OrdMap.get? o.fields name with
    | some t =>
      have hmem := OrdMap.mem_of_get? ht
      obtain ⟨u, hu, htu⟩ := hop.fields _ hmem
      have hmem' := OrdMap.mem_of_get? hu
      obtain ⟨t', ht', hut⟩ := hpo.fields _ hmem'
      cases ht.symm.trans ht'
      have hsame : t = u := hfields _ hmem u (hnormal _ hmem) (hnormal' _ hmem') htu hut
      rw [hsame]
      exact hu.symm
    | none =>
      cases hu : OrdMap.get? p.fields name with
      | none => rfl
      | some u =>
        obtain ⟨t, ht', -⟩ := hpo.fields _ (OrdMap.mem_of_get? hu)
        cases ht.symm.trans ht'
  have hsameCells := hcells.antisymm hcells' hop.cells hpo.cells
  have hsameCtors := hctors.antisymm hctors' hop.ctors hpo.ctors
  have hsameProtos := hprotoOf.antisymm hprotoOf' hop.protoOf hpo.protoOf
  cases o
  cases p
  simp_all

/-- The order is antisymmetric on normal types. -/
theorem Ty.Le.antisymm {a b : Ty} (ha : a.Normal) (hb : b.Normal) (hab : a.Le b) (hba : b.Le a) :
    a = b := by
  induction a using Ty.partsInduction generalizing b with
  | step a hfunc hobj =>
    by_cases hpa : a = .any
    · subst hpa
      exact hab.eq_any.symm
    · have hpb := hba.precise hpa
      have hpab := hab.parts hpb
      have hpba := hba.parts hpa
      -- normal precise types are told by their parts, and each part is covered both ways
      refine ha.ext_parts hb hpa hpb ?_
      have hsamePrims : a.primPart = b.primPart :=
        ha.parts.prims.ext hb.parts.prims fun x => ⟨hpab.prims x, hpba.prims x⟩
      have hsameFunc : a.funcPart? = b.funcPart? := by
        cases hf : a.funcPart? with
        | none =>
          cases hg : b.funcPart? with
          | none => rfl
          | some g =>
            obtain ⟨f, hf', -⟩ := hpba.func g hg
            cases hf.symm.trans hf'
        | some f =>
          obtain ⟨g, hg, hfg⟩ := hpab.func f hf
          obtain ⟨f', hf', hgf⟩ := hpba.func g hg
          cases hf.symm.trans hf'
          obtain ⟨hparams, hret⟩ := hfunc f hf
          have hsame : f = g := hfg.antisymm (ha.funcPart hf) (hb.funcPart hg) hgf
            (fun p hmem q hp hq => hparams p hmem hp hq) (fun q hr hq => hret hr hq)
          rw [hsame]
          exact hg.symm
      have hsameObj : a.objPart? = b.objPart? := by
        cases ho : a.objPart? with
        | none =>
          cases hp : b.objPart? with
          | none => rfl
          | some p =>
            obtain ⟨o, ho', -⟩ := hpba.obj p hp
            cases ho.symm.trans ho'
        | some o =>
          obtain ⟨p, hp, hop⟩ := hpab.obj o ho
          obtain ⟨o', ho', hpo⟩ := hpba.obj p hp
          cases ho.symm.trans ho'
          have hsame : o = p := hop.antisymm (ha.objPart ho) (hb.objPart hp) hpo
            (fun e hmem t he ht => hobj o ho e hmem he ht)
          rw [hsame]
          exact hp.symm
      rw [Ty.parts, Ty.parts, hsamePrims, hsameFunc, hsameObj]

end TypeFlow
