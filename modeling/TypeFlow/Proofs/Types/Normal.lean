import Mathlib
import TypeFlow.Proofs.Ordered
import TypeFlow.Ty.Join

/-!
# Normal forms of types

A type is in normal form when every set and every map inside it ascends, and every union inside it
lists at least two alternatives: its primitives in ascending order, then at most one function, then
at most one object.  A normal type other than `any` is determined by its parts, and every proof
about normal types goes through them: to the parts, through the parts by induction, and back.

## Main Definitions

* `Ty.Normal`, `FuncTy.Normal`, `ObjTy.Normal` - normal forms
* `Parts.Normal` - parts of which a normal type can be made

## Main Statements

* `Ty.Normal.ofMembers_parts`, `Ty.parts_ofMembers` - a normal type is its parts, and conversely
* `Ty.partsInduction` - induction over the parts of a type
-/

namespace TypeFlow

instance : IsStrictTotalOrder Prim (· < ·) where
  irrefl p := Nat.lt_irrefl p.rank
  trans _ _ _ h h' := Nat.lt_trans h h'
  trichotomous p q := by
    cases p <;> cases q <;> decide

/-! ### Normal forms -/

mutual

/-- The type is in normal form. -/
def Ty.Normal : Ty → Prop
  | .never => True
  | .any => True
  | .prim _ => True
  | .func f => f.Normal
  | .obj o => o.Normal
  | .union ms =>
    2 ≤ ms.length ∧ (Ty.union ms).parts.members = ms ∧ OrdSet.Ascending (Ty.union ms).primPart ∧
      Ty.AllNormal ms
termination_by structural t => t

/-- Parameters and result are normal, and the closures ascend. -/
def FuncTy.Normal : FuncTy → Prop
  | ⟨params, ret, closures⟩ => Ty.AllNormal params ∧ ret.Normal ∧ OrdSet.Ascending closures
termination_by structural f => f

/-- The fields are normal and ascend by name, and the handles ascend. -/
def ObjTy.Normal : ObjTy → Prop
  | ⟨fields, cells, ctors, protoOf⟩ =>
    Ty.FieldsNormal fields ∧ OrdMap.Ascending fields ∧ OrdSet.Ascending cells ∧
      OrdSet.Ascending ctors ∧ OrdSet.Ascending protoOf
termination_by structural o => o

/-- All types of a list are normal. -/
def Ty.AllNormal : List Ty → Prop
  | [] => True
  | t :: ts => t.Normal ∧ Ty.AllNormal ts
termination_by structural ts => ts

/-- The types of all fields are normal. -/
def Ty.FieldsNormal : List (String × Ty) → Prop
  | [] => True
  | (_, t) :: fs => t.Normal ∧ Ty.FieldsNormal fs
termination_by structural fs => fs

end

theorem Ty.allNormal_iff (ts : List Ty) : Ty.AllNormal ts ↔ ∀ t ∈ ts, t.Normal := by
  induction ts with
  | nil => simp [Ty.AllNormal]
  | cons t ts ih => simp [Ty.AllNormal, ih]

theorem Ty.fieldsNormal_iff (fs : List (String × Ty)) :
    Ty.FieldsNormal fs ↔ ∀ e ∈ fs, e.2.Normal := by
  induction fs with
  | nil => simp [Ty.FieldsNormal]
  | cons e fs ih =>
    cases e
    simp [Ty.FieldsNormal, ih]

theorem FuncTy.normal_iff (f : FuncTy) :
    f.Normal ↔ (∀ p ∈ f.params, p.Normal) ∧ f.ret.Normal ∧ OrdSet.Ascending f.closures := by
  cases f
  simp [FuncTy.Normal, Ty.allNormal_iff]

theorem ObjTy.normal_iff (o : ObjTy) :
    o.Normal ↔ (∀ e ∈ o.fields, e.2.Normal) ∧ OrdMap.Ascending o.fields ∧
      OrdSet.Ascending o.cells ∧ OrdSet.Ascending o.ctors ∧ OrdSet.Ascending o.protoOf := by
  cases o
  simp [ObjTy.Normal, Ty.fieldsNormal_iff]

/-- A union is normal when it is made of its own parts, at least two, and its members are normal. -/
theorem Ty.normal_union_iff (ms : List Ty) :
    (Ty.union ms).Normal ↔
      2 ≤ ms.length ∧ (Ty.union ms).parts.members = ms ∧
        OrdSet.Ascending (Ty.union ms).primPart ∧ ∀ t ∈ ms, t.Normal := by
  rw [Ty.Normal, Ty.allNormal_iff]

mutual

/-- Decides whether a type is in normal form. -/
def Ty.decNormal : (t : Ty) → Decidable t.Normal
  | .never => .isTrue trivial
  | .any => .isTrue trivial
  | .prim _ => .isTrue trivial
  | .func f => @decidable_of_iff _ f.Normal (by rw [Ty.Normal]) f.decNormal
  | .obj o => @decidable_of_iff _ o.Normal (by rw [Ty.Normal]) o.decNormal
  | .union ms =>
    have := Ty.decAllNormal ms
    decidable_of_iff (2 ≤ ms.length ∧ (Ty.union ms).parts.members = ms ∧
      OrdSet.Ascending (Ty.union ms).primPart ∧ Ty.AllNormal ms) (by rw [Ty.Normal])
termination_by structural t => t

/-- Decides whether a function type is in normal form. -/
def FuncTy.decNormal : (f : FuncTy) → Decidable f.Normal
  | ⟨params, ret, closures⟩ =>
    have := Ty.decAllNormal params
    have := ret.decNormal
    decidable_of_iff (Ty.AllNormal params ∧ ret.Normal ∧ OrdSet.Ascending closures)
      (by rw [FuncTy.Normal])
termination_by structural f => f

/-- Decides whether an object type is in normal form. -/
def ObjTy.decNormal : (o : ObjTy) → Decidable o.Normal
  | ⟨fields, cells, ctors, protoOf⟩ =>
    have := Ty.decFieldsNormal fields
    decidable_of_iff (Ty.FieldsNormal fields ∧ OrdMap.Ascending fields ∧ OrdSet.Ascending cells ∧
      OrdSet.Ascending ctors ∧ OrdSet.Ascending protoOf) (by rw [ObjTy.Normal])
termination_by structural o => o

/-- Decides whether all types of a list are in normal form. -/
def Ty.decAllNormal : (ts : List Ty) → Decidable (Ty.AllNormal ts)
  | [] => .isTrue trivial
  | t :: ts =>
    have := t.decNormal
    have := Ty.decAllNormal ts
    decidable_of_iff (t.Normal ∧ Ty.AllNormal ts) (by rw [Ty.AllNormal])
termination_by structural ts => ts

/-- Decides whether the types of all fields are in normal form. -/
def Ty.decFieldsNormal : (fs : List (String × Ty)) → Decidable (Ty.FieldsNormal fs)
  | [] => .isTrue trivial
  | (_, t) :: fs =>
    have := t.decNormal
    have := Ty.decFieldsNormal fs
    decidable_of_iff (t.Normal ∧ Ty.FieldsNormal fs) (by rw [Ty.FieldsNormal])
termination_by structural fs => fs

end

instance : DecidablePred Ty.Normal := Ty.decNormal

/-! ### Parts -/

/-- The primitives ascend, and the function and the object are normal. -/
structure Parts.Normal (p : Parts) : Prop where
  prims : OrdSet.Ascending p.prims
  func : ∀ f, p.func? = some f → f.Normal
  obj : ∀ o, p.obj? = some o → o.Normal

theorem Ty.mem_members_of_funcPart? {t : Ty} {f : FuncTy} (h : t.funcPart? = some f) :
    .func f ∈ t.members := by
  obtain ⟨m, hmem, heq⟩ := List.exists_of_findSome?_eq_some h
  cases m <;> simp [Ty.func?] at heq
  exact heq ▸ hmem

theorem Ty.mem_members_of_objPart? {t : Ty} {o : ObjTy} (h : t.objPart? = some o) :
    .obj o ∈ t.members := by
  obtain ⟨m, hmem, heq⟩ := List.exists_of_findSome?_eq_some h
  cases m <;> simp [Ty.obj?] at heq
  exact heq ▸ hmem

/-- The parts of a union with given parts are these parts. -/
theorem Ty.parts_union (p : Parts) : (Ty.union p.members).parts = p := by
  have hprims : ∀ ps : List Prim, (ps.map Ty.prim).filterMap Ty.prim? = ps := by
    intro ps
    induction ps with
    | nil => rfl
    | cons q ps ih => simp [Ty.prim?, ih]
  have hnoFunc : ∀ ps : List Prim, (ps.map Ty.prim).findSome? Ty.func? = none := by
    intro ps
    simp [List.findSome?_eq_none_iff, Ty.func?]
  have hnoObj : ∀ ps : List Prim, (ps.map Ty.prim).findSome? Ty.obj? = none := by
    intro ps
    simp [List.findSome?_eq_none_iff, Ty.obj?]
  obtain ⟨ps, f?, o?⟩ := p
  cases f? <;> cases o? <;>
    simp [Ty.parts, Ty.primPart, Ty.funcPart?, Ty.objPart?, Ty.members, Parts.members,
      List.filterMap_append, List.findSome?_append, List.findSome?_cons, hprims, hnoFunc, hnoObj,
      Ty.prim?, Ty.func?, Ty.obj?]

/-- A single alternative is a primitive, a function or an object. -/
theorem Parts.mem_members {p : Parts} {t : Ty} (h : t ∈ p.members) :
    (∃ q ∈ p.prims, t = .prim q) ∨ (∃ f, p.func? = some f ∧ t = .func f) ∨
      ∃ o, p.obj? = some o ∧ t = .obj o := by
  simp only [Parts.members, List.mem_append, List.mem_map, Option.mem_toList,
    Option.map_eq_some_iff] at h
  obtain (⟨q, hmem, rfl⟩ | ⟨f, heq, rfl⟩) | ⟨o, heq, rfl⟩ := h
  · exact Or.inl ⟨q, hmem, rfl⟩
  · exact Or.inr (Or.inl ⟨f, heq, rfl⟩)
  · exact Or.inr (Or.inr ⟨o, heq, rfl⟩)

/-- The parts of the type with given parts are these parts. -/
theorem Ty.parts_ofMembers (p : Parts) : (Ty.ofMembers p.members).parts = p := by
  cases heq : p.members with
  | nil =>
    have hwhole := Ty.parts_union p
    rw [heq] at hwhole
    exact hwhole
  | cons t rest =>
    cases rest with
    | cons u rest =>
      have hwhole := Ty.parts_union p
      rw [heq] at hwhole
      exact hwhole
    | nil =>
      -- A single alternative is no union, so it has itself as its only member.
      have hparts : (Ty.union [t]).parts = t.parts := by
        have hmem : t ∈ p.members := by
          rw [heq]
          exact List.mem_singleton_self t
        obtain ⟨q, -, rfl⟩ | ⟨f, -, rfl⟩ | ⟨o, -, rfl⟩ := Parts.mem_members hmem <;> rfl
      have hwhole := Ty.parts_union p
      rw [heq, hparts] at hwhole
      exact hwhole

/-- A normal type other than `any` consists of its parts. -/
theorem Ty.Normal.ofMembers_parts {t : Ty} (h : t.Normal) (hprecise : t ≠ .any) :
    Ty.ofMembers t.parts.members = t := by
  cases t with
  | never => rfl
  | any => exact absurd rfl hprecise
  | prim p => rfl
  | func f => rfl
  | obj o => rfl
  | union ms =>
    obtain ⟨hle, hwhole, -, -⟩ := (Ty.normal_union_iff ms).mp h
    rw [hwhole]
    match ms, hle with
    | _ :: _ :: _, _ => rfl

/-- Normal types other than `any` with the same parts are equal. -/
theorem Ty.Normal.ext_parts {a b : Ty} (ha : a.Normal) (hb : b.Normal) (hpa : a ≠ .any)
    (hpb : b ≠ .any) (hsame : a.parts = b.parts) : a = b := by
  rw [← ha.ofMembers_parts hpa, ← hb.ofMembers_parts hpb, hsame]

/-- The members of a normal type are normal. -/
theorem Ty.Normal.member {t m : Ty} (h : t.Normal) (hmem : m ∈ t.members) : m.Normal := by
  cases t with
  | union ms =>
    obtain ⟨-, -, -, hall⟩ := (Ty.normal_union_iff ms).mp h
    exact hall m hmem
  | _ =>
    cases List.mem_singleton.mp hmem
    exact h

/-- The function in a normal type is normal. -/
theorem Ty.Normal.funcPart {t : Ty} (h : t.Normal) {f : FuncTy} (heq : t.funcPart? = some f) :
    f.Normal := by
  have hmember := h.member (Ty.mem_members_of_funcPart? heq)
  rwa [Ty.Normal] at hmember

/-- The object in a normal type is normal. -/
theorem Ty.Normal.objPart {t : Ty} (h : t.Normal) {o : ObjTy} (heq : t.objPart? = some o) :
    o.Normal := by
  have hmember := h.member (Ty.mem_members_of_objPart? heq)
  rwa [Ty.Normal] at hmember

/-- The parts of a normal type are normal. -/
theorem Ty.Normal.parts {t : Ty} (h : t.Normal) : t.parts.Normal where
  prims := by
    cases t with
    | union ms => exact ((Ty.normal_union_iff ms).mp h).2.2.1
    | prim p => exact List.pairwise_singleton _ p
    | _ => exact List.Pairwise.nil
  func _ heq := h.funcPart heq
  obj _ heq := h.objPart heq

/-- Normal parts make a normal type. -/
theorem Parts.Normal.ofMembers {p : Parts} (h : p.Normal) : (Ty.ofMembers p.members).Normal := by
  have hall : ∀ t ∈ p.members, t.Normal := by
    intro t hmem
    obtain ⟨q, -, rfl⟩ | ⟨f, heq, rfl⟩ | ⟨o, heq, rfl⟩ := Parts.mem_members hmem
    · trivial
    · rw [Ty.Normal]
      exact h.func f heq
    · rw [Ty.Normal]
      exact h.obj o heq
  have hwhole := Ty.parts_union p
  cases heq : p.members with
  | nil => trivial
  | cons t rest =>
    cases rest with
    | nil =>
      refine hall t ?_
      rw [heq]
      exact List.mem_singleton_self t
    | cons u rest =>
      rw [heq] at hwhole hall
      refine (Ty.normal_union_iff _).mpr ⟨by simp, ?_, ?_, hall⟩
      · rw [hwhole, heq]
      · have hprims : (Ty.union (t :: u :: rest)).primPart = p.prims := congrArg Parts.prims hwhole
        rw [hprims]
        exact h.prims

/-! ### Induction over parts -/

theorem Ty.sizeOf_funcPart {t : Ty} {f : FuncTy} (h : t.funcPart? = some f) :
    sizeOf f < sizeOf t := by
  have hmem := Ty.mem_members_of_funcPart? h
  cases t with
  | union ms =>
    have hlt : sizeOf (Ty.func f) < sizeOf ms := List.sizeOf_lt_of_mem hmem
    simp only [Ty.func.sizeOf_spec, Ty.union.sizeOf_spec] at hlt ⊢
    omega
  | _ =>
    cases List.mem_singleton.mp hmem <;> simp

theorem Ty.sizeOf_objPart {t : Ty} {o : ObjTy} (h : t.objPart? = some o) :
    sizeOf o < sizeOf t := by
  have hmem := Ty.mem_members_of_objPart? h
  cases t with
  | union ms =>
    have hlt : sizeOf (Ty.obj o) < sizeOf ms := List.sizeOf_lt_of_mem hmem
    simp only [Ty.obj.sizeOf_spec, Ty.union.sizeOf_spec] at hlt ⊢
    omega
  | _ =>
    cases List.mem_singleton.mp hmem <;> simp

theorem FuncTy.sizeOf_param {f : FuncTy} {t : Ty} (h : t ∈ f.params) : sizeOf t < sizeOf f := by
  have hlt := List.sizeOf_lt_of_mem h
  cases f
  simp only [FuncTy.mk.sizeOf_spec] at hlt ⊢
  omega

theorem FuncTy.sizeOf_ret (f : FuncTy) : sizeOf f.ret < sizeOf f := by
  cases f
  simp only [FuncTy.mk.sizeOf_spec]
  omega

theorem ObjTy.sizeOf_field {o : ObjTy} {e : String × Ty} (h : e ∈ o.fields) :
    sizeOf e.2 < sizeOf o := by
  have hlt := List.sizeOf_lt_of_mem h
  cases o
  cases e
  simp only [Prod.mk.sizeOf_spec, ObjTy.mk.sizeOf_spec] at hlt ⊢
  omega

/-- **Induction over the parts of a type.**  A property holds of every type if it holds of a type
as soon as it holds of the parameters and the result of its function, and of the fields of its
object. -/
theorem Ty.partsInduction {P : Ty → Prop}
    (step : ∀ t : Ty,
      (∀ f, t.funcPart? = some f → (∀ p ∈ f.params, P p) ∧ P f.ret) →
      (∀ o, t.objPart? = some o → ∀ e ∈ o.fields, P e.2) → P t)
    (t : Ty) : P t := by
  refine step t (fun f heq => ⟨fun p hmem => ?_, ?_⟩) fun o heq e hmem => ?_
  · have := Ty.sizeOf_funcPart heq
    have := FuncTy.sizeOf_param hmem
    exact Ty.partsInduction step p
  · have := Ty.sizeOf_funcPart heq
    have := FuncTy.sizeOf_ret f
    exact Ty.partsInduction step f.ret
  · have := Ty.sizeOf_objPart heq
    have := ObjTy.sizeOf_field hmem
    exact Ty.partsInduction step e.2
termination_by sizeOf t

end TypeFlow
