import Mathlib
import TypeFlow.Proofs.Types.Everywhere
import TypeFlow.Proofs.Types.Normal

/-!
# What stands inside a type

A type consists of parts, and these of parts in turn.  Properties that hold at any depth are said of
all types inside a type.

## Main Definitions

* `Ty.children` - the types of which a type consists
* `Ty.inside` - the types inside a type, at any depth

## Main Statements

* `Ty.childInduction` - induction over the parts of which types consist
* `Ty.mem_inside` - inside a type stand the type itself and what stands inside its parts
* `Ty.everywhere_iff_inside` - what is true everywhere is true of all functions and objects inside
-/

namespace TypeFlow

/-! ### Parts -/

/-- The types of which a type consists. -/
def Ty.children : Ty → List Ty
  | .func f => f.params ++ [f.ret]
  | .obj o => o.fields.map (·.2)
  | .union ms => ms
  | _ => []

theorem Ty.sizeOf_child {t c : Ty} (hmem : c ∈ t.children) : sizeOf c < sizeOf t := by
  cases t with
  | func f =>
    rcases List.mem_append.mp hmem with hparam | hret
    · have := FuncTy.sizeOf_param hparam
      simp only [Ty.func.sizeOf_spec]
      omega
    · have := FuncTy.sizeOf_ret f
      cases List.mem_singleton.mp hret
      simp only [Ty.func.sizeOf_spec]
      omega
  | obj o =>
    obtain ⟨e, hfield, rfl⟩ := List.mem_map.mp hmem
    have := ObjTy.sizeOf_field hfield
    simp only [Ty.obj.sizeOf_spec]
    omega
  | union ms =>
    have : sizeOf c < sizeOf ms := List.sizeOf_lt_of_mem hmem
    simp only [Ty.union.sizeOf_spec]
    omega
  | _ => cases hmem

/-- Induction over the parts of which types consist. -/
theorem Ty.childInduction {P : Ty → Prop} (step : ∀ t : Ty, (∀ c ∈ t.children, P c) → P t)
    (t : Ty) : P t := by
  refine step t fun c hmem => ?_
  have := Ty.sizeOf_child hmem
  exact Ty.childInduction step c
termination_by sizeOf t

theorem Ty.Normal.child {t c : Ty} (hnormal : t.Normal) (hmem : c ∈ t.children) : c.Normal := by
  cases t with
  | func f =>
    rw [Ty.Normal, FuncTy.normal_iff] at hnormal
    rcases List.mem_append.mp hmem with hparam | hret
    · exact hnormal.1 c hparam
    · cases List.mem_singleton.mp hret
      exact hnormal.2.1
  | obj o =>
    rw [Ty.Normal, ObjTy.normal_iff] at hnormal
    obtain ⟨e, hfield, rfl⟩ := List.mem_map.mp hmem
    exact hnormal.1 e hfield
  | union ms => exact ((Ty.normal_union_iff ms).mp hnormal).2.2.2 c hmem
  | _ => cases hmem

/-! ### Types at any depth -/

mutual

/-- The types inside a type, at any depth, itself first. -/
def Ty.inside : Ty → List Ty
  | .never => [.never]
  | .any => [.any]
  | .prim p => [.prim p]
  | .func ⟨params, ret, closures⟩ =>
    .func ⟨params, ret, closures⟩ :: (Ty.insideAll params ++ ret.inside)
  | .obj ⟨fields, cells, ctors, protoOf⟩ =>
    .obj ⟨fields, cells, ctors, protoOf⟩ :: Ty.insideFields fields
  | .union ms => .union ms :: Ty.insideAll ms
termination_by structural t => t

/-- The types inside the types of a list. -/
def Ty.insideAll : List Ty → List Ty
  | [] => []
  | t :: ts => t.inside ++ Ty.insideAll ts
termination_by structural ts => ts

/-- The types inside the types of fields. -/
def Ty.insideFields : List (String × Ty) → List Ty
  | [] => []
  | (_, t) :: fs => t.inside ++ Ty.insideFields fs
termination_by structural fs => fs

end

theorem Ty.insideAll_eq (ts : List Ty) : Ty.insideAll ts = ts.flatMap Ty.inside := by
  induction ts with
  | nil => rfl
  | cons t ts ih => rw [Ty.insideAll, ih, List.flatMap_cons]

theorem Ty.insideFields_eq (fs : List (String × Ty)) :
    Ty.insideFields fs = (fs.map (·.2)).flatMap Ty.inside := by
  induction fs with
  | nil => rfl
  | cons e fs ih => rw [Ty.insideFields, ih, List.map_cons, List.flatMap_cons]

theorem Ty.inside_eq (t : Ty) : t.inside = t :: t.children.flatMap Ty.inside := by
  cases t with
  | never => rfl
  | any => rfl
  | prim p => rfl
  | func f =>
    cases f
    simp [Ty.inside, Ty.insideAll_eq, Ty.children]
  | obj o =>
    cases o
    rw [Ty.inside, Ty.insideFields_eq, Ty.children]
  | union ms => rw [Ty.inside, Ty.insideAll_eq, Ty.children]

/-- Inside a type stand the type itself and what stands inside its parts. -/
theorem Ty.mem_inside {t u : Ty} : u ∈ t.inside ↔ u = t ∨ ∃ c ∈ t.children, u ∈ c.inside := by
  rw [Ty.inside_eq, List.mem_cons, List.mem_flatMap]

theorem Ty.forall_inside {P : Ty → Prop} (t : Ty) :
    (∀ u ∈ t.inside, P u) ↔ P t ∧ ∀ c ∈ t.children, ∀ u ∈ c.inside, P u := by
  rw [Ty.inside_eq, List.forall_mem_cons]
  simp only [List.mem_flatMap, forall_exists_index, and_imp]
  exact and_congr_right fun _ => forall_comm.trans (forall_congr' fun _ => forall_comm)

/-- What is true everywhere in a type is true of all functions and objects inside it. -/
theorem Ty.everywhere_iff_inside {F : FuncTy → Prop} {O : ObjTy → Prop} (t : Ty) :
    t.Everywhere F O ↔ ∀ u ∈ t.inside, (∀ f, u = .func f → F f) ∧ ∀ o, u = .obj o → O o := by
  induction t using Ty.childInduction with
  | step t ih =>
  rw [Ty.forall_inside, ← forall₂_congr ih]
  cases t with
  | never => simp [Ty.Everywhere, Ty.children]
  | any => simp [Ty.Everywhere, Ty.children]
  | prim p => simp [Ty.Everywhere, Ty.children]
  | func f =>
    rw [Ty.Everywhere, FuncTy.everywhere_iff, Ty.children, List.forall_mem_append]
    simp
  | obj o =>
    rw [Ty.Everywhere, ObjTy.everywhere_iff, Ty.children, List.forall_mem_map]
    simp
  | union ms =>
    rw [Ty.Everywhere, Ty.allEverywhere_iff]
    simp [Ty.children]

theorem Ty.Everywhere.mono {F F' : FuncTy → Prop} {O O' : ObjTy → Prop} {t : Ty}
    (h : t.Everywhere F O) (hfunc : ∀ f, F f → F' f) (hobj : ∀ o, O o → O' o) :
    t.Everywhere F' O' := by
  rw [Ty.everywhere_iff_inside] at h ⊢
  intro u hmem
  obtain ⟨hfuncs, hobjs⟩ := h u hmem
  exact ⟨fun f heq => hfunc f (hfuncs f heq), fun o heq => hobj o (hobjs o heq)⟩

end TypeFlow
