import Mathlib
import TypeFlow.Proofs.Types.Everywhere
import TypeFlow.Store.Dangling

/-!
# The handles in a type

## Main Definitions

* `Ty.handles` - the handles in a type, at any depth

## Main Statements

* `Ty.forall_handles_iff` - what is true of all handles in a type, said of its functions and objects
* `Ty.handles_join` - a join carries no other handles than its two sides
-/

namespace TypeFlow

/-- The closures that a function may be. -/
def FuncTy.ownHandles (f : FuncTy) : List Dangling :=
  f.closures.map .closure

/-- The cells and the constructors that an object is linked to. -/
def ObjTy.ownHandles (o : ObjTy) : List Dangling :=
  o.cells.map .cell ++ (o.ctors ++ o.protoOf).map .ctor

mutual

/-- The handles in a type. -/
def Ty.handles : Ty → List Dangling
  | .never => []
  | .any => []
  | .prim _ => []
  | .func f => f.handles
  | .obj o => o.handles
  | .union ms => Ty.handlesAll ms
termination_by structural t => t

/-- The handles in a function type. -/
def FuncTy.handles : FuncTy → List Dangling
  | ⟨params, ret, closures⟩ =>
    FuncTy.ownHandles ⟨params, ret, closures⟩ ++ Ty.handlesAll params ++ ret.handles
termination_by structural f => f

/-- The handles in an object type. -/
def ObjTy.handles : ObjTy → List Dangling
  | ⟨fields, cells, ctors, protoOf⟩ =>
    ObjTy.ownHandles ⟨fields, cells, ctors, protoOf⟩ ++ Ty.handlesFields fields
termination_by structural o => o

/-- The handles in the types of a list. -/
def Ty.handlesAll : List Ty → List Dangling
  | [] => []
  | t :: ts => t.handles ++ Ty.handlesAll ts
termination_by structural ts => ts

/-- The handles in the types of fields. -/
def Ty.handlesFields : List (String × Ty) → List Dangling
  | [] => []
  | (_, t) :: fs => t.handles ++ Ty.handlesFields fs
termination_by structural fs => fs

end

section Everywhere

variable (P : Dangling → Prop)

/-- All handles of a function itself have a property. -/
abbrev FuncTy.OwnHandles (f : FuncTy) : Prop :=
  ∀ d ∈ f.ownHandles, P d

/-- All handles of an object itself have a property. -/
abbrev ObjTy.OwnHandles (o : ObjTy) : Prop :=
  ∀ d ∈ o.ownHandles, P d

variable {P}

mutual

/-- What is true of all handles in a type is true of those of every function and object in it. -/
theorem Ty.forall_handles_iff (t : Ty) :
    (∀ d ∈ t.handles, P d) ↔ t.Everywhere (FuncTy.OwnHandles P) (ObjTy.OwnHandles P) := by
  cases t with
  | never => simp [Ty.handles, Ty.Everywhere]
  | any => simp [Ty.handles, Ty.Everywhere]
  | prim p => simp [Ty.handles, Ty.Everywhere]
  | func f =>
    rw [Ty.handles, Ty.Everywhere]
    exact FuncTy.forall_handles_iff f
  | obj o =>
    rw [Ty.handles, Ty.Everywhere]
    exact ObjTy.forall_handles_iff o
  | union ms =>
    rw [Ty.handles, Ty.Everywhere]
    exact Ty.forall_handlesAll_iff ms
termination_by structural t

/-- The same for a function. -/
theorem FuncTy.forall_handles_iff (f : FuncTy) :
    (∀ d ∈ f.handles, P d) ↔ f.Everywhere (FuncTy.OwnHandles P) (ObjTy.OwnHandles P) := by
  cases f with
  | mk params ret closures =>
    rw [FuncTy.handles, FuncTy.Everywhere, List.forall_mem_append, List.forall_mem_append,
      Ty.forall_handlesAll_iff params, Ty.forall_handles_iff ret, and_assoc]
termination_by structural f

/-- The same for an object. -/
theorem ObjTy.forall_handles_iff (o : ObjTy) :
    (∀ d ∈ o.handles, P d) ↔ o.Everywhere (FuncTy.OwnHandles P) (ObjTy.OwnHandles P) := by
  cases o with
  | mk fields cells ctors protoOf =>
    rw [ObjTy.handles, ObjTy.Everywhere, List.forall_mem_append, Ty.forall_handlesFields_iff fields]
termination_by structural o

/-- The same for a list of types. -/
theorem Ty.forall_handlesAll_iff (ts : List Ty) :
    (∀ d ∈ Ty.handlesAll ts, P d) ↔
      Ty.AllEverywhere (FuncTy.OwnHandles P) (ObjTy.OwnHandles P) ts := by
  cases ts with
  | nil => simp [Ty.handlesAll, Ty.AllEverywhere]
  | cons t ts =>
    rw [Ty.handlesAll, Ty.AllEverywhere, List.forall_mem_append, Ty.forall_handles_iff t,
      Ty.forall_handlesAll_iff ts]
termination_by structural ts

/-- The same for fields. -/
theorem Ty.forall_handlesFields_iff (fs : List (String × Ty)) :
    (∀ d ∈ Ty.handlesFields fs, P d) ↔
      Ty.FieldsEverywhere (FuncTy.OwnHandles P) (ObjTy.OwnHandles P) fs := by
  cases fs with
  | nil => simp [Ty.handlesFields, Ty.FieldsEverywhere]
  | cons e fs =>
    cases e with
    | mk name t =>
      rw [Ty.handlesFields, Ty.FieldsEverywhere, List.forall_mem_append, Ty.forall_handles_iff t,
        Ty.forall_handlesFields_iff fs]
termination_by structural fs

end

/-- The handles of a joined function or object are those of its sides. -/
theorem joinClosed_ownHandles : JoinClosed (FuncTy.OwnHandles P) (ObjTy.OwnHandles P) where
  func f g h hf hg heq := by
    rw [FuncTy.join?_eq] at heq
    split at heq
    · cases heq
      intro d hmem
      obtain ⟨id, hinside, rfl⟩ := List.mem_map.mp hmem
      rcases OrdSet.mem_union.mp hinside with hleft | hright
      · exact hf _ (List.mem_map_of_mem hleft)
      · exact hg _ (List.mem_map_of_mem hright)
    · cases heq
  obj o p ho hp := by
    rw [ObjTy.join_eq]
    intro d hmem
    have hsides : d ∈ o.ownHandles ∨ d ∈ p.ownHandles := by
      simp only [ObjTy.ownHandles, List.mem_append, List.mem_map, OrdSet.mem_union] at hmem ⊢
      grind
    exact hsides.elim (ho d) (hp d)

/-- A join carries no other handles than its two sides. -/
theorem Ty.handles_join {a b : Ty} (ha : ∀ d ∈ a.handles, P d) (hb : ∀ d ∈ b.handles, P d) :
    ∀ d ∈ (a.join b).handles, P d := by
  rw [Ty.forall_handles_iff] at ha hb ⊢
  exact Ty.Everywhere.join joinClosed_ownHandles ha hb

end Everywhere

/-! ### Parts of a type -/

theorem Ty.mem_handlesAll {ts : List Ty} {d : Dangling} :
    d ∈ Ty.handlesAll ts ↔ ∃ t ∈ ts, d ∈ t.handles := by
  induction ts with
  | nil => simp [Ty.handlesAll]
  | cons t ts ih => simp [Ty.handlesAll, ih]

theorem Ty.mem_handlesFields {fs : List (String × Ty)} {d : Dangling} :
    d ∈ Ty.handlesFields fs ↔ ∃ e ∈ fs, d ∈ e.2.handles := by
  induction fs with
  | nil => simp [Ty.handlesFields]
  | cons e fs ih =>
    cases e
    simp [Ty.handlesFields, ih]

theorem FuncTy.mem_handles {f : FuncTy} {d : Dangling} :
    d ∈ f.handles ↔
      d ∈ f.ownHandles ∨ (∃ p ∈ f.params, d ∈ p.handles) ∨ d ∈ f.ret.handles := by
  cases f
  simp [FuncTy.handles, Ty.mem_handlesAll]

theorem ObjTy.mem_handles {o : ObjTy} {d : Dangling} :
    d ∈ o.handles ↔ d ∈ o.ownHandles ∨ ∃ e ∈ o.fields, d ∈ e.2.handles := by
  cases o
  simp [ObjTy.handles, Ty.mem_handlesFields]

/-- A member carries only handles of its type. -/
theorem Ty.handles_member {t m : Ty} (h : m ∈ t.members) : m.handles ⊆ t.handles := by
  cases t with
  | union ms =>
    intro d hmem
    rw [Ty.handles]
    exact Ty.mem_handlesAll.mpr ⟨m, h, hmem⟩
  | _ =>
    cases List.mem_singleton.mp h
    exact List.Subset.refl _

theorem Ty.handles_closure (id : ClosureId) (arity : Nat) :
    (Ty.closure id arity).handles = [.closure id] := by
  have hunknown : Ty.handlesAll (List.replicate arity .never) = [] := by
    induction arity with
    | zero => rfl
    | succ n ih => rw [List.replicate_succ, Ty.handlesAll, ih, Ty.handles, List.append_nil]
  rw [Ty.closure, Ty.handles, FuncTy.handles, hunknown, Ty.handles]
  rfl

/-- The one closure that a type may be is a handle of it. -/
theorem Ty.mem_handles_of_singleClosure {t : Ty} {id : ClosureId}
    (h : t.singleClosure? = some id) : .closure id ∈ t.handles := by
  unfold Ty.singleClosure? at h
  split at h
  · cases h
    rw [Ty.handles]
    exact FuncTy.mem_handles.mpr (.inl (List.mem_singleton_self _))
  · cases h

end TypeFlow
