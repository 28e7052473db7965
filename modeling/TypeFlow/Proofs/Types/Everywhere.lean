import Mathlib
import TypeFlow.Proofs.Ordered
import TypeFlow.Ty.Join

/-!
# Properties of all functions and objects in a type

Many invariants of a run say the same of every function and of every object inside a stored type, at
any depth: which handles they carry, which arity they have, which parts are empty.  Such a property
passes to joins as soon as it passes to the joins of functions and of objects.

## Main Definitions

* `Ty.Everywhere` - all functions and all objects in the type have a property

## Main Statements

* `Ty.Everywhere.join` - joins have the property

## Design Notes

No normal form is needed: the induction follows the recursion of the join, which is on the second
type.
-/

namespace TypeFlow

variable (F : FuncTy → Prop) (O : ObjTy → Prop)

mutual

/-- Every function in the type, at any depth, satisfies `F`, and every object satisfies `O`. -/
def Ty.Everywhere : Ty → Prop
  | .never => True
  | .any => True
  | .prim _ => True
  | .func f => f.Everywhere
  | .obj o => o.Everywhere
  | .union ms => Ty.AllEverywhere ms
termination_by structural t => t

/-- The function satisfies `F`, and so does everything in it. -/
def FuncTy.Everywhere : FuncTy → Prop
  | ⟨params, ret, closures⟩ =>
    F ⟨params, ret, closures⟩ ∧ Ty.AllEverywhere params ∧ ret.Everywhere
termination_by structural f => f

/-- The object satisfies `O`, and so does everything in it. -/
def ObjTy.Everywhere : ObjTy → Prop
  | ⟨fields, cells, ctors, protoOf⟩ =>
    O ⟨fields, cells, ctors, protoOf⟩ ∧ Ty.FieldsEverywhere fields
termination_by structural o => o

/-- All types of a list have the property. -/
def Ty.AllEverywhere : List Ty → Prop
  | [] => True
  | t :: ts => t.Everywhere ∧ Ty.AllEverywhere ts
termination_by structural ts => ts

/-- The types of all fields have the property. -/
def Ty.FieldsEverywhere : List (String × Ty) → Prop
  | [] => True
  | (_, t) :: fs => t.Everywhere ∧ Ty.FieldsEverywhere fs
termination_by structural fs => fs

end

variable {F : FuncTy → Prop} {O : ObjTy → Prop}

theorem Ty.allEverywhere_iff (ts : List Ty) :
    Ty.AllEverywhere F O ts ↔ ∀ t ∈ ts, t.Everywhere F O := by
  induction ts with
  | nil => simp [Ty.AllEverywhere]
  | cons t ts ih => simp [Ty.AllEverywhere, ih]

theorem Ty.fieldsEverywhere_iff (fs : List (String × Ty)) :
    Ty.FieldsEverywhere F O fs ↔ ∀ e ∈ fs, e.2.Everywhere F O := by
  induction fs with
  | nil => simp [Ty.FieldsEverywhere]
  | cons e fs ih =>
    cases e
    simp [Ty.FieldsEverywhere, ih]

theorem FuncTy.everywhere_iff (f : FuncTy) :
    f.Everywhere F O ↔
      F f ∧ (∀ p ∈ f.params, p.Everywhere F O) ∧ f.ret.Everywhere F O := by
  cases f
  simp [FuncTy.Everywhere, Ty.allEverywhere_iff]

theorem ObjTy.everywhere_iff (o : ObjTy) :
    o.Everywhere F O ↔ O o ∧ ∀ e ∈ o.fields, e.2.Everywhere F O := by
  cases o
  simp [ObjTy.Everywhere, Ty.fieldsEverywhere_iff]

/-! ### The property and the parts of a type -/

namespace Ty.Everywhere

variable {t : Ty}

/-- The members of a type have what the type has everywhere. -/
theorem member (h : t.Everywhere F O) {m : Ty} (hmem : m ∈ t.members) : m.Everywhere F O := by
  cases t with
  | union ms =>
    rw [Ty.Everywhere, Ty.allEverywhere_iff] at h
    exact h m hmem
  | _ =>
    cases List.mem_singleton.mp hmem
    exact h

/-- The function in a type has what the type has everywhere. -/
theorem funcPart (h : t.Everywhere F O) {f : FuncTy} (heq : t.funcPart? = some f) :
    f.Everywhere F O := by
  obtain ⟨m, hmem, heq⟩ := List.exists_of_findSome?_eq_some heq
  have hinside := h.member hmem
  cases m <;> simp only [Ty.func?, reduceCtorEq, Option.some.injEq] at heq
  rw [Ty.Everywhere] at hinside
  exact heq ▸ hinside

/-- The object in a type has what the type has everywhere. -/
theorem objPart (h : t.Everywhere F O) {o : ObjTy} (heq : t.objPart? = some o) :
    o.Everywhere F O := by
  obtain ⟨m, hmem, heq⟩ := List.exists_of_findSome?_eq_some heq
  have hinside := h.member hmem
  cases m <;> simp only [Ty.obj?, reduceCtorEq, Option.some.injEq] at heq
  rw [Ty.Everywhere] at hinside
  exact heq ▸ hinside

end Ty.Everywhere

/-- The function and the object among parts have the property. -/
structure Parts.Everywhere (F : FuncTy → Prop) (O : ObjTy → Prop) (p : Parts) : Prop where
  func : ∀ f, p.func? = some f → f.Everywhere F O
  obj : ∀ o, p.obj? = some o → o.Everywhere F O

/-- The parts of a type have what the type has everywhere. -/
theorem Ty.Everywhere.parts {t : Ty} (h : t.Everywhere F O) : t.parts.Everywhere F O :=
  ⟨fun _ heq => h.funcPart heq, fun _ heq => h.objPart heq⟩

/-- A type that is made of parts has everywhere what the parts have. -/
theorem Parts.Everywhere.ofMembers {p : Parts} (h : p.Everywhere F O) :
    (Ty.ofMembers p.members).Everywhere F O := by
  have hall : ∀ t ∈ p.members, t.Everywhere F O := by
    intro t hmem
    simp only [Parts.members, List.mem_append, List.mem_map, Option.mem_toList,
      Option.map_eq_some_iff] at hmem
    obtain (⟨q, -, rfl⟩ | ⟨f, heq, rfl⟩) | ⟨o, heq, rfl⟩ := hmem
    · trivial
    · rw [Ty.Everywhere]
      exact h.func f heq
    · rw [Ty.Everywhere]
      exact h.obj o heq
  generalize p.members = ms at hall
  match ms with
  | [] => trivial
  | [t] => exact hall t (List.mem_singleton_self t)
  | t :: u :: rest =>
    have heq : Ty.ofMembers (t :: u :: rest) = .union (t :: u :: rest) := rfl
    rw [heq, Ty.Everywhere, Ty.allEverywhere_iff]
    exact hall

theorem Ty.Everywhere.ofParts? {p? : Option Parts} (h : ∀ p, p? = some p → p.Everywhere F O) :
    (Ty.ofParts? p?).Everywhere F O := by
  cases p? with
  | none => trivial
  | some p => exact (h p rfl).ofMembers

/-- Joining keeps the property, as soon as merging the parts does. -/
theorem Ty.Everywhere.settle {a b : Ty} {merged : Unit → Option Parts} (ha : a.Everywhere F O)
    (hb : b.Everywhere F O) (h : ∀ p, merged () = some p → p.Everywhere F O) :
    (a.settle b merged).Everywhere F O := by
  rw [Ty.settle.eq_def]
  split
  · exact hb
  · exact ha
  · trivial
  · trivial
  · split
    · exact ha
    · exact Ty.Everywhere.ofParts? h

/-! ### Joins -/

/-- The joins of functions and of objects that satisfy `F` and `O` satisfy them. -/
structure JoinClosed (F : FuncTy → Prop) (O : ObjTy → Prop) : Prop where
  func : ∀ f g h : FuncTy, F f → F g → f.join? g = some h → F h
  obj : ∀ o p : ObjTy, O o → O p → O (o.join p)

mutual

/-- Adding a type to parts keeps the property. -/
theorem Parts.Everywhere.add (hclosed : JoinClosed F O) {acc r : Parts} (b : Ty)
    (h : acc.Everywhere F O) (hb : b.Everywhere F O) (heq : acc.add b = some r) :
    r.Everywhere F O := by
  cases b with
  | never =>
    cases heq
    exact h
  | any => cases heq
  | prim p =>
    cases heq
    exact ⟨h.func, h.obj⟩
  | func f =>
    rw [Ty.Everywhere] at hb
    rw [Parts.add] at heq
    split at heq
    · cases heq
      exact ⟨fun g hsame => Option.some.inj hsame ▸ hb, h.obj⟩
    · next g hpresent =>
      obtain ⟨j, hjoined, rfl⟩ := Option.map_eq_some_iff.mp heq
      have hinside := FuncTy.Everywhere.join? hclosed f (h.func g hpresent) hb hjoined
      exact ⟨fun g' hsame => Option.some.inj hsame ▸ hinside, h.obj⟩
  | obj o =>
    rw [Ty.Everywhere] at hb
    rw [Parts.add] at heq
    split at heq
    · cases heq
      exact ⟨h.func, fun o' hsame => Option.some.inj hsame ▸ hb⟩
    · next p hpresent =>
      cases heq
      have hinside := ObjTy.Everywhere.join hclosed o (h.obj p hpresent) hb
      exact ⟨h.func, fun o' hsame => Option.some.inj hsame ▸ hinside⟩
  | union ms =>
    rw [Ty.Everywhere] at hb
    rw [Parts.add] at heq
    exact Parts.Everywhere.addAll hclosed ms h hb heq
termination_by structural b

/-- Adding several types to parts keeps the property. -/
theorem Parts.Everywhere.addAll (hclosed : JoinClosed F O) {acc r : Parts} (bs : List Ty)
    (h : acc.Everywhere F O) (hb : Ty.AllEverywhere F O bs) (heq : acc.addAll bs = some r) :
    r.Everywhere F O := by
  cases bs with
  | nil =>
    cases heq
    exact h
  | cons b bs =>
    rw [Ty.AllEverywhere] at hb
    rw [Parts.addAll] at heq
    split at heq
    · cases heq
    · next acc' hadded =>
      exact Parts.Everywhere.addAll hclosed bs (Parts.Everywhere.add hclosed b h hb.1 hadded) hb.2
        heq
termination_by structural bs

/-- The join of functions has the property. -/
theorem FuncTy.Everywhere.join? (hclosed : JoinClosed F O) {f h : FuncTy} (g : FuncTy)
    (hf : f.Everywhere F O) (hg : g.Everywhere F O) (heq : f.join? g = some h) :
    h.Everywhere F O := by
  have hwhole := heq
  cases g with
  | mk params ret closures =>
    rw [FuncTy.everywhere_iff] at hf
    rw [FuncTy.Everywhere] at hg
    rw [FuncTy.join?] at heq
    split at heq
    · next hsame =>
      have hjoined := hclosed.func _ _ _ hf.1 hg.1 hwhole
      cases heq
      rw [FuncTy.Everywhere]
      refine ⟨hjoined, ?_, ?_⟩
      · have hp := Ty.allEverywhere_iff _ |>.mpr hf.2.1
        exact Ty.AllEverywhere.joinParams hclosed params hp hg.2.1
      · exact Ty.Everywhere.settle hf.2.2 hg.2.2 fun p hmerged =>
          Parts.Everywhere.add hclosed ret hf.2.2.parts hg.2.2 hmerged
    · cases heq
termination_by structural g

/-- The join of objects has the property. -/
theorem ObjTy.Everywhere.join (hclosed : JoinClosed F O) {o : ObjTy} (p : ObjTy)
    (ho : o.Everywhere F O) (hp : p.Everywhere F O) : (o.join p).Everywhere F O := by
  have hjoined :=
    hclosed.obj o p (ObjTy.everywhere_iff o |>.mp ho).1 (ObjTy.everywhere_iff p |>.mp hp).1
  cases p with
  | mk fields cells ctors protoOf =>
    rw [ObjTy.everywhere_iff] at ho
    rw [ObjTy.Everywhere] at hp
    rw [ObjTy.join] at hjoined ⊢
    rw [ObjTy.Everywhere]
    exact ⟨hjoined,
      Ty.FieldsEverywhere.joinFields hclosed fields (Ty.fieldsEverywhere_iff _ |>.mpr ho.2) hp.2⟩
termination_by structural p

/-- Joined parameters have the property. -/
theorem Ty.AllEverywhere.joinParams (hclosed : JoinClosed F O) {as : List Ty} (bs : List Ty)
    (ha : Ty.AllEverywhere F O as) (hb : Ty.AllEverywhere F O bs) :
    Ty.AllEverywhere F O (Ty.joinParams as bs) := by
  cases bs with
  | nil => cases as <;> exact trivial
  | cons b bs =>
    cases as with
    | nil => exact trivial
    | cons a as =>
      rw [Ty.AllEverywhere] at ha hb
      rw [Ty.joinParams, Ty.AllEverywhere]
      refine ⟨Ty.Everywhere.settle ha.1 hb.1 fun p hmerged => ?_,
        Ty.AllEverywhere.joinParams hclosed bs ha.2 hb.2⟩
      exact Parts.Everywhere.add hclosed b ha.1.parts hb.1 hmerged
termination_by structural bs

/-- Joined fields have the property. -/
theorem Ty.FieldsEverywhere.joinFields (hclosed : JoinClosed F O) {acc : List (String × Ty)}
    (fs : List (String × Ty)) (h : Ty.FieldsEverywhere F O acc) (hf : Ty.FieldsEverywhere F O fs) :
    Ty.FieldsEverywhere F O (Ty.joinFields acc fs) := by
  cases fs with
  | nil => exact h
  | cons e fs =>
    cases e with
    | mk name b =>
      rw [Ty.FieldsEverywhere] at hf
      rw [Ty.joinFields]
      refine Ty.FieldsEverywhere.joinFields hclosed fs ?_ hf.2
      rw [Ty.fieldsEverywhere_iff] at h ⊢
      intro e hmem
      rcases OrdMap.mem_upsert_of_mem hmem with rfl | ⟨a, hpresent, rfl⟩ | hmem
      · exact hf.1
      · have ha : a.Everywhere F O := h (name, a) hpresent
        change (a.settle b fun _ => a.parts.add b).Everywhere F O
        exact Ty.Everywhere.settle ha hf.1 fun p hmerged =>
          Parts.Everywhere.add hclosed b ha.parts hf.1 hmerged
      · exact h e hmem
termination_by structural fs

end

/-- Joins have a property of all functions and objects as soon as the joins of functions and of
objects have it. -/
theorem Ty.Everywhere.join (hclosed : JoinClosed F O) {a b : Ty} (ha : a.Everywhere F O)
    (hb : b.Everywhere F O) : (a.join b).Everywhere F O :=
  Ty.Everywhere.settle ha hb fun _ hmerged => Parts.Everywhere.add hclosed b ha.parts hb hmerged

end TypeFlow
