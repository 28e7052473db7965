import TypeFlow.Ty.Basic

/-!
# The order of types

A linear order on types, by which union members are sorted and printed.  Kinds come first: `never`,
`any`, primitives, functions, objects, unions.  Within a kind the parts decide lexicographically:
parameters, result and closures of a function; fields, cells, constructors and prototype links of
an object; the members of a union.  A map compares as the list of its entries.

## Main Definitions

* `Ty.cmp` - the comparison
* `Ty.cmp_eq_eq_iff` - two types compare equal exactly when they are equal

## Design Notes

Equality of types is decided through the comparison, so that the two cannot disagree.
-/

namespace TypeFlow

/-- Compares two primitives by their rank. -/
def Prim.cmp (p q : Prim) : Ordering :=
  compare p.rank q.rank

/-- Compares two sets of handles lexicographically. -/
def cmpHandles : List Nat → List Nat → Ordering
  | [], [] => .eq
  | [], _ :: _ => .lt
  | _ :: _, [] => .gt
  | i :: is, j :: js => (compare i j).then (cmpHandles is js)

mutual

/-- Compares two types. -/
def Ty.cmp : Ty → Ty → Ordering
  | .never, .never => .eq
  | .never, _ => .lt
  | .any, .never => .gt
  | .any, .any => .eq
  | .any, _ => .lt
  | .prim _, .never => .gt
  | .prim _, .any => .gt
  | .prim p, .prim q => p.cmp q
  | .prim _, _ => .lt
  | .func f, .func g => f.cmp g
  | .func _, .obj _ => .lt
  | .func _, .union _ => .lt
  | .func _, _ => .gt
  | .obj o, .obj o' => o.cmp o'
  | .obj _, .union _ => .lt
  | .obj _, _ => .gt
  | .union ms, .union ns => Ty.cmpAll ms ns
  | .union _, _ => .gt
termination_by structural a => a

/-- Compares two function types: parameters, then result, then closures. -/
def FuncTy.cmp : FuncTy → FuncTy → Ordering
  | ⟨params, ret, closures⟩, ⟨params', ret', closures'⟩ =>
    (Ty.cmpAll params params').then ((ret.cmp ret').then (cmpHandles closures closures'))
termination_by structural f => f

/-- Compares two object types: fields, then cells, constructors and prototype links. -/
def ObjTy.cmp : ObjTy → ObjTy → Ordering
  | ⟨fields, cells, ctors, protoOf⟩, ⟨fields', cells', ctors', protoOf'⟩ =>
    (Ty.cmpFields fields fields').then
      ((cmpHandles cells cells').then
        ((cmpHandles ctors ctors').then (cmpHandles protoOf protoOf')))
termination_by structural o => o

/-- Compares two lists of types lexicographically. -/
def Ty.cmpAll : List Ty → List Ty → Ordering
  | [], [] => .eq
  | [], _ :: _ => .lt
  | _ :: _, [] => .gt
  | a :: as, b :: bs => (a.cmp b).then (Ty.cmpAll as bs)
termination_by structural as => as

/-- Compares two maps of types as the lists of their entries. -/
def Ty.cmpFields : List (String × Ty) → List (String × Ty) → Ordering
  | [], [] => .eq
  | [], _ :: _ => .lt
  | _ :: _, [] => .gt
  | (n, a) :: as, (m, b) :: bs =>
    (compare n m).then ((a.cmp b).then (Ty.cmpFields as bs))
termination_by structural as => as

end

/-! ### Equality -/

theorem Prim.cmp_eq_eq_iff (p q : Prim) : p.cmp q = .eq ↔ p = q := by
  cases p <;> cases q <;> decide

theorem cmpHandles_eq_eq_iff (is js : List Nat) : cmpHandles is js = .eq ↔ is = js := by
  induction is generalizing js with
  | nil => cases js <;> simp [cmpHandles]
  | cons i is ih =>
    cases js with
    | nil => simp [cmpHandles]
    | cons j js => simp [cmpHandles, Ordering.then_eq_eq, ih]

mutual

/-- Two types compare equal exactly when they are equal. -/
theorem Ty.cmp_eq_eq_iff (a b : Ty) : a.cmp b = .eq ↔ a = b := by
  cases a with
  | never => cases b <;> simp [Ty.cmp]
  | any => cases b <;> simp [Ty.cmp]
  | prim p => cases b <;> simp [Ty.cmp, Prim.cmp_eq_eq_iff]
  | func f => cases b <;> simp [Ty.cmp, FuncTy.cmp_eq_eq_iff f]
  | obj o => cases b <;> simp [Ty.cmp, ObjTy.cmp_eq_eq_iff o]
  | union ms => cases b <;> simp [Ty.cmp, Ty.cmpAll_eq_eq_iff ms]
termination_by structural a

theorem FuncTy.cmp_eq_eq_iff (f g : FuncTy) : f.cmp g = .eq ↔ f = g := by
  cases f with
  | mk params ret closures =>
    cases g
    simp [FuncTy.cmp, Ordering.then_eq_eq, Ty.cmpAll_eq_eq_iff params, Ty.cmp_eq_eq_iff ret,
      cmpHandles_eq_eq_iff]
termination_by structural f

theorem ObjTy.cmp_eq_eq_iff (o o' : ObjTy) : o.cmp o' = .eq ↔ o = o' := by
  cases o with
  | mk fields cells ctors protoOf =>
    cases o'
    simp [ObjTy.cmp, Ordering.then_eq_eq, Ty.cmpFields_eq_eq_iff fields, cmpHandles_eq_eq_iff]
termination_by structural o

theorem Ty.cmpAll_eq_eq_iff (as bs : List Ty) : Ty.cmpAll as bs = .eq ↔ as = bs := by
  cases as with
  | nil => cases bs <;> simp [Ty.cmpAll]
  | cons a as =>
    cases bs with
    | nil => simp [Ty.cmpAll]
    | cons b bs =>
      simp [Ty.cmpAll, Ordering.then_eq_eq, Ty.cmp_eq_eq_iff a, Ty.cmpAll_eq_eq_iff as]
termination_by structural as

theorem Ty.cmpFields_eq_eq_iff (as bs : List (String × Ty)) :
    Ty.cmpFields as bs = .eq ↔ as = bs := by
  cases as with
  | nil => cases bs <;> simp [Ty.cmpFields]
  | cons p as =>
    cases p with
    | mk n a =>
      cases bs with
      | nil => simp [Ty.cmpFields]
      | cons q bs =>
        cases q
        simp [Ty.cmpFields, Ordering.then_eq_eq, Ty.cmp_eq_eq_iff a, Ty.cmpFields_eq_eq_iff as,
          and_assoc]
termination_by structural as

end

instance : DecidableEq Ty := fun a b =>
  decidable_of_iff (a.cmp b = .eq) (Ty.cmp_eq_eq_iff a b)

end TypeFlow
