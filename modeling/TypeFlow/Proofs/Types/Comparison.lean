import Mathlib
import TypeFlow.Proofs.Types.Unions

/-!
# The comparison of types is linear

Types are compared kind by kind and, within a kind, part by part.  The comparison is a linear order
in which equivalent types are equal.  So a set of types has one ascending list, whatever order its
elements were added in, and the members of a union are such a list.

## Main Definitions

* `LinearFrom` - a comparison obeys the laws of a linear order wherever one value takes part
* `cmpPair` - the lexicographic comparison of pairs
* `Ty.kind`, `Ty.sortKey` - the kind of a type, and all that decides between two types
* `OrderedByParts` - kinds first, then the parts lexicographically

## Main Statements

* `LinearFrom.pair`, `LinearFrom.list` - pairs and lists obey the laws when their elements do
* `Ty.cmp_eq` - types compare by their sort keys
* `Ty.linearFrom_cmp` - every type obeys the laws, so that types form a `LinearOrder`
* `OrdSet.ofList_eq_of_mem_iff` - a set is told by its elements
* `types_linearly_ordered` - the order as a whole

## Design Notes

The laws are stated for one value against all others.  That is what an induction over a nested type
can carry: a list obeys them as soon as its elements do, and a pair as soon as its components do.
-/

namespace TypeFlow

/-! ### Comparisons that are linear from a value -/

/-- Whatever it is compared with, the value obeys the laws of a linear order. -/
structure LinearFrom {α : Type} (cmp : α → α → Ordering) (a : α) : Prop where
  swap : ∀ b, cmp b a = (cmp a b).swap
  trans : ∀ b c, cmp a b = .lt → cmp b c = .lt → cmp a c = .lt

/-- Compares two pairs, by the first components and then by the second ones. -/
def cmpPair {α β : Type} (cmp : α → α → Ordering) (cmp' : β → β → Ordering) (p q : α × β) :
    Ordering :=
  (cmp p.1 q.1).then (cmp' p.2 q.2)

section Laws

variable {α β : Type} {cmp : α → α → Ordering} {cmp' : β → β → Ordering}

/-- Two results in sequence are transitive when both are. -/
theorem then_trans [Std.LawfulEqCmp cmp] {a b c : α} {ab bc ac : Ordering}
    (hfirst : cmp a b = .lt → cmp b c = .lt → cmp a c = .lt)
    (hsecond : ab = .lt → bc = .lt → ac = .lt) (hleft : (cmp a b).then ab = .lt)
    (hright : (cmp b c).then bc = .lt) : (cmp a c).then ac = .lt := by
  rw [Ordering.then_eq_lt] at hleft hright ⊢
  rcases hleft with hleft | ⟨hsame, hleft⟩
  · rcases hright with hright | ⟨hsame, -⟩
    · exact .inl (hfirst hleft hright)
    · cases Std.LawfulEqCmp.eq_of_compare hsame
      exact .inl hleft
  · cases Std.LawfulEqCmp.eq_of_compare hsame
    rcases hright with hright | ⟨hsame, hright⟩
    · exact .inl hright
    · exact .inr ⟨hsame, hsecond hleft hright⟩

/-- A comparison of keys obeys the laws where the keys do. -/
theorem LinearFrom.comap {e : β → α} {b : β} (h : LinearFrom cmp (e b)) :
    LinearFrom (fun x y => cmp (e x) (e y)) b where
  swap x := h.swap (e x)
  trans x y := h.trans (e x) (e y)

/-- Pairs obey the laws when their components do. -/
theorem LinearFrom.pair [Std.LawfulEqCmp cmp] {p : α × β} (hfirst : LinearFrom cmp p.1)
    (hsecond : LinearFrom cmp' p.2) : LinearFrom (cmpPair cmp cmp') p where
  swap q := by rw [cmpPair, cmpPair, Ordering.swap_then, hfirst.swap, hsecond.swap]
  trans q r := then_trans (hfirst.trans q.1 r.1) (hsecond.trans q.2 r.2)

/-- A list obeys the laws of the lexicographic order when its elements do. -/
theorem LinearFrom.list [Std.LawfulEqCmp cmp] {as : List α} (h : ∀ a ∈ as, LinearFrom cmp a) :
    LinearFrom (List.compareLex cmp) as := by
  induction as with
  | nil =>
    refine ⟨fun bs => ?_, fun bs cs hleft hright => ?_⟩
    · cases bs <;> rfl
    · cases bs with
      | nil => exact hright
      | cons b bs =>
        cases cs with
        | nil => cases hright
        | cons c cs => rfl
  | cons a as ih =>
    obtain ⟨hlinearFrom, hlater⟩ := List.forall_mem_cons.mp h
    refine ⟨fun bs => ?_, fun bs cs hleft hright => ?_⟩
    · cases bs with
      | nil => rfl
      | cons b bs =>
        rw [List.compareLex_cons_cons, List.compareLex_cons_cons, Ordering.swap_then,
          hlinearFrom.swap, (ih hlater).swap]
    · cases bs with
      | nil => cases hleft
      | cons b bs =>
        cases cs with
        | nil => cases hright
        | cons c cs =>
          rw [List.compareLex_cons_cons] at hleft hright ⊢
          exact then_trans (hlinearFrom.trans b c) ((ih hlater).trans bs cs) hleft hright

/-- A lawful comparison obeys the laws everywhere. -/
theorem linearFrom_of_transCmp [Std.TransCmp cmp] (a : α) : LinearFrom cmp a where
  swap _ := Std.OrientedCmp.eq_swap
  trans _ _ := Std.TransCmp.lt_trans

instance [Std.LawfulEqCmp cmp] [Std.LawfulEqCmp cmp'] : Std.LawfulEqCmp (cmpPair cmp cmp') where
  compare_self := by simp [cmpPair]
  eq_of_compare := by
    intro p q hsame
    rw [cmpPair, Ordering.then_eq_eq] at hsame
    exact Prod.ext (Std.LawfulEqCmp.eq_of_compare hsame.1) (Std.LawfulEqCmp.eq_of_compare hsame.2)

end Laws

/-! ### The parts of a type -/

instance : Std.LawfulEqCmp Prim.cmp where
  compare_self := (Prim.cmp_eq_eq_iff _ _).mpr rfl
  eq_of_compare := (Prim.cmp_eq_eq_iff _ _).mp

instance : Std.LawfulEqCmp Ty.cmp where
  compare_self := (Ty.cmp_eq_eq_iff _ _).mpr rfl
  eq_of_compare := (Ty.cmp_eq_eq_iff _ _).mp

instance : Std.LawfulEqCmp FuncTy.cmp where
  compare_self := (FuncTy.cmp_eq_eq_iff _ _).mpr rfl
  eq_of_compare := (FuncTy.cmp_eq_eq_iff _ _).mp

instance : Std.LawfulEqCmp ObjTy.cmp where
  compare_self := (ObjTy.cmp_eq_eq_iff _ _).mpr rfl
  eq_of_compare := (ObjTy.cmp_eq_eq_iff _ _).mp

theorem cmpHandles_eq (is js : List Nat) : cmpHandles is js = List.compareLex compare is js := by
  induction is generalizing js with
  | nil => cases js <;> rfl
  | cons i is ih =>
    cases js with
    | nil => rfl
    | cons j js => rw [cmpHandles, List.compareLex_cons_cons, ih]

theorem Ty.cmpAll_eq (as bs : List Ty) : Ty.cmpAll as bs = List.compareLex Ty.cmp as bs := by
  induction as generalizing bs with
  | nil => cases bs <;> rfl
  | cons a as ih =>
    cases bs with
    | nil => rfl
    | cons b bs => rw [Ty.cmpAll, List.compareLex_cons_cons, ih]

theorem Ty.cmpFields_eq (fs gs : List (String × Ty)) :
    Ty.cmpFields fs gs = List.compareLex (cmpPair compare Ty.cmp) fs gs := by
  induction fs generalizing gs with
  | nil => cases gs <;> rfl
  | cons f fs ih =>
    cases gs with
    | nil => rfl
    | cons g gs =>
      rw [Ty.cmpFields, List.compareLex_cons_cons, ih, cmpPair, Ordering.then_assoc]

/-- Functions compare by parameters, then by result, then by closures. -/
theorem FuncTy.cmp_eq (f g : FuncTy) :
    f.cmp g = cmpPair (List.compareLex Ty.cmp) (cmpPair Ty.cmp (List.compareLex compare))
      (f.params, f.ret, f.closures) (g.params, g.ret, g.closures) := by
  cases f
  cases g
  rw [FuncTy.cmp, Ty.cmpAll_eq, cmpHandles_eq]
  rfl

/-- Objects compare by fields, then by cells, constructors and prototypes. -/
theorem ObjTy.cmp_eq (o p : ObjTy) :
    o.cmp p = cmpPair (List.compareLex (cmpPair compare Ty.cmp))
      (cmpPair (List.compareLex compare)
        (cmpPair (List.compareLex compare) (List.compareLex compare)))
      (o.fields, o.cells, o.ctors, o.protoOf) (p.fields, p.cells, p.ctors, p.protoOf) := by
  cases o
  cases p
  rw [ObjTy.cmp, Ty.cmpFields_eq, cmpHandles_eq, cmpHandles_eq, cmpHandles_eq]
  rfl

/-- Lists of handles obey the laws. -/
theorem linearFrom_handles (ids : List Nat) : LinearFrom (List.compareLex compare) ids :=
  .list fun id _ => linearFrom_of_transCmp id

/-- A function obeys the laws when its parameters and its result do. -/
theorem FuncTy.linearFrom_cmp {f : FuncTy} (hparams : ∀ p ∈ f.params, LinearFrom Ty.cmp p)
    (hret : LinearFrom Ty.cmp f.ret) : LinearFrom FuncTy.cmp f := by
  rw [funext fun f => funext fun g => FuncTy.cmp_eq f g]
  exact .comap (.pair (.list hparams) (.pair hret (linearFrom_handles f.closures)))

/-- An object obeys the laws when the types of its fields do. -/
theorem ObjTy.linearFrom_cmp {o : ObjTy} (hfields : ∀ e ∈ o.fields, LinearFrom Ty.cmp e.2) :
    LinearFrom ObjTy.cmp o := by
  rw [funext fun o => funext fun p => ObjTy.cmp_eq o p]
  exact .comap (.pair (.list fun e hmem => .pair (linearFrom_of_transCmp e.1) (hfields e hmem))
    (.pair (linearFrom_handles o.cells)
      (.pair (linearFrom_handles o.ctors) (linearFrom_handles o.protoOf))))

/-! ### Kinds first -/

/-- The place of a type's kind in the order of the kinds. -/
def Ty.kind : Ty → Nat
  | .never => 0
  | .any => 1
  | .prim _ => 2
  | .func _ => 3
  | .obj _ => 4
  | .union _ => 5

/-- What decides between two types: the kind, then what stands in a type of that kind. -/
def Ty.sortKey (t : Ty) : Nat × List Prim × List FuncTy × List ObjTy × List Ty :=
  (t.kind, t.prim?.toList, t.func?.toList, t.obj?.toList, if t.isUnion then t.members else [])

/-- Types compare by their kinds, and within a kind by their parts. -/
theorem Ty.cmp_eq (a b : Ty) :
    a.cmp b = cmpPair compare (cmpPair (List.compareLex Prim.cmp)
      (cmpPair (List.compareLex FuncTy.cmp)
        (cmpPair (List.compareLex ObjTy.cmp) (List.compareLex Ty.cmp)))) a.sortKey b.sortKey := by
  have hsingle {α : Type} (cmp : α → α → Ordering) (x y : α) :
      List.compareLex cmp [x] [y] = cmp x y := by
    rw [List.compareLex_cons_cons, List.compareLex_nil_nil, Ordering.then_eq]
  -- Types of different kinds are told apart by the first component alone.
  cases a with
  | never => cases b <;> rfl
  | any => cases b <;> rfl
  | prim p =>
    cases b with
    | prim q => exact (Ordering.then_eq.trans (hsingle Prim.cmp p q)).symm
    | _ => rfl
  | func f =>
    cases b with
    | func g => exact (Ordering.then_eq.trans (hsingle FuncTy.cmp f g)).symm
    | _ => rfl
  | obj o =>
    cases b with
    | obj p => exact (Ordering.then_eq.trans (hsingle ObjTy.cmp o p)).symm
    | _ => rfl
  | union ms =>
    cases b with
    | union ns => exact Ty.cmpAll_eq ms ns
    | _ => rfl

/-- The comparison of types obeys the laws of a linear order. -/
theorem Ty.linearFrom_cmp (t : Ty) : LinearFrom Ty.cmp t := by
  induction t using Ty.childInduction with
  | step t hparts =>
    have hprims : ∀ p ∈ t.prim?.toList, LinearFrom Prim.cmp p := fun p _ =>
      (linearFrom_of_transCmp p.rank).comap (e := Prim.rank)
    have hfuncs : ∀ f ∈ t.func?.toList, LinearFrom FuncTy.cmp f := by
      intro f hmem
      have hfunc : t.func? = some f := Option.mem_toList.mp hmem
      cases t <;> cases hfunc
      exact FuncTy.linearFrom_cmp (fun p hmem => hparts p (List.mem_append_left _ hmem))
        (hparts f.ret (List.mem_append_right _ (List.mem_singleton_self _)))
    have hobjs : ∀ o ∈ t.obj?.toList, LinearFrom ObjTy.cmp o := by
      intro o hmem
      have hfunc : t.obj? = some o := Option.mem_toList.mp hmem
      cases t <;> cases hfunc
      exact ObjTy.linearFrom_cmp fun e hmem => hparts e.2 (List.mem_map_of_mem hmem)
    have hmembers : ∀ m ∈ if t.isUnion then t.members else [], LinearFrom Ty.cmp m := by
      intro m hmem
      cases t with
      | union ms => exact hparts m hmem
      | _ => cases hmem
    rw [funext fun a => funext fun b => Ty.cmp_eq a b]
    exact .comap (.pair (linearFrom_of_transCmp t.kind)
      (.pair (.list hprims) (.pair (.list hfuncs) (.pair (.list hobjs) (.list hmembers)))))

/-! ### The linear order -/

instance : Std.TransCmp Ty.cmp where
  eq_swap {a b} := b.linearFrom_cmp.swap a
  isLE_trans {a b c} hleft hright := by
    rw [Ordering.isLE_iff_eq_lt_or_eq_eq] at hleft hright ⊢
    rcases hleft with hleft | hsame
    · rcases hright with hright | hsame
      · exact .inl (a.linearFrom_cmp.trans b c hleft hright)
      · exact .inl ((Ty.cmp_eq_eq_iff b c).mp hsame ▸ hleft)
    · exact (Ty.cmp_eq_eq_iff a b).mp hsame ▸ hright

instance : LT Ty := ⟨fun a b => a.cmp b = .lt⟩

instance : DecidableLT Ty := fun a b => inferInstanceAs (Decidable (a.cmp b = .lt))

instance : Std.LawfulLTCmp Ty.cmp where
  eq_lt_iff_lt := Iff.rfl

/-- The linear order of types, by which the members of a union are listed. -/
instance : LinearOrder Ty where
  le a b := (a.cmp b).isLE = true
  le_refl _ := Std.ReflCmp.isLE_rfl
  le_trans _ _ _ := Std.TransCmp.isLE_trans
  lt_iff_le_not_ge a b :=
    ⟨fun hlt => ⟨Ordering.isLE_of_eq_lt hlt, Std.OrientedCmp.not_isLE_of_lt hlt⟩,
      fun hboth => Std.OrientedCmp.lt_of_not_isLE hboth.2⟩
  le_antisymm a b hle hge := (Ty.cmp_eq_eq_iff a b).mp (Std.OrientedCmp.isLE_antisymm hle hge)
  le_total a b := by
    by_cases hle : (a.cmp b).isLE = true
    · exact .inl hle
    · exact .inr (Ordering.isLE_of_eq_lt (Std.OrientedCmp.lt_of_not_isLE hle))
  toDecidableLE a b := inferInstanceAs (Decidable ((a.cmp b).isLE = true))
  toDecidableEq := inferInstance
  toDecidableLT := inferInstance
  compare := Ty.cmp
  compare_eq_compareOfLessAndEq a b := Std.LawfulLTCmp.eq_compareOfLessAndEq a b

/-! ### Lexicographic orders -/

section Lexicographic

variable {α β γ δ : Type} {cmp : α → α → Ordering} {cmp' : β → β → Ordering}

/-- Comparing lists is their lexicographic order, when comparing elements is the order of some view
of them. -/
theorem compareLex_eq_lt_iff_map [Std.LawfulEqCmp cmp] [LT γ] {e : α → γ} (hinj : e.Injective)
    (hlt : ∀ a b, cmp a b = .lt ↔ e a < e b) (as bs : List α) :
    List.compareLex cmp as bs = .lt ↔ as.map e < bs.map e := by
  induction as generalizing bs with
  | nil => cases bs <;> simp [List.compareLex_nil_nil, List.compareLex_nil_cons]
  | cons a as ih =>
    cases bs with
    | nil => simp [List.compareLex_cons_nil]
    | cons b bs =>
      rw [List.compareLex_cons_cons, Ordering.then_eq_lt, hlt, Std.LawfulEqCmp.compare_eq_iff_eq,
        ih, List.map_cons, List.map_cons, List.cons_lt_cons_iff, hinj.eq_iff]

/-- What compares lexicographically as less is less in the order of lists. -/
theorem compareLex_eq_lt_iff [Std.LawfulEqCmp cmp] [LT α] (hlt : ∀ a b, cmp a b = .lt ↔ a < b)
    (as bs : List α) : List.compareLex cmp as bs = .lt ↔ as < bs := by
  have hlex := compareLex_eq_lt_iff_map Function.injective_id hlt as bs
  rwa [List.map_id, List.map_id] at hlex

/-- Comparing pairs is their lexicographic order, when comparing their components is the order of
some view of them. -/
theorem cmpPair_eq_lt_iff [Std.LawfulEqCmp cmp] [LT γ] [LT δ] {p q : α × β} {a b : γ} {c d : δ}
    (hfirst : cmp p.1 q.1 = .lt ↔ a < b) (hsame : p.1 = q.1 ↔ a = b)
    (hsecond : cmp' p.2 q.2 = .lt ↔ c < d) :
    cmpPair cmp cmp' p q = .lt ↔ toLex (a, c) < toLex (b, d) := by
  rw [cmpPair, Ordering.then_eq_lt, hfirst, hsecond, Std.LawfulEqCmp.compare_eq_iff_eq, hsame,
    Prod.Lex.toLex_lt_toLex]

end Lexicographic

theorem handles_lt_iff (is js : List Nat) : List.compareLex compare is js = .lt ↔ is < js :=
  compareLex_eq_lt_iff (fun _ _ => Nat.compare_eq_lt) is js

theorem Ty.list_lt_iff (as bs : List Ty) : List.compareLex Ty.cmp as bs = .lt ↔ as < bs :=
  compareLex_eq_lt_iff (fun _ _ => Iff.rfl) as bs

/-- Maps compare as the lists of their entries, and entries by their names and then their types. -/
theorem Ty.fields_lt_iff (fs gs : List (String × Ty)) :
    List.compareLex (cmpPair compare Ty.cmp) fs gs = .lt ↔ fs.map toLex < gs.map toLex :=
  compareLex_eq_lt_iff_map toLex.injective
    (fun _ _ => cmpPair_eq_lt_iff Std.LawfulLTCmp.eq_lt_iff_lt Iff.rfl Iff.rfl) fs gs

/-- The order of functions is the lexicographic one. -/
theorem Ty.func_lt_func_iff (f g : FuncTy) :
    Ty.func f < .func g ↔
      toLex (f.params, toLex (f.ret, f.closures)) <
        toLex (g.params, toLex (g.ret, g.closures)) := by
  change f.cmp g = .lt ↔ _
  rw [FuncTy.cmp_eq]
  exact cmpPair_eq_lt_iff (Ty.list_lt_iff _ _) Iff.rfl
    (cmpPair_eq_lt_iff Iff.rfl Iff.rfl (handles_lt_iff _ _))

/-- The order of objects is the lexicographic one. -/
theorem Ty.obj_lt_obj_iff (o p : ObjTy) :
    Ty.obj o < .obj p ↔
      toLex (o.fields.map toLex, toLex (o.cells, toLex (o.ctors, o.protoOf))) <
        toLex (p.fields.map toLex, toLex (p.cells, toLex (p.ctors, p.protoOf))) := by
  have hsame : o.fields = p.fields ↔ o.fields.map toLex = p.fields.map toLex :=
    (List.map_injective_iff.mpr toLex.injective).eq_iff.symm
  change o.cmp p = .lt ↔ _
  rw [ObjTy.cmp_eq]
  exact cmpPair_eq_lt_iff (Ty.fields_lt_iff _ _) hsame
    (cmpPair_eq_lt_iff (handles_lt_iff _ _) Iff.rfl
      (cmpPair_eq_lt_iff (handles_lt_iff _ _) Iff.rfl (handles_lt_iff _ _)))

theorem Ty.union_lt_union_iff (ms ns : List Ty) : Ty.union ms < .union ns ↔ ms < ns := by
  change Ty.cmpAll ms ns = .lt ↔ _
  rw [Ty.cmpAll_eq, Ty.list_lt_iff]

/-! ### Sets of types -/

namespace OrdSet

variable {α : Type} [LT α] [DecidableLT α] [DecidableEq α]

theorem mem_ofList {xs : List α} {a : α} : a ∈ ofList xs ↔ a ∈ xs := by
  simp [ofList]

variable [IsStrictTotalOrder α (· < ·)]

theorem ascending_ofList (xs : List α) : Ascending (ofList xs) :=
  Ascending.union List.Pairwise.nil xs

/-- Adding the same elements, in whatever order and however often, makes the same set. -/
theorem ofList_eq_of_mem_iff {xs s : List α} (hascends : Ascending s)
    (hsame : ∀ a, a ∈ xs ↔ a ∈ s) :
    ofList xs = s :=
  (ascending_ofList xs).ext hascends fun a => mem_ofList.trans (hsame a)

end OrdSet

/-- The members of a normal type are listed in ascending order. -/
theorem Ty.Normal.ascending_members {t : Ty} (h : t.Normal) : OrdSet.Ascending t.members := by
  cases t with
  | union ms => exact ((Ty.normal_union_iff_shape ms).mp h).1.1
  | _ => exact List.pairwise_singleton _ _

/-! ### The order as a whole -/

/-- The types of different kinds are in the order of the kinds, and types of one kind in the
lexicographic order of their parts. -/
structure OrderedByParts : Prop where
  kinds (a b : Ty) : a.kind < b.kind → a < b
  prims (p q : Prim) : Ty.prim p < .prim q ↔ p < q
  funcs (f g : FuncTy) : Ty.func f < .func g ↔
    toLex (f.params, toLex (f.ret, f.closures)) < toLex (g.params, toLex (g.ret, g.closures))
  objs (o p : ObjTy) : Ty.obj o < .obj p ↔
    toLex (o.fields.map toLex, toLex (o.cells, toLex (o.ctors, o.protoOf))) <
      toLex (p.fields.map toLex, toLex (p.cells, toLex (p.ctors, p.protoOf)))
  unions (ms ns : List Ty) : Ty.union ms < .union ns ↔ ms < ns

/-- The order of types is the one that its description says. -/
theorem orderedByParts : OrderedByParts where
  kinds a b hlt := by
    change a.cmp b = .lt
    rw [Ty.cmp_eq, cmpPair, Ordering.then_eq_lt]
    exact .inl (Nat.compare_eq_lt.mpr hlt)
  prims _ _ := Nat.compare_eq_lt
  funcs := Ty.func_lt_func_iff
  objs := Ty.obj_lt_obj_iff
  unions := Ty.union_lt_union_iff

/-- **Types are linearly ordered.**  The comparison tells exactly one of before, equal and after,
and equal only for equal types; it is transitive; and it goes by kinds and then lexicographically by
parts.  So a set of types has one listing, whatever the order in which its elements were added.  In
particular this is how the alternatives that a join has gathered, and the members of a normal type,
are listed. -/
theorem types_linearly_ordered :
    (∀ a b : Ty,
      ((a.cmp b = .lt ↔ a < b) ∧ (a.cmp b = .eq ↔ a = b) ∧ (a.cmp b = .gt ↔ b < a)) ∧
      ((a < b ∧ a ≠ b ∧ ¬ b < a) ∨ (¬ a < b ∧ a = b ∧ ¬ b < a) ∨
        (¬ a < b ∧ a ≠ b ∧ b < a))) ∧
    (∀ a b c : Ty, a < b → b < c → a < c) ∧ OrderedByParts ∧
    (∀ xs ys : List Ty, (∀ t, t ∈ xs ↔ t ∈ ys) → OrdSet.ofList xs = OrdSet.ofList ys) ∧
    (∀ p : Parts, OrdSet.Ascending p.prims → ∀ xs : List Ty, (∀ m, m ∈ xs ↔ m ∈ p.members) →
      OrdSet.ofList xs = p.members) ∧
    ∀ t : Ty, t.Normal → ∀ xs : List Ty, (∀ m, m ∈ xs ↔ m ∈ t.members) →
      OrdSet.ofList xs = t.members := by
  refine ⟨fun a b => ⟨⟨Iff.rfl, Ty.cmp_eq_eq_iff a b, Std.OrientedCmp.gt_iff_lt⟩, ?_⟩,
    fun _ _ _ => lt_trans, orderedByParts, fun xs ys hsame => ?_, fun p hascends xs hsame => ?_,
    fun t hnormal xs hsame => ?_⟩
  · rcases lt_trichotomy a b with hlt | hsame | hgt
    · exact .inl ⟨hlt, hlt.ne, hlt.asymm⟩
    · exact .inr (.inl ⟨hsame.not_lt, hsame, hsame.not_gt⟩)
    · exact .inr (.inr ⟨hgt.asymm, hgt.ne', hgt⟩)
  · exact OrdSet.ofList_eq_of_mem_iff (OrdSet.ascending_ofList ys) fun t =>
      (hsame t).trans OrdSet.mem_ofList.symm
  · exact OrdSet.ofList_eq_of_mem_iff (p.sorted_members hascends) hsame
  · exact OrdSet.ofList_eq_of_mem_iff hnormal.ascending_members hsame

/-- Two functions that differ in their closures only, below an object.  One of the functions, the
object and two primitives have one listing, also when they are added backwards. -/
theorem types_linearly_ordered_mixed :
    let f := Ty.func ⟨[.number], .union [.string, .null], [0, 2]⟩
    let g := Ty.func ⟨[.number], .union [.string, .null], [1]⟩
    let o := Ty.obj ⟨[("k", .any)], [3], [], []⟩
    let t := Ty.union [.string, .number, f, o]
    (f < g ∧ g < o ∧ t.Normal) ∧ f < o ∧ OrdSet.ofList [o, f, .number, .string, o] = t.members := by
  intro f g o t
  obtain ⟨-, htrans, -, -, -, hlisted⟩ := types_linearly_ordered
  have hfg : f < g := by decide
  have hgo : g < o := by decide
  have hnormal : t.Normal := by decide
  refine ⟨⟨hfg, hgo, hnormal⟩, htrans f g o hfg hgo, hlisted t hnormal _ fun m => ?_⟩
  simp only [t, Ty.members, List.mem_cons, List.not_mem_nil, or_false]
  tauto

end TypeFlow
