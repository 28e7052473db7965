import Mathlib
import TypeFlow.Proofs.Types.Everywhere
import TypeFlow.Proofs.Types.Inside
import TypeFlow.Proofs.Types.Lattice

/-!
# The shape of unions

A union lists at least two alternatives.  None of them is a union, `never` or `any`, at most one is
a function and at most one an object: whoever looks for the function or the object of a union finds
all there is.  Joins keep this shape at every depth, and a type of this shape is the join of its
members, in whatever order they are joined.

## Main Definitions

* `UnionShape` - the shape of the members of a union
* `Ty.Shaped` - all unions in a type have the shape
* `Ty.Sorted` - all sets and maps in a type ascend
* `ClosedUnderJoins` - a property of types that all joins keep

## Main Statements

* `Ty.normal_iff` - the normal types are those that are sorted and shaped
* `Ty.Normal.unionOf_of_mem_iff` - a normal type is the join of its members
* `Ty.Shaped.join` - joins keep the shape
* `joins_keep_shape` - so do all ways to join, and a type is rebuilt from its members

## Design Notes

That joins keep the shape does not depend on the order in which sets and maps are listed.  The order
matters where a type is rebuilt: only then is it the same list again.
-/

namespace TypeFlow

/-! ### Unions and their members -/

/-- A member of a normal union is at most the union. -/
theorem Ty.Normal.member_le {ms : List Ty} (hnormal : (Ty.union ms).Normal) {m : Ty}
    (hmem : m ∈ ms) : m.Le (.union ms) := by
  obtain ⟨-, hwhole, -, hall⟩ := (Ty.normal_union_iff ms).mp hnormal
  have hpart := hwhole ▸ hmem
  have hnormalM := hall m hmem
  rcases Parts.mem_members hpart with ⟨q, hprim, rfl⟩ | ⟨f, hfunc, rfl⟩ | ⟨o, hobj, rfl⟩
  · refine Ty.le_of_parts nofun ⟨fun x hmem' => ?_, nofun, nofun⟩
    cases List.mem_singleton.mp hmem'
    exact hprim
  · have hrefl := hnormalM.le_refl.parts nofun
    refine Ty.le_of_parts nofun ⟨nofun, fun g hmem' => ?_, nofun⟩
    obtain ⟨h, heq, hle⟩ := hrefl.func g hmem'
    cases heq
    exact ⟨f, hfunc, hle⟩
  · have hrefl := hnormalM.le_refl.parts nofun
    refine Ty.le_of_parts nofun ⟨nofun, nofun, fun g hmem' => ?_⟩
    obtain ⟨h, heq, hle⟩ := hrefl.obj g hmem'
    cases heq
    exact ⟨o, hobj, hle⟩

/-- A union is at most what all its members are at most. -/
theorem Ty.union_le {ms : List Ty} {c : Ty} (hall : ∀ m ∈ ms, m.Le c) : (Ty.union ms).Le c := by
  by_cases hprecise : c = .any
  · exact hprecise ▸ Ty.le_any _
  refine Ty.le_of_parts nofun ⟨fun p hmem => ?_, fun f heq => ?_, fun o heq => ?_⟩
  · obtain ⟨m, hinside, heq⟩ := List.mem_filterMap.mp hmem
    cases m <;> simp only [Ty.prim?, reduceCtorEq, Option.some.injEq] at heq
    subst heq
    exact ((hall _ hinside).parts hprecise).prims _ (List.mem_singleton_self _)
  · exact ((hall _ (Ty.mem_members_of_funcPart? heq)).parts hprecise).func f rfl
  · exact ((hall _ (Ty.mem_members_of_objPart? heq)).parts hprecise).obj o rfl

/-- Joins from the left give the least type above all that is joined. -/
theorem Ty.foldl_join_le {ts : List Ty} {acc c : Ty} (hnormal : acc.Normal)
    (hnormals : ∀ t ∈ ts, t.Normal) :
    (ts.foldl Ty.join acc).Le c ↔ acc.Le c ∧ ∀ t ∈ ts, t.Le c := by
  induction ts generalizing acc with
  | nil => simp
  | cons t ts ih =>
    obtain ⟨hnormal', hlater⟩ := List.forall_mem_cons.mp hnormals
    have hlub := hnormal.isLub_join hnormal'
    rw [List.foldl_cons, ih hlub.normal hlater, List.forall_mem_cons, ← and_assoc]
    refine and_congr_left fun _ => ⟨fun hle => ?_, fun hle => hlub.least c hle.1 hle.2⟩
    exact ⟨hlub.left.trans hle, hlub.right.trans hle⟩

/-- A normal union is the join of its members. -/
theorem Ty.Normal.unionOf_members {ms : List Ty} (hnormal : (Ty.union ms).Normal) :
    Ty.unionOf ms = .union ms := by
  have hmembers := ((Ty.normal_union_iff ms).mp hnormal).2.2.2
  have hjoined := Ty.Normal.unionOf hmembers
  have hbound (c : Ty) : (Ty.unionOf ms).Le c ↔ ∀ m ∈ ms, m.Le c := by
    have hstart : Ty.never.Normal := trivial
    rw [Ty.unionOf, Ty.foldl_join_le hstart hmembers, and_iff_right (Ty.never_le c)]
  refine Ty.Le.antisymm hjoined hnormal ?_ (Ty.union_le ?_)
  · exact (hbound _).mpr fun m hmem => hnormal.member_le hmem
  · exact (hbound _).mp hjoined.le_refl

/-- Joining normal types with the same elements gives the same type, in whatever order and however
often they are joined. -/
theorem Ty.unionOf_congr {ts us : List Ty} (ht : ∀ t ∈ ts, t.Normal)
    (hsame : ∀ m, m ∈ ts ↔ m ∈ us) : Ty.unionOf ts = Ty.unionOf us := by
  have hu : ∀ u ∈ us, u.Normal := fun u hmem => ht u ((hsame u).mpr hmem)
  have hle {xs ys : List Ty} (hx : ∀ x ∈ xs, x.Normal) (hy : ∀ y ∈ ys, y.Normal)
      (hsub : ∀ m ∈ xs, m ∈ ys) : (Ty.unionOf xs).Le (Ty.unionOf ys) := by
    have hstart : Ty.never.Normal := trivial
    refine (Ty.foldl_join_le hstart hx).mpr ⟨Ty.never_le _, fun x hmem => ?_⟩
    exact ((Ty.foldl_join_le hstart hy).mp (Ty.Normal.unionOf hy).le_refl).2 x (hsub x hmem)
  exact Ty.Le.antisymm (Ty.Normal.unionOf ht) (Ty.Normal.unionOf hu)
    (hle ht hu fun m => (hsame m).mp) (hle hu ht fun m => (hsame m).mpr)

/-- A normal type is the join of its members, in whatever order they are joined. -/
theorem Ty.Normal.unionOf_of_mem_iff {t : Ty} (hnormal : t.Normal) {ms : List Ty}
    (hsame : ∀ m, m ∈ ms ↔ m ∈ t.members) : Ty.unionOf ms = t := by
  have heach : ∀ m ∈ ms, m.Normal := fun m hmem => hnormal.member ((hsame m).mp hmem)
  rw [Ty.unionOf_congr heach hsame]
  cases t with
  | union ns => exact hnormal.unionOf_members
  | _ => exact Ty.never_join _

/-! ### Shapes -/

/-- The shape of the members of a union. -/
structure UnionShape (ms : List Ty) : Prop where
  two : 2 ≤ ms.length
  flat : ∀ m ∈ ms, m.isUnion = false ∧ m.isNever = false ∧ m.isAny = false
  func : ms.countP Ty.isFunc ≤ 1
  obj : ms.countP Ty.isObj ≤ 1

/-- The type is no union, or one whose members have the shape. -/
def Ty.TopShaped : Ty → Prop
  | .union ms => UnionShape ms
  | _ => True

/-- All unions in the type, at any depth, have the shape. -/
def Ty.Shaped (t : Ty) : Prop :=
  ∀ u ∈ t.inside, u.TopShaped

/-- The sets and maps of which the type itself is made ascend: the handles of a function or an
object, the fields of an object, the members of a union. -/
def Ty.TopSorted : Ty → Prop
  | .func f => OrdSet.Ascending f.closures
  | .obj o => OrdMap.Ascending o.fields ∧ OrdSet.Ascending o.cells ∧ OrdSet.Ascending o.ctors ∧
      OrdSet.Ascending o.protoOf
  | .union ms => ms.Pairwise fun a b => a.cmp b = .lt
  | _ => True

/-- All sets and maps in the type, at any depth, ascend. -/
def Ty.Sorted (t : Ty) : Prop :=
  ∀ u ∈ t.inside, u.TopSorted

theorem Ty.shaped_iff (t : Ty) : t.Shaped ↔ t.TopShaped ∧ ∀ c ∈ t.children, c.Shaped :=
  t.forall_inside

theorem Ty.sorted_iff (t : Ty) : t.Sorted ↔ t.TopSorted ∧ ∀ c ∈ t.children, c.Sorted :=
  t.forall_inside

theorem Ty.topShaped_of_isUnion {t : Ty} (h : t.isUnion = false) : t.TopShaped := by
  cases t with
  | union ms => cases h
  | _ => trivial

/-- The alternatives of parts have the shape, as soon as there are two. -/
theorem Parts.unionShape_members (p : Parts) (hle : 2 ≤ p.members.length) :
    UnionShape p.members := by
  refine ⟨hle, fun m hmem => ?_, ?_, ?_⟩
  · obtain ⟨q, -, rfl⟩ | ⟨f, -, rfl⟩ | ⟨o, -, rfl⟩ := Parts.mem_members hmem <;>
      exact ⟨rfl, rfl, rfl⟩
  · have hprims : (p.prims.map Ty.prim).countP Ty.isFunc = 0 := by simp [Ty.isFunc]
    rw [Parts.members, List.countP_append, List.countP_append, hprims]
    cases p.func? <;> cases p.obj? <;> simp [Ty.isFunc]
  · have hprims : (p.prims.map Ty.prim).countP Ty.isObj = 0 := by simp [Ty.isObj]
    rw [Parts.members, List.countP_append, List.countP_append, hprims]
    cases p.func? <;> cases p.obj? <;> simp [Ty.isObj]

/-- What is made of parts has the shape. -/
theorem Parts.topShaped_ofMembers (p : Parts) : (Ty.ofMembers p.members).TopShaped := by
  have hshape := p.unionShape_members
  have hflat : ∀ m ∈ p.members, m.TopShaped := by
    intro m hmem
    obtain ⟨q, -, rfl⟩ | ⟨f, -, rfl⟩ | ⟨o, -, rfl⟩ := Parts.mem_members hmem <;> trivial
  generalize p.members = ms at hshape hflat
  cases ms with
  | nil => trivial
  | cons m ms =>
    cases ms with
    | nil => exact hflat m List.mem_cons_self
    | cons n ms => exact hshape (by simp)

/-- Only the alternatives at the top decide whether the join of two types has the shape at the
top. -/
theorem Ty.TopShaped.join {a b : Ty} (ha : a.TopShaped) (hb : b.TopShaped) :
    (a.join b).TopShaped := by
  rw [Ty.join, Ty.settle.eq_def]
  split
  · exact hb
  · exact ha
  · trivial
  · trivial
  · split
    · exact ha
    · cases a.parts.add b with
      | none => trivial
      | some p => exact p.topShaped_ofMembers

/-! ### Joins -/

/-- Parameters and result of the function have the shape at the top. -/
def FuncTy.PartsShaped (f : FuncTy) : Prop :=
  (∀ p ∈ f.params, p.TopShaped) ∧ f.ret.TopShaped

/-- The fields of the object have the shape at the top. -/
def ObjTy.PartsShaped (o : ObjTy) : Prop :=
  ∀ e ∈ o.fields, e.2.TopShaped

/-- Joined fields have the shape when both sides have it. -/
theorem Ty.topShaped_joinFields {fs gs : Fields} (hf : ∀ e ∈ fs, e.2.TopShaped)
    (hg : ∀ e ∈ gs, e.2.TopShaped) : ∀ e ∈ Ty.joinFields fs gs, e.2.TopShaped := by
  induction gs generalizing fs with
  | nil => exact hf
  | cons g gs ih =>
    obtain ⟨htopShaped, hlater⟩ := List.forall_mem_cons.mp hg
    rw [Ty.joinFields_cons]
    refine ih (fun e hmem => ?_) hlater
    rcases OrdMap.mem_upsert_of_mem hmem with rfl | ⟨old, hpresent, rfl⟩ | hmem
    · exact htopShaped
    · exact (hf _ hpresent).join htopShaped
    · exact hf e hmem

/-- Joining functions and objects keeps the shape of their parts. -/
theorem joinClosed_partsShaped : JoinClosed FuncTy.PartsShaped ObjTy.PartsShaped where
  func f g h hf hg heq := by
    rw [FuncTy.join?_eq] at heq
    split at heq
    · cases heq
      refine ⟨fun p hmem => ?_, hf.2.join hg.2⟩
      change p ∈ Ty.joinParams f.params g.params at hmem
      rw [Ty.joinParams_eq_zipWith] at hmem
      obtain ⟨i, hat⟩ := List.mem_iff_getElem?.mp hmem
      obtain ⟨x, y, hx, hy, rfl⟩ := List.getElem?_zipWith_eq_some.mp hat
      exact (hf.1 x (List.mem_of_getElem? hx)).join (hg.1 y (List.mem_of_getElem? hy))
    · cases heq
  obj o p ho hp := by
    rw [ObjTy.join_eq]
    exact Ty.topShaped_joinFields ho hp

/-- A type is shaped when it has the shape at the top, and the parts of all functions and objects in
it have: no union stands directly in a union of the right shape. -/
theorem Ty.shaped_iff_everywhere (t : Ty) :
    t.Shaped ↔ t.TopShaped ∧ t.Everywhere FuncTy.PartsShaped ObjTy.PartsShaped := by
  induction t using Ty.childInduction with
  | step t ih =>
  rw [Ty.shaped_iff]
  refine and_congr_right fun htop => ?_
  cases t with
  | never => simp [Ty.children, Ty.Everywhere]
  | any => simp [Ty.children, Ty.Everywhere]
  | prim p => simp [Ty.children, Ty.Everywhere]
  | func f =>
    rw [forall₂_congr ih, Ty.Everywhere, FuncTy.everywhere_iff, FuncTy.PartsShaped]
    simp only [Ty.children, List.forall_mem_append, List.forall_mem_singleton, forall_and]
  | obj o =>
    rw [forall₂_congr ih, Ty.Everywhere, ObjTy.everywhere_iff, ObjTy.PartsShaped]
    simp only [Ty.children, List.forall_mem_map, forall_and]
  | union ms =>
    rw [forall₂_congr ih, Ty.Everywhere, Ty.allEverywhere_iff]
    refine forall₂_congr fun m hmem => and_iff_right ?_
    exact Ty.topShaped_of_isUnion (htop.flat m hmem).1

namespace Ty.Shaped

variable {a b t : Ty}

/-- Joins keep the shape. -/
theorem join (ha : a.Shaped) (hb : b.Shaped) : (a.join b).Shaped := by
  rw [shaped_iff_everywhere] at ha hb ⊢
  exact ⟨ha.1.join hb.1, ha.2.join joinClosed_partsShaped hb.2⟩

/-- The join of a list has the shape when its members have it. -/
theorem unionOf {ts : List Ty} (h : ∀ t ∈ ts, t.Shaped) : (Ty.unionOf ts).Shaped := by
  have hrun (acc : Ty) (hacc : acc.Shaped) : (ts.foldl Ty.join acc).Shaped := by
    induction ts generalizing acc with
    | nil => exact hacc
    | cons t ts ih =>
      obtain ⟨hshaped, hlater⟩ := List.forall_mem_cons.mp h
      exact ih hlater (acc.join t) (hacc.join hshaped)
  exact hrun .never (by simp [Ty.Shaped, Ty.inside, Ty.TopShaped])

theorem objPart (h : t.Shaped) {o : ObjTy} (hpart : t.objPart? = some o) :
    o.Everywhere FuncTy.PartsShaped ObjTy.PartsShaped :=
  ((shaped_iff_everywhere t).mp h).2.objPart hpart

theorem funcPart (h : t.Shaped) {f : FuncTy} (hpart : t.funcPart? = some f) :
    f.Everywhere FuncTy.PartsShaped ObjTy.PartsShaped :=
  ((shaped_iff_everywhere t).mp h).2.funcPart hpart

end Ty.Shaped

/-- An object has the shape when all objects and functions in it have it in their parts. -/
theorem ObjTy.shaped_of_everywhere {o : ObjTy}
    (h : o.Everywhere FuncTy.PartsShaped ObjTy.PartsShaped) : (Ty.obj o).Shaped := by
  rw [Ty.shaped_iff_everywhere, Ty.Everywhere]
  exact ⟨trivial, h⟩

/-- The same for a function. -/
theorem FuncTy.shaped_of_everywhere {f : FuncTy}
    (h : f.Everywhere FuncTy.PartsShaped ObjTy.PartsShaped) : (Ty.func f).Shaped := by
  rw [Ty.shaped_iff_everywhere, Ty.Everywhere]
  exact ⟨trivial, h⟩

/-! ### Normal types -/

/-- The members of parts ascend: primitives come first, then the function, then the object. -/
theorem Parts.sorted_members {p : Parts} (hascends : OrdSet.Ascending p.prims) :
    p.members.Pairwise fun a b => a.cmp b = .lt := by
  have hprims : (p.prims.map Ty.prim).Pairwise fun a b => a.cmp b = .lt := by
    refine List.pairwise_map.mpr (hascends.imp fun hlt => ?_)
    exact Nat.compare_eq_lt.mpr hlt
  have hprimFunc (q : Prim) (f : FuncTy) : Ty.cmp (.prim q) (.func f) = .lt := rfl
  have hprimObj (q : Prim) (o : ObjTy) : Ty.cmp (.prim q) (.obj o) = .lt := rfl
  have hfuncObj (f : FuncTy) (o : ObjTy) : Ty.cmp (.func f) (.obj o) = .lt := rfl
  rw [Parts.members, List.append_assoc, List.pairwise_append]
  refine ⟨hprims, ?_, ?_⟩
  · cases p.func? <;> cases p.obj? <;> simp [hfuncObj]
  · cases p.func? <;> cases p.obj? <;> simp [hprimFunc, hprimObj]

/-- Types that ascend, among them no union, `never` or `any` and at most one function and one
object, are the alternatives of some parts. -/
theorem Parts.exists_members {ms : List Ty} (hsorted : ms.Pairwise fun a b => a.cmp b = .lt)
    (hflat : ∀ m ∈ ms, m.isUnion = false ∧ m.isNever = false ∧ m.isAny = false)
    (hfunc : ms.countP Ty.isFunc ≤ 1) (hobj : ms.countP Ty.isObj ≤ 1) :
    ∃ p : Parts, p.members = ms ∧ OrdSet.Ascending p.prims := by
  induction ms with
  | nil => exact ⟨⟨[], none, none⟩, rfl, List.Pairwise.nil⟩
  | cons m ms ih =>
    obtain ⟨hbelow, hsorted⟩ := List.pairwise_cons.mp hsorted
    obtain ⟨hhere, hflat⟩ := List.forall_mem_cons.mp hflat
    rw [List.countP_cons] at hfunc hobj
    obtain ⟨⟨prims, func?, obj?⟩, rfl, hascends⟩ := ih hsorted hflat (by omega) (by omega)
    cases m with
    | never => cases hhere.2.1
    | any => cases hhere.2.2
    | union ns => cases hhere.1
    | prim q =>
      refine ⟨⟨q :: prims, func?, obj?⟩, rfl, List.pairwise_cons.mpr ⟨fun r hmem => ?_, hascends⟩⟩
      have hlt : Ty.cmp (.prim q) (.prim r) = .lt :=
        hbelow (.prim r) (by simp [Parts.members, hmem])
      exact Nat.compare_eq_lt.mp hlt
    | func f =>
      -- Nothing follows a function but an object.
      have hnoPrims : prims = [] := by
        refine List.eq_nil_iff_forall_not_mem.mpr fun r hmem => ?_
        have hlt := hbelow (.prim r) (by simp [Parts.members, hmem])
        cases hlt
      have hnoFunc : func? = none := by
        cases func? with
        | none => rfl
        | some g => simp [Parts.members, Ty.isFunc] at hfunc
      subst hnoPrims hnoFunc
      exact ⟨⟨[], some f, obj?⟩, rfl, List.Pairwise.nil⟩
    | obj o =>
      -- Nothing at all follows an object.
      have hnoPrims : prims = [] := by
        refine List.eq_nil_iff_forall_not_mem.mpr fun r hmem => ?_
        have hlt := hbelow (.prim r) (by simp [Parts.members, hmem])
        cases hlt
      have hnoFunc : func? = none := by
        cases func? with
        | none => rfl
        | some g =>
          have hlt := hbelow (.func g) (by simp [Parts.members])
          cases hlt
      have hnoObj : obj? = none := by
        cases obj? with
        | none => rfl
        | some o' => simp [Parts.members, Ty.isObj] at hobj
      subst hnoPrims hnoFunc hnoObj
      exact ⟨⟨[], none, some o⟩, rfl, List.Pairwise.nil⟩

/-- A union is normal when its members are, ascend and have the shape. -/
theorem Ty.normal_union_iff_shape (ms : List Ty) :
    (Ty.union ms).Normal ↔
      ((Ty.union ms).TopSorted ∧ (Ty.union ms).TopShaped) ∧ ∀ m ∈ ms, m.Normal := by
  rw [Ty.normal_union_iff]
  constructor
  · rintro ⟨hle, hwhole, hascends, hnormal⟩
    have hsorted := (Ty.union ms).parts.sorted_members hascends
    have hshape := (Ty.union ms).parts.unionShape_members (hwhole.symm ▸ hle)
    rw [hwhole] at hsorted hshape
    exact ⟨⟨hsorted, hshape⟩, hnormal⟩
  · rintro ⟨⟨hsorted, hshape⟩, hnormal⟩
    obtain ⟨p, rfl, hascends⟩ := Parts.exists_members hsorted hshape.flat hshape.func hshape.obj
    have hwhole := Ty.parts_union p
    have hprims : (Ty.union p.members).primPart = p.prims := congrArg Parts.prims hwhole
    rw [hwhole, hprims]
    exact ⟨hshape.two, rfl, hascends, hnormal⟩

/-- The normal types are those whose sets and maps ascend, and whose unions have the shape. -/
theorem Ty.normal_iff (t : Ty) : t.Normal ↔ t.Sorted ∧ t.Shaped := by
  induction t using Ty.childInduction with
  | step t ih =>
  rw [Ty.sorted_iff, Ty.shaped_iff, and_and_and_comm, ← forall₂_and, ← forall₂_congr ih]
  cases t with
  | never => simp [Ty.Normal, Ty.TopSorted, Ty.TopShaped, Ty.children]
  | any => simp [Ty.Normal, Ty.TopSorted, Ty.TopShaped, Ty.children]
  | prim p => simp [Ty.Normal, Ty.TopSorted, Ty.TopShaped, Ty.children]
  | func f =>
    rw [Ty.Normal, FuncTy.normal_iff]
    simp only [Ty.TopSorted, Ty.TopShaped, Ty.children, List.forall_mem_append,
      List.forall_mem_singleton]
    tauto
  | obj o =>
    rw [Ty.Normal, ObjTy.normal_iff]
    simp only [Ty.TopSorted, Ty.TopShaped, Ty.children, List.forall_mem_map]
    tauto
  | union ms => exact Ty.normal_union_iff_shape ms

/-- The join of normal objects is normal. -/
theorem ObjTy.Normal.join {o p : ObjTy} (ho : o.Normal) (hp : p.Normal) : (o.join p).Normal :=
  (ObjTy.isLub_join ho hp fun _ _ _ he ht => he.isLub_join ht).normal

/-- The join of normal functions is normal. -/
theorem FuncTy.Normal.join? {f g h : FuncTy} (hf : f.Normal) (hg : g.Normal)
    (heq : f.join? g = some h) : h.Normal :=
  (FuncTy.isLub_join? hf hg (fun _ _ _ hp hq => hp.isLub_join hq)
    (fun _ hr hq => hr.isLub_join hq) heq).normal

/-! ### All ways to join -/

/-- All joins keep the property: those of two types, of the objects and of the functions in them,
and of any list of types.  Two functions join exactly when they have one arity. -/
structure ClosedUnderJoins (P : Ty → Prop) : Prop where
  join {a b : Ty} : P a → P b → P (a.join b)
  objects {a b : Ty} {o p : ObjTy} : P a → P b → a.objPart? = some o → b.objPart? = some p →
    P (.obj (o.join p))
  functions {a b : Ty} {f g : FuncTy} : P a → P b → a.funcPart? = some f → b.funcPart? = some g →
    if f.params.length = g.params.length then ∃ h, f.join? g = some h ∧ P (.func h)
    else f.join? g = none
  unionOf {ts : List Ty} : (∀ t ∈ ts, P t) → P (Ty.unionOf ts)

/-- What holds of the join of two functions whenever there is one. -/
theorem FuncTy.join?_spec {f g : FuncTy} {P : FuncTy → Prop} (h : ∀ j, f.join? g = some j → P j) :
    if f.params.length = g.params.length then ∃ j, f.join? g = some j ∧ P j
    else f.join? g = none := by
  rw [FuncTy.join?_eq] at h ⊢
  split
  · next harity => exact ⟨_, rfl, h _ (if_pos harity)⟩
  · rfl

/-- All joins keep the shape. -/
theorem closedUnderJoins_shaped : ClosedUnderJoins Ty.Shaped where
  join := Ty.Shaped.join
  objects ha hb ho hp :=
    ObjTy.shaped_of_everywhere
      (ObjTy.Everywhere.join joinClosed_partsShaped _ (ha.objPart ho) (hb.objPart hp))
  functions ha hb hf hg := FuncTy.join?_spec fun _ heq =>
    FuncTy.shaped_of_everywhere
      (FuncTy.Everywhere.join? joinClosed_partsShaped _ (ha.funcPart hf) (hb.funcPart hg) heq)
  unionOf := Ty.Shaped.unionOf

/-- All joins keep normal forms. -/
theorem closedUnderJoins_normal : ClosedUnderJoins Ty.Normal where
  join := Ty.Normal.join
  objects ha hb ho hp := by
    rw [Ty.Normal]
    exact (ha.objPart ho).join (hb.objPart hp)
  functions ha hb hf hg := FuncTy.join?_spec fun _ heq => by
    rw [Ty.Normal]
    exact (ha.funcPart hf).join? (hb.funcPart hg) heq
  unionOf := Ty.Normal.unionOf

/-- **Joins keep the shape of unions.**  If in all given types the unions have the shape, at any
depth, they have it in the join, in the joins of the objects and of the functions in the types, and
in the join of a list.  The same holds for types whose sets and maps ascend as well, and such a
type is rebuilt by joining its members, in any order. -/
theorem joins_keep_shape :
    ClosedUnderJoins Ty.Shaped ∧ ClosedUnderJoins (fun t => t.Sorted ∧ t.Shaped) ∧
      ∀ t : Ty, t.Sorted → t.Shaped → ∀ ms : List Ty, (∀ m, m ∈ ms ↔ m ∈ t.members) →
        Ty.unionOf ms = t := by
  have hnormal : Ty.Normal = fun t => t.Sorted ∧ t.Shaped := funext fun t => propext t.normal_iff
  refine ⟨closedUnderJoins_shaped, hnormal ▸ closedUnderJoins_normal, ?_⟩
  intro t hsorted hshaped ms hsame
  exact (t.normal_iff.mpr ⟨hsorted, hshaped⟩).unionOf_of_mem_iff hsame

/-- A union with a function whose parameter is a union, and with an object, rebuilt backwards. -/
theorem joins_keep_shape_backwards :
    let func := Ty.func ⟨[.union [.string, .number]], .never, [0]⟩
    let obj := Ty.obj ⟨[("next", .union [.number, .null])], [1], [], []⟩
    let t := Ty.union [.string, func, obj]
    (t.Sorted ∧ t.Shaped) ∧ (t.join .number).Shaped ∧ Ty.unionOf [obj, func, .string] = t := by
  intro func obj t
  obtain ⟨hkeep, -, hrebuilt⟩ := joins_keep_shape
  have hboth : t.Sorted ∧ t.Shaped := t.normal_iff.mp (by decide)
  have hnumber : Ty.number.Shaped := by simp [Ty.Shaped, Ty.inside, Ty.TopShaped]
  refine ⟨hboth, hkeep.join hboth.2 hnumber, hrebuilt t hboth.1 hboth.2 _ fun m => ?_⟩
  simp [t, Ty.members, or_comm, or_left_comm]

end TypeFlow
