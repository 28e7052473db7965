import Mathlib
import TypeFlow.Proofs.Types.Order

/-!
# The join is a least upper bound

On normal types the join is the least upper bound of the precision order.  The laws of a join
semilattice follow from this and from antisymmetry, with no further induction: two least upper
bounds of the same types are equal.

## Main Definitions

* `IsLub` - a least upper bound in normal form
* `Ty.Built` - the types that the constructors and the joins build

## Main Statements

* `Parts.add_eq` - what merging a normal type into parts gives
* `Ty.Normal.isLub_join` - the join is a least upper bound
* `Ty.Normal.isSubtype_iff` - being a subtype is the precision order
* `Ty.Built.normal` - what the constructors and the joins build is normal
-/

namespace TypeFlow

/-! ### The cases of a join -/

namespace Ty

@[simp] theorem never_join (b : Ty) : Ty.never.join b = b := by
  cases b <;> rfl

@[simp] theorem join_never (a : Ty) : a.join .never = a := by
  cases a <;> rfl

@[simp] theorem any_join (b : Ty) : Ty.any.join b = .any := by
  cases b <;> rfl

@[simp] theorem join_any (a : Ty) : a.join .any = .any := by
  cases a <;> rfl

@[simp] theorem join_self (a : Ty) : a.join a = a := by
  cases a <;> simp [Ty.join, Ty.settle]

/-- Two types of which neither is `never` or `any`, and which differ, join by merging parts. -/
theorem join_of_ne {a b : Ty} (hna : a ≠ .never) (hnb : b ≠ .never) (hpa : a ≠ .any)
    (hpb : b ≠ .any) (hne : a ≠ b) : a.join b = .ofParts? (a.parts.add b) := by
  rw [Ty.join]
  cases a <;> cases b <;> simp_all [Ty.settle]

end Ty

/-! ### Merging parts -/

/-- The function of a merger, when the functions of both sides fit together. -/
def Parts.mergeFunc : Option FuncTy → Option FuncTy → Option (Option FuncTy)
  | none, g => some g
  | some f, none => some (some f)
  | some f, some g => (f.join? g).map some

/-- The merger of two collections of parts. -/
def Parts.merge (p q : Parts) : Option Parts :=
  (Parts.mergeFunc p.func? q.func?).map fun f? =>
    ⟨OrdSet.union p.prims q.prims, f?, Option.merge ObjTy.join p.obj? q.obj?⟩

/-- Members are added one list after the other. -/
theorem Parts.addAll_append (acc : Parts) (xs ys : List Ty) :
    acc.addAll (xs ++ ys) = (acc.addAll xs).bind fun acc' => acc'.addAll ys := by
  induction xs generalizing acc with
  | nil => simp [Parts.addAll]
  | cons x xs ih =>
    rw [List.cons_append, Parts.addAll, Parts.addAll]
    cases acc.add x with
    | none => rfl
    | some acc' => exact ih acc'

/-- Adding primitive types unites them with those that are there. -/
theorem Parts.addAll_prims (acc : Parts) (ps : List Prim) :
    acc.addAll (ps.map .prim) = some { acc with prims := OrdSet.union acc.prims ps } := by
  induction ps generalizing acc with
  | nil => rw [List.map_nil, Parts.addAll]; rfl
  | cons p ps ih =>
    rw [List.map_cons, Parts.addAll, Parts.add]
    exact ih _

/-- Adding a function merges it with the one that is there, unless their arities differ. -/
theorem Parts.addAll_func (acc : Parts) (f? : Option FuncTy) :
    acc.addAll (f?.map .func).toList =
      (Parts.mergeFunc acc.func? f?).map fun g? => { acc with func? := g? } := by
  obtain ⟨ps, g?, o?⟩ := acc
  cases f? with
  | none => cases g? <;> rfl
  | some f =>
    cases g? with
    | none => rfl
    | some g =>
      rw [Option.map_some, Option.toList_some, Parts.addAll, Parts.add, Parts.mergeFunc,
        Option.map_map]
      cases heq : g.join? f <;> simp [heq, Parts.addAll]

/-- Adding an object joins it with the one that is there. -/
theorem Parts.addAll_obj (acc : Parts) (o? : Option ObjTy) :
    acc.addAll (o?.map .obj).toList =
      some { acc with obj? := Option.merge ObjTy.join acc.obj? o? } := by
  obtain ⟨ps, g?, p?⟩ := acc
  cases o? <;> cases p? <;> rfl

/-- Adding the members of parts merges the parts. -/
theorem Parts.addAll_members (acc p : Parts) : acc.addAll p.members = acc.merge p := by
  rw [Parts.members, Parts.addAll_append, Parts.addAll_append, Parts.addAll_prims,
    Option.bind_some, Parts.addAll_func, Parts.merge]
  cases Parts.mergeFunc acc.func? p.func? with
  | none => rfl
  | some g? => exact Parts.addAll_obj _ p.obj?

/-- Merging a normal type other than `any` into parts merges the parts. -/
theorem Parts.add_eq (acc : Parts) {b : Ty} (hb : b.Normal) (hpb : b ≠ .any) :
    acc.add b = acc.merge b.parts := by
  have hsingle : ∀ t : Ty, acc.add t = acc.addAll [t] := by
    intro t
    rw [Parts.addAll]
    cases acc.add t <;> rfl
  rw [← Parts.addAll_members]
  cases b with
  | never =>
    rw [Parts.add]
    rfl
  | any => exact absurd rfl hpb
  | prim p => exact hsingle _
  | func f => exact hsingle _
  | obj o => exact hsingle _
  | union ms =>
    rw [Parts.add, ((Ty.normal_union_iff ms).mp hb).2.1]

/-! ### Joins of functions and objects -/

/-- Parameters are joined place by place. -/
theorem Ty.joinParams_eq_zipWith (as bs : List Ty) :
    Ty.joinParams as bs = List.zipWith Ty.join as bs := by
  induction as generalizing bs with
  | nil => cases bs <;> rfl
  | cons a as ih =>
    cases bs with
    | nil => rfl
    | cons b bs => rw [Ty.joinParams_cons, List.zipWith_cons_cons, ih]

/-- Joined fields ascend by name. -/
theorem Ty.ascending_joinFields {m : Fields} (h : OrdMap.Ascending m) (n : Fields) :
    OrdMap.Ascending (Ty.joinFields m n) := by
  induction n generalizing m with
  | nil => exact h
  | cons e rest ih =>
    rw [Ty.joinFields_cons]
    exact ih (h.upsert e.1 _ e.2)

/-- Looking a name up in joined fields joins what both sides have for it. -/
theorem Ty.get?_joinFields (m : Fields) {n : Fields} (h : OrdMap.Ascending n) (name : String) :
    OrdMap.get? (Ty.joinFields m n) name =
      Option.merge Ty.join (OrdMap.get? m name) (OrdMap.get? n name) := by
  induction n generalizing m with
  | nil =>
    rw [Ty.joinFields]
    cases OrdMap.get? m name <;> rfl
  | cons e rest ih =>
    obtain ⟨hbelow, hascends⟩ := List.pairwise_cons.mp h
    rw [Ty.joinFields_cons, ih _ hascends]
    by_cases hsame : name = e.1
    · -- The name stands at the head, and so nowhere behind it.
      subst hsame
      have habsent : OrdMap.get? rest e.1 = none := by
        cases heq : OrdMap.get? rest e.1 with
        | none => rfl
        | some t => exact absurd (hbelow _ (OrdMap.mem_of_get? heq)) (lt_irrefl e.1)
      rw [habsent, OrdMap.get?_upsert_self, OrdMap.get?, if_pos rfl]
      cases OrdMap.get? m e.1 <;> rfl
    · rw [OrdMap.get?_upsert_of_ne m _ _ hsame, OrdMap.get?, if_neg hsame]

/-- `j` is a least upper bound of `a` and `b` in the order `L`, and in normal form. -/
structure IsLub {α : Type} (N : α → Prop) (L : α → α → Prop) (a b j : α) : Prop where
  normal : N j
  left : L a j
  right : L b j
  least : ∀ c, L a c → L b c → L j c

/-- Two functions that join have one arity, and their join is a least upper bound as soon as those
of the parameters and of the results are. -/
theorem FuncTy.isLub_join? {f g j : FuncTy} (hf : f.Normal) (hg : g.Normal)
    (hparams : ∀ p ∈ f.params, ∀ q, p.Normal → q.Normal → IsLub Ty.Normal Ty.Le p q (p.join q))
    (hret : ∀ q, f.ret.Normal → q.Normal → IsLub Ty.Normal Ty.Le f.ret q (f.ret.join q))
    (heq : f.join? g = some j) : IsLub FuncTy.Normal FuncTy.Le f g j := by
  rw [FuncTy.join?_eq] at heq
  split at heq
  case isFalse => cases heq
  case isTrue harity =>
    cases heq
    obtain ⟨hnormalParams, hnormalRet, hascends⟩ := (FuncTy.normal_iff f).mp hf
    obtain ⟨hnormalParams', hnormalRet', -⟩ := (FuncTy.normal_iff g).mp hg
    have hretJoin := hret g.ret hnormalRet hnormalRet'
    -- Each parameter of the join is the join of the parameters in its position.
    have hposition : ∀ (i : Nat) (z : Ty), (Ty.joinParams f.params g.params)[i]? = some z →
        ∃ x y, f.params[i]? = some x ∧ g.params[i]? = some y ∧ IsLub Ty.Normal Ty.Le x y z := by
      intro i z hz
      rw [Ty.joinParams_eq_zipWith, List.getElem?_zipWith_eq_some] at hz
      obtain ⟨x, y, hx, hy, rfl⟩ := hz
      have hmemx := List.mem_of_getElem? hx
      have hmemy := List.mem_of_getElem? hy
      exact ⟨x, y, hx, hy, hparams x hmemx y (hnormalParams x hmemx) (hnormalParams' y hmemy)⟩
    have hlength : (Ty.joinParams f.params g.params).length = f.params.length := by
      rw [Ty.joinParams_eq_zipWith, List.length_zipWith, ← harity, Nat.min_self]
    refine ⟨(FuncTy.normal_iff _).mpr ⟨fun z hmem => ?_, hretJoin.normal, hascends.union _⟩,
      ⟨hlength.symm, fun i x z hx hz => ?_, hretJoin.left, fun id hmem => ?_⟩,
      ⟨harity.symm.trans hlength.symm, fun i y z hy hz => ?_, hretJoin.right, fun id hmem => ?_⟩,
      fun h hfh hgh => ⟨hlength.trans hfh.arity, fun i z w hz hw => ?_,
        hretJoin.least h.ret hfh.ret hgh.ret, fun id hmem => ?_⟩⟩
    · obtain ⟨i, hz⟩ := List.mem_iff_getElem?.mp hmem
      obtain ⟨x, y, -, -, hjoin⟩ := hposition i z hz
      exact hjoin.normal
    · obtain ⟨x', y, hx', -, hjoin⟩ := hposition i z hz
      cases hx.symm.trans hx'
      exact hjoin.left
    · exact OrdSet.mem_union.mpr (Or.inl hmem)
    · obtain ⟨x, y', -, hy', hjoin⟩ := hposition i z hz
      cases hy.symm.trans hy'
      exact hjoin.right
    · exact OrdSet.mem_union.mpr (Or.inr hmem)
    · obtain ⟨x, y, hx, hy, hjoin⟩ := hposition i z hz
      exact hjoin.least w (hfh.params i x w hx hw) (hgh.params i y w hy hw)
    · rcases OrdSet.mem_union.mp hmem with hmem | hmem
      · exact hfh.closures hmem
      · exact hgh.closures hmem

theorem OrdSet.union_subset {s t u : List Nat} (hs : s ⊆ u) (ht : t ⊆ u) :
    OrdSet.union s t ⊆ u := by
  intro id hmem
  rcases OrdSet.mem_union.mp hmem with hmem | hmem
  · exact hs hmem
  · exact ht hmem

theorem OrdSet.subset_union_left (s t : List Nat) : s ⊆ OrdSet.union s t :=
  fun _ hmem => OrdSet.mem_union.mpr (Or.inl hmem)

theorem OrdSet.subset_union_right (s t : List Nat) : t ⊆ OrdSet.union s t :=
  fun _ hmem => OrdSet.mem_union.mpr (Or.inr hmem)

/-- What joined fields hold under a name: a least upper bound of what both sides hold there. -/
theorem Ty.joinFields_slot {m n : Fields} (hn : OrdMap.Ascending n)
    (hnormal : ∀ e ∈ m, e.2.Normal) (hnormal' : ∀ e ∈ n, e.2.Normal)
    (hfields : ∀ e ∈ m, ∀ t, e.2.Normal → t.Normal → IsLub Ty.Normal Ty.Le e.2 t (e.2.join t))
    {name : String} {z : Ty} (hfound : OrdMap.get? (Ty.joinFields m n) name = some z) :
    z.Normal ∧ (∀ t, OrdMap.get? m name = some t → t.Le z) ∧
      (∀ u, OrdMap.get? n name = some u → u.Le z) ∧
      ∀ c, (∀ t, OrdMap.get? m name = some t → t.Le c) →
        (∀ u, OrdMap.get? n name = some u → u.Le c) → z.Le c := by
  rw [Ty.get?_joinFields m hn] at hfound
  cases ht : OrdMap.get? m name with
  | none =>
    -- only the second map has the name, and its type is the field
    rw [ht, Option.merge_none_left] at hfound
    have hnormalz := hnormal' _ (OrdMap.mem_of_get? hfound)
    refine ⟨hnormalz, by simp, fun u hu => ?_, fun c _ hright => hright z hfound⟩
    cases hfound.symm.trans hu
    exact hnormalz.le_refl
  | some t =>
    have hmemt := OrdMap.mem_of_get? ht
    have hnormalt := hnormal _ hmemt
    cases hu : OrdMap.get? n name with
    | none =>
      rw [ht, hu, Option.merge_none_right] at hfound
      cases hfound
      refine ⟨hnormalt, fun t' ht' => ?_, by simp, fun c hleft _ => hleft _ rfl⟩
      cases ht'
      exact hnormalt.le_refl
    | some u =>
      rw [ht, hu] at hfound
      have heq : t.join u = z := Option.some.inj hfound
      have hjoin := hfields _ hmemt u hnormalt (hnormal' _ (OrdMap.mem_of_get? hu))
      rw [heq] at hjoin
      refine ⟨hjoin.normal, fun t' ht' => ?_, fun u' hu' => ?_, fun c hleft hright => ?_⟩
      · cases ht'
        exact hjoin.left
      · cases hu'
        exact hjoin.right
      · exact hjoin.least c (hleft t rfl) (hright u rfl)

/-- Joined fields hold something under every name of either side. -/
theorem Ty.joinFields_isSome (m : Fields) {n : Fields} (hn : OrdMap.Ascending n) {name : String}
    {t : Ty} (h : OrdMap.get? m name = some t ∨ OrdMap.get? n name = some t) :
    ∃ z, OrdMap.get? (Ty.joinFields m n) name = some z := by
  rw [Ty.get?_joinFields m hn]
  rcases h with h | h
  · rw [h]
    cases OrdMap.get? n name <;> exact ⟨_, rfl⟩
  · rw [h]
    cases OrdMap.get? m name <;> exact ⟨_, rfl⟩

/-- The join of two objects is a least upper bound as soon as those of the fields are. -/
theorem ObjTy.isLub_join {o p : ObjTy} (ho : o.Normal) (hp : p.Normal)
    (hfields : ∀ e ∈ o.fields, ∀ t, e.2.Normal → t.Normal →
      IsLub Ty.Normal Ty.Le e.2 t (e.2.join t)) :
    IsLub ObjTy.Normal ObjTy.Le o p (o.join p) := by
  rw [ObjTy.join_eq]
  obtain ⟨hnormal, hascends, hcells, hctors, hprotoOf⟩ := (ObjTy.normal_iff o).mp ho
  obtain ⟨hnormal', hascends', -⟩ := (ObjTy.normal_iff p).mp hp
  have hascendsJoin := Ty.ascending_joinFields hascends p.fields
  have hslot : ∀ {name : String} {z : Ty}, OrdMap.get? (Ty.joinFields o.fields p.fields) name =
      some z → _ := fun hfound => Ty.joinFields_slot hascends' hnormal hnormal' hfields hfound
  refine ⟨(ObjTy.normal_iff _).mpr ⟨fun e hmem => ?_, hascendsJoin, hcells.union _, hctors.union _,
      hprotoOf.union _⟩,
    ⟨fun e hmem => ?_, OrdSet.subset_union_left _ _, OrdSet.subset_union_left _ _,
      OrdSet.subset_union_left _ _⟩,
    ⟨fun e hmem => ?_, OrdSet.subset_union_right _ _, OrdSet.subset_union_right _ _,
      OrdSet.subset_union_right _ _⟩,
    fun q hoq hpq => ⟨fun e hmem => ?_, OrdSet.union_subset hoq.cells hpq.cells,
      OrdSet.union_subset hoq.ctors hpq.ctors, OrdSet.union_subset hoq.protoOf hpq.protoOf⟩⟩
  · exact (hslot (hascendsJoin.get?_of_mem hmem)).1
  · have hfound := hascends.get?_of_mem hmem
    obtain ⟨z, hz⟩ := Ty.joinFields_isSome o.fields hascends' (Or.inl hfound)
    exact ⟨z, hz, (hslot hz).2.1 e.2 hfound⟩
  · have hfound := hascends'.get?_of_mem hmem
    obtain ⟨z, hz⟩ := Ty.joinFields_isSome o.fields hascends' (Or.inr hfound)
    exact ⟨z, hz, (hslot hz).2.2.1 e.2 hfound⟩
  · -- An upper bound has the field, since one of the two sides has it.
    have hfound := hascendsJoin.get?_of_mem hmem
    have hbound : ∃ c, OrdMap.get? q.fields e.1 = some c := by
      rw [Ty.get?_joinFields o.fields hascends'] at hfound
      cases ht : OrdMap.get? o.fields e.1 with
      | some t =>
        obtain ⟨c, hc, -⟩ := hoq.fields _ (OrdMap.mem_of_get? ht)
        exact ⟨c, hc⟩
      | none =>
        rw [ht, Option.merge_none_left] at hfound
        obtain ⟨c, hc, -⟩ := hpq.fields _ (OrdMap.mem_of_get? hfound)
        exact ⟨c, hc⟩
    obtain ⟨c, hc⟩ := hbound
    refine ⟨c, hc, (hslot hfound).2.2.2 c (fun t ht => ?_) fun u hu => ?_⟩
    · obtain ⟨c', hc', hle⟩ := hoq.fields _ (OrdMap.mem_of_get? ht)
      cases hc.symm.trans hc'
      exact hle
    · obtain ⟨c', hc', hle⟩ := hpq.fields _ (OrdMap.mem_of_get? hu)
      cases hc.symm.trans hc'
      exact hle

/-! ### Joins of types -/

/-- Functions that do not join have no common upper bound. -/
theorem FuncTy.no_bound_of_join?_none {f g h : FuncTy} (heq : f.join? g = none) (hfh : f.Le h) :
    ¬ g.Le h := by
  intro hgh
  rw [FuncTy.join?_eq, if_pos (hfh.arity.trans hgh.arity.symm)] at heq
  cases heq

section Optional

variable {α : Type} {N : α → Prop} {L : α → α → Prop}

/-- What an option holds is in normal form. -/
def Held (N : α → Prop) (p : Option α) : Prop :=
  ∀ x, p = some x → N x

theorem CoveredBy.refl (hrefl : ∀ x, N x → L x x) {p : Option α} (h : Held N p) :
    CoveredBy L p p :=
  fun x heq => ⟨x, heq, hrefl x (h x heq)⟩

theorem CoveredBy.none (p : Option α) : CoveredBy L Option.none p := by
  intro x heq
  cases heq

theorem isLub_none_left (hrefl : ∀ x, N x → L x x) {q : Option α} (h : Held N q) :
    IsLub (Held N) (CoveredBy L) none q q :=
  ⟨h, CoveredBy.none q, CoveredBy.refl hrefl h, fun _ _ hright => hright⟩

theorem isLub_none_right (hrefl : ∀ x, N x → L x x) {p : Option α} (h : Held N p) :
    IsLub (Held N) (CoveredBy L) p none p :=
  ⟨h, CoveredBy.refl hrefl h, CoveredBy.none p, fun _ hleft _ => hleft⟩

/-- The least upper bound of two parts that are both there. -/
theorem IsLub.some {x y j : α} (h : IsLub N L x y j) :
    IsLub (Held N) (CoveredBy L) (some x) (some y) (some j) := by
  refine ⟨fun z heq => ?_, fun z heq => ?_, fun z heq => ?_, fun c hleft hright z heq => ?_⟩
  · cases heq
    exact h.normal
  · cases heq
    exact ⟨j, rfl, h.left⟩
  · cases heq
    exact ⟨j, rfl, h.right⟩
  · cases heq
    obtain ⟨c, rfl, hxc⟩ := hleft x rfl
    obtain ⟨c', heq, hyc⟩ := hright y rfl
    cases heq
    exact ⟨c, rfl, h.least c hxc hyc⟩

end Optional

/-- Parts that do not merge have functions that do not join. -/
theorem Parts.merge_eq_none {p q : Parts} (heq : p.merge q = none) :
    ∃ f g, p.func? = some f ∧ q.func? = some g ∧ f.join? g = none := by
  rw [Parts.merge, Option.map_eq_none_iff] at heq
  cases hf : p.func? with
  | none => simp [hf, Parts.mergeFunc] at heq
  | some f =>
    cases hg : q.func? with
    | none => simp [hf, hg, Parts.mergeFunc] at heq
    | some g =>
      rw [hf, hg, Parts.mergeFunc, Option.map_eq_none_iff] at heq
      exact ⟨f, g, rfl, rfl, heq⟩

/-- Merged parts are a least upper bound of the parts of both sides, as soon as the function and
the object are. -/
theorem Parts.isLub_merge {p q r : Parts} (hp : p.Normal) (hq : q.Normal)
    (hfunc : ∀ f g j, p.func? = some f → q.func? = some g → f.join? g = some j →
      IsLub FuncTy.Normal FuncTy.Le f g j)
    (hobj : ∀ o o', p.obj? = some o → q.obj? = some o' →
      IsLub ObjTy.Normal ObjTy.Le o o' (o.join o'))
    (heq : p.merge q = some r) : IsLub Parts.Normal Parts.Le p q r := by
  obtain ⟨j?, hmerged, rfl⟩ := Option.map_eq_some_iff.mp heq
  -- the functions may clash, but then there would be no merged parts
  have hfuncLub : IsLub (Held FuncTy.Normal) (CoveredBy FuncTy.Le) p.func? q.func? j? := by
    cases hf : p.func? with
    | none =>
      rw [hf, Parts.mergeFunc] at hmerged
      cases hmerged
      exact isLub_none_left (fun _ h => h.le_refl) hq.func
    | some f =>
      cases hg : q.func? with
      | none =>
        rw [hf, hg, Parts.mergeFunc] at hmerged
        cases hmerged
        exact isLub_none_right (fun _ h => h.le_refl) (hf ▸ hp.func)
      | some g =>
        rw [hf, hg, Parts.mergeFunc, Option.map_eq_some_iff] at hmerged
        obtain ⟨j, hjoined, rfl⟩ := hmerged
        exact (hfunc f g j hf hg hjoined).some
  have hobjLub : IsLub (Held ObjTy.Normal) (CoveredBy ObjTy.Le) p.obj? q.obj?
      (Option.merge ObjTy.join p.obj? q.obj?) := by
    cases ho : p.obj? with
    | none =>
      rw [Option.merge_none_left]
      exact isLub_none_left (fun _ h => h.le_refl) hq.obj
    | some o =>
      cases ho' : q.obj? with
      | none =>
        rw [Option.merge_none_right]
        exact isLub_none_right (fun _ h => h.le_refl) (ho ▸ hp.obj)
      | some o' => exact (hobj o o' ho ho').some
  refine ⟨⟨hp.prims.union _, hfuncLub.normal, hobjLub.normal⟩,
    ⟨fun x hmem => OrdSet.mem_union.mpr (Or.inl hmem), hfuncLub.left, hobjLub.left⟩,
    ⟨fun x hmem => OrdSet.mem_union.mpr (Or.inr hmem), hfuncLub.right, hobjLub.right⟩,
    fun c hleft hright => ⟨fun x hmem => ?_, hfuncLub.least _ hleft.func hright.func,
      hobjLub.least _ hleft.obj hright.obj⟩⟩
  rcases OrdSet.mem_union.mp hmem with hmem | hmem
  · exact hleft.prims x hmem
  · exact hright.prims x hmem

/-- Parts never make up `any`: only an arity clash does. -/
theorem Parts.ofMembers_ne_any (p : Parts) : Ty.ofMembers p.members ≠ .any := by
  cases heq : p.members with
  | nil => simp [Ty.ofMembers]
  | cons t rest =>
    cases rest with
    | cons u rest => simp [Ty.ofMembers]
    | nil =>
      have hmem : t ∈ p.members := by
        rw [heq]
        exact List.mem_singleton_self t
      obtain ⟨q, -, rfl⟩ | ⟨f, -, rfl⟩ | ⟨o, -, rfl⟩ := Parts.mem_members hmem <;>
        simp [Ty.ofMembers]

/-- **The join of normal types is their least upper bound.** -/
theorem Ty.Normal.isLub_join {a b : Ty} (ha : a.Normal) (hb : b.Normal) :
    IsLub Ty.Normal Ty.Le a b (a.join b) := by
  induction a using Ty.partsInduction generalizing b with
  | step a hfunc hobj =>
    -- `never` and `any` on either side, and equal sides, are joined without looking at parts
    by_cases hna : a = .never
    · subst hna
      rw [Ty.never_join]
      exact ⟨hb, Ty.never_le b, hb.le_refl, fun _ _ hright => hright⟩
    by_cases hnb : b = .never
    · subst hnb
      rw [Ty.join_never]
      exact ⟨ha, ha.le_refl, Ty.never_le a, fun _ hleft _ => hleft⟩
    by_cases hpa : a = .any
    · subst hpa
      rw [Ty.any_join]
      exact ⟨ha, Ty.le_any _, Ty.le_any _, fun _ hleft _ => hleft⟩
    by_cases hpb : b = .any
    · subst hpb
      rw [Ty.join_any]
      exact ⟨hb, Ty.le_any _, Ty.le_any _, fun _ _ hright => hright⟩
    by_cases hsame : a = b
    · subst hsame
      rw [Ty.join_self]
      exact ⟨ha, ha.le_refl, ha.le_refl, fun _ hleft _ => hleft⟩
    rw [Ty.join_of_ne hna hnb hpa hpb hsame, Parts.add_eq _ hb hpb]
    cases heq : a.parts.merge b.parts with
    | none =>
      -- two arities clash, and only `any` is above functions of both
      obtain ⟨f, g, hf, hg, hclash⟩ := Parts.merge_eq_none heq
      refine ⟨trivial, Ty.le_any _, Ty.le_any _, fun c hleft hright => ?_⟩
      by_cases hpc : c = .any
      · exact hpc ▸ Ty.le_any _
      · obtain ⟨h, hc, hfh⟩ := (hleft.parts hpc).func f hf
        obtain ⟨h', hc', hgh⟩ := (hright.parts hpc).func g hg
        cases hc.symm.trans hc'
        exact absurd hgh (FuncTy.no_bound_of_join?_none hclash hfh)
    | some r =>
      have hlub : IsLub Parts.Normal Parts.Le a.parts b.parts r := by
        refine Parts.isLub_merge ha.parts hb.parts (fun f g j hf hg hjoined => ?_)
          (fun o o' ho ho' => ?_) heq
        · obtain ⟨hparams, hret⟩ := hfunc f hf
          exact FuncTy.isLub_join? (ha.funcPart hf) (hb.funcPart hg)
            (fun p hmem q hp hq => hparams p hmem hp hq) (fun q hr hq => hret hr hq) hjoined
        · exact ObjTy.isLub_join (ha.objPart ho) (hb.objPart ho')
            fun e hmem t he ht => hobj o ho e hmem he ht
      have hparts := Ty.parts_ofMembers r
      rw [Ty.ofParts?]
      refine ⟨hlub.normal.ofMembers, Ty.le_of_parts hpa (hparts.symm ▸ hlub.left),
        Ty.le_of_parts hpb (hparts.symm ▸ hlub.right), fun c hleft hright => ?_⟩
      by_cases hpc : c = .any
      · exact hpc ▸ Ty.le_any _
      · refine Ty.le_of_parts r.ofMembers_ne_any ?_
        rw [Ty.parts_ofMembers]
        exact hlub.least c.parts (hleft.parts hpc) (hright.parts hpc)

/-! ### The laws of a semilattice -/

namespace Ty

variable {a b c : Ty}

/-- The join of normal types is normal. -/
theorem Normal.join (ha : a.Normal) (hb : b.Normal) : (a.join b).Normal :=
  (ha.isLub_join hb).normal

/-- A normal type is the join as soon as it is a least upper bound. -/
theorem Normal.join_eq_of_isLub (ha : a.Normal) (hb : b.Normal)
    (h : IsLub Ty.Normal Ty.Le a b c) : a.join b = c := by
  have hlub := ha.isLub_join hb
  exact Ty.Le.antisymm hlub.normal h.normal (hlub.least c h.left h.right)
    (h.least _ hlub.left hlub.right)

/-- The join of normal types does not depend on their order: both sides are least upper bounds. -/
theorem Normal.join_comm (ha : a.Normal) (hb : b.Normal) : a.join b = b.join a := by
  have hlub := hb.isLub_join ha
  exact ha.join_eq_of_isLub hb
    ⟨hlub.normal, hlub.right, hlub.left, fun c hleft hright => hlub.least c hright hleft⟩

/-- Nor does it depend on how three of them are grouped. -/
theorem Normal.join_assoc (ha : a.Normal) (hb : b.Normal) (hc : c.Normal) :
    a.join (b.join c) = (a.join b).join c := by
  have hab := ha.isLub_join hb
  have hbc := hb.isLub_join hc
  have habc := hab.normal.isLub_join hc
  refine ha.join_eq_of_isLub hbc.normal ⟨habc.normal, hab.left.trans habc.left, ?_, ?_⟩
  · exact hbc.least _ (hab.right.trans habc.left) habc.right
  · exact fun d hleft hright => habc.least d (hab.least d hleft (hbc.left.trans hright))
      (hbc.right.trans hright)

/-- Being a subtype is the precision order. -/
theorem Normal.isSubtype_iff (ha : a.Normal) (hb : b.Normal) :
    a.isSubtype b = true ↔ a.Le b := by
  rw [Ty.isSubtype, decide_eq_true_iff]
  constructor
  · intro heq
    exact heq ▸ (ha.isLub_join hb).left
  · intro hle
    exact ha.join_eq_of_isLub hb ⟨hb, hle, hb.le_refl, fun _ _ hright => hright⟩

/-- A union of normal types is normal. -/
theorem Normal.unionOf {ts : List Ty} (h : ∀ t ∈ ts, t.Normal) : (Ty.unionOf ts).Normal := by
  have hrun : ∀ acc : Ty, acc.Normal → (ts.foldl Ty.join acc).Normal := by
    induction ts with
    | nil => exact fun acc hacc => hacc
    | cons t ts ih =>
      intro acc hacc
      exact ih (fun u hmem => h u (List.mem_cons_of_mem t hmem)) _
        (hacc.join (h t List.mem_cons_self))
  exact hrun .never trivial

end Ty

/-! ### Types as they are built -/

/-- The types that the constructors of types, joins and unions build. -/
inductive Ty.Built : Ty → Prop
  | never : Built .never
  | any : Built .any
  | prim (p : Prim) : Built (.prim p)
  | signature {params : List Ty} {ret : Ty} :
    (∀ p ∈ params, Built p) → Built ret → Built (.signature params ret)
  | closure (id : ClosureId) (arity : Nat) : Built (.closure id arity)
  | record {entries : List (String × Ty)} :
    (∀ e ∈ entries, Built e.2) → Built (.record (OrdMap.ofList entries))
  | ofCell (id : CellId) : Built (.ofCell id)
  | ofInstance (id : CellId) (ctor : CtorId) : Built (.ofInstance id ctor)
  | prototypeOf (ctor : CtorId) : Built (.prototypeOf ctor)
  | join {a b : Ty} : Built a → Built b → Built (a.join b)
  | unionOf {ts : List Ty} : (∀ t ∈ ts, Built t) → Built (.unionOf ts)

/-- A signature of normal types is normal. -/
theorem Ty.normal_signature {params : List Ty} {ret : Ty} (hp : ∀ p ∈ params, p.Normal)
    (hr : ret.Normal) : (Ty.signature params ret).Normal := by
  rw [Ty.signature, Ty.Normal, FuncTy.normal_iff]
  exact ⟨hp, hr, List.Pairwise.nil⟩

theorem Ty.normal_closure (id : ClosureId) (arity : Nat) : (Ty.closure id arity).Normal := by
  rw [Ty.closure, Ty.Normal, FuncTy.normal_iff]
  refine ⟨fun p hmem => ?_, trivial, List.pairwise_singleton _ id⟩
  rw [List.eq_of_mem_replicate hmem]
  trivial

theorem Ty.normal_ofCell (id : CellId) : (Ty.ofCell id).Normal := by
  rw [Ty.ofCell, Ty.Normal, ObjTy.normal_iff]
  exact ⟨by simp, List.Pairwise.nil, List.pairwise_singleton _ id, List.Pairwise.nil,
    List.Pairwise.nil⟩

theorem Ty.normal_ofInstance (id : CellId) (ctor : CtorId) : (Ty.ofInstance id ctor).Normal := by
  rw [Ty.ofInstance, Ty.Normal, ObjTy.normal_iff]
  exact ⟨by simp, List.Pairwise.nil, List.pairwise_singleton _ id, List.pairwise_singleton _ ctor,
    List.Pairwise.nil⟩

theorem Ty.normal_prototypeOf (ctor : CtorId) : (Ty.prototypeOf ctor).Normal := by
  rw [Ty.prototypeOf, Ty.Normal, ObjTy.normal_iff]
  exact ⟨by simp, List.Pairwise.nil, List.Pairwise.nil, List.Pairwise.nil,
    List.pairwise_singleton _ ctor⟩

theorem OrdMap.mem_of_mem_ofList {entries : List (String × Ty)} {e : String × Ty}
    (h : e ∈ OrdMap.ofList entries) : e ∈ entries := by
  have hrun : ∀ m : OrdMap String Ty,
      e ∈ entries.foldl (fun acc f => OrdMap.insert acc f.1 f.2) m → e ∈ m ∨ e ∈ entries := by
    clear h
    induction entries with
    | nil => exact fun m hmem => Or.inl hmem
    | cons f rest ih =>
      intro m hmem
      rcases ih _ hmem with hmem | hmem
      · rcases OrdMap.mem_insert_of_mem hmem with rfl | hmem
        · exact Or.inr List.mem_cons_self
        · exact Or.inl hmem
      · exact Or.inr (List.mem_cons_of_mem f hmem)
  exact (hrun [] h).resolve_left List.not_mem_nil

/-- What the constructors of types, joins and unions build is in normal form. -/
theorem Ty.Built.normal {t : Ty} (h : t.Built) : t.Normal := by
  induction h with
  | never => trivial
  | any => trivial
  | prim p => trivial
  | signature _ _ hparams hret => exact Ty.normal_signature hparams hret
  | closure id arity => exact Ty.normal_closure id arity
  | record _ hfields =>
    rw [Ty.record, Ty.Normal, ObjTy.normal_iff]
    exact ⟨fun e hmem => hfields e (OrdMap.mem_of_mem_ofList hmem), OrdMap.ascending_ofList _,
      List.Pairwise.nil, List.Pairwise.nil, List.Pairwise.nil⟩
  | ofCell id => exact Ty.normal_ofCell id
  | ofInstance id ctor => exact Ty.normal_ofInstance id ctor
  | prototypeOf ctor => exact Ty.normal_prototypeOf ctor
  | join _ _ ha hb => exact ha.join hb
  | unionOf _ hall => exact Ty.Normal.unionOf hall

/-- **Types form a join semilattice.**  What the constructors and the joins build is in normal form.
On normal types the join is commutative, associative and idempotent, `never` is neutral and `any`
absorbs; being a subtype is a partial order, and the join is the least upper bound in it. -/
theorem Ty.join_semilattice :
    (∀ t : Ty, t.Built → t.Normal) ∧
      ∀ a b c : Ty, a.Normal → b.Normal → c.Normal →
        (a.join b = b.join a ∧ a.join (b.join c) = (a.join b).join c ∧ a.join a = a ∧
          Ty.never.join a = a ∧ a.join .any = .any) ∧
        (a.isSubtype a ∧ (a.isSubtype b → b.isSubtype a → a = b) ∧
          (a.isSubtype b → b.isSubtype c → a.isSubtype c)) ∧
        (a.join b).Normal ∧ a.isSubtype (a.join b) ∧ b.isSubtype (a.join b) ∧
          (a.isSubtype c → b.isSubtype c → (a.join b).isSubtype c) := by
  refine ⟨fun t hbuilt => hbuilt.normal, fun a b c ha hb hc => ?_⟩
  have hlub := ha.isLub_join hb
  rw [ha.isSubtype_iff ha, ha.isSubtype_iff hb, hb.isSubtype_iff ha, hb.isSubtype_iff hc,
    ha.isSubtype_iff hc, ha.isSubtype_iff hlub.normal, hb.isSubtype_iff hlub.normal,
    hlub.normal.isSubtype_iff hc]
  refine ⟨⟨ha.join_comm hb, ha.join_assoc hb hc, Ty.join_self a, Ty.never_join a, Ty.join_any a⟩,
    ⟨ha.le_refl, Ty.Le.antisymm ha hb, Ty.Le.trans⟩, hlub.normal, hlub.left, hlub.right,
    hlub.least c⟩

/-- A union with a function, a function of another arity, and an object. -/
theorem Ty.join_semilattice_clash :
    let a := Ty.union [.number, .func ⟨[.string], .never, [0, 2]⟩]
    let b := Ty.func ⟨[.string, .any], .record [("x", .null)], [1]⟩
    let c := Ty.obj ⟨[("x", .union [.string, .null])], [3], [0], []⟩
    (a.Normal ∧ b.Normal ∧ c.Normal) ∧ a.join b = .any ∧ a.join (b.join c) = (a.join b).join c ∧
      a.join c = c.join a ∧ a.isSubtype (a.join c) ∧ a.join c ≠ .any := by
  intro a b c
  have ha : a.Normal := by decide
  have hb : b.Normal := by decide
  have hc : c.Normal := by decide
  obtain ⟨⟨-, hassoc, -⟩, -, -⟩ := Ty.join_semilattice.2 a b c ha hb hc
  obtain ⟨⟨hcomm, -⟩, -, -, hleft, -⟩ := Ty.join_semilattice.2 a c b ha hc hb
  exact ⟨⟨ha, hb, hc⟩, by decide, hassoc, hcomm, hleft, by decide⟩

end TypeFlow
