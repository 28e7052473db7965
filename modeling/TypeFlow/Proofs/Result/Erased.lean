import Mathlib
import TypeFlow.Proofs.Engine.Hoisting
import TypeFlow.Proofs.Result.Bindings
import TypeFlow.Proofs.Result.Detached
import TypeFlow.Proofs.Result.Printed
import TypeFlow.Proofs.Types.Unions

/-!
# Declarations without `never`

Declarations print `any` for what never had a value.  Erasing `never` from a normal type gives a
normal supertype without it, and leaves a type without `never` as it is.  A union keeps its members:
each is erased on its own, and they do not fall together.

## Main Definitions

* `Ty.NeverFree` - there is no `never` in a type, at any depth
* `Erased` - what is true of a type from which `never` was erased
* `Declaration.NeverFree` - a declaration prints no `never`

## Main Statements

* `Ty.Normal.eraseNever_union` - erasing `never` from a union erases it from the members
* `Ty.Normal.erased` - what is true of every erased type
* `declarations_are_neverFree` - declarations print no `never`
-/

namespace TypeFlow

/-! ### Types without `never` -/

/-- There is no `never` in the type, at any depth. -/
def Ty.NeverFree (t : Ty) : Prop :=
  .never ∉ t.inside

instance (t : Ty) : Decidable t.NeverFree :=
  inferInstanceAs (Decidable (.never ∉ t.inside))

/-- A type is free of `never` when it is not `never` itself and its children are free of it. -/
theorem Ty.neverFree_iff (t : Ty) : t.NeverFree ↔ t ≠ .never ∧ ∀ c ∈ t.children, c.NeverFree := by
  rw [NeverFree, t.mem_inside, not_or, eq_comm]
  simp [NeverFree]

/-- What is true of a type from which `never` was erased. -/
structure Erased (t r : Ty) : Prop where
  normal : r.Normal
  clean : r.NeverFree
  above : t.Le r
  same : t.NeverFree → r = t

/-- The function without `never`. -/
def FuncTy.eraseNever (f : FuncTy) : FuncTy :=
  ⟨f.params.map Ty.eraseNever, f.ret.eraseNever, f.closures⟩

/-- The object without `never`. -/
def ObjTy.eraseNever (o : ObjTy) : ObjTy :=
  { o with fields := o.fields.map fun e => (e.1, e.2.eraseNever) }

/-- The parts without `never`. -/
def Parts.eraseNever (p : Parts) : Parts :=
  ⟨p.prims, p.func?.map FuncTy.eraseNever, p.obj?.map ObjTy.eraseNever⟩

theorem Ty.eraseAll_eq (ts : List Ty) : Ty.eraseAll ts = ts.map Ty.eraseNever := by
  induction ts with
  | nil => rfl
  | cons t ts ih => rw [Ty.eraseAll, ih, List.map_cons]

theorem Ty.eraseFields_eq (fs : List (String × Ty)) :
    Ty.eraseFields fs = fs.map fun e => (e.1, e.2.eraseNever) := by
  induction fs with
  | nil => rfl
  | cons e fs ih => rw [Ty.eraseFields, ih, List.map_cons]

theorem Ty.eraseNever_func (f : FuncTy) : (Ty.func f).eraseNever = .func f.eraseNever := by
  cases f
  rw [Ty.eraseNever, Ty.eraseAll_eq, FuncTy.eraseNever]

theorem Ty.eraseNever_obj (o : ObjTy) : (Ty.obj o).eraseNever = .obj o.eraseNever := by
  cases o
  rw [Ty.eraseNever, Ty.eraseFields_eq, ObjTy.eraseNever]

/-- Erasing `never` from parts erases it from the members. -/
theorem Parts.members_eraseNever (p : Parts) :
    p.eraseNever.members = p.members.map Ty.eraseNever := by
  have hprim (q : Prim) : (Ty.prim q).eraseNever = .prim q := rfl
  obtain ⟨prims, func?, obj?⟩ := p
  cases func? <;> cases obj? <;>
    simp [Parts.members, Parts.eraseNever, Ty.eraseNever_func, Ty.eraseNever_obj, hprim,
      Function.comp_def]

/-- Erased parts are normal when their members are. -/
theorem Parts.normal_eraseNever {p : Parts} (hascends : OrdSet.Ascending p.prims)
    (hmembers : ∀ m ∈ p.members, m.eraseNever.Normal) : p.eraseNever.Normal where
  prims := hascends
  func g heq := by
    obtain ⟨f, hfunc, rfl⟩ := Option.map_eq_some_iff.mp heq
    have hnormal := hmembers (.func f) (by simp [Parts.members, hfunc])
    rwa [Ty.eraseNever_func, Ty.Normal] at hnormal
  obj q heq := by
    obtain ⟨o, hobj, rfl⟩ := Option.map_eq_some_iff.mp heq
    have hnormal := hmembers (.obj o) (by simp [Parts.members, hobj])
    rwa [Ty.eraseNever_obj, Ty.Normal] at hnormal

theorem Ty.ofMembers_of_two_le {ms : List Ty} (hle : 2 ≤ ms.length) :
    Ty.ofMembers ms = .union ms := by
  cases ms with
  | nil => simp at hle
  | cons m ms =>
    cases ms with
    | nil => simp at hle
    | cons n ms => rfl

/-- Erasing `never` from a normal union erases it from the members: these are of the same kinds as
before, so that joining them changes nothing. -/
theorem Ty.Normal.eraseNever_union {ms : List Ty} (hnormal : (Ty.union ms).Normal)
    (hmembers : ∀ m ∈ ms, m.eraseNever.Normal) :
    (Ty.union ms).eraseNever = .union (ms.map Ty.eraseNever) ∧
      (Ty.union (ms.map Ty.eraseNever)).Normal := by
  obtain ⟨hle, hwhole, hascends, -⟩ := (Ty.normal_union_iff ms).mp hnormal
  have hparts : (Ty.union ms).parts.eraseNever.Normal :=
    Parts.normal_eraseNever hascends (by rwa [hwhole])
  have hbuilt := hparts.ofMembers
  rw [Parts.members_eraseNever, hwhole, Ty.ofMembers_of_two_le (by simpa using hle)] at hbuilt
  rw [Ty.eraseNever, Ty.eraseAll_eq]
  exact ⟨hbuilt.unionOf_members, hbuilt⟩

/-! ### What erasing `never` gives -/

theorem Ty.func_le {f g : FuncTy} (h : f.Le g) : (Ty.func f).Le (.func g) := by
  refine Ty.le_of_parts (by simp) ⟨fun q hmem => ?_, fun f' heq => ?_, fun o heq => ?_⟩
  · cases hmem
  · cases heq
    exact ⟨g, rfl, h⟩
  · cases heq

theorem Ty.obj_le {o p : ObjTy} (h : o.Le p) : (Ty.obj o).Le (.obj p) := by
  refine Ty.le_of_parts (by simp) ⟨fun q hmem => ?_, fun f heq => ?_, fun o' heq => ?_⟩
  · cases hmem
  · cases heq
  · cases heq
    exact ⟨p, rfl, h⟩

/-- A list of types without `never` is left alone. -/
theorem Ty.map_eraseNever_eq {ts : List Ty} (h : ∀ t ∈ ts, t.eraseNever = t) :
    ts.map Ty.eraseNever = ts :=
  (List.map_congr_left h).trans (List.map_id' ts)

/-- `never` is erased to `any`. -/
theorem Erased.never : Erased .never Ty.never.eraseNever where
  normal := trivial
  clean := by decide
  above := Ty.never_le _
  same hfree := absurd (List.mem_singleton_self Ty.never) hfree

/-- `any` is left alone. -/
theorem Erased.any : Erased .any Ty.any.eraseNever where
  normal := trivial
  clean := by decide
  above := Ty.le_any _
  same _ := rfl

/-- Primitive types are left alone. -/
theorem Erased.prim (p : Prim) : Erased (.prim p) (Ty.prim p).eraseNever where
  normal := trivial
  clean := by simp [Ty.NeverFree, Ty.eraseNever, Ty.inside]
  above := Ty.Normal.le_refl trivial
  same _ := rfl

/-- A function is erased in its parameters and its result. -/
theorem Erased.func {f : FuncTy} (hnormal : f.Normal)
    (hparams : ∀ p ∈ f.params, Erased p p.eraseNever) (hret : Erased f.ret f.ret.eraseNever) :
    Erased (.func f) (Ty.func f).eraseNever := by
  rw [Ty.eraseNever_func]
  refine ⟨?_, ?_, ?_, fun hfree => ?_⟩
  · rw [Ty.Normal, FuncTy.normal_iff]
    refine ⟨List.forall_mem_map.mpr fun p hmem => (hparams p hmem).normal, hret.normal, ?_⟩
    exact ((FuncTy.normal_iff f).mp hnormal).2.2
  · refine (Ty.neverFree_iff _).mpr ⟨by simp, List.forall_mem_append.mpr ⟨?_, ?_⟩⟩
    · exact List.forall_mem_map.mpr fun p hmem => (hparams p hmem).clean
    · exact List.forall_mem_singleton.mpr hret.clean
  · refine Ty.func_le ⟨by simp [FuncTy.eraseNever], fun i x y hget hget' => ?_, hret.above,
      List.Subset.refl _⟩
    simp only [FuncTy.eraseNever, List.getElem?_map, hget, Option.map_some,
      Option.some.injEq] at hget'
    exact hget' ▸ (hparams x (List.mem_of_getElem? hget)).above
  · obtain ⟨-, hparts⟩ := (Ty.neverFree_iff _).mp hfree
    obtain ⟨hfreeParams, hfreeRet⟩ := List.forall_mem_append.mp hparts
    have hsameParams : f.params.map Ty.eraseNever = f.params :=
      Ty.map_eraseNever_eq fun p hmem => (hparams p hmem).same (hfreeParams p hmem)
    have hsameRet : f.ret.eraseNever = f.ret :=
      hret.same (hfreeRet f.ret (List.mem_singleton_self _))
    cases f
    rw [FuncTy.eraseNever, hsameParams, hsameRet]

/-- An object is erased in its fields. -/
theorem Erased.obj {o : ObjTy} (hnormal : o.Normal)
    (hfields : ∀ e ∈ o.fields, Erased e.2 e.2.eraseNever) :
    Erased (.obj o) (Ty.obj o).eraseNever := by
  obtain ⟨-, hascends, hhandles⟩ := (ObjTy.normal_iff o).mp hnormal
  have hascends' : OrdMap.Ascending o.eraseNever.fields := List.pairwise_map.mpr hascends
  rw [Ty.eraseNever_obj]
  refine ⟨?_, ?_, ?_, fun hfree => ?_⟩
  · rw [Ty.Normal, ObjTy.normal_iff]
    exact ⟨List.forall_mem_map.mpr fun e hmem => (hfields e hmem).normal, hascends', hhandles⟩
  · refine (Ty.neverFree_iff _).mpr ⟨by simp, List.forall_mem_map.mpr ?_⟩
    exact List.forall_mem_map.mpr fun e hmem => (hfields e hmem).clean
  · refine Ty.obj_le ⟨fun e hmem => ⟨e.2.eraseNever, ?_, (hfields e hmem).above⟩,
      List.Subset.refl _, List.Subset.refl _, List.Subset.refl _⟩
    exact hascends'.get?_of_mem (List.mem_map_of_mem hmem)
  · obtain ⟨-, hparts⟩ := (Ty.neverFree_iff _).mp hfree
    have hsame : o.fields.map (fun e => (e.1, e.2.eraseNever)) = o.fields := by
      refine (List.map_congr_left fun e hmem => ?_).trans (List.map_id' _)
      rw [(hfields e hmem).same (hparts e.2 (List.mem_map_of_mem hmem))]
    cases o
    rw [ObjTy.eraseNever, hsame]

/-- A union is erased in its members. -/
theorem Erased.union {ms : List Ty} (hnormal : (Ty.union ms).Normal)
    (hmembers : ∀ m ∈ ms, Erased m m.eraseNever) :
    Erased (.union ms) (Ty.union ms).eraseNever := by
  obtain ⟨heq, hbuilt⟩ := hnormal.eraseNever_union fun m hmem => (hmembers m hmem).normal
  rw [heq]
  refine ⟨hbuilt, ?_, ?_, fun hfree => ?_⟩
  · refine (Ty.neverFree_iff _).mpr ⟨by simp, List.forall_mem_map.mpr fun m hmem => ?_⟩
    exact (hmembers m hmem).clean
  · exact Ty.union_le fun m hmem =>
      (hmembers m hmem).above.trans (hbuilt.member_le (List.mem_map_of_mem hmem))
  · obtain ⟨-, hparts⟩ := (Ty.neverFree_iff _).mp hfree
    rw [Ty.map_eraseNever_eq fun m hmem => (hmembers m hmem).same (hparts m hmem)]

/-- What is true of every normal type from which `never` is erased. -/
theorem Ty.Normal.erased {t : Ty} (hnormal : t.Normal) : Erased t t.eraseNever := by
  induction t using Ty.childInduction with
  | step t ih =>
  have hparts : ∀ c ∈ t.children, Erased c c.eraseNever :=
    fun c hmem => ih c hmem (hnormal.child hmem)
  cases t with
  | never => exact Erased.never
  | any => exact Erased.any
  | prim p => exact Erased.prim p
  | func f =>
    obtain ⟨hparams, hret⟩ := List.forall_mem_append.mp hparts
    rw [Ty.Normal] at hnormal
    exact Erased.func hnormal hparams (hret f.ret (List.mem_singleton_self _))
  | obj o =>
    rw [Ty.Normal] at hnormal
    exact Erased.obj hnormal (List.forall_mem_map.mp hparts)
  | union ms => exact Erased.union hnormal hparts

/-! ### Declarations -/

/-- The declaration prints no `never`. -/
def Declaration.NeverFree (d : Declaration) : Prop :=
  ∀ t ∈ d.types, t.NeverFree

/-- There is no `never` in the parts of a type without it. -/
theorem Ty.NeverFree.inside {t u : Ty} (hfree : t.NeverFree) (hmem : u ∈ t.inside) :
    u.NeverFree := by
  induction t using Ty.childInduction with
  | step t ih =>
    rcases Ty.mem_inside.mp hmem with rfl | ⟨c, hpart, hmem⟩
    · exact hfree
    · exact ih c hpart (((Ty.neverFree_iff t).mp hfree).2 c hpart) hmem

/-- In the text of a declaration that prints no `never` there is no type with `never` in it. -/
theorem Declaration.NeverFree.printed {d : Declaration} (hfree : d.NeverFree) {t : Ty}
    (hprinted : .inr t ∈ d.parts) : t.NeverFree := by
  obtain ⟨u, hlisted, hmem⟩ := Declaration.inside_types hprinted
  exact (hfree u hlisted).inside hmem

/-- The parameters and the result of a function without `never` have none. -/
theorem Ty.NeverFree.func {t : Ty} (hfree : t.NeverFree) {f : FuncTy} (hfunc : t.func? = some f) :
    ∀ u ∈ f.params ++ [f.ret], u.NeverFree := by
  cases t <;> cases hfunc
  exact ((Ty.neverFree_iff _).mp hfree).2

/-- Erased fields have no `never`. -/
theorem neverFree_eraseFields {fs : Fields} (hnormal : ∀ t ∈ fs.types, t.Normal) :
    ∀ t ∈ Fields.types (Ty.eraseFields fs), t.NeverFree := by
  intro t hmem
  rw [Ty.eraseFields_eq] at hmem
  obtain ⟨x, hinside, rfl⟩ := List.mem_map.mp hmem
  obtain ⟨e, hmem', rfl⟩ := List.mem_map.mp hinside
  exact (hnormal e.2 (List.mem_map_of_mem hmem')).erased.clean

/-- A variable is declared without `never` when its type has none. -/
theorem TypeMap.neverFree_declaredType (m : TypeMap) (name : String) {t : Ty}
    (hfree : t.NeverFree) : (Declaration.varDecl name (m.declaredType t)).NeverFree := by
  rw [TypeMap.declaredType.eq_def]
  split
  · split
    · simp [Declaration.NeverFree, Declaration.types]
    · exact List.forall_mem_singleton.mpr hfree
  · exact List.forall_mem_singleton.mpr hfree

/-- A class is declared without `never`. -/
theorem TypeMap.neverFree_classDecl (m : TypeMap) {g : GlobalInfo} {c : CtorInfo}
    (hglobal : g.ty.Normal) (hfields : ∀ t ∈ c.fields.types, t.Normal)
    (hmethods : ∀ t ∈ c.methods.types, t.Normal) :
    (Declaration.classDecl (m.classDecl g c)).NeverFree := by
  refine List.forall_mem_append.mpr ⟨List.forall_mem_append.mpr ⟨?_, ?_⟩, ?_⟩
  · intro p hmem
    change p ∈ (g.ty.eraseNever.func?.map (·.params)).getD [] at hmem
    cases hfunc : g.ty.eraseNever.func? with
    | none => simp [hfunc] at hmem
    | some f =>
      simp only [hfunc, Option.map_some, Option.getD_some] at hmem
      exact hglobal.erased.clean.func hfunc p (List.mem_append_left _ hmem)
  · refine neverFree_eraseFields fun t hmem => hfields t ?_
    exact (List.filter_sublist.map _).subset hmem
  · exact neverFree_eraseFields hmethods

/-- Where all types of a result are normal, its declarations print no `never`. -/
theorem TypeMap.neverFree_declaration {m : TypeMap} (hnormal : ∀ t ∈ m.types, t.Normal)
    {g : GlobalInfo} (hlisted : g ∈ m.globals) : (m.declaration g).NeverFree := by
  have hglobal : g.ty.Normal := hnormal g.ty (by
    simp only [TypeMap.types, List.mem_append, List.mem_map]
    exact Or.inr ⟨g, hlisted, rfl⟩)
  rw [TypeMap.declaration]
  split
  · next c hfound =>
    obtain ⟨id, -, hat⟩ := Option.bind_eq_some_iff.mp hfound
    have hentry : c ∈ m.ctors.toList := Array.mem_toList_iff.mpr (Array.mem_of_getElem? hat)
    have hstored : ∀ t ∈ c.methods.types ++ c.fields.types, t.Normal := by
      intro t hmem
      refine hnormal t ?_
      simp only [TypeMap.types, List.mem_append, List.mem_flatMap]
      exact Or.inl (Or.inr ⟨c, hentry, List.mem_append.mp hmem⟩)
    obtain ⟨hmethods, hfields⟩ := List.forall_mem_append.mp hstored
    exact m.neverFree_classDecl hglobal hfields hmethods
  · split
    · next f _ hfunc _ => exact hglobal.erased.clean.func hfunc
    · exact m.neverFree_declaredType g.name hglobal.erased.clean

/-- From normal globals without handles, a run ends, and all types in its result are normal. -/
theorem analysePrograms_normal (order : NodeOrder) (options : Options) {globals : Globals}
    (ps : List Program) (hplain : ∀ g ∈ globals, g.2.handles = [])
    (hnormal : ∀ g ∈ globals, g.2.Normal) :
    ∃ m t, analysePrograms order ps (Run.start options globals) = .ok m t ∧
      ∀ a ∈ m.types, a.Normal := by
  have hvalid := (validHandles_inv_iff _).mpr (start_valid options hplain)
  have hnormals := normalTypes_inv (start_types options builtins_normal hnormal)
  have hvalidity : validHandles.Does none _ (inferPrograms ps) fun _ _ => True :=
    Discipline.Does.inferPrograms trivial hvalid fun _ _ _ _ => trivial
  have hnormality : normalTypes.Does none _ (inferPrograms ps) fun _ _ => True :=
    Discipline.Does.inferPrograms trivial hnormals fun _ _ _ _ => trivial
  obtain ⟨m, t, hended, hdetached⟩ := finish_detached order
    ((validHandles_inv_iff _).mp (hvalidity _ rfl).after.1) (hnormality _ rfl).after.1.good
  obtain ⟨m', t', hran, -⟩ := analysePrograms_ok order options ps hplain
  refine ⟨m', t', hran, ?_⟩
  change EStateM.bind (inferPrograms ps) (fun _ => finish order) _ = _ at hran
  rw [EStateM.bind] at hran
  rw [after] at hended
  cases hinferred : inferPrograms ps (Run.start options globals) with
  | error e s =>
    rw [hinferred] at hran
    cases hran
  | ok u s =>
    rw [hinferred] at hran hended
    cases hended.symm.trans hran
    exact fun a hmem => (hdetached a hmem).1

/-- **Declarations print no `never`.**  Erasing `never` from a normal type gives a normal supertype
in which there is no `never`, at any depth; where there was none the type stays as it is.  So the
declarations of a result whose types are normal print no type with `never` in it, and every run
from normal globals without handles ends with such a result: its declaration file is put together
from words and types without `never`. -/
theorem declarations_are_neverFree :
    (∀ t : Ty, t.Normal →
      t.eraseNever.Normal ∧ t.eraseNever.NeverFree ∧ t.isSubtype t.eraseNever = true ∧
        (t.NeverFree → t.eraseNever = t) ∧ t.eraseNever.eraseNever = t.eraseNever) ∧
    (∀ m : TypeMap, (∀ t ∈ m.types, t.Normal) → ∀ g ∈ m.globals, (m.declaration g).NeverFree) ∧
    ∀ (options : Options) (globals : Globals), (∀ g ∈ globals, g.2.handles = []) →
      (∀ g ∈ globals, g.2.Normal) → ∀ ps order,
        ∃ m t, analysePrograms order ps (Run.start options globals) = .ok m t ∧
          (∀ a ∈ m.types, a.Normal) ∧ (∀ g ∈ m.globals, (m.declaration g).NeverFree) ∧
          m.declarations = textOf m.parts ∧ ∀ a, .inr a ∈ m.parts → a.NeverFree := by
  refine ⟨fun t hnormal => ?_, fun m hnormal g hlisted => m.neverFree_declaration hnormal hlisted,
    fun options globals hplain hnormal ps order => ?_⟩
  · have herased := hnormal.erased
    refine ⟨herased.normal, herased.clean, ?_, herased.same, ?_⟩
    · exact (hnormal.isSubtype_iff herased.normal).mpr herased.above
    · exact herased.normal.erased.same herased.clean
  · obtain ⟨m, t, hran, htypes⟩ := analysePrograms_normal order options ps hplain hnormal
    have hfree (g : GlobalInfo) (hlisted : g ∈ m.globals) : (m.declaration g).NeverFree :=
      TypeMap.neverFree_declaration htypes hlisted
    refine ⟨m, t, hran, htypes, hfree, m.declarations_eq_parts, fun a hprinted => ?_⟩
    obtain ⟨g, hlisted, hprinted⟩ := List.mem_flatMap.mp hprinted
    exact (hfree g hlisted).printed hprinted

/-- `function f() { return f() }`. -/
def endlessCall : Program :=
  [⟨0, ⟨0, 0⟩, .function ⟨1, ⟨0, 0⟩, some "f", [],
    [⟨2, ⟨0, 0⟩, .ret (some ⟨3, ⟨0, 0⟩, .call (some ⟨4, ⟨0, 0⟩, .ident "f"⟩) []⟩)⟩]⟩⟩]

/-- A union in which a parameter and a field never had a value, and the declaration of a function
that never returns. -/
theorem declarations_are_neverFree_endlessCall :
    let t := Ty.union [.string, .func ⟨[.never], .null, []⟩, .obj ⟨[("next", .never)], [], [], []⟩]
    t.Normal ∧ t.eraseNever.Normal ∧
      t.eraseNever = .union [.string, .func ⟨[.any], .null, []⟩,
        .obj ⟨[("next", .any)], [], [], []⟩] ∧
      ∃ m t, analysePrograms .ascending [endlessCall] (Run.start .standard []) = .ok m t ∧
        m.globals.map (fun g => (g.ty.func?.map (·.ret), (m.declaration g).types)) =
          [(some .never, [.any])] ∧
        (∀ g ∈ m.globals, (m.declaration g).NeverFree) ∧
        ∀ a, .inr a ∈ m.parts → a.NeverFree := by
  obtain ⟨herased, -, hruns⟩ := declarations_are_neverFree
  have hnormal : (Ty.union [.string, .func ⟨[.never], .null, []⟩,
      .obj ⟨[("next", .never)], [], [], []⟩]).Normal := by decide
  refine ⟨hnormal, (herased _ hnormal).1, by decide, ?_⟩
  obtain ⟨m, t, hran, -, hclean, -, hprinted⟩ :=
    hruns .standard [] (by simp) (by simp) [endlessCall] .ascending
  have hshown : ((analysePrograms .ascending [endlessCall]).answer? (Run.start .standard [])).map
      (fun m => m.globals.map fun g => (g.ty.func?.map (·.ret), (m.declaration g).types)) =
        some [(some .never, [.any])] := by
    decide +kernel
  rw [Walk.answer?, hran] at hshown
  exact ⟨m, t, hran, Option.some.inj hshown, hclean, hprinted⟩

end TypeFlow
