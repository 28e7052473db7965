import Mathlib
import TypeFlow.Proofs.Result.Resolution
import TypeFlow.Proofs.Types.Inside

/-!
# One level of resolution

A type is resolved by resolving its parts and what is stored under its handles, and by putting the
answers together.  What can be proved about resolution is proved about one such level: the memory of
earlier answers, the path and the depth are kept out of it.

## Main Definitions

* `expand` - puts a type together from its parts and from what is stored under its handles
* `Expands` - the answers for a type in terms of answers for its parts and for stored types
* `Resolve.Logic` - rules for pairs of computations that resolve types
* `Path.left` - how many handles are not on a path

## Main Statements

* `resolveWith_eq` - a type is remembered, cut or expanded
* `Resolve.Logic.expand` - what an expansion answers, in every logic
* `resolveAt_stable`, `resolveOn_eq` - the depth of a resolution is never reached
* `resolveOn_unique` - resolution is the only solution of its recursion
* `resolve_induction` - induction over the resolution of a type

## Design Notes

An answer is compared with a second one throughout.  A property of single answers is a comparison of
an answer with itself.
-/

namespace TypeFlow

open Resolve

/-! ### Parts, handles and paths -/

/-- Whether the type is a function, an object or a union. -/
def Ty.isCompound : Ty → Bool
  | .func _ => true
  | .obj _ => true
  | .union _ => true
  | _ => false

/-- A part of a type has no handles but those of the type. -/
theorem Ty.handles_child {t c : Ty} (hmem : c ∈ t.children) : c.handles ⊆ t.handles := by
  intro d hinside
  cases t with
  | func f =>
    rw [Ty.handles, FuncTy.mem_handles]
    rcases List.mem_append.mp hmem with hparam | hret
    · exact .inr (.inl ⟨c, hparam, hinside⟩)
    · cases List.mem_singleton.mp hret
      exact .inr (.inr hinside)
  | obj o =>
    obtain ⟨e, hfield, rfl⟩ := List.mem_map.mp hmem
    rw [Ty.handles, ObjTy.mem_handles]
    exact .inr ⟨e, hfield, hinside⟩
  | union ms =>
    rw [Ty.handles]
    exact Ty.mem_handlesAll.mpr ⟨c, hmem, hinside⟩
  | _ => cases hmem

/-- The fields of a cell. -/
def Run.cellFields (s : Run) (id : CellId) : Except Dangling Fields :=
  (s.heap.cell id).map (·.fields)

/-- The types that are stored under the handles of a type, as far as they are resolved with it. -/
inductive Run.Under (s : Run) : Ty → Ty → Prop
  | ret {f : FuncTy} {id : ClosureId} {c : Closure} :
    id ∈ f.closures → s.closures.table[id]? = some c → c.selfReferential = false →
      Under s (.func f) c.ret
  | param {f : FuncTy} {id : ClosureId} {c : Closure} {p : Ty} :
    id ∈ f.closures → s.closures.table[id]? = some c → p ∈ c.params → Under s (.func f) p
  | field {o : ObjTy} {id : CellId} {fs : Fields} {e : String × Ty} :
    id ∈ o.cells → s.cellFields id = .ok fs → e ∈ fs → Under s (.obj o) e.2
  | shown {o : ObjTy} {id : CtorId} {fs : Fields} {e : String × Ty} :
    id ∈ o.protoOf → s.protos.prototypeMembers id = .ok fs → e ∈ fs → Under s (.obj o) e.2

/-- A type that is met when another one is resolved: one of its parts, or stored under one of its
handles. -/
def Run.Meets (s : Run) (t c : Ty) : Prop :=
  c ∈ t.children ∨ s.Under t c

/-- The fields of a cell are those of its entry in the heap. -/
theorem Run.cellFields_eq_ok {s : Run} {id : CellId} {fs : Fields}
    (heq : s.cellFields id = .ok fs) : ∃ c, s.heap.cells[id]? = some c ∧ fs = c.fields := by
  unfold Run.cellFields at heq
  cases hfound : s.heap.cell id with
  | error d =>
    rw [hfound] at heq
    cases heq
  | ok c =>
    rw [hfound] at heq
    cases heq
    exact ⟨c, Heap.cell_eq_ok hfound, rfl⟩

/-- Only the prototype object of a constructor with an entry shows something. -/
theorem Protos.prototypeMembers_inside {g : Protos} {id : CtorId} {fs : Fields}
    (heq : g.prototypeMembers id = .ok fs) : id < g.ctors.size := by
  unfold Protos.prototypeMembers at heq
  rw [Protos.collect_eq] at heq
  split at heq
  · cases heq
  · next c hfound => exact (Array.getElem?_eq_some_iff.mp (Protos.ctor_eq_ok hfound)).1

/-- What is stored under a handle is one of the types of the state. -/
theorem Run.Under.stored {s : Run} {t c : Ty} (hunder : s.Under t c) : c ∈ s.types := by
  cases hunder with
  | ret hmem hfound _ => exact s.closure_types (Entry.types_subset hfound List.mem_cons_self)
  | param hmem hfound hinside =>
    exact s.closure_types (Entry.types_subset hfound (List.mem_cons_of_mem _ hinside))
  | field hmem heq hinside =>
    obtain ⟨c, hfound, rfl⟩ := Run.cellFields_eq_ok heq
    exact s.cell_types (Entry.types_subset hfound (Fields.mem_types hinside))
  | shown hmem heq hinside =>
    exact s.ctor_types (Protos.prototypeMembers_mem heq (Fields.mem_types hinside))

/-- Types are met inside compound types only. -/
theorem Run.Meets.compound {s : Run} {t c : Ty} (hmeets : s.Meets t c) : t.isCompound = true := by
  rcases hmeets with hpart | hunder
  · cases t with
    | func f => rfl
    | obj o => rfl
    | union ms => rfl
    | _ => cases hpart
  · cases hunder <;> rfl

namespace Path

/-- Whether a handle of the type itself is on the path. -/
def blocks (path : Path) : Ty → Bool
  | .func f => f.closures.any path.closures.contains
  | .obj o => o.cells.any path.cells.contains || o.protoOf.any path.protos.contains
  | _ => false

/-- The path to what is stored under the handles of a type. -/
def behind (path : Path) : Ty → Path
  | .func f => { path with closures := f.closures ++ path.closures }
  | .obj o => { path with cells := o.cells ++ path.cells, protos := o.protoOf ++ path.protos }
  | _ => path

/-- The path to the parts of a type. -/
def into (path : Path) : Ty → Path
  | .obj o => path.behind (.obj o)
  | _ => path

end Path

/-! ### Expansion -/

/-- Joins the answers for the members of a union to a type. -/
def joinMembers (part : Ty → Resolve Ty) (acc : Ty) : List Ty → Resolve Ty
  | [] => return acc
  | t :: ts => do
    let r ← part t
    joinMembers part (acc.join r) ts

/-- Puts a type together from its parts, resolved by `part`, and from what is stored under its
handles, resolved by `stored`. -/
def expand (s : Run) (part stored : Path → Ty → Resolve Ty) (path : Path) : Ty → Resolve Ty
  | .func f => do
    let ps ← enterAll (part path) f.params
    let r ← part path f.ret
    joinSignatures s (stored (path.behind (.func f))) (.signature ps r) f.closures
  | .obj o => do
    let own ← enterFields (part (path.behind (.obj o))) o.fields
    let withCells ← joinCells s (stored (path.behind (.obj o))) own o.cells
    let shown ← joinProtos s (stored (path.behind (.obj o))) withCells o.protoOf
    return .obj ⟨shown, [], o.ctors, []⟩
  | .union ms => joinMembers (part path) .never ms
  | t => return t

/-- Answers a type: one that is no compound is itself, any other is looked up in what was resolved
before, cut when one of its handles is on the path, and expanded otherwise. -/
def answerBy (s : Run) (part stored : Path → Ty → Resolve Ty) (path : Path) (t : Ty) : Resolve Ty :=
  if t.isCompound then
    remembered t (if path.blocks t then cut else expand s part stored path t)
  else
    return t

/-- A list of types is resolved one type after the other. -/
theorem resolveAll_eq (s : Run) (enter : Path → Ty → Resolve Ty) (path : Path) (ts : List Ty) :
    resolveAll s enter path ts = enterAll (resolveWith s enter path) ts := by
  induction ts with
  | nil => rfl
  | cons t ts ih => rw [resolveAll, enterAll, ih]

/-- Fields are resolved one after the other, and keep their names. -/
theorem resolveFields_eq (s : Run) (enter : Path → Ty → Resolve Ty) (path : Path)
    (fs : List (String × Ty)) :
    resolveFields s enter path fs = enterFields (resolveWith s enter path) fs := by
  induction fs with
  | nil => rfl
  | cons e fs ih => rw [resolveFields, enterFields, ih]

/-- The members of a union are resolved one after the other and joined. -/
theorem resolveMembers_eq (s : Run) (enter : Path → Ty → Resolve Ty) (path : Path) (acc : Ty)
    (ts : List Ty) :
    resolveMembers s enter path acc ts = joinMembers (resolveWith s enter path) acc ts := by
  induction ts generalizing acc with
  | nil => rfl
  | cons t ts ih =>
    rw [resolveMembers, joinMembers]
    exact bind_congr fun r => ih _

/-- Resolving a type answers it, its parts being resolved in the same way. -/
theorem resolveWith_eq (s : Run) (enter : Path → Ty → Resolve Ty) (path : Path) (t : Ty) :
    resolveWith s enter path t = answerBy s (resolveWith s enter) enter path t := by
  cases t with
  | never => rfl
  | any => rfl
  | prim p => rfl
  | func f =>
    cases f
    rw [resolveWith, resolveAll_eq]
    rfl
  | obj o =>
    cases o
    rw [resolveWith]
    dsimp only
    rw [resolveFields_eq]
    rfl
  | union ms =>
    rw [resolveWith, resolveMembers_eq]
    rfl

/-! ### Answers for one level -/

section Answers

variable (A : Ty → Ty → Ty → Prop)

/-- Two answers for each type of a list. -/
inductive EachTy : List Ty → List Ty → List Ty → Prop
  | nil : EachTy [] [] []
  | cons {t r r' : Ty} {ts rs rs' : List Ty} :
    A t r r' → EachTy ts rs rs' → EachTy (t :: ts) (r :: rs) (r' :: rs')

/-- Two answers for each field. -/
inductive EachField : Fields → Fields → Fields → Prop
  | nil : EachField [] [] []
  | cons {name : String} {t r r' : Ty} {fs gs gs' : Fields} :
    A t r r' → EachField fs gs gs' →
      EachField ((name, t) :: fs) ((name, r) :: gs) ((name, r') :: gs')

/-- Two answers for the declared result of a closure. -/
def Declares (c : Closure) (r r' : Ty) : Prop :=
  if c.selfReferential then r = .any ∧ r' = .any else A c.ret r r'

/-- The declared signatures of closures, joined to two types. -/
inductive JoinsSignatures (cs : Closures) : List ClosureId → Ty × Ty → Ty × Ty → Prop
  | nil {acc : Ty × Ty} : JoinsSignatures cs [] acc acc
  | cons {id : ClosureId} {ids : List ClosureId} {c : Closure} {r r' : Ty} {ps ps' : List Ty}
    {acc out : Ty × Ty} :
    cs.table[id]? = some c → Declares A c r r' → EachTy A c.params ps ps' →
      JoinsSignatures cs ids (acc.1.join (.signature ps r), acc.2.join (.signature ps' r')) out →
        JoinsSignatures cs (id :: ids) acc out

/-- The fields that are shown under handles, merged into two maps. -/
inductive MergesFields (shown : Nat → Except Dangling Fields) :
    List Nat → Fields × Fields → Fields × Fields → Prop
  | nil {acc : Fields × Fields} : MergesFields shown [] acc acc
  | cons {id : Nat} {ids : List Nat} {fs gs gs' : Fields} {acc out : Fields × Fields} :
    shown id = .ok fs → EachField A fs gs gs' →
      MergesFields shown ids (Fields.merge acc.1 gs, Fields.merge acc.2 gs') out →
        MergesFields shown (id :: ids) acc out

/-- The answers for the members of a union, joined to two types. -/
inductive JoinsMembers : List Ty → Ty × Ty → Ty × Ty → Prop
  | nil {acc : Ty × Ty} : JoinsMembers [] acc acc
  | cons {t r r' : Ty} {ts : List Ty} {acc out : Ty × Ty} :
    A t r r' → JoinsMembers ts (acc.1.join r, acc.2.join r') out → JoinsMembers (t :: ts) acc out

/-- Two answers for a type, given those for its parts and for what is stored under its handles. -/
inductive Expands (s : Run) : Ty → Ty → Ty → Prop
  | atom {t : Ty} : t.isCompound = false → Expands s t t t
  | func {f : FuncTy} {ps ps' : List Ty} {r r' : Ty} {out : Ty × Ty} :
    EachTy A f.params ps ps' → A f.ret r r' →
      JoinsSignatures A s.closures f.closures (.signature ps r, .signature ps' r') out →
        Expands s (.func f) out.1 out.2
  | obj {o : ObjTy} {own own' : Fields} {withCells shown : Fields × Fields} :
    EachField A o.fields own own' →
      MergesFields A s.cellFields o.cells (own, own') withCells →
        MergesFields A s.protos.prototypeMembers o.protoOf withCells shown →
          Expands s (.obj o) (.obj ⟨shown.1, [], o.ctors, []⟩) (.obj ⟨shown.2, [], o.ctors, []⟩)
  | union {ms : List Ty} {out : Ty × Ty} :
    JoinsMembers A ms (.never, .never) out → Expands s (.union ms) out.1 out.2

variable {A} {B : Ty → Ty → Ty → Prop}

/-! Weaker answers. -/

section Mono

variable (hweaker : ∀ c r r', A c r r' → B c r r')

include hweaker

/-- Weaker answers for the types of a list. -/
theorem EachTy.mono {ts rs rs' : List Ty} (h : EachTy A ts rs rs') : EachTy B ts rs rs' := by
  induction h with
  | nil => exact .nil
  | cons hfirst _ hrest => exact .cons (hweaker _ _ _ hfirst) hrest

theorem EachField.mono {fs gs gs' : Fields} (h : EachField A fs gs gs') :
    EachField B fs gs gs' := by
  induction h with
  | nil => exact .nil
  | cons hfirst _ hrest => exact .cons (hweaker _ _ _ hfirst) hrest

theorem Declares.mono {c : Closure} {r r' : Ty} (h : Declares A c r r') : Declares B c r r' := by
  unfold Declares at h ⊢
  split at h
  · next hown => rwa [if_pos hown]
  · next hne =>
    rw [if_neg hne]
    exact hweaker _ _ _ h

/-- Signatures are joined from weaker answers as well. -/
theorem JoinsSignatures.mono {cs : Closures} {ids : List ClosureId} {acc out : Ty × Ty}
    (h : JoinsSignatures A cs ids acc out) : JoinsSignatures B cs ids acc out := by
  induction h with
  | nil => exact .nil
  | cons hfound hdeclared heach _ ih =>
    exact .cons hfound (hdeclared.mono hweaker) (heach.mono hweaker) ih

/-- Fields are merged from weaker answers as well. -/
theorem MergesFields.mono {shown : Nat → Except Dangling Fields} {ids : List Nat}
    {acc out : Fields × Fields} (h : MergesFields A shown ids acc out) :
    MergesFields B shown ids acc out := by
  induction h with
  | nil => exact .nil
  | cons hfound heach _ ih => exact .cons hfound (heach.mono hweaker) ih

theorem JoinsMembers.mono {ts : List Ty} {acc out : Ty × Ty} (h : JoinsMembers A ts acc out) :
    JoinsMembers B ts acc out := by
  induction h with
  | nil => exact .nil
  | cons hfirst _ ih => exact .cons (hweaker _ _ _ hfirst) ih

/-- An expansion from weaker answers. -/
theorem Expands.mono {s : Run} {t r r' : Ty} (h : Expands A s t r r') : Expands B s t r r' := by
  cases h with
  | atom hatomic => exact .atom hatomic
  | func heach hresult hjoined =>
    exact .func (heach.mono hweaker) (hweaker _ _ _ hresult) (hjoined.mono hweaker)
  | obj hown hcells hprotos =>
    exact .obj (hown.mono hweaker) (hcells.mono hweaker) (hprotos.mono hweaker)
  | union hjoined => exact .union (hjoined.mono hweaker)

end Mono

/-! Every type that is met is answered. -/

section Answered

/-- There are answers for a type. -/
def Answered (A : Ty → Ty → Ty → Prop) (t : Ty) : Prop :=
  ∃ r r', A t r r'

theorem EachTy.answered {ts rs rs' : List Ty} (h : EachTy A ts rs rs') :
    ∀ t ∈ ts, Answered A t := by
  induction h with
  | nil => nofun
  | cons hfirst _ hrest => exact List.forall_mem_cons.mpr ⟨⟨_, _, hfirst⟩, hrest⟩

theorem EachField.answered {fs gs gs' : Fields} (h : EachField A fs gs gs') :
    ∀ e ∈ fs, Answered A e.2 := by
  induction h with
  | nil => nofun
  | cons hfirst _ hrest => exact List.forall_mem_cons.mpr ⟨⟨_, _, hfirst⟩, hrest⟩

/-- Joined signatures have answers for all parameters of the closures, and for the results of those
that do not only return themselves. -/
theorem JoinsSignatures.answered {cs : Closures} {ids : List ClosureId} {acc out : Ty × Ty}
    (h : JoinsSignatures A cs ids acc out) :
    ∀ id ∈ ids, ∀ c, cs.table[id]? = some c →
      (c.selfReferential = false → Answered A c.ret) ∧ ∀ p ∈ c.params, Answered A p := by
  induction h with
  | nil => nofun
  | cons hfound hdeclared heach _ ih =>
    refine List.forall_mem_cons.mpr ⟨fun c hget => ?_, ih⟩
    cases hfound.symm.trans hget
    refine ⟨fun hselfReferential => ?_, heach.answered⟩
    rw [Declares, if_neg (by simp [hselfReferential])] at hdeclared
    exact ⟨_, _, hdeclared⟩

/-- Merged fields have answers for everything that is shown under the handles. -/
theorem MergesFields.answered {shown : Nat → Except Dangling Fields} {ids : List Nat}
    {acc out : Fields × Fields} (h : MergesFields A shown ids acc out) :
    ∀ id ∈ ids, ∀ fs, shown id = .ok fs → ∀ e ∈ fs, Answered A e.2 := by
  induction h with
  | nil => nofun
  | cons hfound heach _ ih =>
    refine List.forall_mem_cons.mpr ⟨fun fs heq => ?_, ih⟩
    cases hfound.symm.trans heq
    exact heach.answered

theorem JoinsMembers.answered {ts : List Ty} {acc out : Ty × Ty} (h : JoinsMembers A ts acc out) :
    ∀ t ∈ ts, Answered A t := by
  induction h with
  | nil => nofun
  | cons hfirst _ hrest => exact List.forall_mem_cons.mpr ⟨⟨_, _, hfirst⟩, hrest⟩

/-- An expansion has answers for all types that are met in it. -/
theorem Expands.answered {s : Run} {t r r' : Ty} (h : Expands A s t r r') {c : Ty}
    (hmeets : s.Meets t c) : Answered A c := by
  cases h with
  | atom hatomic => cases hatomic.symm.trans hmeets.compound
  | func heach hresult hjoined =>
    rcases hmeets with hpart | hunder
    · rcases List.mem_append.mp hpart with hparam | hret
      · exact heach.answered c hparam
      · cases List.mem_singleton.mp hret
        exact ⟨_, _, hresult⟩
    · cases hunder with
      | ret hmem hfound hselfReferential =>
        exact (hjoined.answered _ hmem _ hfound).1 hselfReferential
      | param hmem hfound hinside => exact (hjoined.answered _ hmem _ hfound).2 c hinside
  | obj hown hcells hprotos =>
    rcases hmeets with hpart | hunder
    · obtain ⟨e, hinside, rfl⟩ := List.mem_map.mp hpart
      exact hown.answered e hinside
    · cases hunder with
      | field hmem heq hinside => exact hcells.answered _ hmem _ heq _ hinside
      | shown hmem heq hinside => exact hprotos.answered _ hmem _ heq _ hinside
  | union hjoined =>
    rcases hmeets with hpart | hunder
    · exact hjoined.answered c hpart
    · cases hunder

end Answered

end Answers

/-! ### Logics for resolution -/

/-- Rules for pairs of computations that resolve types: what is said of two computations is said of
those that are put together from them.  In a sequence the second part is considered whatever the
answers of the first part are; what is said of these may be used in what is said of the whole. -/
structure Resolve.Logic where
  /-- What is said of two computations, when it is said of their answers. -/
  Rel : ∀ {α : Type}, Resolve α → Resolve α → (α → α → Prop) → Prop
  pure : ∀ {α : Type} {a a' : α} {Q : α → α → Prop}, Q a a' → Rel (pure a) (pure a') Q
  bind : ∀ {α β : Type} {m m' : Resolve α} {f f' : α → Resolve β} {Q : α → α → Prop}
    {R : β → β → Prop}, Rel m m' Q →
      (∀ a a', Rel (f a) (f' a') fun b b' => Q a a' → R b b') → Rel (m >>= f) (m' >>= f') R
  ask : ∀ {α β : Type} {look : Except Dangling α} {f f' : α → Resolve β} {Q : β → β → Prop},
    (∀ a, look = .ok a → Rel (f a) (f' a) Q) → Rel (ask look >>= f) (ask look >>= f') Q

namespace Resolve.Logic

variable (L : Logic) {A : Ty → Ty → Ty → Prop} {enter enter' : Ty → Resolve Ty}

/-- Rules may be weakened in what they say of the answers. -/
theorem mono {α : Type} {m m' : Resolve α} {Q R : α → α → Prop} (h : L.Rel m m' Q)
    (hweaker : ∀ a a', Q a a' → R a a') : L.Rel m m' R := by
  simpa using L.bind h fun a a' => L.pure fun hholds => hweaker a a' hholds

/-- A test on the type or on the path comes out alike in both computations. -/
theorem ite {α : Type} {c : Prop} [Decidable c] {m m' n n' : Resolve α} {Q : α → α → Prop}
    (hyes : c → L.Rel m m' Q) (hno : ¬c → L.Rel n n' Q) :
    L.Rel (if c then m else n) (if c then m' else n') Q := by
  split
  · next h => exact hyes h
  · next h => exact hno h

/-- A list of types, in every logic. -/
theorem enterAll {ts : List Ty} (henters : ∀ t ∈ ts, L.Rel (enter t) (enter' t) (A t)) :
    L.Rel (enterAll enter ts) (enterAll enter' ts) (EachTy A ts) := by
  induction ts with
  | nil => exact L.pure .nil
  | cons t ts ih =>
    obtain ⟨hhere, hlater⟩ := List.forall_mem_cons.mp henters
    refine L.bind hhere fun r r' => L.bind (ih hlater) fun rs rs' => L.pure ?_
    exact fun hrest hfirst => .cons hfirst hrest

/-- A map of fields, in every logic. -/
theorem enterFields {fs : Fields} (henters : ∀ e ∈ fs, L.Rel (enter e.2) (enter' e.2) (A e.2)) :
    L.Rel (enterFields enter fs) (enterFields enter' fs) (EachField A fs) := by
  induction fs with
  | nil => exact L.pure .nil
  | cons e fs ih =>
    obtain ⟨hhere, hlater⟩ := List.forall_mem_cons.mp henters
    refine L.bind hhere fun r r' => L.bind (ih hlater) fun rs rs' => L.pure ?_
    exact fun hrest hfirst => .cons hfirst hrest

/-- The members of a union are joined, in every logic. -/
theorem joinMembers {ts : List Ty} (henters : ∀ t ∈ ts, L.Rel (enter t) (enter' t) (A t))
    (acc acc' : Ty) :
    L.Rel (joinMembers enter acc ts) (joinMembers enter' acc' ts)
      fun out out' => JoinsMembers A ts (acc, acc') (out, out') := by
  induction ts generalizing acc acc' with
  | nil => exact L.pure .nil
  | cons t ts ih =>
    obtain ⟨hhere, hlater⟩ := List.forall_mem_cons.mp henters
    refine L.bind hhere fun r r' => L.mono (ih hlater _ _) ?_
    exact fun out out' hrest hfirst => .cons hfirst hrest

section Stored

variable {s : Run} {ids : List Nat}

/-- Signatures are joined, in every logic: the result of a function that returns only itself is not
looked at. -/
theorem joinSignatures
    (hstored : ∀ id ∈ ids, ∀ c, s.closures.table[id]? = some c →
      (c.selfReferential = false → L.Rel (enter c.ret) (enter' c.ret) (A c.ret)) ∧
        ∀ p ∈ c.params, L.Rel (enter p) (enter' p) (A p)) (acc acc' : Ty) :
    L.Rel (joinSignatures s enter acc ids) (joinSignatures s enter' acc' ids)
      fun out out' => JoinsSignatures A s.closures ids (acc, acc') (out, out') := by
  induction ids generalizing acc acc' with
  | nil => exact L.pure .nil
  | cons id ids ih =>
    obtain ⟨hhere, hlater⟩ := List.forall_mem_cons.mp hstored
    refine L.ask fun c heq => ?_
    have hfound := Closures.closure_eq_ok heq
    obtain ⟨hret, hparams⟩ := hhere c hfound
    -- whatever the result is taken to be, the parameters are entered after it
    have hnext (r r' : Ty) :
        L.Rel
          (do
            let ps ← TypeFlow.enterAll enter c.params
            TypeFlow.joinSignatures s enter (acc.join (.signature ps r)) ids)
          (do
            let ps ← TypeFlow.enterAll enter' c.params
            TypeFlow.joinSignatures s enter' (acc'.join (.signature ps r')) ids)
          fun out out' => Declares A c r r' →
            JoinsSignatures A s.closures (id :: ids) (acc, acc') (out, out') := by
      refine L.bind (L.enterAll hparams) fun ps ps' => L.mono (ih hlater _ _) ?_
      exact fun out out' hrest heach hdeclared => .cons hfound hdeclared heach hrest
    refine L.ite (fun hown => L.bind (L.pure (Q := Declares A c) ?_) hnext) fun hne =>
      L.bind (Q := Declares A c) (L.mono (hret (by simpa using hne)) ?_) hnext
    · rw [Declares, if_pos hown]
      exact ⟨rfl, rfl⟩
    · intro r r' h
      rwa [Declares, if_neg hne]

/-- The fields of cells are merged, in every logic. -/
theorem joinCells
    (hstored : ∀ id ∈ ids, ∀ fs, s.cellFields id = .ok fs →
      ∀ e ∈ fs, L.Rel (enter e.2) (enter' e.2) (A e.2)) (acc acc' : Fields) :
    L.Rel (joinCells s enter acc ids) (joinCells s enter' acc' ids)
      fun out out' => MergesFields A s.cellFields ids (acc, acc') (out, out') := by
  induction ids generalizing acc acc' with
  | nil => exact L.pure .nil
  | cons id ids ih =>
    obtain ⟨hhere, hlater⟩ := List.forall_mem_cons.mp hstored
    refine L.ask fun c heq => ?_
    have hshown : s.cellFields id = .ok c.fields := by
      rw [Run.cellFields, heq]
      rfl
    refine L.bind (L.enterFields (hhere _ hshown)) fun gs gs' => L.mono (ih hlater _ _) ?_
    exact fun out out' hrest heach => .cons hshown heach hrest

/-- The members of prototype objects are merged, in every logic. -/
theorem joinProtos
    (hstored : ∀ id ∈ ids, ∀ fs, s.protos.prototypeMembers id = .ok fs →
      ∀ e ∈ fs, L.Rel (enter e.2) (enter' e.2) (A e.2)) (acc acc' : Fields) :
    L.Rel (joinProtos s enter acc ids) (joinProtos s enter' acc' ids)
      fun out out' => MergesFields A s.protos.prototypeMembers ids (acc, acc') (out, out') := by
  induction ids generalizing acc acc' with
  | nil => exact L.pure .nil
  | cons id ids ih =>
    obtain ⟨hhere, hlater⟩ := List.forall_mem_cons.mp hstored
    refine L.ask fun shown heq => ?_
    refine L.bind (L.enterFields (hhere _ heq)) fun gs gs' => L.mono (ih hlater _ _) ?_
    exact fun out out' hrest heach => .cons heq heach hrest

end Stored

/-- What an expansion answers: the answers for the parts of a type and for what is stored under its
handles, put together. -/
theorem expand {s : Run} {part part' kept kept' : Path → Ty → Resolve Ty} {path : Path} {t : Ty}
    (hparts : ∀ c ∈ t.children, L.Rel (part (path.into t) c) (part' (path.into t) c) (A c))
    (hstored : ∀ c, s.Under t c →
      L.Rel (kept (path.behind t) c) (kept' (path.behind t) c) (A c)) :
    L.Rel (expand s part kept path t) (expand s part' kept' path t) (Expands A s t) := by
  cases t with
  | func f =>
    obtain ⟨hparams, hret⟩ := List.forall_mem_append.mp hparts
    refine L.bind (L.enterAll hparams) fun ps ps' => ?_
    refine L.bind (hret f.ret List.mem_cons_self) fun r r' => ?_
    refine L.mono (L.joinSignatures (A := A) (fun id hmem c hfound => ?_) _ _)
      fun out out' hrest hresult heach => .func heach hresult hrest
    exact ⟨fun hselfReferential => hstored _ (.ret hmem hfound hselfReferential),
      fun p hinside => hstored _ (.param hmem hfound hinside)⟩
  | obj o =>
    refine L.bind (L.enterFields (A := A) fun e hmem => hparts e.2 (List.mem_map_of_mem hmem)) ?_
    intro own own'
    refine L.bind (L.joinCells (A := A) (fun id hmem fs heq e hinside => ?_) own own') ?_
    · exact hstored _ (.field hmem heq hinside)
    intro withCells withCells'
    refine L.bind
      (L.joinProtos (A := A) (fun id hmem fs heq e hinside => ?_) withCells withCells') ?_
    · exact hstored _ (.shown hmem heq hinside)
    intro shown shown'
    exact L.pure fun hprotos hcells heach => .obj heach hcells hprotos
  | union ms =>
    exact L.mono (L.joinMembers hparts _ _) fun out out' hrest => .union hrest
  | never => exact L.pure (.atom rfl)
  | any => exact L.pure (.atom rfl)
  | prim p => exact L.pure (.atom rfl)

end Resolve.Logic

/-! ### The depth of a resolution -/

/-- The number of indices below a bound that are not in a list. -/
def countLeft (bound : Nat) (taken : List Nat) : Nat :=
  ((Finset.range bound).filter (· ∉ taken)).card

/-- With more indices taken, fewer are left. -/
theorem left_append_subset (bound : Nat) (more taken : List Nat) :
    (Finset.range bound).filter (· ∉ more ++ taken) ⊆ (Finset.range bound).filter (· ∉ taken) := by
  intro id hmem
  simp only [Finset.mem_filter, List.mem_append, not_or] at hmem ⊢
  exact ⟨hmem.1, hmem.2.2⟩

theorem countLeft_append_le (bound : Nat) (more taken : List Nat) :
    countLeft bound (more ++ taken) ≤ countLeft bound taken :=
  Finset.card_le_card (left_append_subset bound more taken)

/-- When an index below the bound is taken for the first time, fewer are left. -/
theorem countLeft_append_lt {bound id : Nat} {more taken : List Nat} (hinside : id < bound)
    (hmem : id ∈ more) (hfresh : id ∉ taken) :
    countLeft bound (more ++ taken) < countLeft bound taken := by
  refine Finset.card_lt_card ((Finset.ssubset_iff_of_subset
    (left_append_subset bound more taken)).mpr ⟨id, ?_, fun hmem' => ?_⟩)
  · exact Finset.mem_filter.mpr ⟨Finset.mem_range.mpr hinside, hfresh⟩
  · exact (Finset.mem_filter.mp hmem').2 (List.mem_append_left taken hmem)

/-- How many handles with an entry are not on the path. -/
def Path.left (s : Run) (path : Path) : Nat :=
  countLeft s.closures.table.size path.closures + countLeft s.heap.cells.size path.cells +
    countLeft s.protos.ctors.size path.protos

/-- No path leaves more handles than there are. -/
theorem Path.left_le (s : Run) (path : Path) : path.left s ≤ s.handleCount := by
  have hbounded (bound : Nat) (taken : List Nat) : countLeft bound taken ≤ bound :=
    (Finset.card_filter_le _ _).trans (Finset.card_range bound).le
  have := hbounded s.closures.table.size path.closures
  have := hbounded s.heap.cells.size path.cells
  have := hbounded s.protos.ctors.size path.protos
  simp only [Path.left, Run.handleCount]
  omega

/-- The path behind the handles of a type leaves no more than the path before. -/
theorem Path.left_behind_le (s : Run) (path : Path) (t : Ty) :
    (path.behind t).left s ≤ path.left s := by
  cases t with
  | func f =>
    have := countLeft_append_le s.closures.table.size f.closures path.closures
    simp only [Path.left, Path.behind]
    omega
  | obj o =>
    have := countLeft_append_le s.heap.cells.size o.cells path.cells
    have := countLeft_append_le s.protos.ctors.size o.protoOf path.protos
    simp only [Path.left, Path.behind]
    omega
  | _ => exact Nat.le_refl _

/-- The path into the parts of a type leaves no more than the path before. -/
theorem Path.left_into_le (s : Run) (path : Path) (t : Ty) :
    (path.into t).left s ≤ path.left s := by
  cases t with
  | obj o => exact path.left_behind_le s (.obj o)
  | _ => exact Nat.le_refl _

/-- Following a handle that is not on the path leaves fewer handles. -/
theorem Path.left_behind_lt {s : Run} {path : Path} {t c : Ty} (hunder : s.Under t c)
    (hfree : path.blocks t = false) : (path.behind t).left s < path.left s := by
  -- a closure that the path does not block is a new one on the path
  have hofFunc {f : FuncTy} {id : ClosureId} {c : Closure} (hmem : id ∈ f.closures)
      (hfound : s.closures.table[id]? = some c) (hfree : path.blocks (.func f) = false) :
      (path.behind (.func f)).left s < path.left s := by
    have hfresh : id ∉ path.closures := by
      simp only [Path.blocks, List.any_eq_false] at hfree
      simpa using hfree id hmem
    have := countLeft_append_lt (Array.getElem?_eq_some_iff.mp hfound).1 hmem hfresh
    simp only [Path.left, Path.behind]
    omega
  cases hunder with
  | ret hmem hfound _ => exact hofFunc hmem hfound hfree
  | param hmem hfound _ => exact hofFunc hmem hfound hfree
  | @field o id fs e hmem heq _ =>
    obtain ⟨c, hfound, -⟩ := Run.cellFields_eq_ok heq
    have hfresh : id ∉ path.cells := by
      simp only [Path.blocks, Bool.or_eq_false_iff, List.any_eq_false] at hfree
      simpa using hfree.1 id hmem
    have := countLeft_append_lt (Array.getElem?_eq_some_iff.mp hfound).1 hmem hfresh
    have := countLeft_append_le s.protos.ctors.size o.protoOf path.protos
    simp only [Path.left, Path.behind]
    omega
  | @shown o id fs e hmem heq _ =>
    have hfresh : id ∉ path.protos := by
      simp only [Path.blocks, Bool.or_eq_false_iff, List.any_eq_false] at hfree
      simpa using hfree.2 id hmem
    have := countLeft_append_lt (Protos.prototypeMembers_inside heq) hmem hfresh
    have := countLeft_append_le s.heap.cells.size o.cells path.cells
    simp only [Path.left, Path.behind]
    omega

/-- Two results with the same memory, or the same error. -/
inductive Resolve.Alike {α : Type} (Q : α → α → Prop) :
    Except Dangling (α × Memo) → Except Dangling (α × Memo) → Prop
  | ok {a a' : α} {memo : Memo} : Q a a' → Alike Q (.ok (a, memo)) (.ok (a', memo))
  | error {d : Dangling} : Alike Q (.error d) (.error d)

/-- The logic of computations that do the same from every memory. -/
def Resolve.Logic.same : Resolve.Logic where
  Rel m m' Q := ∀ memo, Alike Q (m memo) (m' memo)
  pure hholds _ := .ok hholds
  bind {_ _ m m' f f' _ _} h hnext memo := by
    have halike := h memo
    change Alike _ (m memo >>= fun p => f p.1 p.2) (m' memo >>= fun p => f' p.1 p.2)
    generalize m memo = x at halike ⊢
    generalize m' memo = x' at halike ⊢
    cases halike with
    | @ok a a' between hholds =>
      have hlater := hnext a a' between
      change Alike _ (f a between) (f' a' between)
      generalize f a between = y at hlater ⊢
      generalize f' a' between = y' at hlater ⊢
      cases hlater with
      | ok himplies => exact .ok (himplies hholds)
      | error => exact .error
    | error => exact .error
  ask {_ _ look f f' _} h memo := by
    cases look with
    | ok a => exact h a rfl memo
    | error d => exact .error

/-- Computations that do the same from every memory, with equal answers, are equal. -/
theorem Resolve.Logic.same_eq {α : Type} {m m' : Resolve α}
    (h : Resolve.Logic.same.Rel m m' Eq) : m = m' := by
  funext memo
  have halike := h memo
  generalize m memo = x at halike
  generalize m' memo = x' at halike
  cases halike with
  | ok heq => rw [heq]
  | error => rfl

section Same

/-- Answers that are equal type by type are equal. -/
theorem EachTy.eq {ts rs rs' : List Ty} (h : EachTy (fun _ r r' => r = r') ts rs rs') :
    rs = rs' := by
  induction h with
  | nil => rfl
  | cons hfirst _ hrest => rw [hfirst, hrest]

theorem EachField.eq {fs gs gs' : Fields} (h : EachField (fun _ r r' => r = r') fs gs gs') :
    gs = gs' := by
  induction h with
  | nil => rfl
  | cons hfirst _ hrest => rw [hfirst, hrest]

theorem Declares.eq {c : Closure} {r r' : Ty} (h : Declares (fun _ r r' => r = r') c r r') :
    r = r' := by
  unfold Declares at h
  split at h
  · rw [h.1, h.2]
  · exact h

/-- From equal answers, signatures are joined to equal types. -/
theorem JoinsSignatures.eq {cs : Closures} {ids : List ClosureId} {acc out : Ty × Ty}
    (h : JoinsSignatures (fun _ r r' => r = r') cs ids acc out) (hstart : acc.1 = acc.2) :
    out.1 = out.2 := by
  induction h with
  | nil => exact hstart
  | cons _ hdeclared heach _ ih => exact ih (by rw [hstart, hdeclared.eq, heach.eq])

/-- From equal answers, fields are merged to equal maps. -/
theorem MergesFields.eq {shown : Nat → Except Dangling Fields} {ids : List Nat}
    {acc out : Fields × Fields} (h : MergesFields (fun _ r r' => r = r') shown ids acc out)
    (hstart : acc.1 = acc.2) : out.1 = out.2 := by
  induction h with
  | nil => exact hstart
  | cons _ heach _ ih => exact ih (by rw [hstart, heach.eq])

theorem JoinsMembers.eq {ts : List Ty} {acc out : Ty × Ty}
    (h : JoinsMembers (fun _ r r' => r = r') ts acc out) (hstart : acc.1 = acc.2) :
    out.1 = out.2 := by
  induction h with
  | nil => exact hstart
  | cons hfirst _ ih => exact ih (by rw [hstart, hfirst])

/-- Equal answers for parts and stored types give equal answers. -/
theorem Expands.eq {s : Run} {t r r' : Ty} (h : Expands (fun _ r r' => r = r') s t r r') :
    r = r' := by
  cases h with
  | atom => rfl
  | func heach hresult hjoined => exact hjoined.eq (by rw [heach.eq, hresult])
  | obj hown hcells hprotos => rw [hprotos.eq (hcells.eq hown.eq)]
  | union hjoined => exact hjoined.eq rfl

end Same

/-- What a type is answered with depends only on the answers for its parts and, where a handle is
followed, for stored types. -/
theorem answerBy_congr {s : Run} {part part' kept kept' : Path → Ty → Resolve Ty} {path : Path}
    {t : Ty} (hparts : ∀ c ∈ t.children, part (path.into t) c = part' (path.into t) c)
    (hstored : ∀ c, s.Under t c → path.blocks t = false →
      kept (path.behind t) c = kept' (path.behind t) c) :
    answerBy s part kept path t = answerBy s part' kept' path t := by
  have hrefl (m : Resolve Ty) : Logic.same.Rel m m fun r r' => r = r' := by
    intro memo
    cases m memo with
    | ok p => exact .ok rfl
    | error d => exact .error
  unfold answerBy
  cases hblocked : path.blocks t with
  | true => rfl
  | false =>
    have hexpanded : expand s part kept path t = expand s part' kept' path t := by
      refine Logic.same_eq (Logic.same.mono (Logic.same.expand (A := fun _ r r' => r = r') ?_ ?_)
        fun r r' h => h.eq)
      · exact fun c hmem => hparts c hmem ▸ hrefl _
      · exact fun c hunder => hstored c hunder hblocked ▸ hrefl _
    rw [hexpanded]

/-! ### Resolution without a depth -/

section Depth

variable {s : Run}

/-- **Induction over the resolution of a type.**  A property holds of every path and every type, if
it holds of a path and a type as soon as it holds of the parts of the type and, where its handles
are followed, of what is stored under them. -/
@[elab_as_elim]
theorem resolve_induction {P : Path → Ty → Prop}
    (hstep : ∀ path t, (∀ c ∈ t.children, P (path.into t) c) →
      (∀ c, s.Under t c → path.blocks t = false → P (path.behind t) c) → P path t)
    (path : Path) (t : Ty) : P path t := by
  refine hstep path t (fun c hmem => ?_) fun c hunder hfree => ?_
  · have := Path.left_into_le s path t
    have := Ty.sizeOf_child hmem
    exact resolve_induction hstep (path.into t) c
  · have := Path.left_behind_lt hunder hfree
    exact resolve_induction hstep (path.behind t) c
termination_by (path.left s, sizeOf t)
decreasing_by
  · rw [Prod.lex_def]
    dsimp only
    omega
  · rw [Prod.lex_def]
    dsimp only
    omega

/-- The depth of a resolution does not matter, as long as it exceeds the number of handles that are
not on the path. -/
theorem resolveAt_stable (s : Run) (path : Path) (t : Ty) :
    ∀ d d', path.left s < d → path.left s < d' → resolveAt s d path t = resolveAt s d' path t := by
  refine resolve_induction (s := s) (fun path t hparts hstored => ?_) path t
  intro d d' hlt hlt'
  obtain ⟨d, rfl⟩ := Nat.exists_eq_succ_of_ne_zero (Nat.ne_zero_of_lt hlt)
  obtain ⟨d', rfl⟩ := Nat.exists_eq_succ_of_ne_zero (Nat.ne_zero_of_lt hlt')
  have hintoLe := Path.left_into_le s path t
  rw [resolveAt, resolveAt, resolveWith_eq, resolveWith_eq]
  refine answerBy_congr (fun c hmem => ?_) fun c hunder hfree => ?_
  · exact hparts c hmem (d + 1) (d' + 1) (by omega) (by omega)
  · have hless := Path.left_behind_lt hunder hfree
    exact hstored c hunder hfree d d' (by omega) (by omega)

/-- A resolution answers a type, its parts and stored types being resolved in the same way. -/
theorem resolveOn_eq (s : Run) (path : Path) (t : Ty) :
    resolveOn s path t = answerBy s (resolveOn s) (resolveOn s) path t := by
  have hleAll := Path.left_le s path
  rw [resolveOn, resolveAt, resolveWith_eq]
  refine answerBy_congr (fun c hmem => rfl) fun c hunder hfree => ?_
  have hless := Path.left_behind_lt hunder hfree
  exact resolveAt_stable s _ c _ _ (by omega) (by omega)

/-- **Resolution is the only solution of its recursion.** -/
theorem resolveOn_unique (s : Run) (r : Path → Ty → Resolve Ty) :
    r = resolveWith s r ↔ r = resolveOn s := by
  constructor
  · intro hsolves
    funext path t
    refine resolve_induction (s := s) (fun path t hparts hstored => ?_) path t
    rw [congrFun₂ hsolves path t, resolveWith_eq, resolveOn_eq]
    refine answerBy_congr (fun c hmem => ?_) hstored
    rw [← congrFun₂ hsolves, hparts c hmem]
  · rintro rfl
    funext path t
    refine resolve_induction (s := s) (fun path t hparts _ => ?_) path t
    rw [resolveOn_eq, resolveWith_eq]
    exact answerBy_congr hparts fun c _ _ => rfl

end Depth

end TypeFlow
