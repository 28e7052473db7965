import Mathlib
import TypeFlow.Proofs.Engine.Widening
import TypeFlow.Proofs.Result.Expansion
import TypeFlow.Proofs.Types.Unions

/-!
# Resolved types carry no live handles

Resolving a type gives a type in normal form without closures, cells and prototype objects, at any
depth and however the tables refer to themselves; a type without live handles is its own answer.  So
no type in the result of a run carries a live handle.

## Main Definitions

* `Resolved` - what is true of an answer for a type
* `Memo.Each` - what is true of all remembered answers
* `TypeMap.types` - the types in a result

## Main Statements

* `Ty.isDetached_iff` - a type without live handles, said of its functions and objects
* `resolveOn_resolved` - what is true of the answer for every type
* `buildTypeMap_plain` - no type in a result carries a live handle
* `resolution_strips_handles` - resolution ends, with detached types
-/

namespace TypeFlow

open Resolve

/-! ### Detached types -/

/-- The function is no closure. -/
abbrev FuncTy.Unlinked (f : FuncTy) : Prop :=
  f.closures = []

/-- The object is held in no cell and is no prototype object. -/
abbrev ObjTy.Unlinked (o : ObjTy) : Prop :=
  o.cells = [] ∧ o.protoOf = []

theorem Ty.allDetached_iff (ts : List Ty) :
    Ty.allDetached ts = true ↔ ∀ t ∈ ts, t.isDetached = true := by
  induction ts with
  | nil => simp [Ty.allDetached]
  | cons t ts ih => simp [Ty.allDetached, ih]

theorem Ty.fieldsDetached_iff (fs : List (String × Ty)) :
    Ty.fieldsDetached fs = true ↔ ∀ e ∈ fs, e.2.isDetached = true := by
  induction fs with
  | nil => simp [Ty.fieldsDetached]
  | cons e fs ih =>
    cases e
    simp [Ty.fieldsDetached, ih]

/-- A function has no live handle if it is no closure and if its parameters and its result have
none. -/
theorem Ty.isDetached_func (f : FuncTy) :
    (Ty.func f).isDetached = true ↔
      f.Unlinked ∧ (∀ p ∈ f.params, p.isDetached = true) ∧ f.ret.isDetached = true := by
  cases f
  simp [Ty.isDetached, Ty.allDetached_iff, and_assoc]

/-- An object has no live handle if it is held in no cell, is no prototype object and has fields
without any. -/
theorem Ty.isDetached_obj (o : ObjTy) :
    (Ty.obj o).isDetached = true ↔ o.Unlinked ∧ ∀ e ∈ o.fields, e.2.isDetached = true := by
  cases o
  simp [Ty.isDetached, Ty.fieldsDetached_iff]

/-- A union has no live handle if its members have none. -/
theorem Ty.isDetached_union (ms : List Ty) :
    (Ty.union ms).isDetached = true ↔ ∀ m ∈ ms, m.isDetached = true := by
  rw [Ty.isDetached, Ty.allDetached_iff]

/-- A type without live handles: no function in it is a closure, and no object in it is linked. -/
theorem Ty.isDetached_iff (t : Ty) :
    t.isDetached = true ↔ t.Everywhere FuncTy.Unlinked ObjTy.Unlinked := by
  induction t using Ty.childInduction with
  | step t ih =>
  cases t with
  | never => simp [Ty.isDetached, Ty.Everywhere]
  | any => simp [Ty.isDetached, Ty.Everywhere]
  | prim p => simp [Ty.isDetached, Ty.Everywhere]
  | func f =>
    obtain ⟨hparams, hret⟩ := List.forall_mem_append.mp ih
    rw [Ty.Everywhere, FuncTy.everywhere_iff, Ty.isDetached_func]
    rw [hret f.ret List.mem_cons_self, forall₂_congr hparams]
  | obj o =>
    rw [Ty.Everywhere, ObjTy.everywhere_iff, Ty.isDetached_obj]
    exact and_congr_right fun _ => forall₂_congr fun e hmem => ih e.2 (List.mem_map_of_mem hmem)
  | union ms =>
    rw [Ty.Everywhere, Ty.allEverywhere_iff, Ty.isDetached_union]
    exact forall₂_congr ih

/-- Functions and objects without live handles of their own are closed under joins, since a join
unites the handles. -/
theorem joinClosed_unlinked : JoinClosed FuncTy.Unlinked ObjTy.Unlinked where
  func f g h hf hg heq := by
    rw [FuncTy.join?_eq] at heq
    split at heq
    · cases heq
      simp [FuncTy.Unlinked, hf, hg, OrdSet.union]
    · cases heq
  obj o p ho hp := by
    rw [ObjTy.join_eq]
    simp [ObjTy.Unlinked, ho.1, ho.2, hp.1, hp.2, OrdSet.union]

/-- A join of types without live handles has none. -/
theorem Ty.isDetached_join {a b : Ty} (ha : a.isDetached = true) (hb : b.isDetached = true) :
    (a.join b).isDetached = true := by
  rw [Ty.isDetached_iff] at ha hb ⊢
  exact Ty.Everywhere.join joinClosed_unlinked ha hb

/-- Nothing is cut at the start. -/
theorem Path.blocks_empty (t : Ty) : Path.empty.blocks t = false := by
  cases t <;> simp [Path.blocks, Path.empty]

/-- A type without live handles is nowhere blocked. -/
theorem Path.blocks_of_isDetached (path : Path) {t : Ty} (hdetached : t.isDetached = true) :
    path.blocks t = false := by
  cases t with
  | func f =>
    have hunlinked := ((Ty.isDetached_func f).mp hdetached).1
    rw [Path.blocks, hunlinked]
    rfl
  | obj o =>
    obtain ⟨hcells, hprotos⟩ := ((Ty.isDetached_obj o).mp hdetached).1
    rw [Path.blocks, hcells, hprotos]
    rfl
  | _ => rfl

/-! ### What is true of answers -/

/-- A type in normal form without live handles, whose constructors have entries. -/
structure Run.Plain (s : Run) (t : Ty) : Prop where
  normal : t.Normal
  detached : t.isDetached = true
  holds : s.Holds t

/-- What is true of an answer for a type: it is plain, and a type without live handles is answered
with itself. -/
structure Resolved (s : Run) (t r : Ty) : Prop where
  plain : s.Plain r
  same : t.isDetached = true → r = t

section Closed

variable {s : Run}

/-- The type that a cycle is cut with is plain. -/
theorem Run.plain_any (s : Run) : s.Plain .any :=
  ⟨trivial, rfl, nofun⟩

/-- Joins of plain types are plain. -/
theorem Run.Plain.join {a b : Ty} (ha : s.Plain a) (hb : s.Plain b) : s.Plain (a.join b) :=
  ⟨ha.normal.join hb.normal, Ty.isDetached_join ha.detached hb.detached,
    Ty.handles_join ha.holds hb.holds⟩

/-- A signature of plain types is plain. -/
theorem Run.plain_signature {ps : List Ty} {r : Ty} (hparams : ∀ p ∈ ps, s.Plain p)
    (hret : s.Plain r) : s.Plain (.signature ps r) where
  normal := Ty.normal_signature (fun p hmem => (hparams p hmem).normal) hret.normal
  detached :=
    (Ty.isDetached_func _).mpr ⟨rfl, fun p hmem => (hparams p hmem).detached, hret.detached⟩
  holds := by
    intro d hmem
    rcases FuncTy.mem_handles.mp hmem with hown | ⟨p, hinside, hmem⟩ | hmem
    · cases hown
    · exact (hparams p hinside).holds d hmem
    · exact hret.holds d hmem

/-- Fields that ascend by name and are plain. -/
structure Run.PlainFields (s : Run) (fs : Fields) : Prop where
  ascends : OrdMap.Ascending fs
  plain : ∀ e ∈ fs, s.Plain e.2

/-- Plain fields stay plain when others are merged into them. -/
theorem Run.PlainFields.merge {fs gs : Fields} (h : s.PlainFields fs)
    (hmore : ∀ e ∈ gs, s.Plain e.2) : s.PlainFields (Fields.merge fs gs) := by
  refine ⟨Ty.ascending_joinFields h.ascends gs, ?_⟩
  have hplain := h.plain
  rw [Fields.merge]
  clear h
  induction gs generalizing fs with
  | nil => exact hplain
  | cons g gs ih =>
    obtain ⟨hplain', hlater⟩ := List.forall_mem_cons.mp hmore
    rw [Ty.joinFields_cons]
    refine ih hlater fun e hmem => ?_
    rcases OrdMap.mem_upsert_of_mem hmem with rfl | ⟨old, hpresent, rfl⟩ | hmem
    · exact hplain'
    · exact (hplain _ hpresent).join hplain'
    · exact hplain e hmem

variable {ts rs rs' : List Ty} {fs gs gs' : Fields}

/-- Resolved types are plain, and those without live handles are as before. -/
theorem EachTy.resolved (h : EachTy (fun c r _ => Resolved s c r) ts rs rs') :
    (∀ r ∈ rs, s.Plain r) ∧ ((∀ t ∈ ts, t.isDetached = true) → rs = ts) := by
  induction h with
  | nil => exact ⟨nofun, fun _ => rfl⟩
  | cons hfirst _ hrest =>
    refine ⟨List.forall_mem_cons.mpr ⟨hfirst.plain, hrest.1⟩, fun hdetached => ?_⟩
    obtain ⟨hisDetached, hlater⟩ := List.forall_mem_cons.mp hdetached
    rw [hfirst.same hisDetached, hrest.2 hlater]

/-- Resolved fields have the same names. -/
theorem EachField.names {A : Ty → Ty → Ty → Prop} (h : EachField A fs gs gs') :
    gs.map (·.1) = fs.map (·.1) := by
  induction h with
  | nil => rfl
  | cons _ _ hrest => rw [List.map_cons, List.map_cons, hrest]

/-- Resolved fields ascend by name as before. -/
theorem EachField.ascends {A : Ty → Ty → Ty → Prop} (h : EachField A fs gs gs')
    (hascends : OrdMap.Ascending fs) : OrdMap.Ascending gs := by
  unfold OrdMap.Ascending at hascends ⊢
  rw [← List.pairwise_map] at hascends ⊢
  rwa [h.names]

theorem EachField.forall_left {P : Ty → Prop} (h : EachField (fun _ r _ => P r) fs gs gs') :
    ∀ e ∈ gs, P e.2 := by
  induction h with
  | nil => nofun
  | cons hfirst _ hrest => exact List.forall_mem_cons.mpr ⟨hfirst, hrest⟩

/-- Resolved fields are plain, and those without live handles are as before. -/
theorem EachField.resolved (h : EachField (fun c r _ => Resolved s c r) fs gs gs') :
    (∀ e ∈ gs, s.Plain e.2) ∧ ((∀ e ∈ fs, e.2.isDetached = true) → gs = fs) := by
  induction h with
  | nil => exact ⟨nofun, fun _ => rfl⟩
  | cons hfirst _ hrest =>
    refine ⟨List.forall_mem_cons.mpr ⟨hfirst.plain, hrest.1⟩, fun hdetached => ?_⟩
    obtain ⟨hisDetached, hlater⟩ := List.forall_mem_cons.mp hdetached
    rw [hfirst.same hisDetached, hrest.2 hlater]

/-- The declared result of a closure is plain when it is resolved. -/
theorem Declares.plain {c : Closure} {r r' : Ty}
    (h : Declares (fun c r _ => Resolved s c r) c r r') : s.Plain r := by
  unfold Declares at h
  split at h
  · exact h.1 ▸ s.plain_any
  · exact h.plain

/-- The declared signatures of closures are joined to a plain type. -/
theorem JoinsSignatures.plain {cs : Closures} {ids : List ClosureId} {acc out : Ty × Ty}
    (h : JoinsSignatures (fun c r _ => Resolved s c r) cs ids acc out) (hstart : s.Plain acc.1) :
    s.Plain out.1 := by
  induction h with
  | nil => exact hstart
  | cons _ hdeclared heach _ ih =>
    exact ih (hstart.join (Run.plain_signature heach.resolved.1 hdeclared.plain))

/-- The fields under handles are merged to plain fields. -/
theorem MergesFields.plain {shown : Nat → Except Dangling Fields} {ids : List Nat}
    {acc out : Fields × Fields} (h : MergesFields (fun c r _ => Resolved s c r) shown ids acc out)
    (hstart : s.PlainFields acc.1) : s.PlainFields out.1 := by
  induction h with
  | nil => exact hstart
  | cons _ heach _ ih => exact ih (hstart.merge heach.resolved.1)

/-- The members of a union are joined to a plain type, and to the union itself when they have no
live handles. -/
theorem JoinsMembers.resolved {acc out : Ty × Ty}
    (h : JoinsMembers (fun c r _ => Resolved s c r) ts acc out) (hstart : s.Plain acc.1) :
    s.Plain out.1 ∧ ((∀ t ∈ ts, t.isDetached = true) → out.1 = ts.foldl Ty.join acc.1) := by
  induction h with
  | nil => exact ⟨hstart, fun _ => rfl⟩
  | cons hfirst _ ih =>
    obtain ⟨hplain, hsame⟩ := ih (hstart.join hfirst.plain)
    refine ⟨hplain, fun hdetached => ?_⟩
    obtain ⟨hisDetached, hlater⟩ := List.forall_mem_cons.mp hdetached
    rw [hsame hlater, hfirst.same hisDetached, List.foldl_cons]

/-- What is true of the answers for parts and stored types is true of the answer. -/
theorem Expands.resolved {t r r' : Ty} (h : Expands (fun c r _ => Resolved s c r) s t r r')
    (hnormal : t.Normal) (hholds : s.Holds t) : Resolved s t r := by
  cases h with
  | atom hatomic =>
    refine ⟨⟨hnormal, ?_, hholds⟩, fun _ => rfl⟩
    cases t <;> first | rfl | cases hatomic
  | @func f ps ps' q q' out heach hresult hjoined =>
    obtain ⟨hplain, hsame⟩ := heach.resolved
    -- a closure is replaced by its signature, so a function without closures is left as it is
    refine ⟨hjoined.plain (Run.plain_signature hplain hresult.plain), fun hdetached => ?_⟩
    obtain ⟨hunlinked, hparams, hret⟩ := (Ty.isDetached_func f).mp hdetached
    rw [hunlinked] at hjoined
    cases hjoined
    rw [hsame hparams, hresult.same hret]
    cases f
    cases hunlinked
    rfl
  | @obj o own own' withCells shown heach hcells hprotos =>
    obtain ⟨hplain, hsame⟩ := heach.resolved
    rw [Ty.Normal, ObjTy.normal_iff] at hnormal
    obtain ⟨-, hascends, -, hctors, -⟩ := hnormal
    have hfields := hprotos.plain (hcells.plain ⟨heach.ascends hascends, hplain⟩)
    refine ⟨⟨?_, ?_, fun d hmem => ?_⟩, fun hdetached => ?_⟩
    · rw [Ty.Normal, ObjTy.normal_iff]
      exact ⟨fun e hmem => (hfields.plain e hmem).normal, hfields.ascends, .nil, hctors, .nil⟩
    · exact (Ty.isDetached_obj _).mpr ⟨⟨rfl, rfl⟩, fun e hmem => (hfields.plain e hmem).detached⟩
    -- of the handles only the constructors of instances are kept, and these the object had
    · rcases ObjTy.mem_handles.mp hmem with hown | ⟨e, hinside, hmem⟩
      · refine hholds d (ObjTy.mem_handles.mpr (.inl ?_))
        simp only [ObjTy.ownHandles, List.map_nil, List.nil_append, List.append_nil,
          List.map_append, List.mem_append] at hown ⊢
        exact .inr (.inl hown)
      · exact (hfields.plain e hinside).holds d hmem
    · obtain ⟨⟨hnoCells, hnoProtos⟩, hinside⟩ := (Ty.isDetached_obj o).mp hdetached
      rw [hnoCells] at hcells
      rw [hnoProtos] at hprotos
      cases hcells
      cases hprotos
      cases o
      cases hnoCells
      cases hnoProtos
      rw [hsame hinside]
  | union hjoined =>
    obtain ⟨hplain, hsame⟩ := hjoined.resolved ⟨trivial, rfl, nofun⟩
    refine ⟨hplain, fun hdetached => ?_⟩
    rw [hsame ((Ty.isDetached_union _).mp hdetached)]
    exact hnormal.unionOf_members

end Closed

/-! ### Remembered answers -/

/-- All remembered answers satisfy `E`. -/
def Memo.Each (E : Ty → Ty → Prop) (memo : Memo) : Prop :=
  ∀ e ∈ memo.known, E e.1 e.2

/-- At the start nothing is remembered. -/
theorem Memo.each_empty (E : Ty → Ty → Prop) : Memo.empty.Each E :=
  nofun

/-- What is found in the memory satisfies what all remembered answers do. -/
theorem Memo.Each.found {E : Ty → Ty → Prop} {memo : Memo} (h : memo.Each E) {t r : Ty}
    (hfound : memo.known.lookup t = some r) : E t r := by
  obtain ⟨before, behind, hsplit, -⟩ := List.lookup_eq_some_iff.mp hfound
  refine h (t, r) ?_
  rw [hsplit]
  exact List.mem_append_right before List.mem_cons_self

/-- The memory after an answer was computed: the answer is added when no cycle was cut. -/
def Memo.after (before : Memo) (t r : Ty) (memo : Memo) : Memo :=
  if memo.cuts = before.cuts then { memo with known := (t, r) :: memo.known } else memo

/-- A new answer has to satisfy it only when no cycle was cut, as it is not remembered otherwise. -/
theorem Memo.Each.after {E : Ty → Ty → Prop} {before memo : Memo} {t r : Ty} (h : memo.Each E)
    (hnew : memo.cuts = before.cuts → E t r) : (before.after t r memo).Each E := by
  unfold Memo.after
  split
  · next hsame => exact List.forall_mem_cons.mpr ⟨hnew hsame, h⟩
  · exact h

namespace Resolve

variable {α β : Type} {memo memo' : Memo}

theorem bind_eq_ok {m : Resolve α} {f : α → Resolve β} {b : β} :
    (m >>= f) memo = .ok (b, memo') ↔
      ∃ a between, m memo = .ok (a, between) ∧ f a between = .ok (b, memo') := by
  change (m memo >>= fun p => f p.1 p.2) = _ ↔ _
  cases m memo with
  | error d => simp [bind, Except.bind]
  | ok p =>
    cases p
    simp [bind, Except.bind]

/-- What a computation answers, apart from the memory that it leaves. -/
theorem run'_eq_ok {m : Resolve α} {a : α} :
    m.run' memo = .ok a ↔ ∃ left, m memo = .ok (a, left) := by
  rw [StateT.run']
  cases m memo with
  | error d =>
    constructor
    · intro heq
      cases heq
    · rintro ⟨left, heq⟩
      cases heq
  | ok r =>
    constructor
    · intro heq
      cases heq
      exact ⟨r.2, rfl⟩
    · rintro ⟨left, heq⟩
      cases heq
      rfl

/-- A remembered answer, or a new one. -/
theorem remembered_eq_ok {t r : Ty} {compute : Resolve Ty} :
    remembered t compute memo = .ok (r, memo') ↔
      (memo.known.lookup t = some r ∧ memo' = memo) ∨
        (memo.known.lookup t = none ∧
          ∃ between, compute memo = .ok (r, between) ∧ memo' = memo.after t r between) := by
  cases hfound : memo.known.lookup t with
  | some known =>
    have hhit : (remembered t compute).run memo = .ok (known, memo) := by
      simp [remembered, hfound]
      rfl
    change remembered t compute memo = .ok (known, memo) at hhit
    rw [hhit]
    simp [eq_comm]
  | none =>
    have hmiss : (remembered t compute).run memo =
        (compute.run memo >>= fun p => .ok (p.1, memo.after t p.1 p.2)) := by
      simp [remembered, hfound, Memo.after]
      rfl
    change remembered t compute memo =
      (compute memo >>= fun p => .ok (p.1, memo.after t p.1 p.2)) at hmiss
    rw [hmiss]
    cases compute memo with
    | error d => simp [bind, Except.bind]
    | ok p =>
      constructor
      · intro heq
        cases heq
        exact .inr ⟨rfl, p.2, rfl, rfl⟩
      · rintro (⟨hnone, -⟩ | ⟨-, between, heq, rfl⟩)
        · cases hnone
        · cases heq
          rfl

end Resolve

/-- The logic of computations that keep to remembered answers which satisfy `E`. -/
def Resolve.Logic.keeping (E : Ty → Ty → Prop) : Logic where
  Rel m _ Q := ∀ memo a memo', memo.Each E → m memo = .ok (a, memo') →
    memo'.Each E ∧ ∃ a', Q a a'
  pure hholds memo a memo' heach hran := by
    cases hran
    exact ⟨heach, _, hholds⟩
  bind h hnext memo b memo' heach hran := by
    obtain ⟨a, between, hfirst, hsecond⟩ := Resolve.bind_eq_ok.mp hran
    obtain ⟨heach, a', hholds⟩ := h memo a between heach hfirst
    obtain ⟨heach, b', himplies⟩ := hnext a a' between b memo' heach hsecond
    exact ⟨heach, b', himplies hholds⟩
  ask {_ _ look _ _ _} h memo b memo' heach hran := by
    cases look with
    | ok a => exact h a rfl memo b memo' heach hran
    | error d => cases hran

/-- What is true of the answer of the first part may be used for the second. -/
theorem Resolve.Logic.keeping_bind {E : Ty → Ty → Prop} {α β : Type} {m : Resolve α}
    {f : α → Resolve β} {Q : α → Prop} {R : β → Prop} (h : (keeping E).Rel m m fun a _ => Q a)
    (hnext : ∀ a, Q a → (keeping E).Rel (f a) (f a) fun b _ => R b) :
    (keeping E).Rel (m >>= f) (m >>= f) fun b _ => R b := by
  intro memo b memo' heach hran
  obtain ⟨a, between, hfirst, hsecond⟩ := Resolve.bind_eq_ok.mp hran
  obtain ⟨heach, -, hholds⟩ := h memo a between heach hfirst
  exact hnext a hholds between b memo' heach hsecond

/-- An answer that is remembered, cut or computed satisfies `E` as soon as the computed ones do. -/
theorem Resolve.Logic.keeping_remembered {E : Ty → Ty → Prop} {t : Ty} {m : Resolve Ty}
    (h : (keeping E).Rel m m fun r _ => E t r) :
    (keeping E).Rel (remembered t m) (remembered t m) fun r _ => E t r := by
  intro memo r memo' heach hran
  rcases Resolve.remembered_eq_ok.mp hran with ⟨hfound, rfl⟩ | ⟨-, between, hcomputed, rfl⟩
  · exact ⟨heach, r, heach.found hfound⟩
  · obtain ⟨heach', -, hholds⟩ := h memo r between heach hcomputed
    exact ⟨heach'.after fun _ => hholds, r, hholds⟩

section Answers

variable {s : Run}

/-- The handles in the parts of a type have entries if those of the type have. -/
theorem Run.Holds.child {t c : Ty} (hholds : s.Holds t) (hmem : c ∈ t.children) : s.Holds c :=
  fun d hinside => hholds d (Ty.handles_child hmem hinside)

/-- What is true of the answer for every type, on every path. -/
theorem resolveOn_keeps (hvalid : s.Valid) (hnormal : s.Normal) (path : Path) (t : Ty) :
    s.Holds t → t.Normal →
      (Logic.keeping (Resolved s)).Rel (resolveOn s path t) (resolveOn s path t)
        fun r _ => Resolved s t r := by
  refine resolve_induction (s := s) (fun path t hparts hstored => ?_) path t
  intro hholds hnormalT
  rw [resolveOn_eq, answerBy]
  split
  · refine Logic.keeping_remembered (Logic.ite _ (fun hblocked => ?_) fun hfree => ?_)
    · intro memo r memo' heach hran
      cases hran
      refine ⟨heach, .any, s.plain_any, fun hdetached => ?_⟩
      cases hblocked.symm.trans (Path.blocks_of_isDetached path hdetached)
    · refine Logic.mono _ (Logic.expand _ (A := fun c r _ => Resolved s c r) ?_ ?_)
        fun r r' h => h.resolved hnormalT hholds
      · exact fun c hmem => hparts c hmem (hholds.child hmem) (hnormalT.child hmem)
      · exact fun c hunder => hstored c hunder (by simpa using hfree) (hvalid.stored hunder.stored)
          (hnormal c hunder.stored)
  · next hatomic =>
    exact Logic.pure _ (Expands.resolved (.atom (by simpa using hatomic)) hnormalT hholds)

/-- **The answer for a type.**  Whatever was resolved before, and on every path, a type is answered
with a plain type. -/
theorem resolveOn_resolved (hvalid : s.Valid) (hnormal : s.Normal) (path : Path) {t : Ty}
    (hholds : s.Holds t) (hnormalT : t.Normal) {memo : Memo} (heach : memo.Each (Resolved s)) :
    ∃ r memo', resolveOn s path t memo = .ok (r, memo') ∧ memo'.Each (Resolved s) ∧
      Resolved s t r := by
  obtain ⟨r, memo', hran⟩ := resolveAt_succeeds hvalid _ path hholds memo
  obtain ⟨heach', -, hresolved⟩ := resolveOn_keeps hvalid hnormal path t hholds hnormalT memo r
    memo' heach hran
  exact ⟨r, memo', hran, heach', hresolved⟩

end Answers

/-! ### The tables of a result -/

section Tables

variable {s : Run} {E : Ty → Ty → Prop}

/-- What is true of each global, from the literal, the class and the answer that it is made of. -/
theorem Resolve.Logic.keeping_globals {A : GlobalInfo → Prop} {bindings : Fields}
    (hanswers : ∀ g ∈ bindings, ∀ func cls, literalOf s g.2.singleClosure? = .ok func →
      classOf s g.2.singleClosure? = .ok cls →
        (keeping E).Rel (resolve s g.2) (resolve s g.2) fun r _ => A ⟨g.1, r, func, cls⟩) :
    (keeping E).Rel (resolveGlobals s bindings) (resolveGlobals s bindings)
      fun out _ => ∀ g ∈ out, A g := by
  induction bindings with
  | nil => exact Logic.pure _ (by simp)
  | cons g rest ih =>
    obtain ⟨hhere, hothers⟩ := List.forall_mem_cons.mp hanswers
    have hlater := ih hothers
    rw [resolveGlobals]
    refine Logic.ite _ (fun _ => hlater) fun _ => ?_
    refine Logic.ask _ fun func hliteral => Logic.ask _ fun cls hctor => ?_
    refine keeping_bind (hhere func cls hliteral hctor) fun r hanswer => ?_
    refine keeping_bind hlater fun out hothers => Logic.pure _ ?_
    exact List.forall_mem_cons.mpr ⟨hanswer, hothers⟩

variable {A : Ty → Prop}
  (hanswers : ∀ t ∈ s.types, (Logic.keeping E).Rel (resolve s t) (resolve s t) fun r _ => A r)

include hanswers

/-- The types of nodes satisfy what all answers do; an access that is never reached is answered with
`any`. -/
theorem Resolve.Logic.keeping_nodes (hany : A .any) {nodes : List (NodeId × Ty)}
    (hstored : ∀ e ∈ nodes, e.2 ∈ s.types) :
    (keeping E).Rel (resolveNodes s nodes) (resolveNodes s nodes)
      fun out _ => ∀ e ∈ out, A e.2 := by
  induction nodes with
  | nil => exact Logic.pure _ (by simp)
  | cons e rest ih =>
    obtain ⟨hmem, hlater⟩ := List.forall_mem_cons.mp hstored
    refine keeping_bind (hanswers e.2 hmem) fun r hanswer => ?_
    refine keeping_bind (ih hlater) fun out hothers => Logic.pure _ ?_
    refine List.forall_mem_cons.mpr ⟨?_, hothers⟩
    dsimp only
    split
    · exact hany
    · exact hanswer

/-- Stored fields are answered with types that satisfy what all answers do. -/
theorem Resolve.Logic.keeping_fields {fs : Fields} (hstored : fs.types ⊆ s.types) :
    (keeping E).Rel (TypeFlow.enterFields (resolve s) fs) (TypeFlow.enterFields (resolve s) fs)
      fun out _ => ∀ t ∈ out.types, A t := by
  have hentered := (keeping E).enterFields (A := fun _ r _ => A r)
    fun e hmem => hanswers e.2 (hstored (Fields.mem_types hmem))
  refine Logic.mono _ hentered fun out out' heach t hmem => ?_
  obtain ⟨e, hinside, rfl⟩ := List.mem_map.mp hmem
  exact heach.forall_left e hinside

/-- So are the bindings of scopes. -/
theorem Resolve.Logic.keeping_scopes {scopes : List Scope}
    (hstored : ∀ c ∈ scopes, c.bindings.types ⊆ s.types) :
    (keeping E).Rel (resolveScopes s scopes) (resolveScopes s scopes)
      fun out _ => ∀ c ∈ out, ∀ t ∈ c.bindings.types, A t := by
  induction scopes with
  | nil => exact Logic.pure _ (by simp)
  | cons c rest ih =>
    obtain ⟨hsubset, hlater⟩ := List.forall_mem_cons.mp hstored
    refine keeping_bind (keeping_fields hanswers hsubset) fun fs hanswered => ?_
    refine keeping_bind (ih hlater) fun out hothers => Logic.pure _ ?_
    exact List.forall_mem_cons.mpr ⟨hanswered, hothers⟩

/-- So are the methods and fields of constructors. -/
theorem Resolve.Logic.keeping_ctors (globals : Fields) {id : Nat} {cs : List Ctor}
    (hstored : ∀ c ∈ cs, Ctor.entry.types c ⊆ s.types) :
    (keeping E).Rel (resolveCtors s globals id cs) (resolveCtors s globals id cs)
      fun out _ => ∀ c ∈ out, ∀ t ∈ c.methods.types ++ c.fields.types, A t := by
  induction cs generalizing id with
  | nil => exact Logic.pure _ (by simp)
  | cons c rest ih =>
    obtain ⟨hsubset, hlater⟩ := List.forall_mem_cons.mp hstored
    rw [resolveCtors]
    refine Logic.ask _ fun func _ => Logic.ask _ fun parent _ => ?_
    refine keeping_bind (keeping_fields hanswers fun t hmem => ?_) fun methods hanswered => ?_
    · exact hsubset (List.mem_append_left _ hmem)
    refine Logic.ask _ fun written heq => ?_
    refine keeping_bind (keeping_fields hanswers fun t hmem => ?_) fun fields hanswered' => ?_
    · exact s.ctor_types (Protos.instanceFields_mem heq hmem)
    refine keeping_bind (ih hlater) fun out hothers => Logic.pure _ ?_
    exact List.forall_mem_cons.mpr ⟨List.forall_mem_append.mpr ⟨hanswered, hanswered'⟩, hothers⟩

end Tables

/-! ### The result of a run -/

/-- The types in a result. -/
def TypeMap.types (m : TypeMap) : List Ty :=
  m.nodeTypes.map (·.2) ++ m.scopes.toList.flatMap (·.bindings.types) ++
    m.funcs.map (·.2.signature) ++
    m.ctors.toList.flatMap (fun c => c.methods.types ++ c.fields.types) ++ m.globals.map (·.ty)

section Result

variable {s : Run} (hvalid : s.Valid) (hnormal : s.Normal)

/-- A computation that keeps to remembered answers, and what is true of its result. -/
def Run.Gives (s : Run) {α : Type} (m : Resolve α) (Q : α → Prop) : Prop :=
  (Logic.keeping (Resolved s)).Rel m m fun a _ => Q a

omit hvalid hnormal in
/-- Computations one after the other. -/
theorem Run.Gives.bind {α β : Type} {m : Resolve α} {f : α → Resolve β} {Q : α → Prop}
    {R : β → Prop} (h : s.Gives m Q) (hnext : ∀ a, Q a → s.Gives (f a) R) : s.Gives (m >>= f) R :=
  Logic.keeping_bind h hnext

include hvalid hnormal

/-- A normal type whose handles have entries is answered with a plain type. -/
theorem resolve_plain {t : Ty} (hholds : s.Holds t) (hnormalT : t.Normal) :
    s.Gives (resolve s t) s.Plain :=
  Logic.mono _ (resolveOn_keeps hvalid hnormal Path.empty t hholds hnormalT) fun _ _ h => h.plain

/-- A stored type is answered with a plain type. -/
theorem resolve_stored {t : Ty} (hmem : t ∈ s.types) : s.Gives (resolve s t) s.Plain :=
  resolve_plain hvalid hnormal (hvalid.stored hmem) (hnormal t hmem)

/-- The signatures of functions are plain: those of closures of one literal are joined. -/
theorem resolveFuncs_plain {acc : OrdMap NodeId FuncInfo} {id : Nat} {cs : List Closure}
    (hwithin : id + cs.length ≤ s.closures.table.size) (hplain : ∀ e ∈ acc, s.Plain e.2.signature) :
    s.Gives (resolveFuncs s acc id cs) fun out => ∀ e ∈ out, s.Plain e.2.signature := by
  induction cs generalizing acc id with
  | nil => exact Logic.pure _ hplain
  | cons c rest ih =>
    rw [List.length_cons] at hwithin
    have hholds : s.Holds (.closure id c.func.params.length) := by
      intro d hmem
      rw [Ty.handles_closure] at hmem
      cases List.mem_singleton.mp hmem
      exact Nat.lt_of_lt_of_le (Nat.lt_add_of_pos_right (Nat.succ_pos _)) hwithin
    refine Run.Gives.bind (resolve_plain hvalid hnormal hholds (Ty.normal_closure _ _)) ?_
    intro signature hnew
    refine ih (by omega) fun e hmem => ?_
    rcases OrdMap.mem_upsert_of_mem hmem with rfl | ⟨old, hpresent, rfl⟩ | hmem
    · exact hnew
    · exact (hplain _ hpresent).join hnew
    · exact hplain e hmem

/-- All types in a result are plain, whatever the order of the nodes. -/
theorem buildTypeMap_plain (order : NodeOrder) :
    s.Gives (buildTypeMapIn s (order.list s.nodeTypes)) fun m => ∀ t ∈ m.types, s.Plain t := by
  have hanswers : ∀ t ∈ s.types, s.Gives (resolve s t) s.Plain := fun t =>
    resolve_stored hvalid hnormal
  refine Run.Gives.bind (Logic.keeping_nodes hanswers s.plain_any fun e hmem => ?_) ?_
  · exact s.node_types (List.mem_map_of_mem ((order.perm _).mem_iff.mp hmem))
  intro nodes hplainNodes
  refine Run.Gives.bind (Logic.keeping_scopes hanswers fun c hmem t hlisted => ?_) ?_
  · exact s.scope_types (List.mem_flatMap.mpr ⟨c, hmem, hlisted⟩)
  intro scopes hplainScopes
  refine Run.Gives.bind (resolveFuncs_plain hvalid hnormal ?_ nofun) fun funcs hplainFuncs => ?_
  · rw [Array.length_toList, Nat.zero_add]
  refine Logic.ask _ fun global heq => ?_
  have hbound : global.bindings.types ⊆ s.types := fun t hmem =>
    s.scope_types (Entry.types_subset (Env.scope_eq_ok heq) hmem)
  refine Run.Gives.bind (Logic.keeping_globals (A := fun g => s.Plain g.ty)
    fun g hmem _ _ _ _ => hanswers g.2 (hbound (Fields.mem_types hmem)))
      fun globals hplainGlobals => ?_
  refine Run.Gives.bind (Logic.keeping_ctors hanswers _ fun c hmem t hlisted => ?_) ?_
  · exact s.ctor_types (List.mem_flatMap.mpr ⟨c, hmem, hlisted⟩)
  intro ctors hplainCtors
  refine Logic.pure _ fun t hmem => ?_
  simp only [TypeMap.types, List.mem_append, List.mem_map, List.mem_flatMap] at hmem
  obtain (((⟨e, hinside, rfl⟩ | ⟨c, hinside, hlisted⟩) | ⟨e, hinside, rfl⟩) | ⟨c, hinside, hlisted⟩)
    | ⟨g, hinside, rfl⟩ := hmem
  · exact hplainNodes e hinside
  · exact hplainScopes c hinside t hlisted
  · exact hplainFuncs e hinside
  · exact hplainCtors c hinside t (List.mem_append.mpr hlisted)
  · exact hplainGlobals g hinside

end Result

/-! ### Ending a run -/

/-- Ending a run gives a result, all types of which are normal and carry no live handle. -/
theorem finish_detached {s : Run} (order : NodeOrder) (hvalid : s.Valid) (hnormal : s.Normal) :
    ∃ m t, finish order s = .ok m t ∧ ∀ a ∈ m.types, a.Normal ∧ a.isDetached = true := by
  let opened : Run := { s with log := s.log.push (.enterFinish s.closures.table.size) }
  -- the sweeps keep both to valid handles and to normal types
  have hsteps {D : Discipline} (hreports : D.reports) (hinv : D.Inv s) (hsim : D.Sim s s) :
      D.Outcome none s (fun _ _ => True) (analyseUncalled opened) (analyseUncalled opened) := by
    exact (Discipline.Does.emit hinv (.enterFinish s.closures.table.size)).bind
      (fun _ t hinv _ _ => Discipline.Does.analyseUncalled hreports hinv) s hsim
  have hvalidity := hsteps (D := validHandles) trivial ((validHandles_inv_iff s).mpr hvalid) rfl
  have hnormality := hsteps (D := normalTypes) trivial (normalTypes_inv hnormal) rfl
  cases hran : analyseUncalled opened with
  | error e t =>
    cases e with
    | malformed e => exact absurd hran (analyseUncalled_calm _ _ _)
    | dangling d => exact absurd trivial (hvalidity.fails hran)
  | ok _ t =>
    have hafter : TypeFlow.after analyseUncalled opened = t := by rw [TypeFlow.after, hran]
    have hvalidT : t.Valid := hafter ▸ (validHandles_inv_iff _).mp hvalidity.after.1
    have hnormalT : t.Normal := hafter ▸ hnormality.after.1.good
    obtain ⟨m, memo, hbuilt⟩ := buildTypeMap_succeeds hvalidT order Memo.empty
    obtain ⟨-, -, hplain⟩ :=
      buildTypeMap_plain hvalidT hnormalT order Memo.empty m memo (Memo.each_empty _) hbuilt
    refine ⟨m, { t with log := t.log.push .exitFinish }, ?_, fun a hmem => ?_⟩
    · have hresult : (buildTypeMapIn t (order.list t.nodeTypes)).run' Memo.empty = .ok m := by
        rw [StateT.run', hbuilt]
        rfl
      have hasked :
          Walk.ask (fun t => (buildTypeMapIn t (order.list t.nodeTypes)).run' Memo.empty) t =
            .ok m t := by
        rw [Walk.ask, hresult]
      change EStateM.bind analyseUncalled _ opened = _
      rw [EStateM.bind, hran]
      change EStateM.bind (Walk.ask _) _ t = _
      rw [EStateM.bind, hasked]
      rfl
    · exact ⟨(hplain a hmem).normal, (hplain a hmem).detached⟩

/-- Resolution ends and strips all live handles.  In a state in which all handles have entries and
all types are normal, however its entries refer to each other, resolution is the only solution of
its recursion.  On every path, and whatever was resolved before, a type is answered with a normal
type without live handles, which is answered with itself ever after; a type without live handles is
its own answer.  Ending the run gives a result in which no type has a live handle.  Every run from
globals without handles leads to such states. -/
theorem resolution_strips_handles :
    (∀ s : Run, s.Valid → s.Normal →
      (∀ r : Path → Ty → Resolve Ty, r = resolveWith s r ↔ r = resolveOn s) ∧
      (∀ path t memo, s.Holds t → t.Normal → memo.Each (Resolved s) →
        ∃ r memo', resolveOn s path t memo = .ok (r, memo') ∧ memo'.Each (Resolved s) ∧
          r.Normal ∧ r.isDetached = true ∧ (t.isDetached = true → r = t) ∧
          ∀ path memo, memo.Each (Resolved s) →
            ∃ memo', resolveOn s path r memo = .ok (r, memo')) ∧
      ∀ order, ∃ m t, finish order s = .ok m t ∧
        ∀ a ∈ m.types, a.Normal ∧ a.isDetached = true) ∧
    ∀ (options : Options) (globals : Globals), (∀ g ∈ globals, g.2.handles = []) →
      (∀ g ∈ globals, g.2.Normal) → ∀ ps,
        (after (inferPrograms ps) (Run.start options globals)).Valid ∧
          (after (inferPrograms ps) (Run.start options globals)).Normal := by
  constructor
  · intro s hvalid hnormal
    refine ⟨resolveOn_unique s, fun path t memo hholds hnormalT heach => ?_,
      fun order => finish_detached order hvalid hnormal⟩
    obtain ⟨r, memo', hran, heach', hresolved⟩ :=
      resolveOn_resolved hvalid hnormal path hholds hnormalT heach
    have hplain := hresolved.plain
    refine ⟨r, memo', hran, heach', hplain.normal, hplain.detached, hresolved.same, ?_⟩
    -- the answer has no live handles, and such types are their own answers
    intro path memo heach
    obtain ⟨again, memo', hran, -, hresolved⟩ :=
      resolveOn_resolved hvalid hnormal path hplain.holds hplain.normal heach
    rw [hresolved.same hplain.detached] at hran
    exact ⟨memo', hran⟩
  · intro options globals hplain hnormal ps
    have hvalid := (validHandles_inv_iff _).mpr (start_valid options hplain)
    have hnormal := normalTypes_inv (start_types options builtins_normal hnormal)
    have hvalidity : validHandles.Does none _ (inferPrograms ps) fun _ _ => True :=
      Discipline.Does.inferPrograms trivial hvalid fun _ _ _ _ => trivial
    have hnormality : normalTypes.Does none _ (inferPrograms ps) fun _ _ => True :=
      Discipline.Does.inferPrograms trivial hnormal fun _ _ _ _ => trivial
    exact ⟨(validHandles_inv_iff _).mp (hvalidity _ rfl).after.1, (hnormality _ rfl).after.1.good⟩

/-- A state with one object, of which one field is the object itself and another is a number. -/
def selfContaining : Run :=
  { Run.start .standard [] with
    heap := ⟨#[⟨⟨0, Env.global, none⟩, [("self", .ofCell 0), ("size", .number)]⟩],
      Index.empty.note ⟨0, Env.global, none⟩ 0, 1⟩ }

/-- The object is answered with a record in which it occurs as `any`. -/
theorem resolution_strips_handles_selfContaining :
    selfContaining.Valid ∧ selfContaining.Normal ∧
      (resolve selfContaining (.ofCell 0)).run' Memo.empty =
        .ok (.record [("self", .any), ("size", .number)]) ∧
      (∃ r memo, resolve selfContaining (.ofCell 0) Memo.empty = .ok (r, memo) ∧
        r.isDetached = true) := by
  have hvalid : selfContaining.Valid := by decide
  have hnormal : selfContaining.Normal := by decide
  have hholds : ∀ d ∈ (Ty.ofCell 0).handles, selfContaining.HasEntry d := by decide
  obtain ⟨-, hanswers, -⟩ := resolution_strips_handles.1 selfContaining hvalid hnormal
  obtain ⟨r, memo, hran, -, -, hdetached, -⟩ := hanswers Path.empty (.ofCell 0) Memo.empty hholds
    (by decide) (Memo.each_empty _)
  exact ⟨hvalid, hnormal, by decide, r, memo, hran, hdetached⟩

end TypeFlow
