import Mathlib
import TypeFlow.Proofs.Result.Detached
import TypeFlow.Script.Builder

/-!
# What remembered answers change

A type that was resolved without cutting a cycle is remembered, and its answer is the type unfolded
all the way.  The answer is given again wherever the type is met again, even where resolving it anew
would cut at a handle on the path.  A type may carry several handles at once, all of which are then
on the path, and a type inside it that carries one of them need not lead back to itself.  For such
types the answer depends on what was resolved before; for all others it does not.

## Main Definitions

* `Unfolds` - a type unfolded all the way
* `Run.Untangled` - whatever shares a handle with a type around it leads back to itself
* `Ty.Scattered` - no member of the type has two handles
* `Resolve.Fixed` - computations that answer the same from all memories of unfolded answers

## Main Statements

* `Unfolds.unique` - a type unfolds in one way
* `resolveOn_clean` - an answer without cuts is the type unfolded
* `resolveOn_fixed` - what an untangled type is answered with does not depend on the memory
* `Run.untangled_of_scattered` - where no type carries two handles at once, all are untangled
* `untangled_order_independent` - untangled types may be resolved in any order
* `sharing_order_dependent` - others may not
-/

namespace TypeFlow

open Resolve

/-! ### Unfolding -/

/-- The declared signature of a closure, given the answers for its types. -/
def Run.declared (s : Run) (g : Ty → Ty) (id : ClosureId) : Ty :=
  match s.closures.table[id]? with
  | some c => .signature (c.params.map g) (if c.selfReferential then .any else g c.ret)
  | none => .never

/-- Fields, given the answers for their types. -/
def Fields.answered (g : Ty → Ty) (fs : Fields) : Fields :=
  fs.map fun e => (e.1, g e.2)

/-- Fields that are shown under a handle, given the answers for their types. -/
def answeredFields (g : Ty → Ty) : Except Dangling Fields → Fields
  | .ok fs => fs.answered g
  | .error _ => []

/-- A type put together from answers for the types that are met in it. -/
def rebuild (s : Run) (g : Ty → Ty) : Ty → Ty
  | .func f =>
    f.closures.foldl (fun acc id => acc.join (s.declared g id))
      (.signature (f.params.map g) (g f.ret))
  | .obj o =>
    let own := Fields.answered g o.fields
    let withCells :=
      o.cells.foldl (fun acc id => Fields.merge acc (answeredFields g (s.cellFields id))) own
    let shown :=
      o.protoOf.foldl
        (fun acc id => Fields.merge acc (answeredFields g (s.protos.prototypeMembers id))) withCells
    .obj ⟨shown, [], o.ctors, []⟩
  | .union ms => ms.foldl (fun acc m => acc.join (g m)) .never
  | t => t

/-- A type unfolded all the way: it is put together from the types met in it, unfolded. -/
inductive Unfolds (s : Run) : Ty → Ty → Prop
  | step {t : Ty} (g : Ty → Ty) : (∀ c, s.Meets t c → Unfolds s c (g c)) →
    Unfolds s t (rebuild s g t)

section Rebuild

variable {s : Run} {g g' : Ty → Ty}

theorem Fields.answered_congr {fs : Fields} (hsame : ∀ e ∈ fs, g e.2 = g' e.2) :
    fs.answered g = fs.answered g' := by
  refine List.map_congr_left fun e hmem => ?_
  rw [hsame e hmem]

theorem answeredFields_congr {shown : Except Dangling Fields}
    (hsame : ∀ fs, shown = .ok fs → ∀ e ∈ fs, g e.2 = g' e.2) :
    answeredFields g shown = answeredFields g' shown := by
  cases shown with
  | ok fs => exact Fields.answered_congr (hsame fs rfl)
  | error d => rfl

/-- The declared signature of a closure depends on the answers for what is stored under it. -/
theorem Run.declared_congr {f : FuncTy} (hsame : ∀ c, s.Under (.func f) c → g c = g' c)
    {id : ClosureId} (hmem : id ∈ f.closures) : s.declared g id = s.declared g' id := by
  unfold Run.declared
  cases hfound : s.closures.table[id]? with
  | none => rfl
  | some c =>
    have hparams : c.params.map g = c.params.map g' :=
      List.map_congr_left fun p hinside => hsame p (.param hmem hfound hinside)
    by_cases hown : c.selfReferential = true
    · simp [hparams, hown]
    · simp [hparams, hown, hsame c.ret (.ret hmem hfound (by simpa using hown))]

/-- What a type is put together to depends only on the answers for the types met in it. -/
theorem rebuild_congr {t : Ty} (hsame : ∀ c, s.Meets t c → g c = g' c) :
    rebuild s g t = rebuild s g' t := by
  cases t with
  | func f =>
    have hparams : f.params.map g = f.params.map g' :=
      List.map_congr_left fun p hmem => hsame p (.inl (List.mem_append_left _ hmem))
    have hret : g f.ret = g' f.ret :=
      hsame f.ret (.inl (List.mem_append_right _ (List.mem_singleton_self _)))
    rw [rebuild, rebuild, hparams, hret]
    refine List.foldl_ext _ _ _ fun acc id hmem => ?_
    rw [Run.declared_congr (fun c hunder => hsame c (.inr hunder)) hmem]
  | obj o =>
    have hown : Fields.answered g o.fields = Fields.answered g' o.fields :=
      Fields.answered_congr fun e hmem => hsame e.2 (.inl (List.mem_map_of_mem hmem))
    have hcells (acc : Fields) (id : CellId) (hmem : id ∈ o.cells) :
        Fields.merge acc (answeredFields g (s.cellFields id)) =
          Fields.merge acc (answeredFields g' (s.cellFields id)) := by
      rw [answeredFields_congr fun fs heq e hinside => hsame e.2 (.inr (.field hmem heq hinside))]
    have hprotos (acc : Fields) (id : CtorId) (hmem : id ∈ o.protoOf) :
        Fields.merge acc (answeredFields g (s.protos.prototypeMembers id)) =
          Fields.merge acc (answeredFields g' (s.protos.prototypeMembers id)) := by
      rw [answeredFields_congr fun fs heq e hinside => hsame e.2 (.inr (.shown hmem heq hinside))]
    simp only [rebuild, hown, List.foldl_ext _ _ _ hcells, List.foldl_ext _ _ _ hprotos]
  | union ms =>
    refine List.foldl_ext _ _ _ fun acc m hmem => ?_
    rw [hsame m (.inl hmem)]
  | _ => rfl

/-- A type unfolds in one way. -/
theorem Unfolds.unique {t r r' : Ty} (h : Unfolds s t r) (h' : Unfolds s t r') : r = r' := by
  induction h generalizing r' with
  | step g _ ih =>
    cases h' with
    | step g' hinside => exact rebuild_congr fun c hmeets => ih c hmeets (hinside c hmeets)

/-- A type that is unfolded is put together from unfolded answers for what is met in it. -/
theorem Unfolds.inside {t r : Ty} (h : Unfolds s t r) :
    ∃ g, r = rebuild s g t ∧ ∀ c, s.Meets t c → Unfolds s c (g c) := by
  cases h with
  | step g hinside => exact ⟨g, rfl, hinside⟩

/-- What unfolds does not lead back to itself. -/
theorem Unfolds.acyclic {t r : Ty} (h : Unfolds s t r) : ¬ Relation.TransGen s.Meets t t := by
  induction h with
  | step g _ ih =>
    intro hcycle
    obtain ⟨c, hfirst, hrest⟩ := Relation.TransGen.head'_iff.mp hcycle
    exact ih c hfirst (.tail' hrest hfirst)

end Rebuild

/-! ### Answers that are given by a function -/

section Given

variable {s : Run} {g : Ty → Ty}

/-- Answers that are given by a function, type by type. -/
theorem EachTy.given {ts rs rs' : List Ty} (h : EachTy (fun c r _ => r = g c) ts rs rs') :
    rs = ts.map g := by
  induction h with
  | nil => rfl
  | cons hfirst _ hrest => rw [hfirst, hrest, List.map_cons]

theorem EachField.given {fs gs gs' : Fields} (h : EachField (fun c r _ => r = g c) fs gs gs') :
    gs = fs.answered g := by
  induction h with
  | nil => rfl
  | cons hfirst _ hrest => rw [hfirst, hrest, Fields.answered, Fields.answered, List.map_cons]

/-- Signatures are joined from the answers that a function gives. -/
theorem JoinsSignatures.given {ids : List ClosureId} {acc out : Ty × Ty}
    (h : JoinsSignatures (fun c r _ => r = g c) s.closures ids acc out) :
    out.1 = ids.foldl (fun acc id => acc.join (s.declared g id)) acc.1 := by
  induction h with
  | nil => rfl
  | @cons id ids c r r' ps ps' acc out hfound hdeclared heach _ ih =>
    have hsignature : Ty.signature ps r = s.declared g id := by
      rw [Run.declared, hfound, heach.given]
      unfold Declares at hdeclared
      split at hdeclared
      · next hown => simp [hown, hdeclared.1]
      · next hne => simp [hne, hdeclared]
    rw [ih, List.foldl_cons, hsignature]

/-- Fields are merged from the answers that a function gives. -/
theorem MergesFields.given {shown : Nat → Except Dangling Fields} {ids : List Nat}
    {acc out : Fields × Fields} (h : MergesFields (fun c r _ => r = g c) shown ids acc out) :
    out.1 = ids.foldl (fun acc id => Fields.merge acc (answeredFields g (shown id))) acc.1 := by
  induction h with
  | nil => rfl
  | cons hfound heach _ ih => rw [ih, List.foldl_cons, hfound, heach.given, answeredFields]

theorem JoinsMembers.given {ts : List Ty} {acc out : Ty × Ty}
    (h : JoinsMembers (fun c r _ => r = g c) ts acc out) :
    out.1 = ts.foldl (fun acc m => acc.join (g m)) acc.1 := by
  induction h with
  | nil => rfl
  | cons hfirst _ ih => rw [ih, List.foldl_cons, hfirst]

/-- An expansion from the answers that a function gives puts the type together from them. -/
theorem Expands.given {t r r' : Ty} (h : Expands (fun c r _ => r = g c) s t r r') :
    r = rebuild s g t := by
  cases h with
  | atom hatomic => cases t <;> first | rfl | cases hatomic
  | func heach hresult hjoined => rw [hjoined.given, heach.given, hresult, rebuild]
  | obj hown hcells hprotos => simp only [rebuild, hprotos.given, hcells.given, hown.given]
  | union hjoined => rw [hjoined.given, rebuild]

/-- An answer that is put together from unfolded types is unfolded. -/
theorem Expands.unfolds {t r r' : Ty} (h : Expands (fun c r _ => Unfolds s c r) s t r r') :
    Unfolds s t r := by
  classical
  let g : Ty → Ty := fun c => if hinside : ∃ r, Unfolds s c r then hinside.choose else c
  have hchosen {c r : Ty} (hunfolds : Unfolds s c r) : r = g c := by
    have hinside : ∃ r, Unfolds s c r := ⟨r, hunfolds⟩
    have : g c = hinside.choose := dif_pos hinside
    rw [this]
    exact hunfolds.unique hinside.choose_spec
  have hgiven : r = rebuild s g t := (h.mono fun c r _ hunfolds => hchosen hunfolds).given
  rw [hgiven]
  refine .step g fun c hmeets => ?_
  obtain ⟨r, -, hunfolds⟩ := h.answered hmeets
  exact hchosen hunfolds ▸ hunfolds

/-- A type that is no compound is unfolded. -/
theorem Unfolds.atom {t : Ty} (hatomic : t.isCompound = false) : Unfolds s t t :=
  Expands.unfolds (.atom hatomic)

end Given

/-! ### What is remembered -/

section Clean

variable {s : Run}

/-- The logic of computations that keep to remembered answers which are unfolded, and what is true
of their results when they cut no cycle. -/
def Resolve.Logic.clean (s : Run) : Logic where
  Rel m _ Q := ∀ memo a memo', memo.Each (Unfolds s) → m memo = .ok (a, memo') →
    memo'.Each (Unfolds s) ∧ memo.cuts ≤ memo'.cuts ∧ (memo'.cuts = memo.cuts → ∃ a', Q a a')
  pure hholds memo a memo' heach hran := by
    cases hran
    exact ⟨heach, Nat.le_refl _, fun _ => ⟨_, hholds⟩⟩
  bind h hnext memo b memo' heach hran := by
    obtain ⟨a, between, hfirst, hsecond⟩ := Resolve.bind_eq_ok.mp hran
    obtain ⟨heach, hle, hholds⟩ := h memo a between heach hfirst
    obtain ⟨heach', hle', -⟩ := hnext a a between b memo' heach hsecond
    refine ⟨heach', hle.trans hle', fun hnone => ?_⟩
    -- cycles that are cut stay counted, so neither half has cut one
    obtain ⟨a', hholds⟩ := hholds (by omega)
    obtain ⟨-, -, himplies⟩ := hnext a a' between b memo' heach hsecond
    obtain ⟨b', himplies⟩ := himplies (by omega)
    exact ⟨b', himplies hholds⟩
  ask {_ _ look _ _ _} h memo b memo' heach hran := by
    cases look with
    | ok a => exact h a rfl memo b memo' heach hran
    | error d => cases hran

/-- An answer that is remembered cuts nothing. -/
theorem Memo.cuts_after (before : Memo) (t r : Ty) (memo : Memo) :
    (before.after t r memo).cuts = memo.cuts := by
  unfold Memo.after
  split <;> rfl

/-- An answer is remembered only if no cycle was cut, so what is remembered is unfolded. -/
theorem Resolve.Logic.clean_remembered {t : Ty} {m : Resolve Ty}
    (h : (clean s).Rel m m fun r _ => Unfolds s t r) :
    (clean s).Rel (remembered t m) (remembered t m) fun r _ => Unfolds s t r := by
  intro memo r memo' heach hran
  rcases Resolve.remembered_eq_ok.mp hran with ⟨hfound, rfl⟩ | ⟨-, between, hcomputed, rfl⟩
  · exact ⟨heach, Nat.le_refl _, fun _ => ⟨r, heach.found hfound⟩⟩
  · obtain ⟨heach', hle, hholds⟩ := h memo r between heach hcomputed
    rw [Memo.cuts_after]
    exact ⟨heach'.after fun hsame => (hholds hsame).choose_spec, hle, hholds⟩

/-- **What is remembered.**  An answer that is given without cutting a cycle is the type unfolded,
on whatever path the type was met; no other answer is remembered. -/
theorem resolveOn_clean (s : Run) (path : Path) (t : Ty) :
    (Logic.clean s).Rel (resolveOn s path t) (resolveOn s path t) fun r _ => Unfolds s t r := by
  refine resolve_induction (s := s) (fun path t hparts hstored => ?_) path t
  rw [resolveOn_eq, answerBy]
  split
  · refine Logic.clean_remembered (Logic.ite _ (fun hblocked => ?_) fun hfree => ?_)
    · intro memo r memo' heach hran
      cases hran
      exact ⟨heach, Nat.le_succ _, fun hnone => absurd hnone (Nat.succ_ne_self _)⟩
    · refine Logic.mono _ (Logic.expand _ (A := fun c r _ => Unfolds s c r) hparts ?_)
        fun r r' h => h.unfolds
      exact fun c hunder => hstored c hunder (by simpa using hfree)
  · next hatomic => exact Logic.pure _ (.atom (by simpa using hatomic))

/-- Resolution remembers unfolded answers only. -/
theorem resolveOn_each {path : Path} {t r : Ty} {memo memo' : Memo} (heach : memo.Each (Unfolds s))
    (hran : resolveOn s path t memo = .ok (r, memo')) : memo'.Each (Unfolds s) :=
  (resolveOn_clean s path t memo r memo' heach hran).1

end Clean

/-! ### Untangled types -/

/-- Whatever is met inside a type and carries a handle of a type around it leads back to itself. -/
def Run.Untangled (s : Run) (t : Ty) : Prop :=
  ∀ w u, Relation.ReflTransGen s.Meets t w → Relation.TransGen s.Meets w u →
    (Path.empty.behind w).blocks u = true → Relation.TransGen s.Meets u u

/-- Whatever is met inside a type and would be cut on the path leads back to itself. -/
def Path.Fair (path : Path) (s : Run) (t : Ty) : Prop :=
  ∀ u, Relation.ReflTransGen s.Meets t u → path.blocks u = true → Relation.TransGen s.Meets u u

/-- The number of handles of the type itself. -/
def Ty.ownHandles : Ty → Nat
  | .func f => f.closures.length
  | .obj o => o.cells.length + o.protoOf.length
  | _ => 0

/-- A type with at most one handle, and none in its parts. -/
def Ty.Lone (t : Ty) : Prop :=
  t.ownHandles ≤ 1 ∧ ∀ c ∈ t.children, c.isDetached = true

/-- A type of which all members are lone. -/
def Ty.Scattered (t : Ty) : Prop :=
  ∀ m ∈ t.members, m.Lone

instance (t : Ty) : Decidable t.Lone :=
  inferInstanceAs (Decidable (_ ∧ ∀ c ∈ t.children, c.isDetached = true))

instance (t : Ty) : Decidable t.Scattered :=
  inferInstanceAs (Decidable (∀ m ∈ t.members, m.Lone))

section Untangled

variable {s : Run} {path : Path} {t c : Ty}

/-- A type that is cut behind another one is cut already before it, or shares a handle with it. -/
theorem Path.blocks_behind {u : Ty} (h : (path.behind t).blocks u = true) :
    path.blocks u = true ∨ (Path.empty.behind t).blocks u = true := by
  cases t with
  | func f =>
    cases u with
    | func g =>
      simp only [Path.behind, Path.blocks, Path.empty, List.any_eq_true, List.contains_iff_mem,
        List.mem_append] at h ⊢
      obtain ⟨id, hmem, hmem' | hinside⟩ := h
      · exact .inr ⟨id, hmem, .inl hmem'⟩
      · exact .inl ⟨id, hmem, hinside⟩
    | _ => exact .inl h
  | obj o =>
    cases u with
    | obj p =>
      simp only [Path.behind, Path.blocks, Path.empty, Bool.or_eq_true, List.any_eq_true,
        List.contains_iff_mem, List.mem_append] at h ⊢
      obtain ⟨id, hmem, hmem' | hinside⟩ | ⟨id, hmem, hmem' | hinside⟩ := h
      · exact .inr (.inl ⟨id, hmem, .inl hmem'⟩)
      · exact .inl (.inl ⟨id, hmem, hinside⟩)
      · exact .inr (.inr ⟨id, hmem, .inl hmem'⟩)
      · exact .inl (.inr ⟨id, hmem, hinside⟩)
    | _ => exact .inl h
  | _ => exact .inl h

/-- On the empty path nothing is cut. -/
theorem Path.fair_empty (s : Run) (t : Ty) : Path.empty.Fair s t := by
  intro u _ hblocked
  rw [Path.blocks_empty] at hblocked
  cases hblocked

/-- What is met inside an untangled type is untangled. -/
theorem Run.Untangled.met (h : s.Untangled t) (hmeets : s.Meets t c) : s.Untangled c :=
  fun w u hreaches => h w u (.head hmeets hreaches)

/-- Behind the handles of an untangled type the path stays fair: what it cuts there leads back to
itself. -/
theorem Path.Fair.behind (hfair : path.Fair s t) (huntangled : s.Untangled t)
    (hmeets : s.Meets t c) :
    (path.behind t).Fair s c := by
  intro u hreaches hblocked
  rcases Path.blocks_behind hblocked with houtside | hinside
  · exact hfair u (.head hmeets hreaches) houtside
  · exact huntangled t u .refl (.head' hmeets hreaches) hinside

/-- In the parts of an untangled type the path stays fair. -/
theorem Path.Fair.into (hfair : path.Fair s t) (huntangled : s.Untangled t) (hmeets : s.Meets t c) :
    (path.into t).Fair s c := by
  cases t with
  | obj o => exact hfair.behind huntangled hmeets
  | _ => exact fun u hreaches hblocked => hfair u (.head hmeets hreaches) hblocked

/-- The parts of a type without handles have none. -/
theorem Ty.isDetached_child (hdetached : t.isDetached = true) (hmem : c ∈ t.children) :
    c.isDetached = true := by
  cases t with
  | func f =>
    obtain ⟨-, hparams, hret⟩ := (Ty.isDetached_func f).mp hdetached
    rcases List.mem_append.mp hmem with hparam | hresult
    · exact hparams c hparam
    · cases List.mem_singleton.mp hresult
      exact hret
  | obj o =>
    obtain ⟨e, hfield, rfl⟩ := List.mem_map.mp hmem
    exact ((Ty.isDetached_obj o).mp hdetached).2 e hfield
  | union ms => exact (Ty.isDetached_union ms).mp hdetached c hmem
  | _ => cases hmem

theorem Ty.ownHandles_of_isDetached (hdetached : t.isDetached = true) : t.ownHandles = 0 := by
  cases t with
  | func f =>
    have hunlinked : f.closures = [] := ((Ty.isDetached_func f).mp hdetached).1
    simp [Ty.ownHandles, hunlinked]
  | obj o =>
    obtain ⟨hcells, hprotos⟩ := ((Ty.isDetached_obj o).mp hdetached).1
    simp [Ty.ownHandles, hcells, hprotos]
  | _ => rfl

/-- Nothing is stored under a type without handles. -/
theorem Run.Under.ownHandles (hunder : s.Under t c) : 0 < t.ownHandles := by
  cases hunder with
  | ret hmem _ _ => exact List.length_pos_of_mem hmem
  | param hmem _ _ => exact List.length_pos_of_mem hmem
  | field hmem _ _ => exact Nat.add_pos_left (List.length_pos_of_mem hmem) _
  | shown hmem _ _ => exact Nat.add_pos_right _ (List.length_pos_of_mem hmem)

/-- From a type without handles only types without handles are met. -/
theorem Run.Meets.isDetached {u : Ty} (hdetached : t.isDetached = true)
    (hreaches : Relation.ReflTransGen s.Meets t u) : u.isDetached = true := by
  induction hreaches with
  | refl => exact hdetached
  | tail _ hmeets ih =>
    rcases hmeets with hpart | hunder
    · exact Ty.isDetached_child ih hpart
    · exact absurd hunder.ownHandles (by simp [Ty.ownHandles_of_isDetached ih])

/-- A function cuts the functions that share a closure with it. -/
theorem Path.blocks_func {f : FuncTy} {u : Ty} (h : (Path.empty.behind (.func f)).blocks u = true) :
    ∃ g, u = .func g ∧ ∃ id ∈ g.closures, id ∈ f.closures := by
  cases u with
  | func g =>
    refine ⟨g, rfl, ?_⟩
    simpa [Path.blocks, Path.behind, Path.empty] using h
  | _ => simp [Path.blocks, Path.behind, Path.empty] at h

/-- An object cuts the objects that share a cell or a prototype with it. -/
theorem Path.blocks_obj {o : ObjTy} {u : Ty} (h : (Path.empty.behind (.obj o)).blocks u = true) :
    ∃ p, u = .obj p ∧ ((∃ id ∈ p.cells, id ∈ o.cells) ∨ ∃ id ∈ p.protoOf, id ∈ o.protoOf) := by
  cases u with
  | obj p =>
    refine ⟨p, rfl, ?_⟩
    simpa [Path.blocks, Path.behind, Path.empty] using h
  | _ => simp [Path.blocks, Path.behind, Path.empty] at h

theorem eq_of_length_le_one {ids : List Nat} {id other : Nat} (hfew : ids.length ≤ 1)
    (hmem : id ∈ ids) (hmem' : other ∈ ids) : other = id := by
  match ids, hfew with
  | [x], _ => rw [List.mem_singleton.mp hmem, List.mem_singleton.mp hmem']

/-- What carries the only handle of a type leads to what is stored under it. -/
theorem Run.Under.shared {w u : Ty} (hunder : s.Under w c) (hlone : w.ownHandles ≤ 1)
    (hblocked : (Path.empty.behind w).blocks u = true) : s.Under u c := by
  cases hunder with
  | ret hmem hfound hselfReferential =>
    obtain ⟨g, rfl, id, hmem', hon⟩ := Path.blocks_func hblocked
    exact .ret (eq_of_length_le_one hlone hmem hon ▸ hmem') hfound hselfReferential
  | param hmem hfound hinside =>
    obtain ⟨g, rfl, id, hmem', hon⟩ := Path.blocks_func hblocked
    exact .param (eq_of_length_le_one hlone hmem hon ▸ hmem') hfound hinside
  | @field o _ _ _ hmem heq hinside =>
    have := List.length_pos_of_mem hmem
    rw [Ty.ownHandles] at hlone
    obtain ⟨p, rfl, ⟨id, hmem', hon⟩ | ⟨id, -, hon⟩⟩ := Path.blocks_obj hblocked
    · have hfew : o.cells.length ≤ 1 := by omega
      exact .field (eq_of_length_le_one hfew hmem hon ▸ hmem') heq hinside
    · have := List.length_pos_of_mem hon
      omega
  | @shown o _ _ _ hmem heq hinside =>
    have := List.length_pos_of_mem hmem
    rw [Ty.ownHandles] at hlone
    obtain ⟨p, rfl, ⟨id, -, hon⟩ | ⟨id, hmem', hon⟩⟩ := Path.blocks_obj hblocked
    · have := List.length_pos_of_mem hon
      omega
    · have hfew : o.protoOf.length ≤ 1 := by omega
      exact .shown (eq_of_length_le_one hfew hmem hon ▸ hmem') heq hinside

/-- What carries a handle of a lone type around it leads back to itself. -/
theorem Ty.Lone.returns {w u : Ty} (hlone : w.Lone) (hreaches : Relation.TransGen s.Meets w u)
    (hblocked : (Path.empty.behind w).blocks u = true) : Relation.TransGen s.Meets u u := by
  obtain ⟨c, hfirst, hrest⟩ := Relation.TransGen.head'_iff.mp hreaches
  rcases hfirst with hpart | hunder
  · have hdetached := Run.Meets.isDetached (hlone.2 c hpart) hrest
    rw [Path.blocks_of_isDetached _ hdetached] at hblocked
    cases hblocked
  · exact .head' (.inr (hunder.shared hlone.1 hblocked)) hrest

/-- A type without handles is lone. -/
theorem Ty.lone_of_isDetached (hdetached : t.isDetached = true) : t.Lone :=
  ⟨by simp [Ty.ownHandles_of_isDetached hdetached], fun _ hmem =>
    Ty.isDetached_child hdetached hmem⟩

/-- A lone type is scattered: it is its only member. -/
theorem Ty.Lone.scattered (hlone : t.Lone) : t.Scattered := by
  cases t with
  | union ms => exact fun m hmem => Ty.lone_of_isDetached (hlone.2 m hmem)
  | _ =>
    intro m hmem
    cases List.mem_singleton.mp hmem
    exact hlone

/-- When all stored types are scattered, what is met in a scattered type is scattered too. -/
theorem Ty.Scattered.met (hstored : ∀ t ∈ s.types, t.Scattered) (hscattered : t.Scattered)
    (hmeets : s.Meets t c) : c.Scattered := by
  rcases hmeets with hpart | hunder
  · cases t with
    | union ms => exact (hscattered c hpart).scattered
    | _ =>
      have hlone := hscattered _ (List.mem_singleton_self _)
      exact (Ty.lone_of_isDetached (hlone.2 c hpart)).scattered
  · exact hstored c hunder.stored

/-- Where no type carries two handles at once, all types are untangled. -/
theorem Run.untangled_of_scattered (hstored : ∀ t ∈ s.types, t.Scattered)
    (hscattered : t.Scattered) :
    s.Untangled t := by
  have hreached {w : Ty} (hreaches : Relation.ReflTransGen s.Meets t w) : w.Scattered := by
    induction hreaches with
    | refl => exact hscattered
    | tail _ hmeets ih => exact ih.met hstored hmeets
  intro w u hreaches hinside hblocked
  have hscattered := hreached hreaches
  cases w with
  | func f => exact (hscattered _ (List.mem_singleton_self _)).returns hinside hblocked
  | obj o => exact (hscattered _ (List.mem_singleton_self _)).returns hinside hblocked
  | _ =>
    change Path.empty.blocks u = true at hblocked
    rw [Path.blocks_empty] at hblocked
    cases hblocked

end Untangled

/-! ### Answers that do not depend on the memory -/

section Fixed

variable {s : Run}

/-- An untangled type that unfolds is answered with the type unfolded. -/
theorem resolveOn_unfolded (path : Path) (t : Ty) :
    path.Fair s t → s.Untangled t → ∀ v, Unfolds s t v → ∀ memo r memo', memo.Each (Unfolds s) →
      resolveOn s path t memo = .ok (r, memo') → r = v := by
  refine resolve_induction (s := s) (fun path t hparts hstored => ?_) path t
  intro hfair huntangled v hunfolds memo r memo' heach hran
  rw [resolveOn_eq, answerBy] at hran
  split at hran
  · rcases Resolve.remembered_eq_ok.mp hran with ⟨hfound, -⟩ | ⟨-, between, hcomputed, -⟩
    · exact (heach.found hfound).unique hunfolds
    split at hcomputed
    · next hblocked => exact absurd (hfair t .refl hblocked) hunfolds.acyclic
    · next hfree =>
      obtain ⟨g, rfl, hinside⟩ := hunfolds.inside
      have hexpanded : (Logic.keeping (Unfolds s)).Rel (expand s (resolveOn s) (resolveOn s) path t)
          (expand s (resolveOn s) (resolveOn s) path t) (Expands (fun c r _ => r = g c) s t) := by
        refine Logic.expand _ (fun c hmem memo r memo' heach hran => ?_)
          fun c hunder memo r memo' heach hran => ?_
        · refine ⟨resolveOn_each heach hran, r, ?_⟩
          exact hparts c hmem (hfair.into huntangled (.inl hmem)) (huntangled.met (.inl hmem)) _
            (hinside c (.inl hmem)) memo r memo' heach hran
        · refine ⟨resolveOn_each heach hran, r, ?_⟩
          exact hstored c hunder (by simpa using hfree) (hfair.behind huntangled (.inr hunder))
            (huntangled.met (.inr hunder)) _ (hinside c (.inr hunder)) memo r memo' heach hran
      obtain ⟨-, r', hexpands⟩ := hexpanded memo r between heach hcomputed
      exact hexpands.given
  · next hatomic =>
    cases hran
    exact (Unfolds.atom (by simpa using hatomic)).unique hunfolds

/-- The logic of pairs of computations that start with any two memories of unfolded answers. -/
def Resolve.Logic.apart (s : Run) : Logic where
  Rel m m' Q := ∀ memo memo' a a' left left', memo.Each (Unfolds s) → memo'.Each (Unfolds s) →
    m memo = .ok (a, left) → m' memo' = .ok (a', left') →
      left.Each (Unfolds s) ∧ left'.Each (Unfolds s) ∧ Q a a'
  pure hholds memo memo' a a' left left' heach heach' hran hran' := by
    cases hran
    cases hran'
    exact ⟨heach, heach', hholds⟩
  bind h hnext memo memo' b b' left left' heach heach' hran hran' := by
    obtain ⟨a, between, hfirst, hsecond⟩ := Resolve.bind_eq_ok.mp hran
    obtain ⟨a', between', hfirst', hsecond'⟩ := Resolve.bind_eq_ok.mp hran'
    obtain ⟨heach, heach', hholds⟩ := h _ _ a a' _ _ heach heach' hfirst hfirst'
    obtain ⟨heach, heach', himplies⟩ := hnext a a' _ _ b b' _ _ heach heach' hsecond hsecond'
    exact ⟨heach, heach', himplies hholds⟩
  ask {_ _ look _ _ _} h memo memo' b b' left left' heach heach' hran hran' := by
    cases look with
    | ok a => exact h a rfl memo memo' b b' left left' heach heach' hran hran'
    | error d => cases hran

/-- The computation answers the same from all memories of unfolded answers. -/
def Resolve.Fixed (s : Run) {α : Type} (m : Resolve α) : Prop :=
  (Logic.apart s).Rel m m Eq

/-- **What does not depend on the memory.**  An untangled type is answered with the same type,
whatever was resolved before. -/
theorem resolveOn_fixed (path : Path) (t : Ty) :
    path.Fair s t → s.Untangled t → Resolve.Fixed s (resolveOn s path t) := by
  refine resolve_induction (s := s) (fun path t hparts hstored => ?_) path t
  intro hfair huntangled memo memo' r r' left left' heach heach' hran hran'
  refine ⟨resolveOn_each heach hran, resolveOn_each heach' hran', ?_⟩
  by_cases hunfolds : ∃ v, Unfolds s t v
  · obtain ⟨v, hunfolds⟩ := hunfolds
    rw [resolveOn_unfolded path t hfair huntangled v hunfolds memo r left heach hran,
      resolveOn_unfolded path t hfair huntangled v hunfolds memo' r' left' heach' hran']
  -- a type that does not unfold is not remembered, so both answers are computed
  have hcomputes {memo left : Memo} {r : Ty} (heach : memo.Each (Unfolds s))
      (hran : remembered t (if path.blocks t then cut else
        expand s (resolveOn s) (resolveOn s) path t) memo = .ok (r, left)) :
      ∃ between, (if path.blocks t then cut else
        expand s (resolveOn s) (resolveOn s) path t) memo = .ok (r, between) := by
    rcases Resolve.remembered_eq_ok.mp hran with ⟨hfound, -⟩ | ⟨-, between, hcomputed, -⟩
    · exact absurd ⟨r, heach.found hfound⟩ hunfolds
    · exact ⟨between, hcomputed⟩
  rw [resolveOn_eq, answerBy] at hran hran'
  split at hran
  · next hcompound =>
    rw [if_pos hcompound] at hran'
    obtain ⟨between, hcomputed⟩ := hcomputes heach hran
    obtain ⟨between', hcomputed'⟩ := hcomputes heach' hran'
    split at hcomputed
    · next hblocked =>
      rw [if_pos hblocked] at hcomputed'
      cases hcomputed
      cases hcomputed'
      rfl
    · next hfree =>
      rw [if_neg hfree] at hcomputed'
      have hexpanded : (Logic.apart s).Rel (expand s (resolveOn s) (resolveOn s) path t)
          (expand s (resolveOn s) (resolveOn s) path t)
          (Expands (fun _ r r' => r = r') s t) := by
        refine Logic.expand _ (fun c hmem => ?_) fun c hunder => ?_
        · exact hparts c hmem (hfair.into huntangled (.inl hmem)) (huntangled.met (.inl hmem))
        · exact hstored c hunder (by simpa using hfree) (hfair.behind huntangled (.inr hunder))
            (huntangled.met (.inr hunder))
      obtain ⟨-, -, hexpands⟩ :=
        hexpanded memo memo' r r' between between' heach heach' hcomputed hcomputed'
      exact hexpands.eq
  · next hatomic =>
    exact absurd ⟨t, .atom (by simpa using hatomic)⟩ hunfolds

/-- An untangled type is answered the same from all memories of unfolded answers. -/
theorem resolve_fixed {t : Ty} (huntangled : s.Untangled t) : Resolve.Fixed s (resolve s t) :=
  resolveOn_fixed Path.empty t (Path.fair_empty s t) huntangled

/-- An untangled type is answered as if nothing had been resolved before. -/
theorem resolve_fresh (hvalid : s.Valid) {t r : Ty} (hholds : s.Holds t)
    (huntangled : s.Untangled t) {memo memo' : Memo} (heach : memo.Each (Unfolds s))
    (hran : resolve s t memo = .ok (r, memo')) : (resolve s t).run' Memo.empty = .ok r := by
  obtain ⟨fresh, left, hresolve⟩ := resolve_succeeds hvalid hholds Memo.empty
  obtain ⟨-, -, rfl⟩ := resolve_fixed huntangled Memo.empty memo fresh r left memo'
    (Memo.each_empty _) heach hresolve hran
  rw [StateT.run', hresolve]
  rfl

end Fixed

/-! ### Results that do not depend on the order -/

namespace Resolve.Fixed

variable {s : Run} {α β : Type}

theorem pure (a : α) : Fixed s (pure a) :=
  Logic.pure _ rfl

/-- Computations that answer the same, one after the other. -/
theorem bind {m : Resolve α} {f : α → Resolve β} (h : Fixed s m) (hnext : ∀ a, Fixed s (f a)) :
    Fixed s (m >>= f) := by
  intro memo memo' b b' left left' heach heach' hran hran'
  obtain ⟨a, between, hfirst, hsecond⟩ := Resolve.bind_eq_ok.mp hran
  obtain ⟨a', between', hfirst', hsecond'⟩ := Resolve.bind_eq_ok.mp hran'
  obtain ⟨heach, heach', rfl⟩ := h _ _ a a' _ _ heach heach' hfirst hfirst'
  exact hnext a _ _ b b' _ _ heach heach' hsecond hsecond'

theorem ask {look : Except Dangling α} {f : α → Resolve β}
    (h : ∀ a, look = .ok a → Fixed s (f a)) : Fixed s (ask look >>= f) :=
  Logic.ask _ h

theorem ite {c : Prop} [Decidable c] {m n : Resolve α} (hfixed : Fixed s m) (hfixed' : Fixed s n) :
    Fixed s (if c then m else n) :=
  Logic.ite _ (fun _ => hfixed) fun _ => hfixed'

end Resolve.Fixed

section Result

variable {s : Run} (huntangled : ∀ t ∈ s.types, s.Untangled t)

/-- A closure leads only to stored types. -/
theorem Run.untangled_closure (huntangled : ∀ t ∈ s.types, s.Untangled t) (id : ClosureId)
    (arity : Nat) : s.Untangled (.closure id arity) := by
  have hlone : (Ty.closure id arity).Lone := by
    refine ⟨Nat.le_refl 1, fun c hmem => ?_⟩
    rcases List.mem_append.mp hmem with hparam | hret
    · rw [List.eq_of_mem_replicate hparam, Ty.isDetached]
    · rw [List.mem_singleton.mp hret, Ty.isDetached]
  intro w u hreaches hinside hblocked
  rcases Relation.ReflTransGen.cases_head_iff.mp hreaches with rfl | ⟨c, hfirst, hrest⟩
  · exact hlone.returns hinside hblocked
  rcases hfirst with hpart | hunder
  · have hdetached := Run.Meets.isDetached (hlone.2 c hpart) (hrest.trans hinside.to_reflTransGen)
    rw [Path.blocks_of_isDetached _ hdetached] at hblocked
    cases hblocked
  · exact huntangled c hunder.stored w u hrest hinside hblocked

include huntangled

/-- Stored fields are answered the same, as all stored types are untangled. -/
theorem enterStored_fixed {fs : Fields} (hstored : fs.types ⊆ s.types) :
    Fixed s (enterFields (resolve s) fs) :=
  Logic.mono _ (Logic.enterFields _ (A := fun _ r r' => r = r') fun _ hmem =>
    resolve_fixed (huntangled _ (hstored (Fields.mem_types hmem)))) fun _ _ heach => heach.eq

/-- The bindings of scopes are answered the same. -/
theorem resolveScopes_fixed {scopes : List Scope}
    (hstored : ∀ c ∈ scopes, c.bindings.types ⊆ s.types) : Fixed s (resolveScopes s scopes) := by
  induction scopes with
  | nil => exact .pure []
  | cons c rest ih =>
    obtain ⟨hsubset, hlater⟩ := List.forall_mem_cons.mp hstored
    exact (enterStored_fixed huntangled hsubset).bind fun _ => (ih hlater).bind fun _ => .pure _

/-- The signatures of functions are answered the same. -/
theorem resolveFuncs_fixed (acc : OrdMap NodeId FuncInfo) (id : Nat) (cs : List Closure) :
    Fixed s (resolveFuncs s acc id cs) := by
  induction cs generalizing acc id with
  | nil => exact .pure acc
  | cons c rest ih =>
    exact (resolve_fixed (s.untangled_closure huntangled id _)).bind fun signature => ih _ _

/-- The globals are answered the same. -/
theorem resolveGlobals_fixed {bindings : Fields} (hstored : bindings.types ⊆ s.types) :
    Fixed s (resolveGlobals s bindings) := by
  induction bindings with
  | nil => exact .pure []
  | cons g rest ih =>
    have hlater := ih fun t hmem => hstored (List.mem_cons_of_mem _ hmem)
    rw [resolveGlobals]
    refine .ite hlater (.ask fun func _ => .ask fun cls _ => ?_)
    exact (resolve_fixed (huntangled _ (hstored List.mem_cons_self))).bind fun r =>
      hlater.bind fun others => .pure _

/-- The constructors are answered the same. -/
theorem resolveCtors_fixed (globals : Fields) (id : Nat) {cs : List Ctor}
    (hstored : ∀ c ∈ cs, Ctor.entry.types c ⊆ s.types) :
    Fixed s (resolveCtors s globals id cs) := by
  induction cs generalizing id with
  | nil => exact .pure []
  | cons c rest ih =>
    obtain ⟨hsubset, hlater⟩ := List.forall_mem_cons.mp hstored
    rw [resolveCtors]
    refine .ask fun func _ => .ask fun parent _ => ?_
    refine (enterStored_fixed huntangled fun t hmem => ?_).bind
      fun methods => .ask fun written heq => ?_
    · exact hsubset (List.mem_append_left _ hmem)
    refine (enterStored_fixed huntangled fun t hmem => ?_).bind fun fields => ?_
    · exact s.ctor_types (Protos.instanceFields_mem heq hmem)
    exact (ih _ hlater).bind fun others => .pure _

/-- What is resolved after the types of nodes does not depend on their order. -/
theorem buildTypeMapIn_nil_fixed : Fixed s (buildTypeMapIn s []) := by
  refine .bind (.pure []) fun nodes => ?_
  refine (resolveScopes_fixed huntangled fun c hmem t hlisted => ?_).bind fun scopes => ?_
  · exact s.scope_types (List.mem_flatMap.mpr ⟨c, hmem, hlisted⟩)
  refine (resolveFuncs_fixed huntangled [] 0 _).bind fun funcs => .ask fun global heq => ?_
  refine (resolveGlobals_fixed huntangled fun t hmem => ?_).bind fun globals => ?_
  · exact s.scope_types (Entry.types_subset (Env.scope_eq_ok heq) hmem)
  refine (resolveCtors_fixed huntangled _ 0 fun c hmem t hlisted => ?_).bind fun ctors => .pure _
  exact s.ctor_types (List.mem_flatMap.mpr ⟨c, hmem, hlisted⟩)

omit huntangled in
/-- The types of nodes are resolved first, and the rest of the result without them. -/
theorem buildTypeMapIn_eq (s : Run) (order : OrdMap NodeId Ty) :
    buildTypeMapIn s order = (do
      let nodeTypes ← resolveNodes s order
      let m ← buildTypeMapIn s []
      return { m with nodeTypes }) := by
  simp [buildTypeMapIn, resolveNodes]

omit huntangled in
/-- What a node is answered with when nothing was resolved before. -/
def Run.freshNode (s : Run) (e : NodeId × Ty) : NodeId × Ty :=
  match (resolve s e.2).run' Memo.empty with
  | .ok r => (e.1, if r.isNever && s.accessSites.contains e.1 then .any else r)
  | .error _ => e

omit huntangled in
/-- The nodes are answered as if each one had been resolved alone. -/
theorem resolveNodes_fresh (hvalid : s.Valid) {order : OrdMap NodeId Ty}
    (hholds : ∀ e ∈ order, s.Holds e.2) (huntangled : ∀ e ∈ order, s.Untangled e.2)
    {memo memo' : Memo} {out : OrdMap NodeId Ty} (heach : memo.Each (Unfolds s))
    (hran : resolveNodes s order memo = .ok (out, memo')) :
    memo'.Each (Unfolds s) ∧ out = order.map s.freshNode := by
  induction order generalizing memo out with
  | nil =>
    cases hran
    exact ⟨heach, rfl⟩
  | cons e rest ih =>
    obtain ⟨hholds', hlater⟩ := List.forall_mem_cons.mp hholds
    obtain ⟨huntangledE, huntangledR⟩ := List.forall_mem_cons.mp huntangled
    obtain ⟨r, between, hfirst, hran⟩ := Resolve.bind_eq_ok.mp hran
    obtain ⟨rs, left, hsecond, hran⟩ := Resolve.bind_eq_ok.mp hran
    cases hran
    obtain ⟨heach', rfl⟩ := ih hlater huntangledR (resolveOn_each heach hfirst) hsecond
    refine ⟨heach', ?_⟩
    rw [List.map_cons, Run.freshNode, resolve_fresh hvalid hholds' huntangledE heach hfirst]

/-- The result does not depend on the order in which the types of nodes are resolved. -/
theorem buildTypeMapIn_perm (hvalid : s.Valid) {order : OrdMap NodeId Ty}
    (hperm : List.Perm order s.nodeTypes) :
    ∃ m m', (buildTypeMap s).run' Memo.empty = .ok m ∧
      (buildTypeMapIn s order).run' Memo.empty = .ok m' ∧ List.Perm m'.nodeTypes m.nodeTypes ∧
        m' = { m with nodeTypes := m'.nodeTypes } := by
  have hstored : ∀ e ∈ order, e.2 ∈ s.types := fun e hmem =>
    s.node_types (List.mem_map_of_mem (hperm.mem_iff.mp hmem))
  have hrecorded : ∀ e ∈ s.nodeTypes, e.2 ∈ s.types := fun e hmem =>
    s.node_types (List.mem_map_of_mem hmem)
  -- the nodes come first, each with its fresh answer, and the rest does not depend on what they
  -- left
  have hruns {order : OrdMap NodeId Ty} (hstored : ∀ e ∈ order, e.2 ∈ s.types) :
      ∃ m between left, (buildTypeMapIn s order).run' Memo.empty =
          .ok { m with nodeTypes := order.map s.freshNode } ∧ between.Each (Unfolds s) ∧
        buildTypeMapIn s [] between = .ok (m, left) := by
    have hholds : ∀ e ∈ order, s.Holds e.2 := fun e hmem => hvalid.stored (hstored e hmem)
    obtain ⟨whole, left, hran⟩ := buildTypeMapIn_succeeds hvalid hholds Memo.empty
    have hresult : (buildTypeMapIn s order).run' Memo.empty = .ok whole := by
      rw [StateT.run', hran]
      rfl
    rw [buildTypeMapIn_eq] at hran
    obtain ⟨nodes, between, hfirst, hran⟩ := Resolve.bind_eq_ok.mp hran
    obtain ⟨m, left', hsecond, hran⟩ := Resolve.bind_eq_ok.mp hran
    cases hran
    obtain ⟨heach, rfl⟩ :=
      resolveNodes_fresh hvalid hholds (fun e hmem => huntangled _ (hstored e hmem))
      (Memo.each_empty _) hfirst
    exact ⟨m, between, _, hresult, heach, hsecond⟩
  obtain ⟨m, between, left, hran, heach, hrest⟩ := hruns hrecorded
  obtain ⟨m', between', left', hran', heach', hrest'⟩ := hruns hstored
  obtain ⟨-, -, rfl⟩ := buildTypeMapIn_nil_fixed huntangled between between' m m' left left'
    heach heach' hrest hrest'
  exact ⟨_, _, hran, hran', hperm.map s.freshNode, rfl⟩

end Result

/-! ### Sequences of types -/

/-- Types that are resolved one after the other are answered; the untangled ones are answered as if
nothing had been resolved before. -/
theorem enterAll_fresh {s : Run} (hvalid : s.Valid) {ts : List Ty} (hholds : ∀ t ∈ ts, s.Holds t)
    {memo : Memo} (heach : memo.Each (Unfolds s)) :
    ∃ rs memo', enterAll (resolve s) ts memo = .ok (rs, memo') ∧
      List.Forall₂ (fun t r => s.Untangled t → (resolve s t).run' Memo.empty = .ok r) ts rs := by
  induction ts generalizing memo with
  | nil => exact ⟨[], memo, rfl, .nil⟩
  | cons t ts ih =>
    obtain ⟨hholds', hlater⟩ := List.forall_mem_cons.mp hholds
    obtain ⟨r, between, hfirst⟩ := resolve_succeeds hvalid hholds' memo
    obtain ⟨rs, memo', hrest, hfresh⟩ := ih hlater (resolveOn_each heach hfirst)
    refine ⟨r :: rs, memo', Resolve.bind_eq_ok.mpr ⟨r, between, hfirst, ?_⟩, .cons ?_ hfresh⟩
    · exact Resolve.bind_eq_ok.mpr ⟨rs, memo', hrest, rfl⟩
    · exact fun huntangled => resolve_fresh hvalid hholds' huntangled heach hfirst

/-- What resolution remembers, and what it therefore depends on.  In a state in which all handles
have entries, an answer that is given without cutting a cycle is the type unfolded, whatever the
path and whatever was resolved before.  Of types that are resolved one after the other, every
untangled one is answered as if it had been resolved alone.  When all stored types are untangled,
the types of nodes may be resolved in any order, and the result is the same. -/
theorem untangled_order_independent (s : Run) (hvalid : s.Valid) :
    (∀ path t memo r memo', memo.Each (Unfolds s) → resolveOn s path t memo = .ok (r, memo') →
      memo'.Each (Unfolds s) ∧
        (memo'.cuts = memo.cuts → Unfolds s t r ∧ ∀ r', Unfolds s t r' → r' = r)) ∧
    (∀ ts : List Ty, (∀ t ∈ ts, s.Holds t) →
      ∃ rs memo, enterAll (resolve s) ts Memo.empty = .ok (rs, memo) ∧
        List.Forall₂ (fun t r => s.Untangled t → (resolve s t).run' Memo.empty = .ok r) ts rs) ∧
    ((∀ t ∈ s.types, s.Untangled t) → ∀ order, List.Perm order s.nodeTypes →
      ∃ m m', (buildTypeMap s).run' Memo.empty = .ok m ∧
        (buildTypeMapIn s order).run' Memo.empty = .ok m' ∧ List.Perm m'.nodeTypes m.nodeTypes ∧
          m' = { m with nodeTypes := m'.nodeTypes }) := by
  refine ⟨fun path t memo r memo' heach hran => ?_, fun ts hholds => ?_,
    fun huntangled order hperm => ?_⟩
  · obtain ⟨heach', -, hunfolds⟩ := resolveOn_clean s path t memo r memo' heach hran
    refine ⟨heach', fun hnone => ?_⟩
    obtain ⟨-, hunfolds⟩ := hunfolds hnone
    exact ⟨hunfolds, fun r' hunfolds' => hunfolds'.unique hunfolds⟩
  · exact enterAll_fresh hvalid hholds (Memo.each_empty _)
  · exact buildTypeMapIn_perm huntangled hvalid hperm

/-- An object that is made to contain itself. -/
def looping : Program :=
  let build : Build Program := do
    let made ← Build.var "a" (some (← Build.object [("n", ← Build.literal .number)]))
    let inner ← Build.assign none (← Build.member (← Build.ident "a") "self") (← Build.ident "a")
    let shown ← Build.exprStmt (← Build.member (← Build.ident "a") "self")
    return [made, ← Build.exprStmt inner, shown]
  (build.run 0).1

/-- The state that the program leaves behind. -/
def Run.looping : Run :=
  after (inferProgram TypeFlow.looping) (Run.start .standard [])

/-- The object has one handle, so its nodes may be resolved in the reverse order. -/
theorem untangled_order_independent_looping :
    Run.looping.Valid ∧ (∀ t ∈ Run.looping.types, t.Scattered) ∧
      (∃ rs memo, enterAll (resolve Run.looping) [.ofCell 0, .union [.number, .ofCell 0]]
          Memo.empty = .ok (rs, memo) ∧
        List.Forall₂ (fun t r => (resolve Run.looping t).run' Memo.empty = .ok r)
          [.ofCell 0, .union [.number, .ofCell 0]] rs) ∧
      ∃ m m', (buildTypeMap Run.looping).run' Memo.empty = .ok m ∧
        (buildTypeMapIn Run.looping Run.looping.nodeTypes.reverse).run' Memo.empty = .ok m' ∧
          m' = { m with nodeTypes := m'.nodeTypes } := by
  have hvalid : Run.looping.Valid := by decide +kernel
  have hscattered : ∀ t ∈ Run.looping.types, t.Scattered := by decide +kernel
  obtain ⟨-, hsequences, horders⟩ := untangled_order_independent Run.looping hvalid
  refine ⟨hvalid, hscattered, ?_, ?_⟩
  · have hholds : ∀ t ∈ [Ty.ofCell 0, .union [.number, .ofCell 0]],
        ∀ d ∈ t.handles, Run.looping.HasEntry d := by decide +kernel
    have hscattered' : ∀ t ∈ [Ty.ofCell 0, .union [.number, .ofCell 0]], t.Scattered := by decide
    obtain ⟨rs, memo, hran, hfresh⟩ := hsequences _ hholds
    refine ⟨rs, memo, hran, ((List.forall₂_and_left _ _).mpr ⟨hscattered', hfresh⟩).imp ?_⟩
    rintro t r ⟨halone, hanswered⟩
    exact hanswered (Run.untangled_of_scattered hscattered halone)
  · obtain ⟨m, m', hran, hran', -, hsame⟩ := horders
      (fun t hmem => Run.untangled_of_scattered hscattered (hscattered t hmem)) _
      (List.reverse_perm _)
    exact ⟨m, m', hran, hran', hsame⟩

/-! ### Tangled types -/

/-- Two objects, one inside the other, that are assigned to one variable. -/
def sharing : Program :=
  let build : Build Program := do
    let inner ← Build.var "a" (some (← Build.object [("n", ← Build.literal .number)]))
    let outer ← Build.var "b" (some (← Build.object [("x", ← Build.ident "a")]))
    let either ← Build.var "c" none
    let choice ← Build.ifBlocks (← Build.literal .boolean)
      [← Build.exprStmt (← Build.assign none (← Build.ident "c") (← Build.ident "a"))]
      (some [← Build.exprStmt (← Build.assign none (← Build.ident "c") (← Build.ident "b"))])
    let shown ← Build.exprStmt (← Build.ident "c")
    return [inner, outer, either, choice, shown]
  (build.run 0).1

/-- The state that the program leaves behind. -/
def Run.sharing : Run :=
  after (inferProgram TypeFlow.sharing) (Run.start .standard [])

/-- The type of a variable that holds either of the two objects. -/
def Ty.sharing : Ty :=
  .obj ⟨[], [0, 1], [], []⟩

/-- The inner object is cut inside the type of both objects, unless it was resolved before.  So the
answer for that type, and the result of the program, depend on the order of resolution. -/
theorem sharing_order_dependent :
    Run.sharing.Valid ∧
      (resolve Run.sharing Ty.sharing).run' Memo.empty =
        .ok (.record [("n", .number), ("x", .any)]) ∧
      (enterAll (resolve Run.sharing) [.ofCell 0, Ty.sharing]).run' Memo.empty =
        .ok [.record [("n", .number)],
          .record [("n", .number), ("x", .record [("n", .number)])]] ∧
      ∃ node,
        ((buildTypeMap Run.sharing).run' Memo.empty).map (·.nodeTypes.lookup node) =
          .ok (some (.record [("n", .number), ("x", .record [("n", .number)])])) ∧
        ((buildTypeMapIn Run.sharing Run.sharing.nodeTypes.reverse).run' Memo.empty).map
            (·.nodeTypes.lookup node) =
          .ok (some (.record [("n", .number), ("x", .any)])) := by
  have hfresh : (resolve Run.sharing Ty.sharing).run' Memo.empty =
      .ok (.record [("n", .number), ("x", .any)]) := by decide +kernel
  refine ⟨by decide +kernel, hfresh, by decide +kernel, 19, by decide +kernel, by decide +kernel⟩

end TypeFlow
