import Mathlib
import TypeFlow.Proofs.Engine.Visibility

/-!
# Reading through a joined receiver

Where a value may be one of two objects, the two are one object type, with the fields, cells and
constructors of both.  Looking a property up in that object joins what both have themselves, and
looking it up on its chains joins what both inherit.  But an own field wins over the chains of the
joined object too, so what one of the objects inherits is hidden by what only the other one has
itself.

## Main Definitions

* `IsJoinOf` - the join of all types of a kind, none when there are none
* `ObjTy.Owns` - objects that have a property themselves

## Main Statements

* `Heap.lookupField_join` - own fields of a joined object
* `Protos.findMethod_join` - inherited properties of a joined object
* `memberOf_join`, `memberOf_join_covers` - what the joined object shows, and what it covers

## Design Notes

The cells and constructors of the joined object are sorted and listed once, so they are looked at in
another order than those of the two objects one after the other.  The results are equal because both
are least upper bounds of the same types, and normal types have one such bound.
-/

namespace TypeFlow

open Walk

/-! ### Joins of all types of a kind -/

/-- The least type that covers all types of a kind, none when there are none. -/
structure IsJoinOf (S : Ty → Prop) (r : Option Ty) : Prop where
  normal : Held Ty.Normal r
  upper : ∀ t, S t → CoveredBy Ty.Le (some t) r
  least : ∀ u, (∀ t, S t → CoveredBy Ty.Le (some t) u) → CoveredBy Ty.Le r u

theorem CoveredBy.trans_le {p q r : Option Ty} (hpq : CoveredBy Ty.Le p q)
    (hqr : CoveredBy Ty.Le q r) : CoveredBy Ty.Le p r := by
  intro x heq
  obtain ⟨y, heq', hxy⟩ := hpq x heq
  obtain ⟨z, heq'', hyz⟩ := hqr y heq'
  exact ⟨z, heq'', hxy.trans hyz⟩

/-- Normal types that cover one another are the same. -/
theorem CoveredBy.antisymm_le {p q : Option Ty} (hnormalP : Held Ty.Normal p)
    (hnormalQ : Held Ty.Normal q) (hpq : CoveredBy Ty.Le p q)
    (hqp : CoveredBy Ty.Le q p) : p = q := by
  cases p with
  | none =>
    cases q with
    | none => rfl
    | some y =>
      obtain ⟨x, heq, -⟩ := hqp y rfl
      cases heq
  | some x =>
    obtain ⟨y, rfl, hxy⟩ := hpq x rfl
    obtain ⟨x', heq, hyx⟩ := hqp y rfl
    cases heq
    rw [Ty.Le.antisymm (hnormalP x rfl) (hnormalQ y rfl) hxy hyx]

/-- What is found on two sides joins to the least upper bound. -/
theorem Heap.isLub_joinFound {p q : Option Ty} (hnormalP : Held Ty.Normal p)
    (hnormalQ : Held Ty.Normal q) :
    IsLub (Held Ty.Normal) (CoveredBy Ty.Le) p q (Heap.joinFound p q) := by
  have hrefl (t : Ty) (hnormal : t.Normal) : t.Le t := hnormal.le_refl
  cases p with
  | none => exact isLub_none_left hrefl hnormalQ
  | some x =>
    cases q with
    | none => exact isLub_none_right hrefl hnormalP
    | some y => exact ((hnormalP x rfl).isLub_join (hnormalQ y rfl)).some

namespace IsJoinOf

variable {S T : Ty → Prop} {p q : Option Ty}

/-- There is one join of all types of a kind. -/
theorem unique (hp : IsJoinOf S p) (hq : IsJoinOf S q) : p = q :=
  CoveredBy.antisymm_le hp.normal hq.normal (hp.least q hq.upper) (hq.least p hp.upper)

/-- The join is told by which types are joined. -/
theorem congr (h : IsJoinOf S p) (hsame : ∀ t, S t ↔ T t) : IsJoinOf T p where
  normal := h.normal
  upper t hinside := h.upper t ((hsame t).mpr hinside)
  least u habove := h.least u fun t hinside => habove t ((hsame t).mp hinside)

theorem single (hnormal : Held Ty.Normal p) : IsJoinOf (fun t => p = some t) p where
  normal := hnormal
  upper t heq := heq ▸ CoveredBy.refl (fun _ hnormal => hnormal.le_refl) hnormal
  least u habove := by
    cases p with
    | none => exact .none u
    | some t => exact habove t rfl

/-- The join of two kinds of types is the join of their joins. -/
theorem union (hp : IsJoinOf S p) (hq : IsJoinOf T q) :
    IsJoinOf (fun t => S t ∨ T t) (Heap.joinFound p q) := by
  have hlub := Heap.isLub_joinFound hp.normal hq.normal
  refine ⟨hlub.normal, fun t hinside => ?_, fun u habove => ?_⟩
  · rcases hinside with hinside | hinside
    · exact (hp.upper t hinside).trans_le hlub.left
    · exact (hq.upper t hinside).trans_le hlub.right
  · exact hlub.least u (hp.least u fun t hinside => habove t (.inl hinside))
      (hq.least u fun t hinside => habove t (.inr hinside))

end IsJoinOf

/-! ### Own fields -/

namespace Heap

variable {h : Heap} {name : String} {found r : Option Ty} {S : Ty → Prop}

/-- The field that a cell has under a name. -/
def field? (h : Heap) (id : CellId) (name : String) : Option Ty :=
  h.cells[id]?.bind fun c => OrdMap.get? c.fields name

/-- A lookup through cells joins all that they have to what was found before. -/
theorem lookupCells_isJoinOf (hcells : ∀ t ∈ Cell.entry.typesIn h.cells, t.Normal)
    {ids : List CellId} (hisJoinOf : IsJoinOf S found)
    (heq : h.lookupCells name found ids = .ok r) :
    IsJoinOf (fun t => S t ∨ ∃ id ∈ ids, h.field? id name = some t) r := by
  induction ids generalizing found S with
  | nil =>
    cases heq
    exact hisJoinOf.congr (by simp)
  | cons id rest ih =>
    rw [lookupCells] at heq
    split at heq
    · cases heq
    · next c hcell =>
      have hget := cell_eq_ok hcell
      have hown : h.field? id name = OrdMap.get? c.fields name := by
        rw [field?, hget, Option.bind_some]
      have hnormal : Held Ty.Normal (OrdMap.get? c.fields name) := fun t hfield =>
        hcells t (Entry.types_subset hget (Fields.mem_types (OrdMap.mem_of_get? hfield)))
      refine (ih (hisJoinOf.union (.single hnormal)) heq).congr fun t => ?_
      simp [hown, or_assoc]

/-- A lookup succeeds only when all cells exist. -/
theorem lookupCells_inside {ids : List CellId} (heq : h.lookupCells name found ids = .ok r) :
    ∀ id ∈ ids, id < h.cells.size := by
  induction ids generalizing found with
  | nil => exact nofun
  | cons id rest ih =>
    rw [lookupCells] at heq
    split at heq
    · cases heq
    · next c hcell =>
      obtain ⟨hinside, -⟩ := Array.getElem?_eq_some_iff.mp (cell_eq_ok hcell)
      exact List.forall_mem_cons.mpr ⟨hinside, ih heq⟩

/-- What a joined object has itself is the join of what the two objects have themselves. -/
theorem lookupField_join (hcells : ∀ t ∈ Cell.entry.typesIn h.cells, t.Normal) {a b : ObjTy}
    (hnormalA : a.Normal) (hnormalB : b.Normal) (heq : h.lookupField (a.join b) name = .ok r) :
    ∃ x y, h.lookupField a name = .ok x ∧ h.lookupField b name = .ok y ∧ r = joinFound x y := by
  have hjoined : (a.join b).field? name = joinFound (a.field? name) (b.field? name) := by
    rw [ObjTy.field?, ObjTy.join_eq, Ty.get?_joinFields _ ((ObjTy.normal_iff b).mp hnormalB).2.1]
    rw [ObjTy.field?, ObjTy.field?]
    cases OrdMap.get? a.fields name <;> cases OrdMap.get? b.fields name <;> rfl
  have hmem_iff (id : CellId) : id ∈ (a.join b).cells ↔ id ∈ a.cells ∨ id ∈ b.cells := by
    rw [ObjTy.join_eq]
    exact OrdSet.mem_union
  have hinside := lookupCells_inside heq
  obtain ⟨x, heqA⟩ := lookupField_total (o := a) (h := h)
    (fun id hmem => hinside id ((hmem_iff id).mpr (.inl hmem))) name
  obtain ⟨y, heqB⟩ := lookupField_total (o := b) (h := h)
    (fun id hmem => hinside id ((hmem_iff id).mpr (.inr hmem))) name
  refine ⟨x, y, heqA, heqB, ?_⟩
  have hownA : IsJoinOf (fun t => a.field? name = some t) (a.field? name) := .single fun t hfield =>
    ((ObjTy.normal_iff a).mp hnormalA).1 _ (OrdMap.mem_of_get? hfield)
  have hownB : IsJoinOf (fun t => b.field? name = some t) (b.field? name) := .single fun t hfield =>
    ((ObjTy.normal_iff b).mp hnormalB).1 _ (OrdMap.mem_of_get? hfield)
  rw [lookupField, hjoined] at heq
  have hleft := lookupCells_isJoinOf hcells (hownA.union hownB) heq
  have hright := (lookupCells_isJoinOf hcells hownA heqA).union
    (lookupCells_isJoinOf hcells hownB heqB)
  refine (hleft.congr fun t => ?_).unique hright
  simp only [hmem_iff, or_and_right, exists_or]
  exact or_or_or_comm

end Heap

/-! ### Inherited properties -/

/-- The chains of a joined object are those of the two objects. -/
theorem ObjTy.mem_chains_join {a b : ObjTy} {id : CtorId} :
    id ∈ (a.join b).ctors ++ (a.join b).protoOf ↔
      id ∈ a.ctors ++ a.protoOf ∨ id ∈ b.ctors ++ b.protoOf := by
  rw [ObjTy.join_eq]
  simp only [List.mem_append, OrdSet.mem_union]
  tauto

namespace Protos

variable {g : Protos} {name : String} {found r : Option Ty} {S : Ty → Prop}

/-- A lookup along several chains joins all that they have to what was found before. -/
theorem lookupAll_isJoinOf (hctors : ∀ t ∈ Ctor.entry.typesIn g.ctors, t.Normal)
    {ids : List CtorId} (hisJoinOf : IsJoinOf S found) (heq : g.lookupAll name found ids = .ok r) :
    IsJoinOf (fun t => S t ∨ ∃ id ∈ ids, g.lookupMethod id name = .ok (some t)) r := by
  induction ids generalizing found S with
  | nil =>
    cases heq
    exact hisJoinOf.congr (by simp)
  | cons id rest ih =>
    rw [lookupAll] at heq
    split at heq
    · cases heq
    · next here hlooked =>
      have hnormal : Held Ty.Normal here := by
        rintro t rfl
        exact hctors t (lookupMethod_mem hlooked)
      refine (ih (hisJoinOf.union (.single hnormal)) heq).congr fun t => ?_
      simp [hlooked, or_assoc]

/-- A lookup along several chains succeeds exactly when it does along each of them. -/
theorem lookupAll_ok_iff {ids : List CtorId} : (∃ r, g.lookupAll name found ids = .ok r) ↔
    ∀ id ∈ ids, ∃ t, g.lookupMethod id name = .ok t := by
  induction ids generalizing found with
  | nil => exact ⟨fun _ => nofun, fun _ => ⟨found, rfl⟩⟩
  | cons id rest ih =>
    rw [List.forall_mem_cons, lookupAll]
    cases g.lookupMethod id name with
    | error d =>
      constructor
      · rintro ⟨r, heq⟩
        cases heq
      · rintro ⟨⟨t, heq⟩, -⟩
        cases heq
    | ok t =>
      constructor
      · intro hsucceeds
        exact ⟨⟨t, rfl⟩, ih.mp hsucceeds⟩
      · rintro ⟨-, heach⟩
        exact ih.mpr heach

/-- A lookup along the chains of two lists joins what is found along each of them, in whatever order
the chains are listed and however often. -/
theorem lookupAll_join (hctors : ∀ t ∈ Ctor.entry.typesIn g.ctors, t.Normal)
    {ids left right : List CtorId} (hmem_iff : ∀ id, id ∈ ids ↔ id ∈ left ∨ id ∈ right)
    (heq : g.lookupAll name none ids = .ok r) :
    ∃ x y, g.lookupAll name none left = .ok x ∧ g.lookupAll name none right = .ok y ∧
      r = Heap.joinFound x y := by
  have heach := lookupAll_ok_iff.mp ⟨r, heq⟩
  obtain ⟨x, heqA⟩ := lookupAll_ok_iff.mpr fun id hmem => heach id ((hmem_iff id).mpr (.inl hmem))
  obtain ⟨y, heqB⟩ := lookupAll_ok_iff.mpr fun id hmem => heach id ((hmem_iff id).mpr (.inr hmem))
  refine ⟨x, y, heqA, heqB, ?_⟩
  have hnothing : IsJoinOf (fun t => none = some t) none := by
    refine .single fun t habsent => ?_
    cases habsent
  have hjoined := lookupAll_isJoinOf hctors hnothing heq
  have hisJoinOf := (lookupAll_isJoinOf hctors hnothing heqA).union
    (lookupAll_isJoinOf hctors hnothing heqB)
  refine (hjoined.congr fun t => ?_).unique hisJoinOf
  simp only [hmem_iff, or_and_right, exists_or]
  exact or_or_distrib_left

/-- What a joined object inherits is the join of what the two objects inherit. -/
theorem findMethod_join (hctors : ∀ t ∈ Ctor.entry.typesIn g.ctors, t.Normal) {a b : ObjTy}
    (heq : g.findMethod (.obj (a.join b)) name = .ok r) :
    ∃ x y, g.findMethod (.obj a) name = .ok x ∧ g.findMethod (.obj b) name = .ok y ∧
      r = Heap.joinFound x y :=
  lookupAll_join hctors (fun _ => ObjTy.mem_chains_join) heq

end Protos

/-! ### Receivers -/

/-- The object has the property itself, by value or in a cell. -/
def ObjTy.Owns (o : ObjTy) (s : Run) (property : String) : Prop :=
  ∃ t, s.heap.lookupField o property = .ok (some t)

/-- An object has a property itself when looking it up in its fields and cells finds something. -/
theorem ObjTy.owns_iff {o : ObjTy} {s : Run} {property : String} {own : Option Ty}
    (hlooked : s.heap.lookupField o property = .ok own) :
    o.Owns s property ↔ own.isSome = true := by
  rw [ObjTy.Owns, hlooked, Option.isSome_iff_exists]
  simp only [Except.ok.injEq]

theorem Ty.obj_join {a b : ObjTy} (hnormalA : a.Normal) (hnormalB : b.Normal) :
    (Ty.obj a).join (.obj b) = .obj (a.join b) := by
  by_cases hsame : a = b
  · subst hsame
    have hlub := ObjTy.isLub_join hnormalA hnormalA fun _ _ _ he ht => he.isLub_join ht
    have hleast := hlub.least a hnormalA.le_refl hnormalA.le_refl
    rw [Ty.join_self, ← ObjTy.Le.antisymm hnormalA hlub.normal hlub.left hleast
      fun _ _ _ he ht => Ty.Le.antisymm he ht]
  · exact Ty.join_of_ne nofun nofun nofun nofun fun heq => hsame (Ty.obj.inj heq)

section Receiver

variable {s t : Run} {o : ObjTy} {property : String} {r : Option Ty}

/-- An own field is what an object shows. -/
theorem memberOf_own {u : Ty} (hown : s.heap.lookupField o property = .ok (some u)) :
    memberOf (.obj o) property s = .ok (some u) s :=
  bind_eq_ok.mpr ⟨some u, s, ask_eq_ok.mpr ⟨hown, rfl⟩, rfl⟩

/-- Without an own field an object shows what it inherits. -/
theorem memberOf_inherited (habsent : s.heap.lookupField o property = .ok none)
    (hmethod : s.protos.findMethod (.obj o) property = .ok r) :
    memberOf (.obj o) property s = .ok r s :=
  bind_eq_ok.mpr ⟨none, s, ask_eq_ok.mpr ⟨habsent, rfl⟩, ask_eq_ok.mpr ⟨hmethod, rfl⟩⟩

/-- A property of an object is its own, or else inherited; reading it leaves the state as it is. -/
theorem memberOf_obj (hran : memberOf (.obj o) property s = .ok r t) :
    t = s ∧ ((∃ u, r = some u ∧ s.heap.lookupField o property = .ok (some u)) ∨
      s.heap.lookupField o property = .ok none ∧
        s.protos.findMethod (.obj o) property = .ok r) := by
  obtain ⟨own, s', hasked, hran⟩ := bind_eq_ok.mp hran
  obtain ⟨hlooked, rfl⟩ := ask_eq_ok.mp hasked
  cases own with
  | some u =>
    cases hran
    exact ⟨rfl, .inl ⟨u, rfl, hlooked⟩⟩
  | none =>
    obtain ⟨hmethod, rfl⟩ := ask_eq_ok.mp hran
    exact ⟨rfl, .inr ⟨hlooked, hmethod⟩⟩

theorem readMember_obj {w : Ty} : readMember (.obj o) property s = .ok w t ↔
    ∃ found, memberOf (.obj o) property s = .ok found t ∧ w = found.getD .any := by
  have hsingle (here : Option Ty) : Heap.joinFound none here = here := by
    cases here <;> rfl
  constructor
  · intro hran
    obtain ⟨found, t', hlooked, hlast⟩ := bind_eq_ok.mp hran
    obtain ⟨here, t'', hread, hdone⟩ := bind_eq_ok.mp hlooked
    cases hdone
    cases hlast
    exact ⟨here, hread, by rw [hsingle]⟩
  · rintro ⟨found, hread, rfl⟩
    refine bind_eq_ok.mpr ⟨found, t, bind_eq_ok.mpr ⟨found, t, hread, ?_⟩, rfl⟩
    rw [hsingle]
    rfl

/-- What a joined object shows for a property: the join of what both show when both or neither have
it themselves, and otherwise what the one that has it shows. -/
theorem memberOf_join (hnormal : s.Normal) {a b : ObjTy} (hnormalA : a.Normal) (hnormalB : b.Normal)
    (hran : memberOf (.obj (a.join b)) property s = .ok r t) :
    t = s ∧
    ((a.Owns s property ↔ b.Owns s property) → ∃ x y, memberOf (.obj a) property s = .ok x s ∧
      memberOf (.obj b) property s = .ok y s ∧ r = Heap.joinFound x y) ∧
    (a.Owns s property → ¬ b.Owns s property → ∃ u, r = some u ∧
      memberOf (.obj a) property s = .ok (some u) s) ∧
    (b.Owns s property → ¬ a.Owns s property → ∃ u, r = some u ∧
      memberOf (.obj b) property s = .ok (some u) s) := by
  obtain ⟨rfl, hhere⟩ := memberOf_obj hran
  have hcells : ∀ u ∈ Cell.entry.typesIn t.heap.cells, u.Normal := fun u hmem =>
    hnormal u (t.cell_types hmem)
  -- An own field of the joined object comes from the objects that have it; where it has none,
  -- neither of them has, and both chains count.
  rcases hhere with ⟨w, rfl, hown⟩ | ⟨habsent, hmethod⟩
  · obtain ⟨ownA, ownB, heqA, heqB, hjoined⟩ := Heap.lookupField_join hcells hnormalA hnormalB hown
    rw [ObjTy.owns_iff heqA, ObjTy.owns_iff heqB]
    cases ownA with
    | none =>
      cases ownB with
      | none => cases hjoined
      | some v =>
        cases hjoined
        refine ⟨rfl, fun hsame => ?_, nofun, fun _ _ => ⟨w, rfl, memberOf_own heqB⟩⟩
        cases hsame.mpr rfl
    | some u =>
      cases ownB with
      | none =>
        cases hjoined
        refine ⟨rfl, fun hsame => ?_, fun _ _ => ⟨w, rfl, memberOf_own heqA⟩, nofun⟩
        cases hsame.mp rfl
      | some v =>
        exact ⟨rfl, fun _ => ⟨_, _, memberOf_own heqA, memberOf_own heqB, hjoined⟩,
          fun _ hlacks => absurd rfl hlacks, fun _ hlacks => absurd rfl hlacks⟩
  · obtain ⟨ownA, ownB, heqA, heqB, hjoined⟩ :=
      Heap.lookupField_join hcells hnormalA hnormalB habsent
    obtain ⟨rfl, rfl⟩ : ownA = none ∧ ownB = none := by
      cases ownA <;> cases ownB <;> cases hjoined
      exact ⟨rfl, rfl⟩
    rw [ObjTy.owns_iff heqA, ObjTy.owns_iff heqB]
    obtain ⟨x, y, hfoundA, hfoundB, heq⟩ :=
      Protos.findMethod_join (fun u hmem => hnormal u (t.ctor_types hmem)) hmethod
    exact ⟨rfl,
      fun _ => ⟨x, y, memberOf_inherited heqA hfoundA, memberOf_inherited heqB hfoundB, heq⟩,
      nofun, nofun⟩

/-- In a normal state an object shows normal types. -/
theorem memberOf_normal (hnormal : s.Normal) (hnormalO : o.Normal)
    (hran : memberOf (.obj o) property s = .ok r t) : Held Ty.Normal r := by
  have hgood : normalTypes.Good s (.obj o) := hnormalO
  exact (widens_of_ok (Discipline.Does.memberOf (normalTypes_inv hnormal) hgood property) hnormal
    hran).2.2

/-- A joined object covers what one of the two shows, when that one has the property itself wherever
the other one has. -/
theorem memberOf_join_covers (hnormal : s.Normal) {a b : ObjTy} (hnormalA : a.Normal)
    (hnormalB : b.Normal) {x found : Option Ty} (hreadA : memberOf (.obj a) property s = .ok x s)
    (hreadJ : memberOf (.obj (a.join b)) property s = .ok found s)
    (howns : b.Owns s property → a.Owns s property) : CoveredBy Ty.Le x found := by
  have hnormalX := memberOf_normal hnormal hnormalA hreadA
  obtain ⟨-, hboth, hfirst, -⟩ := memberOf_join hnormal hnormalA hnormalB hreadJ
  by_cases hsame : a.Owns s property ↔ b.Owns s property
  · obtain ⟨x', y, hreadA', hreadB, rfl⟩ := hboth hsame
    cases hreadA.symm.trans hreadA'
    exact (Heap.isLub_joinFound hnormalX (memberOf_normal hnormal hnormalB hreadB)).left
  · obtain ⟨hownsA, hlacks⟩ : a.Owns s property ∧ ¬ b.Owns s property := by tauto
    obtain ⟨u, rfl, hreadA'⟩ := hfirst hownsA hlacks
    cases hreadA.symm.trans hreadA'
    exact CoveredBy.refl (fun _ hnormal => hnormal.le_refl) hnormalX

/-- Reading a property of an object succeeds when all handles have entries. -/
theorem memberOf_ok (hvalid : s.Valid) (hholds : s.Holds (.obj o)) (property : String) :
    ∃ r, memberOf (.obj o) property s = .ok r s := by
  have hdoes : validHandles.Does none s (memberOf (.obj o) property) fun _ _ => True :=
    (Discipline.Does.memberOf ((validHandles_inv_iff s).mpr hvalid) hholds property).mono
      fun _ _ _ _ _ => trivial
  obtain ⟨r, t, hran⟩ := (sound_of_does hvalid hdoes).ends (Idle.memberOf (.obj o) property).calm
  obtain ⟨rfl, -⟩ := memberOf_obj hran
  exact ⟨r, hran⟩

end Receiver

/-- Reading a property through a joined receiver covers what an object among the joined ones shows,
unless the other one has the property itself and this one does not: then the read gives what the
other one shows, and nothing of what this one inherits.  Where both or neither have the property
themselves, the read gives exactly the join of what both show.  This holds in all states with normal
types, which are those that runs pass, and reading leaves them as they are; where all handles have
entries, as in runs whose globals carry none, the reads succeed. -/
theorem joined_receiver_covers :
    (∀ (options : Options) (globals : Globals), (∀ g ∈ globals, g.2.Normal) →
      ∀ ps : List Program,
        let run : Walk Unit := do inferPrograms ps; analyseUncalled
        run.Through Run.Normal (Run.start options globals) ∧
        ((∀ g ∈ globals, g.2.handles = []) →
          run.Through Run.Sound (Run.start options globals))) ∧
    ∀ s : Run, s.Normal → ∀ a b : ObjTy, a.Normal → b.Normal → ∀ property : String,
      (s.Valid → s.Holds (.obj a) → s.Holds (.obj b) →
        ∃ x y r, memberOf (.obj a) property s = .ok x s ∧ memberOf (.obj b) property s = .ok y s ∧
          readMember ((Ty.obj a).join (.obj b)) property s = .ok r s) ∧
      ∀ x r sA sJ, memberOf (.obj a) property s = .ok x sA →
        readMember ((Ty.obj a).join (.obj b)) property s = .ok r sJ →
          sA = s ∧ sJ = s ∧
          ((b.Owns s property → a.Owns s property) → ∀ t, x = some t → t.isSubtype r = true) ∧
          (b.Owns s property → ¬ a.Owns s property →
            memberOf (.obj b) property s = .ok (some r) s) ∧
          ((a.Owns s property ↔ b.Owns s property) → ∃ y,
            memberOf (.obj b) property s = .ok y s ∧ r = (Heap.joinFound x y).getD .any) := by
  refine ⟨fun options globals hgiven ps => runs_pass_sound options hgiven ps, ?_⟩
  intro s hnormal a b hnormalA hnormalB property
  rw [Ty.obj_join hnormalA hnormalB]
  constructor
  · intro hvalid hholdsA hholdsB
    have hholdsJ : s.Holds (.obj (a.join b)) :=
      Ty.obj_join hnormalA hnormalB ▸ validHandles.join hholdsA hholdsB
    obtain ⟨x, hreadA⟩ := memberOf_ok hvalid hholdsA property
    obtain ⟨y, hreadB⟩ := memberOf_ok hvalid hholdsB property
    obtain ⟨found, hreadJ⟩ := memberOf_ok hvalid hholdsJ property
    exact ⟨x, y, found.getD .any, hreadA, hreadB, readMember_obj.mpr ⟨found, hreadJ, rfl⟩⟩
  · intro x r sA sJ hreadA hread
    obtain ⟨found, hreadJ, rfl⟩ := readMember_obj.mp hread
    obtain ⟨rfl, -⟩ := memberOf_obj hreadA
    -- both objects have the property themselves or neither does, or only the second one does
    obtain ⟨rfl, hboth, -, hsecond⟩ := memberOf_join hnormal hnormalA hnormalB hreadJ
    refine ⟨rfl, rfl, fun howns t heq => ?_, fun hownsB hlacks => ?_, fun hsame => ?_⟩
    · obtain ⟨w, rfl, hle⟩ := memberOf_join_covers hnormal hnormalA hnormalB hreadA hreadJ
        howns t heq
      have hnormalJ : (a.join b).Normal :=
        (ObjTy.isLub_join hnormalA hnormalB fun _ _ _ he ht => he.isLub_join ht).normal
      have hnormalT := memberOf_normal hnormal hnormalA hreadA t heq
      exact (hnormalT.isSubtype_iff (memberOf_normal hnormal hnormalJ hreadJ w rfl)).mpr hle
    · obtain ⟨u, rfl, hreadB⟩ := hsecond hownsB hlacks
      exact hreadB
    · obtain ⟨x', y, hreadA', hreadB, heq'⟩ := hboth hsame
      cases hreadA.symm.trans hreadA'
      exact ⟨y, hreadB, by rw [heq']⟩

/-- `function A() {}`, `A.prototype = { k: true, m: "s" }` and
`var x = true ? new A() : { m: 1 }`. -/
def instanceOrObject : Program :=
  [⟨0, ⟨0, 0⟩, .function ⟨1, ⟨0, 0⟩, some "A", [], []⟩⟩,
    ⟨2, ⟨0, 0⟩, .expr ⟨3, ⟨0, 0⟩, .assign none
      ⟨4, ⟨0, 0⟩, .member ⟨5, ⟨0, 0⟩, .ident "A"⟩ "prototype"⟩
      ⟨6, ⟨0, 0⟩, .object [("k", ⟨7, ⟨0, 0⟩, .literal .boolean⟩),
        ("m", ⟨8, ⟨0, 0⟩, .literal .string⟩)]⟩⟩⟩,
    ⟨9, ⟨0, 0⟩, .vars [⟨"x", some ⟨10, ⟨0, 0⟩, .conditional ⟨11, ⟨0, 0⟩, .literal .boolean⟩
      ⟨12, ⟨0, 0⟩, .construct ⟨13, ⟨0, 0⟩, .ident "A"⟩ []⟩
      ⟨14, ⟨0, 0⟩, .object [("m", ⟨15, ⟨0, 0⟩, .literal .number⟩)]⟩⟩⟩]⟩]

/-- What the instance inherits under a name that the other object lacks is covered by the read. -/
theorem joined_receiver_covers_instanceOrObject :
    let s := after (inferPrograms [instanceOrObject]) (Run.start ⟨2, 3, false, false⟩ [])
    let a : ObjTy := ⟨[], [1], [0], []⟩
    let b : ObjTy := ⟨[], [2], [], []⟩
    s.slot? (.binding Env.global "x") = some ((Ty.obj a).join (.obj b)) ∧ s.Sound ∧
    ∃ t r, memberOf (.obj a) "k" s = .ok (some t) s ∧
      readMember ((Ty.obj a).join (.obj b)) "k" s = .ok r s ∧ t.isSubtype r = true := by
  intro s a b
  have hsound : s.Sound := ⟨by decide +kernel, by decide +kernel⟩
  obtain ⟨hends, hcovers⟩ := joined_receiver_covers.2 s hsound.normal a b (Ty.normal_ofInstance 1 0)
    (Ty.normal_ofCell 2) "k"
  obtain ⟨x, -, r, hreadA, -, hread⟩ := hends hsound.valid (by decide +kernel) (by decide +kernel)
  have hinherits : (match memberOf (.obj a) "k" s with
      | .ok x _ => x
      | .error _ _ => none) = some .boolean := by
    decide +kernel
  rw [hreadA] at hinherits
  have habsent : s.heap.lookupField b "k" = .ok none := by decide +kernel
  have hlacks : ¬ b.Owns s "k" := by simp [ObjTy.owns_iff habsent]
  exact ⟨by decide +kernel, hsound, .boolean, r, hinherits ▸ hreadA, hread,
    (hcovers x r s s hreadA hread).2.2.1 (fun howns => absurd howns hlacks) _ hinherits⟩

/-- The field of the other object hides what the instance inherits: the text that is found under `m`
is not covered by the read. -/
theorem own_field_hides_inherited :
    let s := after (inferPrograms [instanceOrObject]) (Run.start ⟨2, 3, false, false⟩ [])
    let a : ObjTy := ⟨[], [1], [0], []⟩
    let b : ObjTy := ⟨[], [2], [], []⟩
    s.slot? (.binding Env.global "x") = some ((Ty.obj a).join (.obj b)) ∧ s.Sound ∧
    memberOf (.obj a) "m" s = .ok (some .string) s ∧
      readMember ((Ty.obj a).join (.obj b)) "m" s = .ok .number s ∧
        Ty.string.isSubtype .number = false := by
  intro s a b
  have hsound : s.Sound := ⟨by decide +kernel, by decide +kernel⟩
  have habsent : s.heap.lookupField a "m" = .ok none := by decide +kernel
  have hbehind : s.protos.findMethod (.obj a) "m" = .ok (some .string) := by decide +kernel
  have hown : s.heap.lookupField (a.join b) "m" = .ok (some .number) := by decide +kernel
  refine ⟨by decide +kernel, hsound, memberOf_inherited habsent hbehind, ?_, rfl⟩
  rw [Ty.obj_join (Ty.normal_ofInstance 1 0) (Ty.normal_ofCell 2)]
  exact readMember_obj.mpr ⟨_, memberOf_own hown, rfl⟩

end TypeFlow
