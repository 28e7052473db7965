import Mathlib
import TypeFlow.Proofs.Engine.Idle
import TypeFlow.Proofs.Engine.Reached
import TypeFlow.Proofs.Engine.Validity

/-!
# Writes are seen by reads

What is written to a property of an object is part of what is read from it, as long as the object
has a place for the property that reads look at: a cell, or the methods of a constructor whose
prototype object it is.  What an object shows by value has no such place, and hides the prototype
chain.

## Main Definitions

* `Ty.FoundIn` - something at least as wide as a type was found
* `Run.Shows` - a place holds something at least as wide as a type
* `ObjTy.Receives` - objects with a place for a property that reads look at
* `Ty.Lacks` - alternatives without a property
* `Run.Sound` - states with normal types, in which every handle has an entry

## Main Statements

* `writeObject_shows` - a write reaches every place that an object has for the property
* `readMember_finds` - a read finds what any of these places shows

## Design Notes

The object may be one alternative among others, and reading the others may change the state: the
prototype of a function gets a constructor.  Places only ever widen, so this hides nothing.
-/

namespace TypeFlow

open Walk

/-! ### What is found -/

/-- A normal type at least as wide as the given one was found. -/
def Ty.FoundIn (v : Ty) (found : Option Ty) : Prop :=
  ∃ w, found = some w ∧ w.Normal ∧ v.Le w

namespace Ty.FoundIn

variable {v : Ty} {a b : Option Ty}

theorem join_left (h : v.FoundIn a) (hnormal : ∀ t, b = some t → t.Normal) :
    v.FoundIn (Heap.joinFound a b) := by
  obtain ⟨w, rfl, hnormalW, hle⟩ := h
  cases b with
  | none => exact ⟨w, rfl, hnormalW, hle⟩
  | some u =>
    have hlub := hnormalW.isLub_join (hnormal u rfl)
    exact ⟨w.join u, rfl, hlub.normal, hle.trans hlub.left⟩

theorem join_right (hnormal : ∀ t, a = some t → t.Normal) (h : v.FoundIn b) :
    v.FoundIn (Heap.joinFound a b) := by
  obtain ⟨w, rfl, hnormalW, hle⟩ := h
  cases a with
  | none => exact ⟨w, rfl, hnormalW, hle⟩
  | some u =>
    have hlub := (hnormal u rfl).isLub_join hnormalW
    exact ⟨u.join w, rfl, hlub.normal, hle.trans hlub.right⟩

/-- What was joined into a slot is found there. -/
theorem widened {m : Fields} {name : String}
    (hnormal : ∀ t, OrdMap.get? m name = some t → t.Normal) (hnormalV : v.Normal) :
    v.FoundIn (some (Fields.widened m name v)) := by
  refine ⟨_, rfl, ?_⟩
  unfold Fields.widened
  split
  · next old hfound =>
    have hlub := (hnormal old hfound).isLub_join hnormalV
    exact ⟨hlub.normal, hlub.right⟩
  · exact ⟨hnormalV, hnormalV.le_refl⟩

end Ty.FoundIn

theorem normal_joinFound {a b : Option Ty} (ha : ∀ t, a = some t → t.Normal)
    (hb : ∀ t, b = some t → t.Normal) : ∀ t, Heap.joinFound a b = some t → t.Normal :=
  Heap.joinFound_good (fun _ _ ha hb => (ha.isLub_join hb).normal) ha hb

/-- The place holds a normal type at least as wide as the given one. -/
def Run.Shows (s : Run) (l : Slot) (v : Ty) : Prop :=
  v.FoundIn (s.slot? l)

/-- A place goes on to show what it showed. -/
theorem Run.Shows.widens {s t : Run} {l : Slot} {v : Ty} (h : s.Shows l v) (hw : s.Widens t) :
    t.Shows l v := by
  obtain ⟨a, hfound, hnormal, hle⟩ := h
  obtain ⟨b, hfound', hwider⟩ := hw.slots l a hfound
  obtain ⟨hnormalB, hab⟩ := hwider hnormal
  exact ⟨b, hfound', hnormalB, hle.trans hab⟩

/-- What succeeds in a state with normal types leads to a wider one. -/
theorem widens_of_ok {α : Type} {m : Walk α} {Q : α → Run → Prop} {s t : Run} {a : α}
    (hdoes : normalTypes.Does none s m Q) (hnormal : s.Normal) (hran : m s = .ok a t) :
    s.Widens t ∧ t.Normal ∧ Q a t := by
  have houtcome := hdoes s rfl
  rw [hran] at houtcome
  cases houtcome with
  | ok _ hinv hlead hholds => exact ⟨(widens_of_steps hlead.steps hnormal).1, hinv.good, hholds⟩

/-! ### Writing -/

section Writing

variable {s t : Run} {v : Ty} {property : String}

/-- A place that had a slot of a map, and now has it with the type joined in, shows the type. -/
theorem Run.Shows.of_widened {l : Slot} {fs : Fields} (hnormal : s.Normal) (hnormalV : v.Normal)
    (hslot : s.slot? l = OrdMap.get? fs property)
    (hslot' : t.slot? l = some (Fields.widened fs property v)) : t.Shows l v := by
  rw [Run.Shows, hslot']
  exact .widened (fun u hown => hnormal u (Run.mem_types_of_slot? (hslot.trans hown))) hnormalV

/-- Where joining changes nothing, the slot has the joined type already. -/
theorem Fields.get?_of_not_widens {fs : Fields} (hstays : ¬ Fields.widens fs property v = true) :
    OrdMap.get? fs property = some (Fields.widened fs property v) := by
  simpa [Fields.widens] using hstays

theorem writeCell_shows {id : CellId} {changed : Bool} (hnormal : s.Normal) (hnormalV : v.Normal)
    (hran : onHeap (Heap.writeCell id property v) s = .ok changed t) :
    t.Shows (.field id property) v := by
  unfold onHeap at hran
  rw [Heap.writeCell_apply] at hran
  cases hfound : s.heap.cells[id]? with
  | none =>
    rw [hfound] at hran
    cases hran
  | some c =>
    have hslot : s.slot? (.field id property) = OrdMap.get? c.fields property := by
      simp [Run.slot?, hfound]
    refine .of_widened hnormal hnormalV hslot ?_
    by_cases hwidens : Fields.widens c.fields property v = true
    · simp only [hfound, if_pos hwidens] at hran
      cases hran
      simp [Run.slot?, Array.getElem?_modify, hfound, Fields.widen]
    · simp only [hfound, if_neg hwidens] at hran
      cases hran
      exact hslot.trans (Fields.get?_of_not_widens hwidens)

theorem defineMethod_shows {id : CtorId} {changed : Bool} (hnormal : s.Normal) (hnormalV : v.Normal)
    (hran : onProtos (Protos.defineMethod id property v) s = .ok changed t) :
    t.Shows (.method id property) v := by
  unfold onProtos Protos.defineMethod at hran
  rw [Protos.alter_apply] at hran
  cases hfound : s.protos.ctors[id]? with
  | none =>
    rw [hfound] at hran
    cases hran
  | some c =>
    have hslot : s.slot? (.method id property) = OrdMap.get? c.methods property := by
      simp [Run.slot?, hfound]
    refine .of_widened hnormal hnormalV hslot ?_
    by_cases hwidens : Fields.widens c.methods property v = true
    · simp only [hfound, if_pos hwidens] at hran
      cases hran
      simp [Run.slot?, Array.getElem?_modify, hfound, Fields.widen]
    · simp only [hfound, if_neg hwidens] at hran
      cases hran
      exact hslot.trans (Fields.get?_of_not_widens hwidens)

theorem writeCells_shows {ids : List CellId} {changed : Bool} (hnormal : s.Normal)
    (hnormalV : v.Normal) (hran : onHeap (Heap.writeCells property v ids) s = .ok changed t) :
    ∀ id ∈ ids, t.Shows (.field id property) v := by
  induction ids generalizing s changed with
  | nil => exact nofun
  | cons id rest ih =>
    rw [Heap.writeCells, Discipline.onHeap_bind] at hran
    obtain ⟨first, r, hwrote, hran⟩ := bind_eq_ok.mp hran
    rw [Discipline.onHeap_bind] at hran
    obtain ⟨others, r', hlater, hlast⟩ := bind_eq_ok.mp hran
    cases hlast
    obtain ⟨-, hnormalR, -⟩ := widens_of_ok (Discipline.Does.writeCell (normalTypes_inv hnormal)
      (fun htight => htight.elim) property hnormalV) hnormal hwrote
    obtain ⟨hwidens, -⟩ := widens_of_ok (Discipline.Does.writeCells (normalTypes_inv hnormalR)
      property hnormalV fun _ _ htight => htight.elim) hnormalR hlater
    refine List.forall_mem_cons.mpr ⟨?_, ih hnormalR hlater⟩
    exact (writeCell_shows hnormal hnormalV hwrote).widens hwidens

theorem defineMethods_shows {ids : List CtorId} (hnormal : s.Normal) (hnormalV : v.Normal)
    (hran : defineMethods property v ids s = .ok () t) :
    ∀ id ∈ ids, t.Shows (.method id property) v := by
  induction ids generalizing s with
  | nil => exact nofun
  | cons id rest ih =>
    obtain ⟨first, r, hwrote, hlater⟩ := bind_eq_ok.mp hran
    obtain ⟨-, hnormalR, -⟩ := widens_of_ok (Discipline.Does.defineMethod (normalTypes_inv hnormal)
      (fun htight => htight.elim) property hnormalV) hnormal hwrote
    obtain ⟨hwidens, -⟩ := widens_of_ok (Discipline.Does.defineMethods (normalTypes_inv hnormalR)
      property hnormalV fun _ _ htight => htight.elim) hnormalR hlater
    refine List.forall_mem_cons.mpr ⟨?_, ih hnormalR hlater⟩
    exact (defineMethod_shows hnormal hnormalV hwrote).widens hwidens

/-- The state shows the type in every place that the object has for the property. -/
structure ObjTy.Shown (o : ObjTy) (s : Run) (property : String) (v : Ty) : Prop where
  cells : ∀ id ∈ o.cells, s.Shows (.field id property) v
  methods : ∀ id ∈ o.protoOf, s.Shows (.method id property) v

theorem ObjTy.Shown.widens {o : ObjTy} (h : o.Shown s property v) (hw : s.Widens t) :
    o.Shown t property v :=
  ⟨fun id hmem => (h.cells id hmem).widens hw, fun id hmem => (h.methods id hmem).widens hw⟩

/-- A write reaches every place that the object has for the property. -/
theorem writeObject_shows {obj : Ty} {o : ObjTy} (hnormal : s.Normal) (hnormalV : v.Normal)
    (hpart : obj.objPart? = some o) (hran : writeObject obj property v s = .ok () t) :
    o.Shown t property v := by
  unfold writeObject at hran
  rw [hpart] at hran
  obtain ⟨changed, r, hwrote, hlater⟩ := bind_eq_ok.mp hran
  obtain ⟨-, hnormalR, -⟩ := widens_of_ok (Discipline.Does.writeCells (normalTypes_inv hnormal)
    property hnormalV fun _ _ htight => htight.elim) hnormal hwrote
  obtain ⟨hwidens, -⟩ := widens_of_ok (Discipline.Does.defineMethods (normalTypes_inv hnormalR)
    property hnormalV fun _ _ htight => htight.elim) hnormalR hlater
  refine ⟨fun id hmem => ?_, defineMethods_shows hnormalR hnormalV hlater⟩
  exact (writeCells_shows hnormal hnormalV hwrote id hmem).widens hwidens

/-- What a write does after it wrote to the object only widens the state. -/
theorem writeMember_shows {obj : Ty} {o : ObjTy} {throughThis : Bool} (hnormal : s.Normal)
    (hnormalO : obj.Normal) (hnormalV : v.Normal) (hpart : obj.objPart? = some o)
    (hran : writeMember obj property v throughThis s = .ok () t) :
    o.Shown t property v ∧ t.Normal := by
  obtain ⟨_, r, hwrote, hran⟩ := bind_eq_ok.mp hran
  obtain ⟨-, hnormalR, -⟩ := widens_of_ok (Discipline.Does.writeObject (normalTypes_inv hnormal)
    hnormalO property hnormalV) hnormal hwrote
  have hrest : normalTypes.Does none r
      (do when (property = "prototype") (writePrototype obj v)
          when throughThis (writeOwnField property v)) fun _ _ => True := by
    have hinv := normalTypes_inv hnormalR
    refine (Discipline.Agree.when hinv
      (fun _ => Discipline.Does.writePrototype hinv hnormalO hnormalV)
      fun _ => trivial).bind fun _ r hinv _ _ => ?_
    exact Discipline.Agree.when hinv (fun _ => Discipline.Does.writeOwnField hinv property hnormalV)
      fun _ => trivial
  obtain ⟨hwidens, hnormalT, -⟩ := widens_of_ok hrest hnormalR hran
  exact ⟨(writeObject_shows hnormal hnormalV hpart hwrote).widens hwidens, hnormalT⟩

end Writing

/-! ### Reading -/

section Reading

variable {v : Ty} {name : String}

/-- A lookup through cells finds what was found before, and what any of them shows. -/
theorem Heap.lookupCells_finds {h : Heap} (hcells : ∀ t ∈ Cell.entry.typesIn h.cells, t.Normal)
    {found r : Option Ty} (hnormal : ∀ t, found = some t → t.Normal) {ids : List CellId}
    (heq : h.lookupCells name found ids = .ok r)
    (hshown : v.FoundIn found ∨
      ∃ id ∈ ids, v.FoundIn (h.cells[id]?.bind fun c => OrdMap.get? c.fields name)) :
    v.FoundIn r := by
  induction ids generalizing found with
  | nil =>
    cases heq
    exact hshown.resolve_right nofun
  | cons id rest ih =>
    rw [lookupCells] at heq
    split at heq
    · cases heq
    · next c hcell =>
      have hget := cell_eq_ok hcell
      have hown (t : Ty) (hfield : OrdMap.get? c.fields name = some t) : t.Normal :=
        hcells t (Entry.types_subset hget (Fields.mem_types (OrdMap.mem_of_get? hfield)))
      refine ih (normal_joinFound hnormal hown) heq ?_
      rcases hshown with hfoundIn | ⟨j, hmem, hshown⟩
      · exact .inl (hfoundIn.join_left hown)
      · rcases List.mem_cons.mp hmem with rfl | hmem
        · rw [hget] at hshown
          exact .inl (hshown.join_right hnormal)
        · exact .inr ⟨j, hmem, hshown⟩

/-- A method of a constructor is found before anything behind the constructor. -/
theorem Protos.lookupMethod_own {g : Protos} {id : CtorId} {c : Ctor} {t : Ty}
    (hfound : g.ctors[id]? = some c) (hown : OrdMap.get? c.methods name = some t) :
    g.lookupMethod id name = .ok (some t) := by
  simp [lookupMethod, lookupIn, ctor, hfound, hown]

theorem Protos.lookupMethod_mem {g : Protos} {id : CtorId} {t : Ty}
    (heq : g.lookupMethod id name = .ok (some t)) : t ∈ Ctor.entry.typesIn g.ctors := by
  unfold lookupMethod at heq
  split at heq
  · cases heq
  · next hsearched =>
    cases heq
    exact lookupIn_mem hsearched

/-- A lookup along several chains finds what was found before, and what any of their constructors
shows as a method. -/
theorem Protos.lookupAll_finds {g : Protos} (hctors : ∀ t ∈ Ctor.entry.typesIn g.ctors, t.Normal)
    {found r : Option Ty} (hnormal : ∀ t, found = some t → t.Normal) {ids : List CtorId}
    (heq : g.lookupAll name found ids = .ok r)
    (hshown : v.FoundIn found ∨
      ∃ id ∈ ids, v.FoundIn (g.ctors[id]?.bind fun c => OrdMap.get? c.methods name)) :
    v.FoundIn r := by
  induction ids generalizing found with
  | nil =>
    cases heq
    exact hshown.resolve_right nofun
  | cons id rest ih =>
    rw [lookupAll] at heq
    split at heq
    · cases heq
    · next here hlooked =>
      have hbehind (t : Ty) (heq' : here = some t) : t.Normal := by
        subst heq'
        exact hctors t (lookupMethod_mem hlooked)
      refine ih (normal_joinFound hnormal hbehind) heq ?_
      rcases hshown with hfoundIn | ⟨j, hmem, hshown⟩
      · exact .inl (hfoundIn.join_left hbehind)
      · rcases List.mem_cons.mp hmem with rfl | hmem
        · obtain ⟨w, hfound, hnormalW, hle⟩ := hshown
          obtain ⟨c, hget, hown⟩ := Option.bind_eq_some_iff.mp hfound
          cases hlooked.symm.trans (lookupMethod_own hget hown)
          exact .inl (.join_right hnormal ⟨w, rfl, hnormalW, hle⟩)
        · exact .inr ⟨j, hmem, hshown⟩

/-- The object has a place for the property that reads look at.  Where it shows the property by
value, or in a cell, reads do not look at the prototype chain. -/
def ObjTy.Receives (o : ObjTy) (property : String) : Prop :=
  o.cells ≠ [] ∨ (o.field? property = none ∧ o.protoOf ≠ [])

variable {s t : Run} {o : ObjTy} {property : String} {r : Option Ty}

/-- Reading the property of an object does not change the state, and finds what its places show. -/
theorem memberOf_finds (hnormal : s.Normal) (hnormalO : (Ty.obj o).Normal)
    (hreceives : o.Receives property) (hshown : o.Shown s property v)
    (hran : memberOf (.obj o) property s = .ok r t) : v.FoundIn r := by
  obtain ⟨found, s', hasked, hran⟩ := bind_eq_ok.mp hran
  obtain ⟨hlooked, rfl⟩ := ask_eq_ok.mp hasked
  have hown (u : Ty) (hfield : o.field? property = some u) : u.Normal :=
    ((ObjTy.normal_iff o).mp hnormalO).1 _ (OrdMap.mem_of_get? hfield)
  have hcells : ∀ u ∈ Cell.entry.typesIn s'.heap.cells, u.Normal := fun u hmem =>
    hnormal u (s'.cell_types hmem)
  by_cases hheld : o.cells = []
  · -- Neither the object nor a cell has the property, so the chain is looked at.
    obtain ⟨hmissing, hlinks⟩ := hreceives.resolve_left (absurd hheld)
    have habsent : found = none := by
      rw [Heap.lookupField, hheld, hmissing] at hlooked
      exact (Except.ok.inj hlooked).symm
    subst habsent
    obtain ⟨hmethod, rfl⟩ := ask_eq_ok.mp hran
    obtain ⟨id, hmem⟩ := List.exists_mem_of_ne_nil _ hlinks
    exact Protos.lookupAll_finds (fun u hmem => hnormal u (t.ctor_types hmem))
      (fun _ habsent => by cases habsent) hmethod
      (.inr ⟨id, List.mem_append_right _ hmem, hshown.methods id hmem⟩)
  · obtain ⟨id, hmem⟩ := List.exists_mem_of_ne_nil _ hheld
    have hfinds : v.FoundIn found :=
      Heap.lookupCells_finds hcells hown hlooked (.inr ⟨id, hmem, hshown.cells id hmem⟩)
    obtain ⟨w, rfl, hnormalW, hle⟩ := hfinds
    cases hran
    exact ⟨w, rfl, hnormalW, hle⟩

/-- Reading over several alternatives finds what was found before, and what the places of an object
among them show. -/
theorem membersOf_finds {found : Option Ty} {ts : List Ty} (hnormal : s.Normal)
    (hnormals : ∀ m ∈ ts, m.Normal) (hnormal' : ∀ u, found = some u → u.Normal)
    (hran : membersOf found property ts s = .ok r t)
    (hshown : v.FoundIn found ∨ Ty.obj o ∈ ts ∧ o.Receives property ∧ o.Shown s property v) :
    v.FoundIn r := by
  induction ts generalizing s found with
  | nil =>
    cases hran
    exact hshown.resolve_right fun hinside => nomatch hinside.1
  | cons m ts ih =>
    obtain ⟨here, s', hread, hran⟩ := bind_eq_ok.mp hran
    obtain ⟨hnormalM, hnormals⟩ := List.forall_mem_cons.mp hnormals
    obtain ⟨hwidens, hnormal'', hgoodHere⟩ := widens_of_ok (Discipline.Does.memberOf
      (normalTypes_inv hnormal) hnormalM property) hnormal hread
    refine ih hnormal'' hnormals (normal_joinFound hnormal' hgoodHere) hran ?_
    rcases hshown with hfound | ⟨hmem, hreceives, hplaces⟩
    · exact .inl (hfound.join_left hgoodHere)
    · rcases List.mem_cons.mp hmem with rfl | hmem
      · exact .inl (.join_right hnormal' (memberOf_finds hnormal hnormalM hreceives hplaces hread))
      · exact .inr ⟨hmem, hreceives, hplaces.widens hwidens⟩

/-- A read finds what the places of the object show. -/
theorem readMember_finds {obj w : Ty} (hnormal : s.Normal) (hnormalO : obj.Normal)
    (hpart : obj.objPart? = some o) (hreceives : o.Receives property)
    (hshown : o.Shown s property v) (hran : readMember obj property s = .ok w t) :
    w.Normal ∧ v.Le w := by
  have hread : (do return (← membersOf none property obj.members).getD .any : Walk Ty) s =
      .ok w t := by
    cases obj with
    | never => cases hpart
    | _ => exact hran
  obtain ⟨found, r, hlooked, hlast⟩ := bind_eq_ok.mp hread
  have hfinds : v.FoundIn found :=
    membersOf_finds hnormal (fun m hmem => hnormalO.member hmem) (fun _ habsent => by cases habsent)
      hlooked (.inr ⟨Ty.mem_members_of_objPart? hpart, hreceives, hshown⟩)
  obtain ⟨u, rfl, hnormalU, hle⟩ := hfinds
  cases hlast
  exact ⟨hnormalU, hle⟩

/-- Nothing is written to an object that has neither a cell nor a constructor whose prototype object
it is. -/
theorem writeObject_nowhere {obj : Ty} (hpart : obj.objPart? = some o) (hheld : o.cells = [])
    (hlinks : o.protoOf = []) : writeObject obj property v s = .ok () s := by
  simp only [writeObject, hpart, Heap.writeField, hheld, hlinks]
  rfl

/-- What an object without cells shows by value is what is read from it. -/
theorem memberOf_snapshot {w : Ty} (hheld : o.cells = []) (hfield : o.field? property = some w)
    (s : Run) : memberOf (.obj o) property s = .ok (some w) s := by
  have hlooked : s.heap.lookupField o property = .ok (some w) := by
    rw [Heap.lookupField, hheld, hfield]
    rfl
  have hasked : Walk.ask (fun s => s.heap.lookupField o property) s = .ok (some w) s :=
    ask_eq_ok.mpr ⟨hlooked, rfl⟩
  exact bind_eq_ok.mpr ⟨some w, s, hasked, rfl⟩

/-- The alternative has no property of the name, whatever the state. -/
def Ty.Lacks (property : String) : Ty → Prop
  | .obj o => o.field? property = none ∧ o.cells = [] ∧ o.ctors ++ o.protoOf = []
  | .func f => property ∉ ["call", "apply", "length", "name"] ∧
      (property = "prototype" → f.closures = [])
  | .prim .string => property ≠ "length"
  | _ => True

theorem memberOf_lacks {m : Ty} (hlacks : m.Lacks property) (s : Run) :
    memberOf m property s = .ok none s := by
  cases m with
  | obj o =>
    obtain ⟨hfield, hheld, hlinks⟩ := hlacks
    have hlooked : s.heap.lookupField o property = .ok none := by
      rw [Heap.lookupField, hheld, hfield]
      rfl
    have hchain : s.protos.findMethod (.obj o) property = .ok none := by
      have hpart : (Ty.obj o).objPart? = some o := rfl
      simp only [Protos.findMethod, hpart, hlinks]
      rfl
    exact bind_eq_ok.mpr ⟨none, s, ask_eq_ok.mpr ⟨hlooked, rfl⟩, ask_eq_ok.mpr ⟨hchain, rfl⟩⟩
  | func f =>
    obtain ⟨hnames, hprototype⟩ := hlacks
    simp only [List.mem_cons, List.not_mem_nil, or_false, not_or] at hnames
    obtain ⟨hcall, happly, hlength, hname⟩ := hnames
    -- a function without closures has no prototype
    have hbare : ¬ (property = "prototype" ∧ f.closures ≠ []) :=
      fun hboth => hboth.2 (hprototype hboth.1)
    simp only [memberOf, if_neg hbare, hcall, happly, hlength, hname, or_self, if_false]
    rfl
  | prim p =>
    cases p with
    | string =>
      have hne : property ≠ "length" := hlacks
      simp only [memberOf, if_neg hne]
      rfl
    | _ => rfl
  | _ => rfl

/-- Nothing is known of a property that no alternative has. -/
theorem readMember_lacks {obj : Ty} (hpart : obj.objPart? = some o)
    (hlacks : ∀ m ∈ obj.members, m.Lacks property) (s : Run) :
    readMember obj property s = .ok .any s := by
  have habsent (ts : List Ty) (hlacks : ∀ m ∈ ts, m.Lacks property) :
      membersOf none property ts s = .ok none s := by
    induction ts with
    | nil => rfl
    | cons m ts ih =>
      obtain ⟨hlacks', hlater⟩ := List.forall_mem_cons.mp hlacks
      exact bind_eq_ok.mpr ⟨none, s, memberOf_lacks hlacks' s, ih hlater⟩
  have hread : (do return (← membersOf none property obj.members).getD .any : Walk Ty) s =
      .ok .any s :=
    bind_eq_ok.mpr ⟨none, s, habsent obj.members hlacks, rfl⟩
  cases obj with
  | never => cases hpart
  | _ => exact hread

end Reading

/-! ### Runs -/

/-- All types in the state are normal, and every handle has an entry. -/
structure Run.Sound (s : Run) : Prop where
  normal : s.Normal
  valid : s.Valid

instance (s : Run) (t : Ty) : Decidable (s.Holds t) :=
  inferInstanceAs (Decidable (∀ d ∈ t.handles, s.HasEntry d))

/-- Walks in which every type is normal and every handle has an entry. -/
def soundTypes : Discipline where
  toSimilarity := .equal
  toNodeClass := .all
  Good s t := t.Normal ∧ s.Holds t
  Within _ := True
  tight := True
  mono hext hgood := ⟨hgood.1, validHandles.mono hext hgood.2⟩
  never := ⟨trivial, validHandles.never⟩
  any := ⟨trivial, validHandles.any⟩
  prim p := ⟨trivial, validHandles.prim p⟩
  join ha hb := ⟨(ha.1.isLub_join hb.1).normal, validHandles.join ha.2 hb.2⟩
  member hgood hmem := ⟨hgood.1.member hmem, validHandles.member hgood.2 hmem⟩
  ret hgood := ⟨((FuncTy.normal_iff _).mp hgood.1).2.1, validHandles.ret hgood.2⟩
  field hgood hmem := ⟨((ObjTy.normal_iff _).mp hgood.1).1 _ hmem, validHandles.field hgood.2 hmem⟩
  closure hhas _ _ := ⟨Ty.normal_closure _ _, validHandles.closure hhas False.elim trivial⟩
  ofCell hhas := ⟨Ty.normal_ofCell _, validHandles.ofCell hhas⟩
  ofInstance hhas hhasK := ⟨Ty.normal_ofInstance _ _, validHandles.ofInstance hhas hhasK⟩
  prototypeOf hhas := ⟨Ty.normal_prototypeOf _, validHandles.prototypeOf hhas⟩
  funcHandles htight _ _ hgood := validHandles.funcHandles htight hgood.2
  cellHandles htight _ _ hgood := validHandles.cellHandles htight hgood.2
  ctorHandles htight _ _ hgood := validHandles.ctorHandles htight hgood.2

theorem soundTypes_inv_iff (s : Run) : soundTypes.Inv s ↔ s.Sound := by
  constructor
  · intro hinv
    refine ⟨fun t hstored => (hinv.good t hstored).1, (validHandles_inv_iff s).mp ?_⟩
    exact ⟨fun t hstored => (hinv.good t hstored).2, hinv.live, hinv.literals, hinv.global, trivial,
      False.elim, nofun⟩
  · rintro ⟨hnormal, hvalid⟩
    have hinv := (validHandles_inv_iff s).mpr hvalid
    exact ⟨fun t hstored => ⟨hnormal t hstored, hinv.good t hstored⟩, hinv.live, hinv.literals,
      hinv.global, trivial, False.elim, nofun⟩

/-- The state before the first program is sound when the given globals are normal and carry no
handles. -/
theorem start_sound (options : Options) {globals : Globals} (hgiven : ∀ g ∈ globals, g.2.Normal)
    (hplain : ∀ g ∈ globals, g.2.handles = []) : (Run.start options globals).Sound :=
  ⟨start_types options builtins_normal hgiven, start_valid options hplain⟩

/-- The states that a run passes have normal types when the given globals do; and every handle in
them has an entry when the globals carry none. -/
theorem runs_pass_sound (options : Options) {globals : Globals}
    (hnormal : ∀ g ∈ globals, g.2.Normal) (ps : List Program) :
    let run : Walk Unit := do inferPrograms ps; analyseUncalled
    run.Through Run.Normal (Run.start options globals) ∧
      ((∀ g ∈ globals, g.2.handles = []) → run.Through Run.Sound (Run.start options globals)) := by
  intro run
  have hdoes {D : Discipline} (hreports : D.reports) (hinv : D.Inv (Run.start options globals))
      (hall : ∀ n, D.Allowed n) : D.Does none (Run.start options globals) run fun _ _ => True :=
    (Discipline.Does.inferPrograms hreports hinv fun _ _ n _ => hall n).bind fun _ _ hinv _ _ =>
      Discipline.Does.analyseUncalled hreports hinv
  constructor
  · have hinv := normalTypes_inv (start_types options builtins_normal hnormal)
    have hruns := hdoes (D := normalTypes) trivial hinv fun _ => trivial
    exact (hruns.through (fun t hinv => hinv.good) rfl hinv).1
  · intro hplain
    have hinv := (soundTypes_inv_iff _).mpr (start_sound options hnormal hplain)
    have hruns := hdoes (D := soundTypes) trivial hinv fun _ => trivial
    exact (hruns.through (fun t hinv => (soundTypes_inv_iff t).mp hinv) rfl hinv).1

/-- A write to a property and the read that follows it succeed when all handles have entries. -/
theorem member_write_read_ok {s : Run} (hvalid : s.Valid) {obj v : Ty} (hholdsO : s.Holds obj)
    (hholdsV : s.Holds v) (property : String) (throughThis : Bool) :
    ∃ t r u, writeMember obj property v throughThis s = .ok () t ∧
      readMember obj property t = .ok r u := by
  have hwrite : validHandles.Does none s (writeMember obj property v throughThis) fun _ _ => True :=
    Discipline.Does.writeMember ((validHandles_inv_iff s).mpr hvalid) hholdsO property hholdsV
      throughThis
  obtain ⟨_, t, hwrote⟩ :=
    (sound_of_does hvalid hwrite).ends (Idle.writeMember obj property v throughThis).calm
  have houtcome := hwrite s rfl
  rw [hwrote] at houtcome
  cases houtcome with
  | ok _ hinv hlead _ =>
    have hread : validHandles.Does none t (readMember obj property) fun r t => t.Holds r :=
      Discipline.Does.readMember hinv (hlead.good hholdsO) property
    have hsound := sound_of_does ((validHandles_inv_iff t).mp hinv) hread
    obtain ⟨r, u, hran⟩ := hsound.ends (Idle.readMember obj property).calm
    exact ⟨t, r, u, hwrote, hran⟩

/-- A write to a property is seen by the read that follows it.  This holds in all states with normal
types, which are those that runs pass, when the object has a place for the property that reads look
at, or no alternative of the value has the property.  An object without a cell that shows the
property by value goes on to show what it showed; and nothing is written to one that has neither a
cell nor a constructor whose prototype object it is.  Where all handles have entries, as in runs
whose globals carry none, write and read succeed. -/
theorem member_write_is_read :
    (∀ (options : Options) (globals : Globals), (∀ g ∈ globals, g.2.Normal) →
      ∀ ps : List Program,
        let run : Walk Unit := do inferPrograms ps; analyseUncalled
        run.Through Run.Normal (Run.start options globals) ∧
        ((∀ g ∈ globals, g.2.handles = []) →
          run.Through Run.Sound (Run.start options globals))) ∧
    ∀ s : Run, s.Normal → ∀ obj v : Ty, obj.Normal → v.Normal → ∀ o, obj.objPart? = some o →
      ∀ (property : String) (throughThis : Bool),
        (s.Valid → s.Holds obj → s.Holds v → ∃ t r u,
          writeMember obj property v throughThis s = .ok () t ∧
          readMember obj property t = .ok r u) ∧
        ∀ t r u, writeMember obj property v throughThis s = .ok () t →
          readMember obj property t = .ok r u →
            (o.Receives property ∨ (∀ m ∈ obj.members, m.Lacks property) →
              v.isSubtype r = true) ∧
            (o.cells = [] → ∀ w, o.field? property = some w →
              memberOf (.obj o) property t = .ok (some w) t) ∧
            (o.cells = [] → o.protoOf = [] → writeObject obj property v s = .ok () s) := by
  refine ⟨fun options globals hnormal ps => runs_pass_sound options hnormal ps, ?_⟩
  intro s hnormal' obj v hnormalO hnormalV o hpart property throughThis
  refine ⟨fun hvalid hholdsO hholdsV =>
      member_write_read_ok hvalid hholdsO hholdsV property throughThis,
    fun t r u hwrote hread => ⟨fun hcovered => ?_, fun hheld w hfield =>
      memberOf_snapshot hheld hfield t, writeObject_nowhere hpart⟩⟩
  obtain ⟨hshown, hnormalT⟩ := writeMember_shows hnormal' hnormalO hnormalV hpart hwrote
  -- the write is found where it went, or what reads the property answers `any`
  rcases hcovered with hreceives | hlacks
  · obtain ⟨hnormalR, hle⟩ := readMember_finds hnormalT hnormalO hpart hreceives hshown hread
    exact (hnormalV.isSubtype_iff hnormalR).mpr hle
  · cases hread.symm.trans (readMember_lacks hpart hlacks t)
    have hnormalAny : Ty.any.Normal := trivial
    exact (hnormalV.isSubtype_iff hnormalAny).mpr (Ty.le_any v)

/-- `function f() {}` and `var o = true ? {} : f`. -/
def objectOrFunction : Program :=
  [⟨0, ⟨0, 0⟩, .function ⟨1, ⟨0, 0⟩, some "f", [], []⟩⟩,
    ⟨2, ⟨0, 0⟩, .vars [⟨"o", some ⟨3, ⟨0, 0⟩, .conditional ⟨4, ⟨0, 0⟩, .literal .boolean⟩
      ⟨5, ⟨0, 0⟩, .object []⟩ ⟨6, ⟨0, 0⟩, .ident "f"⟩⟩⟩]⟩]

/-- A text that is written to the `prototype` of an object or a function is read from the object,
beside the prototype object of the function, which the read makes. -/
theorem member_write_is_read_objectOrFunction :
    let s := after (inferPrograms [objectOrFunction]) (Run.start ⟨2, 3, false, false⟩ [])
    let obj : Ty := .union [.closure 0 0, .ofCell 0]
    s.slot? (.binding Env.global "o") = some obj ∧ s.Sound ∧ s.protos.ctors.size = 0 ∧
    ∃ t r u, writeMember obj "prototype" .string false s = .ok () t ∧
      readMember obj "prototype" t = .ok r u ∧ Ty.string.isSubtype r = true := by
  intro s obj
  have hsound : s.Sound := ⟨by decide +kernel, by decide +kernel⟩
  obtain ⟨hends, hcovers⟩ := member_write_is_read.2 s hsound.normal obj .string (by decide)
    (by decide) ⟨[], [0], [], []⟩ rfl "prototype" false
  obtain ⟨t, r, u, hwrote, hread⟩ := hends hsound.valid (by decide +kernel) (by decide)
  have hreceives : (⟨[], [0], [], []⟩ : ObjTy).Receives "prototype" := .inl (List.cons_ne_nil 0 [])
  exact ⟨by decide +kernel, hsound, by decide +kernel, t, r, u, hwrote, hread,
    (hcovers t r u hwrote hread).1 (.inl hreceives)⟩

/-- The library is known by value: a text that is written to `Math.PI` is not read from it. -/
theorem library_hides_write :
    let s := Run.start .standard []
    let math := (s.slot? (.binding Env.global "Math")).getD .never
    math.objPart?.isSome = true ∧
    ∃ t u, writeMember math "PI" .string false s = .ok () t ∧
      readMember math "PI" t = .ok .number u ∧ Ty.string.isSubtype .number = false := by
  intro s math
  refine ⟨by decide +kernel, ?_⟩
  have hreads : (do writeMember math "PI" .string false; readMember math "PI" : Walk Ty).run' s =
      some .number := by
    decide +kernel
  obtain ⟨u, hran⟩ := run'_eq_some.mp hreads
  obtain ⟨_, t, hwrote, hread⟩ := bind_eq_ok.mp hran
  exact ⟨t, u, hwrote, hread, rfl⟩

end TypeFlow
