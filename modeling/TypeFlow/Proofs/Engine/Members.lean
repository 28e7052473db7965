import Mathlib
import TypeFlow.Proofs.Engine.Operations

/-!
# Walks over variables and properties

Reading and writing the places that a program names keeps to every discipline: what is read is a
type that may be stored, and what is written has to be one.

## Main Statements

* `Discipline.Does.readVariable`, `Discipline.Does.writeVariable` - variables
* `Discipline.Does.readMember`, `Discipline.Does.writeMember` - properties of values
* `Discipline.Does.readTarget`, `Discipline.Does.writeTarget` - the targets of assignments
-/

namespace TypeFlow

namespace Discipline

variable {D : Discipline} {but : Option ClosureId} {s : Run}

/-! ### Variables -/

/-- A variable that is read has a type that may be stored: an unbound one is `any`. -/
theorem Does.readVariable (hinv : D.Inv s) {scope : ScopeId} (hlive : D.Live s (.scope scope))
    {name : String} (hmay : D.MayRead name) :
    D.Does but s (readVariable scope name) fun r t => D.Good t r := by
  refine (Does.readScope hinv hlive name).bind fun found t hinv _ hgood => ?_
  cases found with
  | some u => exact Agree.pure hinv (hgood u rfl)
  | none =>
    refine (Does.noteUnbound hinv hmay).bind fun _ t hinv _ _ => ?_
    exact Agree.pure hinv D.any

/-- A variable that is written, as a new global when no scope has its name. -/
theorem Does.writeVariable (hinv : D.Inv s) {scope : ScopeId} (hlive : D.Live s (.scope scope))
    (name : String) {value : Ty} (hgood : D.Good s value) :
    D.Does but s (writeVariable scope name value) fun _ _ => True := by
  refine (Does.assignVariable hinv hlive hinv.linkedEnv name hgood).bind
    fun found t hinv hlead _ => ?_
  cases found with
  | some owner => exact Agree.pure hinv trivial
  | none =>
    have hmay : D.MayBind t Env.global name := fun _ => .inl rfl
    refine (Does.bindVariable hinv hinv.global hmay (hlead.good hgood)).bind fun _ t hinv _ _ => ?_
    exact Agree.pure hinv trivial

/-! ### Constructors -/

/-- The constructor of a live closure is live. -/
theorem Does.ctorOf (hinv : D.Inv s) {closure : ClosureId} (hlive : D.Live s (.closure closure)) :
    D.Does but s (ctorOf closure) fun id t => D.Live t (.ctor id) := by
  refine (Does.askClosure hinv hlive).bind fun c t hinv _ hfound => ?_
  exact (Does.ctorFor hinv hfound).mono fun id t hinv _ hled =>
    hinv.live _ (Run.constructor_handles hled)

/-- The prototype objects of live closures may be stored. -/
theorem Does.prototypesOf (hinv : D.Inv s) {acc : Ty} (hgood : D.Good s acc) {cs : List ClosureId}
    (hlive : ∀ c ∈ cs, D.Live s (.closure c)) :
    D.Does but s (prototypesOf acc cs) fun r t => D.Good t r := by
  induction cs generalizing s acc with
  | nil => exact Agree.pure hinv hgood
  | cons c cs ih =>
    refine (Does.ctorOf hinv (hlive c List.mem_cons_self)).bind fun ctor t hinv hlead hhas => ?_
    refine ih hinv (D.join (hlead.good hgood) (D.prototypeOf hhas)) fun k hmem => ?_
    exact hlead.live (hlive k (List.mem_cons_of_mem c hmem))

/-- The closures of a function that may be stored are live. -/
theorem live_closures {f : FuncTy} (hgood : D.Good s (.func f)) :
    ∀ c ∈ f.closures, D.Live s (.closure c) :=
  fun c hmem htight => D.funcHandles htight hgood c hmem

/-- The cells of an object that may be stored are live. -/
theorem live_cells {o : ObjTy} (hgood : D.Good s (.obj o)) : ∀ c ∈ o.cells, D.Live s (.cell c) :=
  fun c hmem htight => D.cellHandles htight hgood c hmem

/-- The constructors of an object that may be stored are live. -/
theorem live_ctors {o : ObjTy} (hgood : D.Good s (.obj o)) :
    ∀ c ∈ o.ctors ++ o.protoOf, D.Live s (.ctor c) :=
  fun c hmem htight => D.ctorHandles htight hgood c hmem

/-- The function among the alternatives of a type may be stored if the type may. -/
theorem good_funcPart {t : Ty} {f : FuncTy} (hgood : D.Good s t) (hpart : t.funcPart? = some f) :
    D.Good s (.func f) :=
  D.member hgood (Ty.mem_members_of_funcPart? hpart)

/-- The object among the alternatives of a type may be stored if the type may. -/
theorem good_objPart {t : Ty} {o : ObjTy} (hgood : D.Good s t) (hpart : t.objPart? = some o) :
    D.Good s (.obj o) :=
  D.member hgood (Ty.mem_members_of_objPart? hpart)

/-! ### Reading properties -/

/-- A property of one alternative of a type that may be stored. -/
theorem Does.memberOf (hinv : D.Inv s) {t : Ty} (hgood : D.Good s t) (property : String) :
    D.Does but s (memberOf t property) D.GoodOpt := by
  -- an alternative that is no value of its own has no property
  have habsent : D.Does but s (pure none : Walk (Option Ty)) D.GoodOpt :=
    Agree.pure hinv nofun
  have hpresent {u : Ty} (hgoodU : D.Good s u) :
      D.Does but s (pure (some u) : Walk (Option Ty)) D.GoodOpt :=
    Agree.pure hinv fun v hsame => Option.some.inj hsame ▸ hgoodU
  cases t with
  | obj o =>
    refine (Does.lookupField hinv hgood property).bind fun found t hinv hlead hgoodF => ?_
    cases found with
    | some u => exact Agree.pure hinv hgoodF
    | none => exact Does.findMethod hinv (hlead.good hgood) property
  | func f =>
    unfold TypeFlow.memberOf
    refine Agree.ite (fun _ => ?_) fun _ => Agree.ite (fun _ => hpresent hgood) fun _ =>
      Agree.ite (fun _ => hpresent (D.prim .number)) fun _ =>
        Agree.ite (fun _ => hpresent (D.prim .string)) fun _ => habsent
    refine (Does.prototypesOf hinv D.never (live_closures hgood)).bind fun r t hinv _ hgoodR => ?_
    exact Agree.pure hinv fun v hsame => Option.some.inj hsame ▸ hgoodR
  | prim p =>
    cases p with
    | string =>
      refine Agree.pure hinv fun u hsame => ?_
      split at hsame
      · exact Option.some.inj hsame ▸ D.prim .number
      · cases hsame
    | _ => exact habsent
  | _ => exact habsent

/-- The properties of all alternatives are joined. -/
theorem Does.membersOf (hinv : D.Inv s) {found : Option Ty}
    (hgoodF : D.GoodOpt found s) (property : String) {ts : List Ty}
    (hgoods : ∀ t ∈ ts, D.Good s t) :
    D.Does but s (membersOf found property ts) D.GoodOpt := by
  induction ts generalizing s found with
  | nil => exact Agree.pure hinv hgoodF
  | cons t ts ih =>
    refine (Does.memberOf hinv (hgoods t List.mem_cons_self) property).bind
      fun here r hinv hlead hgoodH => ?_
    refine ih hinv ?_ fun u hmem => hlead.good (hgoods u (List.mem_cons_of_mem t hmem))
    exact Heap.joinFound_good (fun _ _ => D.join) (fun u hsame => hlead.good (hgoodF u hsame))
      hgoodH

/-- A property that is read has a type that may be stored: one that is not found is `any`. -/
theorem Does.readMember (hinv : D.Inv s) {t : Ty} (hgood : D.Good s t) (property : String) :
    D.Does but s (readMember t property) fun r t => D.Good t r := by
  have hfound : D.Does but s (do return (← TypeFlow.membersOf none property t.members).getD .any)
      fun r t => D.Good t r := by
    have hnone : D.GoodOpt none s := nofun
    refine (Does.membersOf hinv hnone property fun m hmem => D.member hgood hmem).bind
      fun found t hinv _ hgoodF => ?_
    refine Agree.pure hinv ?_
    cases found with
    | none => exact D.any
    | some u => exact hgoodF u rfl
  cases t with
  | never => exact Agree.pure hinv D.never
  | _ => exact hfound

/-! ### Writing properties -/

/-- A write to all cells of an object. -/
theorem Does.writeCells (hinv : D.Inv s) (name : String) {value : Ty} (hgood : D.Good s value)
    {ids : List CellId} (hlive : ∀ id ∈ ids, D.Live s (.cell id)) :
    D.Does but s (Walk.onHeap (Heap.writeCells name value ids)) fun _ _ => True := by
  induction ids generalizing s with
  | nil => exact Agree.pure hinv trivial
  | cons id rest ih =>
    rw [Heap.writeCells, onHeap_bind]
    refine (Does.writeCell hinv (hlive id List.mem_cons_self) name hgood).bind
      fun first t hinv hlead _ => ?_
    rw [onHeap_bind]
    refine (ih hinv (hlead.good hgood) fun j hmem => ?_).bind fun others t hinv _ _ =>
      Agree.pure hinv trivial
    exact hlead.live (hlive j (List.mem_cons_of_mem id hmem))

theorem Does.writeAll (hinv : D.Inv s) {id : CellId} (hlive : D.Live s (.cell id))
    {fields : List (String × Ty)} (hgoods : ∀ e ∈ fields, D.Good s e.2) :
    D.Does but s (Walk.onHeap (Heap.writeAll id fields)) fun _ _ => True := by
  induction fields generalizing s with
  | nil => exact Agree.pure hinv trivial
  | cons e rest ih =>
    rw [Heap.writeAll, onHeap_bind]
    refine (Does.writeCell hinv hlive e.1 (hgoods e List.mem_cons_self)).bind
      fun _ t hinv hlead _ => ?_
    refine ih hinv (hlead.live hlive) fun f hmem => ?_
    exact hlead.good (hgoods f (List.mem_cons_of_mem e hmem))

/-- A new object: the cell of its site, with the given fields written to it. -/
theorem Does.create (hinv : D.Inv s) {site : AllocSite} (hscope : D.Live s (.scope site.scope))
    (hctor : ∀ id, site.ctor = some id → D.Live s (.ctor id)) {fields : List (String × Ty)}
    (hgoods : ∀ e ∈ fields, D.Good s e.2) :
    D.Does but s (Walk.onHeap (Heap.create site fields)) fun id t => D.Live t (.cell id) := by
  rw [Heap.create, onHeap_bind]
  refine (Does.cellFor hinv hscope hctor).bind fun id t hinv hlead hled => ?_
  have hlive : D.Live t (.cell id) := hinv.live _ (Run.allocated_handles hled)
  rw [onHeap_bind]
  refine (Does.writeAll hinv hlive fun e hmem => hlead.good (hgoods e hmem)).bind
    fun _ r hinv hlead' _ => ?_
  exact Agree.pure hinv (hlead'.live hlive)

/-- A method of several constructors. -/
theorem Does.defineMethods (hinv : D.Inv s) (property : String) {value : Ty}
    (hgood : D.Good s value) {ids : List CtorId} (hlive : ∀ id ∈ ids, D.Live s (.ctor id)) :
    D.Does but s (defineMethods property value ids) fun _ _ => True := by
  induction ids generalizing s with
  | nil => exact Agree.pure hinv trivial
  | cons id rest ih =>
    refine (Does.defineMethod hinv (hlive id List.mem_cons_self) property hgood).bind
      fun _ t hinv hlead _ => ?_
    exact ih hinv (hlead.good hgood) fun j hmem =>
      hlead.live (hlive j (List.mem_cons_of_mem id hmem))

theorem Does.defineAll (hinv : D.Inv s) {ctor : CtorId} (hlive : D.Live s (.ctor ctor))
    {fields : List (String × Ty)} (hgoods : ∀ e ∈ fields, D.Good s e.2) :
    D.Does but s (defineAll ctor fields) fun _ _ => True := by
  induction fields generalizing s with
  | nil => exact Agree.pure hinv trivial
  | cons e rest ih =>
    refine (Does.defineMethod hinv hlive e.1 (hgoods e List.mem_cons_self)).bind
      fun _ t hinv hlead _ => ?_
    refine ih hinv (hlead.live hlive) fun f hmem => ?_
    exact hlead.good (hgoods f (List.mem_cons_of_mem e hmem))

/-- Links to several parents. -/
theorem Does.addParents (hinv : D.Inv s) {ctor : CtorId} (hlive : D.Live s (.ctor ctor))
    {ps : List CtorId} (hliveP : ∀ p ∈ ps, D.Live s (.ctor p)) :
    D.Does but s (addParents ctor ps) fun _ _ => True := by
  induction ps generalizing s with
  | nil => exact Agree.pure hinv trivial
  | cons p ps ih =>
    refine (Does.addParent hinv hlive (hliveP p List.mem_cons_self)).bind fun _ t hinv hlead _ => ?_
    refine ih hinv (hlead.live hlive) fun q hmem => ?_
    exact hlead.live (hliveP q (List.mem_cons_of_mem p hmem))

theorem Does.shareAll (hinv : D.Inv s) {ctor : CtorId} (hlive : D.Live s (.ctor ctor))
    {cs : List CtorId} (hliveC : ∀ c ∈ cs, D.Live s (.ctor c)) :
    D.Does but s (shareAll ctor cs) fun _ _ => True := by
  induction cs generalizing s with
  | nil => exact Agree.pure hinv trivial
  | cons c cs ih =>
    refine (Does.share hinv hlive (hliveC c List.mem_cons_self)).bind fun _ t hinv hlead _ => ?_
    refine ih hinv (hlead.live hlive) fun k hmem => ?_
    exact hlead.live (hliveC k (List.mem_cons_of_mem c hmem))

/-- The fields of several cells are those of the first one, and then those of the rest. -/
theorem cellFields_cons (h : Heap) (id : CellId) (rest : List CellId) :
    cellFields h (id :: rest) =
      match h.cell id with
      | .error d => .error d
      | .ok c =>
        match cellFields h rest with
        | .error d => .error d
        | .ok fields => .ok (c.fields ++ fields) := by
  rw [cellFields]
  cases h.cell id with
  | error d => rfl
  | ok c =>
    change (cellFields h rest >>= fun fields => pure (c.fields ++ fields)) = _
    cases cellFields h rest <;> rfl

/-- Fields of cells have types of the heap. -/
theorem cellFields_mem {h : Heap} {ids : List CellId} {fields : List (String × Ty)}
    (heq : cellFields h ids = .ok fields) {e : String × Ty} (hmem : e ∈ fields) :
    e.2 ∈ Cell.entry.typesIn h.cells := by
  induction ids generalizing fields with
  | nil =>
    cases heq
    cases hmem
  | cons id rest ih =>
    rw [cellFields_cons] at heq
    split at heq
    · cases heq
    · next c hfound =>
      split at heq
      · cases heq
      · next others hcollected =>
        cases heq
        rcases List.mem_append.mp hmem with hown | hmem'
        · exact Entry.types_subset (Heap.cell_eq_ok hfound) (Fields.mem_types hown)
        · exact ih hcollected hmem'

theorem cellFields_total {h : Heap} {ids : List CellId} (hinside : ∀ id ∈ ids, id < h.cells.size) :
    ∃ fields, cellFields h ids = .ok fields := by
  induction ids with
  | nil => exact ⟨[], rfl⟩
  | cons id rest ih =>
    obtain ⟨c, -, heq⟩ := Heap.cell_total (hinside id List.mem_cons_self)
    obtain ⟨others, heqO⟩ := ih fun j hmem => hinside j (List.mem_cons_of_mem id hmem)
    exact ⟨c.fields ++ others, by rw [cellFields_cons, heq, heqO]⟩

/-- An object that becomes a prototype leaves its fields to the constructor, as methods. -/
theorem Does.adoptFields (hinv : D.Inv s) {ctor : CtorId} (hlive : D.Live s (.ctor ctor))
    {o : ObjTy} (hgood : D.Good s (.obj o)) :
    D.Does but s (adoptFields ctor o) fun _ _ => True := by
  have hcollected : D.Does but s (Walk.ask fun s => cellFields s.heap o.cells) fun fields t =>
      ∀ e ∈ fields, D.Good t e.2 := by
    refine Agree.ask hinv (fun s' hsim => by rw [sim_heap hsim]) ?_ ?_
    · exact fun fields heq e hmem => hinv.good e.2 (s.cell_types (cellFields_mem heq hmem))
    · intro d hfailed htight
      obtain ⟨fields, heq⟩ := cellFields_total (D.cellHandles htight hgood)
      rw [heq] at hfailed
      cases hfailed
  refine hcollected.bind fun inCells t hinv hlead hgoods => ?_
  refine Does.defineAll hinv (hlead.live hlive) fun e hmem => ?_
  rcases List.mem_append.mp hmem with hown | hmem'
  · exact hlead.good (D.field hgood hown)
  · exact hgoods e hmem'

/-- A value that becomes a prototype links the constructor to those of instances, shares those of
prototype objects and adopts the fields of other objects. -/
theorem Does.linkPrototype (hinv : D.Inv s) {ctor : CtorId} (hlive : D.Live s (.ctor ctor))
    {value : Ty} (hgood : D.Good s value) :
    D.Does but s (linkPrototype ctor value) fun _ _ => True := by
  unfold TypeFlow.linkPrototype
  cases hpart : value.objPart? with
  | none => exact Agree.pure hinv trivial
  | some o =>
    have hgoodO := good_objPart hgood hpart
    refine (Does.addParents hinv hlive fun p hmem => ?_).bind fun _ t hinv hlead _ => ?_
    · exact live_ctors hgoodO p (List.mem_append_left _ hmem)
    refine (Does.shareAll hinv (hlead.live hlive) fun c hmem => ?_).bind fun _ r hinv hlead' _ => ?_
    · exact hlead.live (live_ctors hgoodO c (List.mem_append_right _ hmem))
    have hlead := hlead.trans hlead'
    exact Agree.when hinv (fun _ => Does.adoptFields hinv (hlead.live hlive) (hlead.good hgoodO))
      fun _ => trivial

theorem Does.linkPrototypes (hinv : D.Inv s) {value : Ty} (hgood : D.Good s value)
    {cs : List ClosureId} (hlive : ∀ c ∈ cs, D.Live s (.closure c)) :
    D.Does but s (linkPrototypes value cs) fun _ _ => True := by
  induction cs generalizing s with
  | nil => exact Agree.pure hinv trivial
  | cons c cs ih =>
    refine (Does.ctorOf hinv (hlive c List.mem_cons_self)).bind fun ctor t hinv hlead hhas => ?_
    refine (Does.linkPrototype hinv hhas (hlead.good hgood)).bind
      fun _ r hinv hlead' _ => ?_
    have hlead := hlead.trans hlead'
    exact ih hinv (hlead.good hgood) fun k hmem =>
      hlead.live (hlive k (List.mem_cons_of_mem c hmem))

/-- A property that is written to an object goes to its cells, and to the constructors that it is
the prototype of. -/
theorem Does.writeObject (hinv : D.Inv s) {t : Ty} (hgood : D.Good s t) (property : String)
    {value : Ty} (hgoodV : D.Good s value) :
    D.Does but s (writeObject t property value) fun _ _ => True := by
  unfold TypeFlow.writeObject
  cases hpart : t.objPart? with
  | none => exact Agree.pure hinv trivial
  | some o =>
    have hgoodO := good_objPart hgood hpart
    refine (Does.writeCells hinv property hgoodV (live_cells hgoodO)).bind
      fun _ t hinv hlead _ => ?_
    refine Does.defineMethods hinv property (hlead.good hgoodV) fun c hmem => ?_
    exact hlead.live (live_ctors hgoodO c (List.mem_append_right _ hmem))

/-- A value that is written to the property `prototype` of a function becomes the prototype of its
constructors. -/
theorem Does.writePrototype (hinv : D.Inv s) {t : Ty} (hgood : D.Good s t) {value : Ty}
    (hgoodV : D.Good s value) : D.Does but s (writePrototype t value) fun _ _ => True := by
  unfold TypeFlow.writePrototype
  cases hpart : t.funcPart? with
  | none => exact Agree.pure hinv trivial
  | some f => exact Does.linkPrototypes hinv hgoodV (live_closures (good_funcPart hgood hpart))

/-- The innermost call keeps to the discipline. -/
theorem Inv.current {a : Activation} (hinv : D.Inv s) (hrunning : s.current? = some a) :
    (∀ t ∈ a.types, D.Good s t) ∧ ∀ d ∈ a.handles, D.Live s d := by
  have hmem : a ∈ s.activations := List.mem_of_head? hrunning
  constructor
  · intro t hinside
    exact hinv.good t (s.activation_types (List.mem_flatMap.mpr ⟨a, hmem, hinside⟩))
  · intro d hinside
    exact hinv.live d (s.activation_handles (List.mem_flatMap.mpr ⟨a, hmem, hinside⟩))

theorem sim_current? {s' : Run} (hsim : D.Sim s s') : s'.current? = s.current? := by
  rw [Run.current?, Run.current?, sim_activations hsim]

/-- A property that is written through `this` is an own field of the constructor that runs. -/
theorem Does.writeOwnField (hinv : D.Inv s) (property : String) {value : Ty}
    (hgood : D.Good s value) : D.Does but s (writeOwnField property value) fun _ _ => True := by
  refine Agree.get (fun s' hsim => by rw [sim_current? hsim]) ?_
  cases hrunning : s.current?.bind (·.constructing) with
  | none => exact Agree.pure hinv trivial
  | some ctor =>
    obtain ⟨a, hcurrent, hconstructs⟩ := Option.bind_eq_some_iff.mp hrunning
    have hlive : D.Live s (.ctor ctor) := (hinv.current hcurrent).2 _ <|
      List.mem_cons_of_mem _ <| List.mem_cons_of_mem _ <|
        List.mem_map.mpr ⟨ctor, Option.mem_toList.mpr hconstructs, rfl⟩
    refine (Does.recordOwnField hinv hlive property hgood).bind fun _ t hinv _ _ => ?_
    exact Agree.pure hinv trivial

/-- A property that is written to a value. -/
theorem Does.writeMember (hinv : D.Inv s) {t : Ty} (hgood : D.Good s t) (property : String)
    {value : Ty} (hgoodV : D.Good s value) (throughThis : Bool) :
    D.Does but s (writeMember t property value throughThis) fun _ _ => True := by
  refine (Does.writeObject hinv hgood property hgoodV).bind fun _ r hinv hlead _ => ?_
  refine (Agree.when hinv (fun _ => Does.writePrototype hinv (hlead.good hgood) (hlead.good hgoodV))
    fun _ => trivial).bind fun _ r hinv hlead' _ => ?_
  exact Agree.when hinv
    (fun _ => Does.writeOwnField hinv property ((hlead.trans hlead').good hgoodV))
    fun _ => trivial

/-! ### Assignment targets -/

/-- A target that may be assigned to. -/
def GoodTarget (D : Discipline) (s : Run) : Target → Prop
  | .variable _ => True
  | .member object _ _ => D.Good s object
  | .computed => True

/-- A target that may be assigned to stays so. -/
theorem Leads.target {t : Run} (hlead : D.Leads but s t) {target : Target}
    (hgood : D.GoodTarget s target) : D.GoodTarget t target := by
  match target, hgood with
  | .variable name, hgood => exact hgood
  | .member object property throughThis, hgood => exact hlead.good hgood
  | .computed, _ => trivial

/-- The value of a target is read before an operator is applied to it. -/
theorem Does.readTarget (hinv : D.Inv s) {scope : ScopeId} (hlive : D.Live s (.scope scope))
    {target : Target} (hgood : D.GoodTarget s target)
    (hmay : ∀ name, target = .variable name → D.MayRead name) :
    D.Does but s (target.read scope) fun r t => D.Good t r := by
  match target, hgood with
  | .variable name, _ => exact Does.readVariable hinv hlive (hmay name rfl)
  | .member object property throughThis, hgood => exact Does.readMember hinv hgood property
  | .computed, _ => exact Agree.pure hinv D.any

/-- A value that may be stored is written to a target. -/
theorem Does.writeTarget (hinv : D.Inv s) {scope : ScopeId} (hlive : D.Live s (.scope scope))
    {target : Target} (hgood : D.GoodTarget s target) {value : Ty} (hgoodV : D.Good s value) :
    D.Does but s (target.write scope value) fun _ _ => True := by
  match target, hgood with
  | .variable name, hgood => exact Does.writeVariable hinv hlive name hgoodV
  | .member object property throughThis, hgood =>
    exact Does.writeMember hinv hgood property hgoodV throughThis
  | .computed, _ => exact Agree.pure hinv trivial

end Discipline

end TypeFlow
