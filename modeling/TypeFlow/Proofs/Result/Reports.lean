import Mathlib
import TypeFlow.Proofs.Engine.Coverage
import TypeFlow.Proofs.Result.Detached

/-!
# What a run reports

A finished run reports errors exactly for programs that are not well-formed.  Without errors, there
is a type for every exposed expression, and every exposed literal has an entry and was called.

## Main Definitions

* `Run.Shown` - what a result tells of the state that it was put together from
* `Closures.hidden` - the identities of the nodes in the bodies of marked closures
* `Run.Complete` - a state at the end of a run without errors

## Main Statements

* `accounts_infer` - the run of a program whose nodes have different identities
* `tidy_of_clean` - a repeated identity is an error
* `Run.Complete.walked` - all bodies were walked that a run may enter
* `exposed_nodes_typed` - what there is when there are no errors
* `errors_nil_iff_wellFormed` - when there are none
-/

namespace TypeFlow

open Walk

/-! ### Results -/

/-- What a result tells of the state that it was put together from: the same errors, a type for
every node that had one, and an entry for the literal of every closure. -/
structure Run.Shown (s : Run) (m : TypeMap) : Prop where
  errors : m.errors = s.errors
  nodes : ∀ id, (OrdMap.get? s.nodeTypes id).isSome = true →
    (OrdMap.get? m.nodeTypes id).isSome = true
  funcs : ∀ (k : ClosureId) c, s.closures.table[k]? = some c →
    (OrdMap.get? m.funcs c.func.id).isSome = true

section Results

variable {s : Run} {memo memo' : Memo}

/-- Every node that has a type keeps one. -/
theorem resolveNodes_keys {nodes out : List (NodeId × Ty)}
    (hran : resolveNodes s nodes memo = .ok (out, memo')) :
    out.map Prod.fst = nodes.map Prod.fst := by
  induction nodes generalizing out memo with
  | nil =>
    cases hran
    rfl
  | cons e rest ih =>
    obtain ⟨r, between, -, hran⟩ := Resolve.bind_eq_ok.mp hran
    obtain ⟨rs, left, hresolveNodes, hran⟩ := Resolve.bind_eq_ok.mp hran
    cases hran
    exact congrArg (e.1 :: ·) (ih hresolveNodes)

/-- Every closure leads to an entry for its literal. -/
theorem resolveFuncs_keys {acc out : OrdMap NodeId FuncInfo} {id : ClosureId} {cs : List Closure}
    (hran : resolveFuncs s acc id cs memo = .ok (out, memo')) :
    (∀ k, (OrdMap.get? acc k).isSome = true → (OrdMap.get? out k).isSome = true) ∧
      ∀ c ∈ cs, (OrdMap.get? out c.func.id).isSome = true := by
  induction cs generalizing acc id memo with
  | nil =>
    cases hran
    exact ⟨fun _ hfound => hfound, nofun⟩
  | cons c cs ih =>
    obtain ⟨signature, between, -, hran⟩ := Resolve.bind_eq_ok.mp hran
    obtain ⟨hkept, hall⟩ := ih hran
    refine ⟨fun k hfound => hkept k (OrdMap.isSome_get?_upsert _ _ _ _ hfound),
      List.forall_mem_cons.mpr ⟨hkept _ ?_, hall⟩⟩
    rw [addSignature, OrdMap.get?_upsert_self]
    rfl

/-- A result shows the state that it was put together from. -/
theorem buildTypeMap_shows {m : TypeMap} {order : NodeOrder}
    (hran : (buildTypeMapIn s (order.list s.nodeTypes)).run' Memo.empty = .ok m) : s.Shown m := by
  obtain ⟨left, hbuilt⟩ := Resolve.run'_eq_ok.mp hran
  obtain ⟨nodes, _, hresolved, hbuilt⟩ := Resolve.bind_eq_ok.mp hbuilt
  obtain ⟨scopes, _, -, hbuilt⟩ := Resolve.bind_eq_ok.mp hbuilt
  obtain ⟨funcs, _, hdeclared, hbuilt⟩ := Resolve.bind_eq_ok.mp hbuilt
  obtain ⟨bindings, _, -, hbuilt⟩ := Resolve.bind_eq_ok.mp hbuilt
  obtain ⟨globals, _, -, hbuilt⟩ := Resolve.bind_eq_ok.mp hbuilt
  obtain ⟨ctors, _, -, hbuilt⟩ := Resolve.bind_eq_ok.mp hbuilt
  cases hbuilt
  refine ⟨rfl, fun id hfound => ?_, fun k c hfound => ?_⟩
  · rw [OrdMap.get?_isSome_iff, resolveNodes_keys hresolved]
    exact ((order.perm _).map Prod.fst).mem_iff.mpr (OrdMap.get?_isSome_iff.mp hfound)
  · refine (resolveFuncs_keys hdeclared).2 c ?_
    exact Array.mem_toList_iff.mpr (Array.mem_of_getElem? hfound)

end Results

/-! ### Runs -/

section Runs

variable {order : NodeOrder} {options : Options} {globals : Globals} {p : Program} {s t : Run}
variable {m : TypeMap}

/-- A finished run is the sweeps, and the result put together from the state after them. -/
theorem finish_eq_ok (hran : finish order s = .ok m t) :
    ∃ v, analyseUncalled (s.logged (.enterFinish s.closures.table.size)) = .ok () v ∧
      (buildTypeMapIn v (order.list v.nodeTypes)).run' Memo.empty = .ok m ∧
      t = v.logged .exitFinish := by
  have hrest : (do
      emit (.enterFinish s.closures.table.size)
      analyseUncalled
      let m ← ask fun s => (buildTypeMapIn s (order.list s.nodeTypes)).run' Memo.empty
      emit .exitFinish
      return m : Walk TypeMap) s = .ok m t := hran
  obtain ⟨_, r, hnoted, hrest⟩ := bind_eq_ok.mp hrest
  obtain ⟨_, v, hswept, hrest⟩ := bind_eq_ok.mp hrest
  obtain ⟨m', w, hasked, hleft⟩ := bind_eq_ok.mp hrest
  obtain ⟨hbuilt, rfl⟩ := ask_eq_ok.mp hasked
  cases hnoted
  cases hleft
  exact ⟨_, hswept, hbuilt, rfl⟩

/-- A run that succeeds is the program, the sweeps, and the result. -/
theorem infer_eq_ok (hran : infer order p s = .ok m t) :
    ∃ u v, inferProgram p s = .ok () u ∧
      analyseUncalled (u.logged (.enterFinish u.closures.table.size)) = .ok () v ∧
      (buildTypeMapIn v (order.list v.nodeTypes)).run' Memo.empty = .ok m ∧
      t = v.logged .exitFinish := by
  obtain ⟨_, u, hfirst, hran⟩ := bind_eq_ok.mp hran
  obtain ⟨v, hswept, hbuilt, rfl⟩ := finish_eq_ok hran
  exact ⟨u, v, hfirst, hswept, hbuilt, rfl⟩

/-- No malformation stops the end of a run. -/
theorem finish_calm (order : NodeOrder) : (finish order).Calm :=
  .read fun _ => .bind (.modify _) fun _ => analyseUncalled_calm.bind fun _ =>
    .bind (.ask _) fun _ => .bind (.modify _) fun _ => .pure _

/-- From globals without handles, a run ends. -/
theorem infer_ok (hplain : ∀ g ∈ globals, g.2.handles = []) :
    ∃ m t, infer order p (Run.start options globals) = .ok m t := by
  have hvalid := start_valid options hplain
  have hdoes : validHandles.Does none (Run.start options globals) (infer order p) fun _ _ => True :=
    (Discipline.Does.inferProgram trivial ((validHandles_inv_iff _).mpr hvalid)
      fun _ _ => trivial).bind fun _ t hinv _ _ => finish_does order hinv
  exact (sound_of_does hvalid hdoes).ends ((inferProgram_calm p).bind fun _ => finish_calm order)

/-- Before the first program a run is at rest. -/
theorem start_rests (hdeep : 1 ≤ options.maxCallDepth) : (Run.start options globals).Rests p :=
  ⟨⟨(start_indexed options globals).closures, fun _ _ hfound => (nomatch hfound),
    fun _ _ hfound => (nomatch hfound)⟩, rfl, rfl, hdeep⟩

/-- The run of a program whose nodes have different identities. -/
theorem accounts_infer (htidy : Tidy p.nodes) (hdeep : 1 ≤ options.maxCallDepth)
    (hran : infer order p (Run.start options globals) = .ok m t) :
    (Run.start options globals).Accounts p p.outerNodes (flaws false p.outerNodes) t ∧
      (t.errors = [] → ∀ (k : ClosureId) c, t.closures.table[k]? = some c →
        t.CalledLiteral c.func.id) := by
  obtain ⟨u, v, hfirst, hswept, -, rfl⟩ := infer_eq_ok hran
  have hprogram := accounts_inferProgram htidy (start_rests hdeep) hfirst
  have hnoted := hprogram.trans (.logged hprogram.rests (.enterFinish u.closures.table.size))
  obtain ⟨hsweeps, hcalled⟩ := accounts_analyseUncalled htidy hnoted.rests hswept
  have hwhole := (hnoted.trans hsweeps).trans (.logged hsweeps.rests .exitFinish)
  simp only [Bool.or_false, List.append_nil] at hwhole
  exact ⟨hwhole, hcalled⟩

/-- Errors are never taken back. -/
theorem errors_of_steps {D : Discipline} (hsteps : D.Steps s t) (hsome : s.errors ≠ []) :
    t.errors ≠ [] := by
  induction hsteps with
  | refl => exact hsome
  | tail _ hlast ih =>
    obtain ⟨u, -, rfl⟩ := hlast
    cases u with
    | report m => exact List.append_ne_nil_of_left_ne_nil ih _
    | _ => exact ih

/-- A repeated identity is an error. -/
theorem tidy_of_clean (hran : infer order p s = .ok m t) (hclean : t.errors = []) :
    Tidy p.nodes := by
  obtain ⟨u, v, hfirst, hswept, -, rfl⟩ := infer_eq_ok hran
  have hnone : u.errors = [] := by
    by_contra hsome
    have hdoes : anyWalk.Does none (u.logged (.enterFinish u.closures.table.size)) analyseUncalled
        fun _ _ => True := Discipline.Does.analyseUncalled trivial (anyWalk.inv _)
    have houtcome := hdoes _ rfl
    rw [hswept] at houtcome
    cases houtcome with
    | ok _ _ hlead _ => exact errors_of_steps hlead.steps hsome hclean
  -- a flagged statement adds the error that it is flagged with
  have hisolates := isolates_inferProgram p s
  rw [hfirst] at hisolates
  generalize inferProgram p.unflagged s = x at hisolates
  refine Program.flags_none_iff.mp fun flag hmem => ?_
  obtain ⟨i, hget⟩ := List.mem_iff_getElem?.mp hmem
  cases flag with
  | none => rfl
  | some e =>
    cases hisolates with
    | ok outcomes _ _ hflagged herrors _ =>
      have hreported : e ∈ outcomes.reduceOption :=
        List.reduceOption_mem_iff.mpr (List.mem_of_getElem? (hflagged i e hget))
      have hknown : e ∈ u.errors := herrors ▸ List.mem_append_right _ hreported
      rw [hnone] at hknown
      cases hknown

/-- The result of a run shows its last state. -/
theorem infer_shows (hran : infer order p s = .ok m t) : t.Shown m := by
  obtain ⟨u, v, -, -, hbuilt, rfl⟩ := infer_eq_ok hran
  have hshown := buildTypeMap_shows hbuilt
  exact ⟨hshown.errors, hshown.nodes, hshown.funcs⟩

end Runs

/-! ### Runs without errors -/

/-- The identities of the nodes in the bodies of marked closures. -/
def Closures.hidden (cs : Closures) : List NodeId :=
  (cs.table.toList.filter (·.selfReferential)).flatMap fun c =>
    (Stmt.nodesAll true c.func.body).map Node.id

section Clean

variable {p : Program} {t : Run}

/-- All literals were called that a run may come upon, and what stands in the program was walked. -/
structure Run.Complete (p : Program) (t : Run) : Prop where
  tidy : Tidy p.nodes
  surveyed : t.Surveyed p
  program : t.Walked p
  returns : ∀ n ∈ p.outerNodes, n.isReturn = false
  called : ∀ (k : ClosureId) c, t.closures.table[k]? = some c → t.CalledLiteral c.func.id

/-- A closure with the identity of a captured literal is one of that literal. -/
theorem Run.Complete.literal (h : t.Complete p) {b : List Stmt} {d : Capture} (henters : p.Enters b)
    (hcaptured : d ∈ Stmt.capturesAll b) {k : ClosureId} {c : Closure}
    (hfound : t.closures.table[k]? = some c) (hid : c.func.id = d.1.id) :
    c.func = d.1 ∧ c.selfReferential = d.marks := by
  obtain ⟨e, ⟨b', henters', hlisted⟩, hfunc, hmarks⟩ := h.surveyed.captured k c hfound
  cases Program.captures_unique h.tidy (henters'.mem_captures hlisted)
    (henters.mem_captures hcaptured) (hfunc ▸ hid)
  exact ⟨hfunc.symm, hmarks.symm⟩

/-- A literal in a body that was walked was called. -/
theorem Run.Complete.called_literal (h : t.Complete p) {b : List Stmt} {d : Capture}
    (henters : p.Enters b) (hcaptured : d ∈ Stmt.capturesAll b) (hhas : t.Has (.func d.1)) :
    ∃ (k : ClosureId) (c : Closure), t.closures.table[k]? = some c ∧ c.func = d.1 ∧
      c.selfReferential = d.marks ∧ 0 < c.calls := by
  obtain ⟨k, c, hfound, hsame⟩ := hhas
  obtain ⟨k, c, hfound, hid, hcalled⟩ := h.called k c hfound
  obtain ⟨hfunc, hmarks⟩ := h.literal henters hcaptured hfound (hid.trans (congrArg Func.id hsame))
  exact ⟨k, c, hfound, hfunc, hmarks, hcalled⟩

/-- All bodies were walked that a run may enter. -/
theorem Run.Complete.walked (h : t.Complete p) {b : List Stmt} (henters : p.Enters b) :
    t.Walked b := by
  -- along the way on which a run comes to the body: a literal in a body that was walked has a
  -- closure, so one was called, and its body was walked as well
  induction henters with
  | program => exact h.program
  | @literal b d henters hcaptured hunmarked ih =>
    have hhas := (ih _ ((Stmt.fitsAll b).mem hcaptured)).1
    obtain ⟨k, c, hfound, hfunc, hmarks, hcalled⟩ := h.called_literal henters hcaptured hhas
    exact hfunc ▸ h.surveyed.walked k c hfound hcalled (hmarks.trans hunmarked)

/-- An exposed node was walked and is not malformed. -/
theorem Run.Complete.exposed (h : t.Complete p) {n : Node} (hexposes : p.Exposes n) :
    t.Has n ∧ n.isMalformed = false := by
  obtain ⟨b, henters, hinside⟩ := hexposes
  exact h.walked henters n hinside

/-- The hidden nodes are those in the bodies of marked closures. -/
theorem Run.Complete.hidden (h : t.Complete p) {id : NodeId} :
    id ∈ t.closures.hidden ↔ id ∈ p.hidden := by
  constructor
  · intro hhidden
    obtain ⟨c, hmarked, hlisted⟩ := List.mem_flatMap.mp hhidden
    obtain ⟨hstored, hmarks⟩ := List.mem_filter.mp hmarked
    obtain ⟨k, hfound⟩ := List.mem_iff_getElem?.mp hstored
    rw [Array.getElem?_toList] at hfound
    obtain ⟨d, ⟨b, henters, hcaptured⟩, hfunc, hsame⟩ := h.surveyed.captured k c hfound
    refine List.mem_flatMap.mpr ⟨d, List.mem_filter.mpr ⟨henters.mem_captures hcaptured, ?_⟩, ?_⟩
    · exact hsame.trans hmarks
    · exact hfunc ▸ hlisted
  · intro hhidden
    obtain ⟨d, hmarked, hlisted⟩ := List.mem_flatMap.mp hhidden
    obtain ⟨hcaptured, -⟩ := List.mem_filter.mp hmarked
    obtain ⟨n, hwithin, rfl⟩ := List.mem_map.mp hlisted
    -- the marked literal need not be captured itself: it may stand in another one
    have hmem : n ∈ p.nodes :=
      body_subset (Program.mem_funcs.mp (Program.literal_of_mem_captures hcaptured)) hwithin
    rcases Program.exposed_or_marked hmem with hexposes
      | ⟨b, d, henters, hcaptured, hmarks, hwithin⟩
    · exact absurd hhidden ((Program.exposes_iff h.tidy hmem).mp hexposes)
    · have hhas := (h.walked henters _ ((Stmt.fitsAll b).mem hcaptured)).1
      obtain ⟨k, c, hfound, hfunc, hsame, -⟩ := h.called_literal henters hcaptured hhas
      refine List.mem_flatMap.mpr ⟨c, List.mem_filter.mpr ⟨?_, hsame.trans hmarks⟩, ?_⟩
      · exact Array.mem_toList_iff.mpr (Array.mem_of_getElem? hfound)
      · exact hfunc ▸ List.mem_map_of_mem hwithin

/-- A run without errors ends complete. -/
theorem complete_of_clean {order : NodeOrder} {options : Options} {globals : Globals} {m : TypeMap}
    (hdeep : 1 ≤ options.maxCallDepth) (hran : infer order p (Run.start options globals) = .ok m t)
    (hclean : m.errors = []) : t.Complete p := by
  have hnone : t.errors = [] := (infer_shows hran).errors.symm.trans hclean
  have htidy := tidy_of_clean hran hnone
  obtain ⟨haccounts, hcalled⟩ := accounts_infer htidy hdeep hran
  obtain ⟨-, hsound, hhas⟩ := haccounts.clean hnone
  refine ⟨htidy, haccounts.rests.surveyed, fun n hmem => ⟨hhas n hmem, (flawless hsound hmem).2⟩,
    fun n hmem => ?_, hcalled hnone⟩
  have hinside := (flawless hsound hmem).1
  rwa [Bool.not_false, Bool.and_true] at hinside

end Clean

/-- A run from globals without handles ends.  When it ends without errors, the nodes in the bodies
of marked closures are those that the program hides.  Every other expression has a type, at whatever
depth of statements and functions it stands.  Every other literal has an entry, and a closure of it
was called. -/
theorem exposed_nodes_typed (order : NodeOrder) (options : Options) (globals : Globals)
    (p : Program) (hdeep : 1 ≤ options.maxCallDepth) :
    ((∀ g ∈ globals, g.2.handles = []) →
      ∃ m t, infer order p (Run.start options globals) = .ok m t) ∧
    ∀ m t, infer order p (Run.start options globals) = .ok m t → m.errors = [] →
      (∀ id, id ∈ t.closures.hidden ↔ id ∈ p.hidden) ∧
      (∀ e ∈ p.exprs, e.id ∉ t.closures.hidden →
        (OrdMap.get? m.nodeTypes e.id).isSome = true) ∧
      ∀ f ∈ p.funcs, f.id ∉ t.closures.hidden →
        (OrdMap.get? m.funcs f.id).isSome = true ∧
          ∃ (k : ClosureId) (c : Closure), t.closures.table[k]? = some c ∧ c.func = f ∧
            0 < c.calls := by
  refine ⟨infer_ok, fun m t hran hclean => ?_⟩
  have hcomplete := complete_of_clean hdeep hran hclean
  have hshown := infer_shows hran
  have hexposes {n : Node} (hmem : n ∈ p.nodes) (hvisible : n.id ∉ t.closures.hidden) :
      p.Exposes n :=
    (Program.exposes_iff hcomplete.tidy hmem).mpr fun hhidden =>
      hvisible (hcomplete.hidden.mpr hhidden)
  refine ⟨fun id => hcomplete.hidden, fun e hmem hvisible => ?_, fun f hmem hvisible => ?_⟩
  · obtain ⟨n, hinside, hexpr⟩ := List.mem_filterMap.mp hmem
    cases n <;> cases hexpr
    exact hshown.nodes e.id (hcomplete.exposed (hexposes hinside hvisible)).1
  · obtain ⟨b, henters, hinside⟩ := hexposes (n := .func f) (Program.mem_funcs.mp hmem) hvisible
    obtain ⟨d, hcaptured, rfl⟩ := (Stmt.fitsAll b).capture hinside
    obtain ⟨k, c, hfound, hfunc, -, hcalled⟩ :=
      hcomplete.called_literal henters hcaptured (hcomplete.walked henters _ hinside).1
    exact ⟨hfunc ▸ hshown.funcs k c hfound, k, c, hfound, hfunc, hcalled⟩

/-- The literal `function () { x }`. -/
def readsOuter : Func :=
  ⟨4, ⟨0, 0⟩, none, [], [⟨5, ⟨0, 0⟩, .expr ⟨6, ⟨0, 0⟩, .ident "x"⟩⟩]⟩

/-- `function f(x) { return function () { x } }` and `function g() { ?(); return g }`, where nothing
is called. -/
def uncalledAndEndless : Program :=
  [⟨0, ⟨0, 0⟩, .function ⟨1, ⟨0, 0⟩, some "f", ["x"],
      [⟨2, ⟨0, 0⟩, .ret (some ⟨3, ⟨0, 0⟩, .function readsOuter⟩)⟩]⟩⟩,
    ⟨7, ⟨0, 0⟩, .function ⟨8, ⟨0, 0⟩, some "g", [],
      [⟨9, ⟨0, 0⟩, .expr ⟨10, ⟨0, 0⟩, .call none []⟩⟩,
        ⟨11, ⟨0, 0⟩, .ret (some ⟨12, ⟨0, 0⟩, .ident "g"⟩)⟩]⟩⟩]

/-- What stands in the inner function is typed, and the call without callee in `g` is hidden. -/
theorem exposed_nodes_typed_uncalledAndEndless :
    ∃ m t, infer .ascending uncalledAndEndless (Run.start ⟨1, 1, false, false⟩ []) = .ok m t ∧
      m.errors = [] ∧ (OrdMap.get? m.nodeTypes 6).isSome = true ∧
      (OrdMap.get? m.funcs 4).isSome = true ∧
      (∃ (k : ClosureId) (c : Closure), t.closures.table[k]? = some c ∧ c.func = readsOuter ∧
        0 < c.calls) ∧
      10 ∈ t.closures.hidden := by
  obtain ⟨hends, hholds⟩ :=
    exposed_nodes_typed .ascending ⟨1, 1, false, false⟩ [] uncalledAndEndless (by decide)
  obtain ⟨m, t, hran⟩ := hends (by decide)
  have hclean : m.errors = [] := by
    have hnone :
        ((infer .ascending uncalledAndEndless).run' (Run.start ⟨1, 1, false, false⟩ [])).map
        TypeMap.errors = some [] := by
      decide +kernel
    rw [run'_eq_some.mpr ⟨t, hran⟩] at hnone
    exact Option.some.inj hnone
  obtain ⟨hhidden, hexprs, hfuncs⟩ := hholds m t hran hclean
  have hvisible (id : NodeId) (hout : id ∉ uncalledAndEndless.hidden) : id ∉ t.closures.hidden :=
    fun hmem => hout ((hhidden id).mp hmem)
  have hlisted : readsOuter ∈ uncalledAndEndless.funcs := List.mem_of_getElem? (i := 1) rfl
  obtain ⟨hentry, hcalled⟩ := hfuncs readsOuter hlisted (hvisible 4 (by decide))
  refine ⟨m, t, hran, hclean, ?_, hentry, hcalled, (hhidden 10).mpr (by decide)⟩
  exact hexprs ⟨6, ⟨0, 0⟩, .ident "x"⟩ (List.mem_of_getElem? (i := 1) rfl) (hvisible 6 (by decide))

section WellFormed

variable {order : NodeOrder} {options : Options} {globals : Globals} {p : Program} {m : TypeMap}
variable {t : Run} (hdeep : 1 ≤ options.maxCallDepth)
variable (hran : infer order p (Run.start options globals) = .ok m t)

include hdeep hran

/-- Without errors the program is well-formed. -/
theorem wellFormed_of_clean (hclean : m.errors = []) : p.WellFormed := by
  have hcomplete := complete_of_clean hdeep hran hclean
  refine ⟨hcomplete.tidy, fun n hmem hmalformed => ?_, hcomplete.returns⟩
  by_contra hvisible
  have hexposes := (Program.exposes_iff hcomplete.tidy hmem).mpr hvisible
  cases hmalformed.symm.trans (hcomplete.exposed hexposes).2

/-- A well-formed program has no errors. -/
theorem clean_of_wellFormed (hwellFormed : p.WellFormed) : m.errors = [] := by
  rw [(infer_shows hran).errors]
  by_contra herrors
  rcases (accounts_infer hwellFormed.tidy hdeep hran).1.blamed herrors with hne | hflaw | hflaw
  · exact hne rfl
  · obtain ⟨n, hmem, hflawed⟩ := List.any_eq_true.mp hflaw
    rw [Node.isFlawed, hwellFormed.returns n hmem, hwellFormed.exposed ⟨p, .program, hmem⟩]
      at hflawed
    cases hflawed
  · obtain ⟨n, hexposes, hmalformed⟩ := hflaw
    cases hmalformed.symm.trans (hwellFormed.exposed hexposes)

end WellFormed

theorem analyse_eq_ok {order : NodeOrder} {options : Options} {globals : Globals} {p : Program}
    {a : Analysis} :
    analyse order options globals p = .ok a ↔
      ∃ t, infer order p (Run.start options globals) = .ok a.types t ∧ a.log = t.log := by
  rw [analyse, EStateM.run]
  cases infer order p (Run.start options globals) with
  | error e t =>
    constructor
    · intro heq
      cases heq
    · rintro ⟨_, hran, -⟩
      cases hran
  | ok m t =>
    constructor
    · rintro ⟨⟩
      exact ⟨t, rfl, rfl⟩
    · obtain ⟨types, log⟩ := a
      rintro ⟨_, ⟨⟩, rfl⟩
      rfl

/-- The analysis reports errors exactly for programs that are not well-formed: those in which an
identity occurs twice, an exposed node is malformed, or a `return` statement stands outside of all
functions.  From globals without handles, the analysis gives a result. -/
theorem errors_nil_iff_wellFormed (order : NodeOrder) (options : Options) (globals : Globals)
    (p : Program) (hdeep : 1 ≤ options.maxCallDepth) :
    (∀ a, analyse order options globals p = .ok a → (a.types.errors = [] ↔ p.WellFormed)) ∧
      ((∀ g ∈ globals, g.2.handles = []) → ∃ a, analyse order options globals p = .ok a) := by
  refine ⟨fun a hanalysed => ?_, fun hplain => ?_⟩
  · obtain ⟨t, hran, -⟩ := analyse_eq_ok.mp hanalysed
    exact ⟨wellFormed_of_clean hdeep hran, clean_of_wellFormed hdeep hran⟩
  · obtain ⟨m, t, hran⟩ := infer_ok hplain
    exact ⟨⟨m, t.log⟩, analyse_eq_ok.mpr ⟨t, hran, rfl⟩⟩

/-- `function g() { ?(); return 1 }`, which nothing calls. -/
def uncalledMalformed : Program :=
  [⟨0, ⟨0, 0⟩, .function ⟨1, ⟨0, 0⟩, some "g", [],
    [⟨2, ⟨0, 0⟩, .expr ⟨3, ⟨0, 0⟩, .call none []⟩⟩,
      ⟨4, ⟨0, 0⟩, .ret (some ⟨5, ⟨0, 0⟩, .literal .number⟩)⟩]⟩⟩]

/-- A call without callee is an error in a function that nothing calls.  It is none in a function
that returns only itself. -/
theorem errors_nil_iff_wellFormed_uncalled :
    uncalledAndEndless.WellFormed ∧ ¬ uncalledMalformed.WellFormed ∧
      (∃ a, analyse .ascending ⟨1, 1, false, false⟩ [] uncalledAndEndless = .ok a ∧
        a.types.errors = []) ∧
      ∃ a, analyse .ascending ⟨1, 1, false, false⟩ [] uncalledMalformed = .ok a ∧
        a.types.errors ≠ [] := by
  have hfine : uncalledAndEndless.WellFormed := by decide
  have hmalformed : ¬ uncalledMalformed.WellFormed := by decide
  refine ⟨hfine, hmalformed, ?_, ?_⟩
  · obtain ⟨hiff, hends⟩ :=
      errors_nil_iff_wellFormed .ascending ⟨1, 1, false, false⟩ [] uncalledAndEndless (by decide)
    obtain ⟨a, hanalysed⟩ := hends (by decide)
    exact ⟨a, hanalysed, (hiff a hanalysed).mpr hfine⟩
  · obtain ⟨hiff, hends⟩ :=
      errors_nil_iff_wellFormed .ascending ⟨1, 1, false, false⟩ [] uncalledMalformed (by decide)
    obtain ⟨a, hanalysed⟩ := hends (by decide)
    exact ⟨a, hanalysed, fun hnone => hmalformed ((hiff a hanalysed).mp hnone)⟩

end TypeFlow
