import Mathlib
import TypeFlow.Result.Declarations
import TypeFlow.Proofs.Result.Bindings

/-!
# Listing unbound names

Whether reads of unbound names are listed is looked at by nothing but the list itself.  Two runs
that differ in this option go through the same states, apart from the list.

## Main Definitions

* `Run.listing`, `Similarity.unlisted` - states that differ in the list of unbound names
* `inferAndSweep` - all of a run but its result

## Main Statements

* `analyse_apply` - an analysis is put together from the state in which the walks of its run end
* `buildTypeMapIn_listing` - the list is passed on, and is read for nothing else
* `analyse_unlisted` - runs that differ in whether unbound names are listed
* `Run.Reached.unbound_reads`, `Run.Reached.unbound_nil` - what is listed
* `analyse_reordered` - runs that differ in the order in which nodes are resolved
* `strictUnbound_observational` - the option changes nothing but the list

## Design Notes

Nothing fixes the order in which the nodes are resolved at the end of a run, and two runs need not
go through them in the same order.  What a run tells of tangled types depends on it
(`orders_declare_apart`), so two runs are compared for one order, and for any two orders where no
stored type is tangled.
-/

namespace TypeFlow

open Walk

/-! ### Runs that list different names -/

/-- The state with another list of unbound names, and another choice whether to list them. -/
def Run.listing (s : Run) (strict : Bool) (names : OrdSet String) : Run :=
  { s with options := { s.options with strictUnbound := strict }, unbound := names }

/-- States that differ in the unbound names and in whether these are listed. -/
def Similarity.unlisted : Similarity where
  Sim s s' := ∃ strict names, s' = s.listing strict names
  reports := True
  sim_view := by
    rintro s _ ⟨strict, names, rfl⟩
    rfl
  sim_errors _ := by
    rintro s _ ⟨strict, names, rfl⟩
    rfl
  sim_apply u := by
    rintro ⟨strict, names, rfl⟩
    cases u <;> exact ⟨strict, _, rfl⟩

/-- Walks that list unbound names, or do not. -/
def unlistedWalk : Discipline :=
  { anyWalk with toSimilarity := .unlisted }

/-- Nothing is asked of the states of such walks. -/
theorem unlistedWalk_inv (s : Run) : unlistedWalk.Inv s :=
  ⟨fun _ _ => trivial, fun _ _ htight => htight.elim, fun _ _ _ => trivial,
    fun htight => htight.elim, trivial, False.elim, nofun⟩

/-- Runs a program, and then the functions that nothing called. -/
def inferAndSweep (p : Program) : Walk Unit := do
  inferProgram p
  emit (.enterFinish (← get).closures.table.size)
  analyseUncalled

theorem Discipline.Does.inferAndSweep {D : Discipline} (hreports : D.reports) {s : Run}
    (hinv : D.Inv s) {p : Program} (hallowed : ∀ n ∈ Program.outerNodes p, D.Allowed n) :
    D.Does none s (inferAndSweep p) fun _ _ => True := by
  refine (Does.inferProgram hreports hinv hallowed).bind fun _ t hinv _ _ => ?_
  refine Agree.get (fun s' hsim => by rw [sim_closures hsim]) ?_
  exact (Does.emit hinv _).bind fun _ u hinv _ _ => Does.analyseUncalled hreports hinv

/-- The order of the nodes matters only after the walks of a run. -/
theorem infer_eq_sweep (order : NodeOrder) (p : Program) :
    infer order p = inferAndSweep p >>= fun _ => do
      let m ← ask fun s => (buildTypeMapIn s (order.list s.nodeTypes)).run' Memo.empty
      emit .exitFinish
      return m := by
  simp only [infer, finish, inferAndSweep, bind_assoc]

/-- The analysis is put together from the state in which the walks end. -/
theorem analyse_apply (order : NodeOrder) (options : Options) (globals : Globals) (p : Program) :
    analyse order options globals p =
      match inferAndSweep p (Run.start options globals) with
      | .error e _ => .error e
      | .ok _ t =>
        match (buildTypeMapIn t (order.list t.nodeTypes)).run' Memo.empty with
        | .error d => .error (.dangling d)
        | .ok m => .ok ⟨m, t.log.push .exitFinish⟩ := by
  rw [analyse, infer_eq_sweep, EStateM.run, bind_apply]
  cases inferAndSweep p (Run.start options globals) with
  | error e t => rfl
  | ok _ t =>
    dsimp only
    rw [bind_apply]
    unfold ask
    dsimp only
    cases (buildTypeMapIn t (order.list t.nodeTypes)).run' Memo.empty <;> rfl

/-- The list of unbound names is passed on, and is read for nothing else. -/
theorem buildTypeMapIn_listing (s : Run) (strict : Bool) (names : OrdSet String)
    (order : List (NodeId × Ty)) :
    (buildTypeMapIn (s.listing strict names) order).run' Memo.empty =
      (fun m => { m with unbound := names }) <$> (buildTypeMapIn s order).run' Memo.empty := by
  have hview : (s.listing strict names).view = s.view := rfl
  cases hbuilt : buildTypeMapIn s order Memo.empty with
  | error d =>
    have hstops {f : TypeMap → TypeMap} : (f <$> buildTypeMapIn s order) Memo.empty = .error d := by
      change (buildTypeMapIn s order Memo.empty >>= fun r => pure (f r.1, r.2)) = _
      rw [hbuilt]
      rfl
    rw [buildTypeMapIn_view hview, StateT.run', StateT.run', hstops, hbuilt]
    rfl
  | ok r =>
    obtain ⟨m, memo⟩ := r
    have hlisted := buildTypeMapIn_ok_view hview hbuilt
    have herrors : (s.listing strict names).errors = m.errors :=
      (buildTypeMapIn_passes hbuilt).1.symm
    rw [herrors] at hlisted
    rw [StateT.run', StateT.run', hlisted, hbuilt]
    rfl

/-- Two runs that differ in whether unbound names are listed stop with the same fault, or have the
same results apart from the list. -/
theorem analyse_unlisted (order : NodeOrder) (options : Options) (strict : Bool) (globals : Globals)
    (p : Program) :
    (∃ e, analyse order options globals p = .error e ∧
      analyse order { options with strictUnbound := strict } globals p = .error e) ∨
    ∃ a names, analyse order options globals p = .ok a ∧
      analyse order { options with strictUnbound := strict } globals p =
        .ok { a with types := { a.types with unbound := names } } := by
  have hsim : unlistedWalk.Sim (Run.start options globals)
      (Run.start { options with strictUnbound := strict } globals) := ⟨strict, [], rfl⟩
  have hdoes : unlistedWalk.Does none (Run.start options globals) (inferAndSweep p)
      fun _ _ => True :=
    Discipline.Does.inferAndSweep trivial (unlistedWalk_inv _) fun _ _ => trivial
  have houtcome := hdoes _ hsim
  rw [analyse_apply, analyse_apply]
  generalize inferAndSweep p (Run.start options globals) = x at houtcome
  generalize inferAndSweep p (Run.start { options with strictUnbound := strict } globals) = x'
    at houtcome
  cases houtcome with
  | @error e t t' => exact .inl ⟨e, rfl, rfl⟩
  | @ok _ t t' hsim =>
    -- The walks end in states that differ in the list, and so do the results.
    obtain ⟨b, names, rfl⟩ := hsim
    have hnodes : (t.listing b names).nodeTypes = t.nodeTypes := rfl
    dsimp only
    rw [hnodes, buildTypeMapIn_listing]
    cases (buildTypeMapIn t (order.list t.nodeTypes)).run' Memo.empty with
    | error d => exact .inl ⟨_, rfl, rfl⟩
    | ok m => exact .inr ⟨_, names, rfl, rfl⟩

/-! ### Runs that resolve in different orders -/

section Reordered

variable {order : NodeOrder} {options : Options} {globals : Globals} {p : Program} {s t : Run}
  {m : TypeMap}

/-- From globals without handles, all handles have entries where a run ends. -/
theorem infer_valid (hglobals : ∀ g ∈ globals, g.2.handles = [])
    (hran : infer order p (Run.start options globals) = .ok m t) : t.Valid := by
  have hvalid := start_valid options hglobals
  have hdoes : validHandles.Does none (Run.start options globals) (infer order p)
      fun _ _ => True :=
    (Discipline.Does.inferProgram trivial ((validHandles_inv_iff _).mpr hvalid)
      fun _ _ => trivial).bind fun _ t hinv _ _ => finish_does order hinv
  have hends := (sound_of_does hvalid hdoes).valid
  rw [after, hran] at hends
  exact hends

/-- Runs that differ in the order of the nodes end in the same state, and each has the result that
its order gives there. -/
theorem infer_reordered (hran : infer order p s = .ok m t) {order' : NodeOrder} {m' : TypeMap}
    (hbuilt : (buildTypeMapIn t (order'.list t.nodeTypes)).run' Memo.empty = .ok m') :
    infer order' p s = .ok m' t := by
  rw [infer_eq_sweep] at hran ⊢
  obtain ⟨_, v, hswept, hshown⟩ := bind_eq_ok.mp hran
  obtain ⟨_, w, hasked, hnoted⟩ := bind_eq_ok.mp hshown
  obtain ⟨-, rfl⟩ := ask_eq_ok.mp hasked
  have hlast : w.logged .exitFinish = t := (EStateM.Result.ok.inj hnoted).2
  rw [← hlast, buildTypeMapIn_logged] at hbuilt
  rw [← hlast]
  exact bind_eq_ok.mpr ⟨(), w, hswept, bind_eq_ok.mpr ⟨m', w, ask_eq_ok.mpr ⟨hbuilt, rfl⟩, rfl⟩⟩

/-- **Runs that resolve in different orders.**  Where no stored type is tangled, they tell the same
of everything. -/
theorem analyse_reordered (hglobals : ∀ g ∈ globals, g.2.handles = []) {a : Analysis}
    (hran : analyse order options globals p = .ok a)
    (huntangled : ∀ t ∈ (after (infer order p) (Run.start options globals)).types,
      (after (infer order p) (Run.start options globals)).Untangled t) (order' : NodeOrder) :
    ∃ nodes, nodes.Perm a.types.nodeTypes ∧ analyse order' options globals p =
      .ok { a with types := { a.types with nodeTypes := nodes } } := by
  obtain ⟨t, hinfer, hlog⟩ := analyse_eq_ok.mp hran
  rw [after, hinfer] at huntangled
  have hvalid := infer_valid hglobals hinfer
  obtain ⟨_, u, -, hfinished⟩ := bind_eq_ok.mp hinfer
  have hbuilt := Resolve.run'_eq_ok.mpr (buildTypeMapIn_of_finish hfinished)
  -- Each of the two orders gives what the ascending one gives.
  obtain ⟨m, m₁, hm, hm₁, hperm, hsame⟩ := buildTypeMapIn_perm huntangled hvalid (order.perm _)
  obtain ⟨m', m₂, hm', hm₂, hperm', hsame'⟩ := buildTypeMapIn_perm huntangled hvalid (order'.perm _)
  cases Except.ok.inj (hm.symm.trans hm')
  cases Except.ok.inj (hbuilt.symm.trans hm₁)
  refine ⟨m₂.nodeTypes, hperm'.trans hperm.symm, analyse_eq_ok.mpr ⟨t, ?_, hlog⟩⟩
  have hagain : m₂ = { a.types with nodeTypes := m₂.nodeTypes } := by
    rw [hsame', hsame]
  rw [← hagain]
  exact infer_reordered hinfer hm₂

end Reordered

/-! ### What is listed -/

section Listed

variable {s : Run} {options : Options} {globals : Globals} {ps : List Program}

/-- The options stay as they were given. -/
theorem Run.Reached.options_eq (h : s.Reached options globals ps) : s.options = options := by
  refine h.induct (P := fun s => s.options = options) rfl fun r u _ _ hsame => ?_
  cases u <;> exact hsame

/-- Only names that are read somewhere in the programs are listed. -/
theorem Run.Reached.unbound_reads (h : s.Reached options globals ps) :
    ∀ name ∈ s.unbound, ∃ p ∈ ps, name ∈ p.reads := by
  refine h.induct (P := fun s => ∀ name ∈ s.unbound, ∃ p ∈ ps, name ∈ p.reads)
    (List.forall_mem_nil _) fun r u _ hguard hlisted => ?_
  cases u with
  | unbound read =>
    intro name hmem
    have hcases : name = read ∨ name ∈ r.unbound := by
      change name ∈ (if r.options.strictUnbound then OrdSet.insert read r.unbound else r.unbound)
        at hmem
      split at hmem
      · exact OrdSet.mem_insert.mp hmem
      · exact .inr hmem
    rcases hcases with rfl | hprev
    · obtain ⟨id, span, n, ⟨p, hgiven, hinside⟩, hoperand⟩ := hguard.reason
      exact ⟨p, hgiven, Program.mem_reads hinside hoperand⟩
    · exact hlisted name hprev
  | _ => exact hlisted

/-- Nothing is listed unless it is asked for. -/
theorem Run.Reached.unbound_nil (h : s.Reached options globals ps)
    (hlenient : options.strictUnbound = false) : s.unbound = [] := by
  refine h.induct (P := fun s => s.unbound = []) rfl fun r u hreached _ hnone => ?_
  cases u with
  | unbound name =>
    change (if r.options.strictUnbound then OrdSet.insert name r.unbound else r.unbound) = []
    rw [hreached.options_eq, hlenient]
    exact hnone
  | _ => exact hnone

/-- The list of an analysis is that of the state in which its run ends. -/
theorem analyse_unbound {order : NodeOrder} {p : Program} {a : Analysis}
    (hran : analyse order options globals p = .ok a) :
    ∃ t : Run, t.Reached options globals [p] ∧ a.types.unbound = t.unbound := by
  obtain ⟨t, hinfer, -⟩ := analyse_eq_ok.mp hran
  have hsingle : analysePrograms order [p] = infer order p := by
    simp only [analysePrograms, inferPrograms, infer, bind_pure_unit]
  have hreached := reached_analysePrograms order options globals [p]
  rw [hsingle, after, hinfer] at hreached
  obtain ⟨_, u, -, hfinished⟩ := bind_eq_ok.mp hinfer
  obtain ⟨memo, hbuilt⟩ := buildTypeMapIn_of_finish hfinished
  exact ⟨t, hreached, (buildTypeMapIn_passes hbuilt).2⟩

end Listed

/-- **Listing unbound names is observational.**  In whatever order the nodes are resolved, the
analysis of a program fails in the same way whether unbound names are listed or not, or tells the
same of its types, scopes, functions, constructors, globals and errors, and of what happened on the
way.  Without listing the list is empty, and with it the list has only names that are read somewhere
in the program.  From globals without handles the analysis does not fail; and where no stored type
is tangled, an analysis that lists tells the same even when it resolves the nodes in another
order. -/
theorem strictUnbound_observational (options : Options) (globals : Globals) (p : Program)
    (order : NodeOrder) :
    let lenient := { options with strictUnbound := false }
    let strict := { options with strictUnbound := true }
    ((∃ e, analyse order lenient globals p = .error e ∧
        analyse order strict globals p = .error e) ∨
      ∃ a names, analyse order lenient globals p = .ok a ∧
        analyse order strict globals p =
          .ok { a with types := { a.types with unbound := names } } ∧
        a.types.unbound = [] ∧ ∀ name ∈ names, name ∈ p.reads) ∧
    ((∀ g ∈ globals, g.2.handles = []) → ∃ a, analyse order lenient globals p = .ok a ∧
      ((∀ t ∈ (after (infer order p) (Run.start lenient globals)).types,
          (after (infer order p) (Run.start lenient globals)).Untangled t) →
        ∀ order', ∃ nodes names, nodes.Perm a.types.nodeTypes ∧
          (∀ name ∈ names, name ∈ p.reads) ∧
          analyse order' strict globals p =
            .ok { a with types := { a.types with nodeTypes := nodes, unbound := names } })) := by
  intro lenient strict
  have hlisted {order : NodeOrder} {a : Analysis} (hran : analyse order strict globals p = .ok a) :
      ∀ name ∈ a.types.unbound, name ∈ p.reads := by
    intro name hname
    obtain ⟨t, hreached, hlist⟩ := analyse_unbound hran
    obtain ⟨q, hq, hread⟩ := hreached.unbound_reads name (hlist ▸ hname)
    exact List.mem_singleton.mp hq ▸ hread
  refine ⟨?_, fun hglobals => ?_⟩
  · rcases analyse_unlisted order lenient true globals p with hfails | ⟨a, names, hran, hran'⟩
    · exact .inl hfails
    · refine .inr ⟨a, names, hran, hran', ?_, hlisted hran'⟩
      obtain ⟨t, hreached, hlist⟩ := analyse_unbound hran
      rw [hlist]
      exact hreached.unbound_nil rfl
  · obtain ⟨m, t, hinfer⟩ := infer_ok hglobals
    have hran : analyse order lenient globals p = .ok ⟨m, t.log⟩ :=
      analyse_eq_ok.mpr ⟨t, hinfer, rfl⟩
    refine ⟨_, hran, fun huntangled order' => ?_⟩
    obtain ⟨nodes, hperm, hran'⟩ := analyse_reordered hglobals hran huntangled order'
    -- the listed names change nothing else, and the order changes the list of nodes only
    rcases analyse_unlisted order' lenient true globals p with
      ⟨e, hfails, -⟩ | ⟨a, names, hsame, hstrict⟩
    · rw [hran'] at hfails
      cases hfails
    · cases Except.ok.inj (hran'.symm.trans hsame)
      exact ⟨nodes, names, hperm, hlisted hstrict, hstrict⟩

/-- `x = 1`, `y` and `function f() { w += 1 }`. -/
def readsUnbound : Program :=
  [⟨0, ⟨0, 0⟩, .expr ⟨1, ⟨0, 0⟩, .assign none ⟨2, ⟨0, 0⟩, .ident "x"⟩
      ⟨3, ⟨0, 0⟩, .literal .number⟩⟩⟩,
    ⟨4, ⟨0, 0⟩, .expr ⟨5, ⟨0, 0⟩, .ident "y"⟩⟩,
    ⟨6, ⟨0, 0⟩, .function ⟨7, ⟨0, 0⟩, some "f", [],
      [⟨8, ⟨0, 0⟩, .expr ⟨9, ⟨0, 0⟩, .assign (some .add) ⟨10, ⟨0, 0⟩, .ident "w"⟩
        ⟨11, ⟨0, 0⟩, .literal .number⟩⟩⟩]⟩⟩]

/-- The descending order of the nodes. -/
def NodeOrder.descending : NodeOrder :=
  ⟨List.reverse, List.reverse_perm⟩

/-- The variable that is only written is not listed; and the list, as well as the rest, is the same
when the nodes are resolved from the last one on. -/
theorem strictUnbound_observational_readsUnbound :
    readsUnbound.reads = ["y", "w"] ∧
    (analyse .descending ⟨2, 3, true, false⟩ [] readsUnbound).toOption.map (·.types.unbound) =
      some ["w", "y"] ∧
    (∃ a names, analyse .ascending ⟨2, 3, false, false⟩ [] readsUnbound = .ok a ∧
      analyse .ascending ⟨2, 3, true, false⟩ [] readsUnbound =
        .ok { a with types := { a.types with unbound := names } } ∧
      a.types.unbound = [] ∧ ∀ name ∈ names, name ∈ readsUnbound.reads) ∧
    ∃ a nodes names, analyse .ascending ⟨2, 3, false, false⟩ [] readsUnbound = .ok a ∧
      analyse .descending ⟨2, 3, true, false⟩ [] readsUnbound =
        .ok { a with types := { a.types with nodeTypes := nodes, unbound := names } } := by
  obtain ⟨hshared, hends⟩ :=
    strictUnbound_observational ⟨2, 3, false, false⟩ [] readsUnbound .ascending
  obtain ⟨a, hran, hreordered⟩ := hends (List.forall_mem_nil _)
  have hscattered : ∀ t ∈ (after (infer .ascending readsUnbound)
      (Run.start ⟨2, 3, false, false⟩ [])).types, t.Scattered := by
    decide +kernel
  refine ⟨by decide +kernel, by decide +kernel, hshared.resolve_left ?_, ?_⟩
  · rintro ⟨e, hfails, -⟩
    rw [hfails] at hran
    cases hran
  · obtain ⟨nodes, names, -, -, hran'⟩ := hreordered
      (fun t ht => Run.untangled_of_scattered hscattered (hscattered t ht)) .descending
    exact ⟨a, nodes, names, hran, hran'⟩

/-- `var a = { n: 1 }`, a number of reads of `a`, and
`var c = true ? a : { y: { f: true ? a : { x: a } } }`. -/
def sharingInside : Program :=
  let build : Build Program := do
    let made ← Build.var "a" (some (← Build.object [("n", ← Build.literal .number)]))
    let reads ← (List.range 24).mapM fun _ => Build.ident "a"
    let read ← Build.exprStmt (← Build.sequence reads)
    let test ← Build.literal .boolean
    let shared ← Build.ident "a"
    let innerTest ← Build.literal .boolean
    let innerShared ← Build.ident "a"
    let innermost ← Build.object [("x", ← Build.ident "a")]
    let inner ← Build.object [("f", ← Build.conditional innerTest innerShared innermost)]
    let outer ← Build.object [("y", inner)]
    let either ← Build.var "c" (some (← Build.conditional test shared outer))
    return [made, read, either]
  (build.run 0).1

/-- Two runs that differ in whether unbound names are listed, and that resolve the nodes in
different orders, declare different types for `c`: the object in `f` is cut, unless it was resolved
after the object in `a`. -/
theorem orders_declare_apart :
    (analyse .descending ⟨2, 3, false, false⟩ [] sharingInside).toOption.map
        (·.types.declarations) =
      some ("declare var a: \x7b n: number \x7d;\n" ++
        "declare var c: \x7b n: number; y: \x7b f: any \x7d \x7d;\n") ∧
    (analyse .ascending ⟨2, 3, true, false⟩ [] sharingInside).toOption.map
        (·.types.declarations) =
      some ("declare var a: \x7b n: number \x7d;\n" ++
        "declare var c: \x7b n: number; y: " ++
        "\x7b f: \x7b n: number; x: \x7b n: number \x7d \x7d \x7d \x7d;\n") :=
  ⟨by decide +kernel, by decide +kernel⟩

end TypeFlow
