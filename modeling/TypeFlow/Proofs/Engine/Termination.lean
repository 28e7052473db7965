import Mathlib
import TypeFlow.Proofs.Engine.Programs

/-!
# Termination

A run has three recursions that follow no tree: calls inside calls, rounds of a body, and sweeps
over the functions that nothing called.  Each one stops by a test of its own.  It is shown that the
tests suffice: the run is the same however often the recursions are unfolded from their bounds on,
and whatever would come after that.

## Main Definitions

* `Run.CapturesFrom` - the states whose closures have only literals among the given ones
* `Beyond` - what comes where the recursions were not unfolded
* `engine`, `engineUpTo` - a program and the sweeps after it, and the same unfolded
* `Run.Moves` - an update that leaves no more activations than may be nested

## Main Statements

* `engine_in_step` - the run of a program does not depend on what lies beyond the bounds
* `invokeThen_unique` - the recursion through calls has exactly one solution
* `solve_eq_solveUpTo` - a body is run no more often than the bound on rounds says
* `sweep_visits_new` - a sweep visits a literal of the program that no earlier sweep did
* `engine_terminates` - all of these

## Design Notes

That the bounds suffice is shown by walks in step, of which one is the run and the other its
unfolding.  What remains, the recursion inside one body, follows the tree and is structural in the
definitions themselves.
-/

namespace TypeFlow

/-! ### The literals that a run captures -/

/-- The states whose closures have only literals among the given ones, inner ones included. -/
def Run.CapturesFrom (s : Run) (literals : List Func) : Prop :=
  ∀ (i : Nat) c, s.closures.table[i]? = some c → c.func.funcs ⊆ literals

/-- Nodes among which a function literal, with those inside it, is one of the given ones. -/
def NodeClass.literalsAmong (literals : List Func) : NodeClass where
  Allowed
    | .func f => f.funcs ⊆ literals
    | _ => True
  body := by
    intro f hallowed n hmem
    cases n with
    | func g => exact List.Subset.trans (Func.funcs_subset_of_body hmem) hallowed
    | _ => trivial

/-- Walks that capture only literals among the given ones, under the given options. -/
def literalsIn (literals : List Func) (options : Options) : Discipline :=
  .untyped (.literalsAmong literals) (· = options)

namespace literalsIn

variable {literals : List Func} {options : Options} {s t : Run} {but : Option ClosureId}

theorem inv (hcaptures : s.CapturesFrom literals) (hsame : s.options = options) :
    (literalsIn literals options).Inv s where
  good _ _ := trivial
  live _ _ htight := htight.elim
  literals := hcaptures
  global htight := htight.elim
  within := hsame
  indexed hplaced := hplaced.elim
  past := nofun

/-- Two computations in step have the same outcome. -/
theorem eq_of_agree {α : Type} {m m' : Walk α} {Q : α → Run → Prop}
    (h : (literalsIn literals options).Agree but s m m' Q) : m s = m' s :=
  h.eq rfl

end literalsIn

/-- The literals in the closures of a table. -/
def capturedIn (cs : Closures) : List Func :=
  cs.table.toList.flatMap fun c => c.func.funcs

/-- The closures of a state have only the literals that they have. -/
theorem capturesFrom_capturedIn (s : Run) : s.CapturesFrom (capturedIn s.closures) := by
  intro i c hfound g hmem
  exact List.mem_flatMap.mpr ⟨c, Array.mem_toList_iff.mpr (Array.mem_of_getElem? hfound), hmem⟩

theorem Func.self_mem_funcs (f : Func) : f ∈ f.funcs :=
  List.mem_filterMap.mpr ⟨.func f, f.self_mem_nodes, rfl⟩

/-- The identities of literals. -/
def literalIds (literals : List Func) : Finset NodeId :=
  (literals.map Func.id).toFinset

theorem mem_literalIds {literals : List Func} {f : Func} (hinside : f.funcs ⊆ literals) :
    f.id ∈ literalIds literals :=
  List.mem_toFinset.mpr (List.mem_map.mpr ⟨f, hinside f.self_mem_funcs, rfl⟩)

/-- There are no more identities than literals. -/
theorem card_literalIds_le (literals : List Func) :
    (literalIds literals).card ≤ literals.length :=
  (List.toFinset_card_le _).trans_eq (List.length_map _)

/-- There are no more identities of captured literals than literals they are taken from. -/
theorem card_captured_le {s : Run} {literals : List Func} (hcaptures : s.CapturesFrom literals) :
    (literalIds (capturedIn s.closures)).card ≤ literals.length := by
  refine (Finset.card_le_card fun id hmem => ?_).trans (card_literalIds_le literals)
  obtain ⟨f, hinside, rfl⟩ := List.mem_map.mp (List.mem_toFinset.mp hmem)
  obtain ⟨c, hcaptured, hwithin⟩ := List.mem_flatMap.mp hinside
  obtain ⟨i, hbound, rfl⟩ := List.getElem_of_mem hcaptured
  have hfound : s.closures.table[i]? = some s.closures.table.toList[i] := by
    rw [Array.getElem?_eq_getElem (by simpa using hbound), Array.getElem_toList]
  exact List.mem_toFinset.mpr (List.mem_map.mpr ⟨f, hcaptures i _ hfound hwithin, rfl⟩)

/-! ### Calls and rounds -/

/-- What comes where the recursions of a run were not unfolded: anything. -/
structure Beyond where
  call : Invoke
  round : Nat → Walk Ty
  sweep : List NodeId → Walk Unit

/-- Answers calls, with the recursion through calls and the loop over rounds unfolded. -/
def Beyond.invoke (b : Beyond) (calls rounds : Nat) : Invoke :=
  invokeUpTo (solveUpTo b.round rounds) b.call calls

section Calls

variable {literals : List Func} {options : Options} {b : Beyond} {calls rounds : Nat}

/-- Calls are answered the same however often the recursions are unfolded from their bounds on. -/
theorem literalsIn.answers {d : Nat} (hdeep : d < calls) (hle : max 1 options.maxRounds ≤ rounds) :
    (literalsIn literals options).Answers d invoke (b.invoke calls rounds) :=
  Discipline.answers_invokeUpTo
    (fun _ => Discipline.solves_solveUpTo fun o (hwithin : o = options) => hwithin ▸ hle) hdeep

theorem literalsIn.callable (s : Run) (call : Call) :
    (literalsIn literals options).Callable s call :=
  ⟨False.elim, trivial, fun _ _ => trivial, False.elim, fun _ _ => False.elim⟩

/-- The recursion through calls has exactly one solution. -/
theorem invokeThen_unique (i : Invoke) : i = invokeThen solve i ↔ i = invoke := by
  constructor
  · intro hsolution
    have hunfolded : ∀ n, invokeUpTo solve i n = i := by
      intro n
      induction n with
      | zero => rfl
      | succ n ih => rw [invokeUpTo, ih, ← hsolution]
    funext call s
    have hanswers : (literalsIn (capturedIn s.closures) s.options).Answers s.depthLeft invoke
        (invokeUpTo solve i (s.depthLeft + 1)) :=
      Discipline.answers_invokeUpTo (fun _ => Discipline.solves_self) (Nat.lt_succ_self _)
    rw [hunfolded] at hanswers
    have hinv := literalsIn.inv (capturesFrom_capturedIn s) rfl
    exact (literalsIn.eq_of_agree (hanswers s call hinv rfl (literalsIn.callable s call))).symm
  · rintro rfl
    funext call s
    let last : Invoke := fun _ => return .any
    have hinv := literalsIn.inv (capturesFrom_capturedIn s) rfl
    -- The calls inside are answered by one unfolding less, which still reaches the bound there.
    have hanswers : (literalsIn (capturedIn s.closures) s.options).Answers s.depthLeft
        (invokeThen solve (invokeUpTo solve last s.depthLeft)) (invokeThen solve invoke) := by
      refine Discipline.Solves.invokeThen (fun _ => Discipline.solves_self) ?_
      intro less hdeeper t call hinv hdepth hcallable t' hsame
      have hleft := Discipline.sim_depthLeft hsame
      exact Discipline.Solves.invokeUpTo (fun _ => Discipline.solves_self)
        (by omega) (by omega) t call hinv hdepth hcallable t' hsame
    calc invoke call s
        = invokeUpTo solve last (s.depthLeft + 1) call s := rfl
      _ = invokeThen solve (invokeUpTo solve last s.depthLeft) call s := by rw [invokeUpTo]
      _ = invokeThen solve invoke call s :=
        literalsIn.eq_of_agree (hanswers s call hinv rfl (literalsIn.callable s call))

/-- The body of a function is run no more often than the bound on rounds says. -/
theorem solve_eq_solveUpTo (beyond : Nat → Walk Ty) (f : Func) (scope : ScopeId) (call : Call)
    {s : Run} (hroom : s.activations.length < s.options.maxCallDepth)
    (hle : max 1 s.options.maxRounds ≤ rounds) :
    solve invoke f scope call s = solveUpTo beyond rounds invoke f scope call s := by
  let D := literalsIn (f.funcs ++ capturedIn s.closures) s.options
  have hcaptures : s.CapturesFrom (f.funcs ++ capturedIn s.closures) := fun i c hfound =>
    List.subset_append_of_subset_right _ (capturesFrom_capturedIn s i c hfound)
  have hsolves : D.Solves (s.depthLeft - 1) solve (solveUpTo beyond rounds) :=
    Discipline.solves_solveUpTo fun o (hwithin : o = s.options) => hwithin ▸ hle
  refine literalsIn.eq_of_agree (hsolves invoke invoke Discipline.answers_invoke s f scope call
    ⟨literalsIn.inv hcaptures rfl, ?_, False.elim, False.elim, List.subset_append_left _ _,
      literalsIn.callable s call⟩)
  unfold Run.depthLeft
  omega

end Calls

/-! ### Sweeps -/

/-- A sweep that has something to look at visits a literal that was not visited before, and captures
only literals inside those captured before. -/
theorem sweep_visits_new {literals : List Func} {s t : Run} {visited now : List NodeId}
    (hcaptures : s.CapturesFrom literals)
    (hvisits : Discipline.Visits (literalIds literals) visited)
    (hpending : pendingClosures s.closures visited ≠ [])
    (hran : sweep invoke visited (pendingClosures s.closures visited) s = .ok now t) :
    t.CapturesFrom literals ∧ Discipline.Visits (literalIds literals) now ∧ visited <:+ now ∧
      ∃ v ∈ now, v ∉ visited := by
  have hfound : ∀ k ∈ pendingClosures s.closures visited,
      ∃ c, s.closures.table[k]? = some c ∧ c.func.id ∉ visited :=
      fun _ => Discipline.mem_pendingClosures
  have houtcome : (literalsIn literals s.options).Outcome none s _ _ _ :=
    Discipline.Answers.sweep Discipline.answers_invoke trivial
      (fun f hallowed => mem_literalIds hallowed) (literalsIn.inv hcaptures rfl) rfl hvisits
      (fun k hmem => (hfound k hmem).imp fun _ hboth => hboth.1) s rfl
  rw [hran] at houtcome
  cases houtcome with
  | ok _ hinv _ hholds =>
    obtain ⟨hvisits', hsuffix, hall⟩ := hholds
    obtain ⟨k, hmem⟩ := List.exists_mem_of_ne_nil _ hpending
    obtain ⟨c, hat, hunseen⟩ := hfound k hmem
    exact ⟨hinv.literals, hvisits', hsuffix, c.func.id, hall k hmem c hat, hunseen⟩

/-! ### Programs -/

/-- Runs a program, and then the functions that nothing called. -/
def engine (p : Program) : Walk Unit := do
  inferProgram p
  analyseUncalled

/-- The same, with the recursions unfolded given numbers of times. -/
def engineUpTo (b : Beyond) (calls rounds sweeps : Nat) (p : Program) : Walk Unit := do
  inferProgramBy (b.invoke calls rounds) p
  sweepsUpTo (b.invoke calls rounds) b.sweep sweeps []

/-- One update, after which no more activations are nested than may be. -/
def Run.Moves (s t : Run) : Prop :=
  (∃ u : Update, t = u.apply s) ∧ t.activations.length ≤ t.options.maxCallDepth

/-- An update that a discipline allows leaves no more activations than may be nested. -/
theorem moves_of_guard {D : Discipline} {s : Run} {u : Update} (hguard : D.Guard s u)
    (hnested : s.activations.length ≤ s.options.maxCallDepth) : s.Moves (u.apply s) := by
  refine ⟨⟨u, rfl⟩, ?_⟩
  cases u with
  | push a => exact hguard.reason.1
  | pop => exact (List.length_tail.trans_le (Nat.sub_le _ 1)).trans hnested
  | returns v =>
    have hsame : (Update.addReturns v s.activations).length = s.activations.length := by
      cases s.activations <;> rfl
    exact hsame.trans_le hnested
  | _ => exact hnested

/-- So do updates one after the other. -/
theorem moves_of_steps {D : Discipline} {s t : Run} (hsteps : D.Steps s t)
    (hnested : s.activations.length ≤ s.options.maxCallDepth) :
    Relation.ReflTransGen Run.Moves s t ∧ t.activations.length ≤ t.options.maxCallDepth := by
  induction hsteps with
  | refl => exact ⟨.refl, hnested⟩
  | tail _ hlast ih =>
    obtain ⟨u, hguard, rfl⟩ := hlast
    have hmoves := moves_of_guard hguard ih.2
    exact ⟨ih.1.tail hmoves, hmoves.2⟩

section Engine

variable {b : Beyond} {calls rounds sweeps : Nat} {p : Program} {s : Run}
variable (hdeep : s.depthLeft < calls) (hle : max 1 s.options.maxRounds ≤ rounds)

include hdeep hle

/-- The run of a program and its unfolding agree. -/
theorem inferProgram_agree (hcaptures : s.CapturesFrom (Program.funcs p)) :
    (literalsIn (Program.funcs p) s.options).Agree none s (inferProgram p)
      (inferProgramBy (b.invoke calls rounds) p) fun _ _ => True := by
  refine Discipline.Answers.inferProgramBy (literalsIn.answers hdeep hle) trivial
    (literalsIn.inv hcaptures rfl) rfl fun n hmem => ?_
  cases n with
  | func g => exact funcs_subset_of_body hmem
  | _ => trivial

/-- The sweeps and their unfolding agree, when there are more of them than captured literals. -/
theorem analyseUncalled_agree (hmany : (literalIds (capturedIn s.closures)).card < sweeps) :
    (literalsIn (capturedIn s.closures) s.options).Agree none s analyseUncalled
      (sweepsUpTo (b.invoke calls rounds) b.sweep sweeps []) fun _ _ => True := by
  intro s' hsame
  cases hsame
  exact Discipline.Answers.sweepsUpTo (literalsIn.answers hdeep hle) trivial
    (fun f hallowed => mem_literalIds hallowed) (literalsIn.inv (capturesFrom_capturedIn s) rfl) rfl
    Discipline.Visits.nil (Nat.lt_succ_of_le (card_literalIds_le _)) hmany s rfl

/-- The sweeps after a program and their unfolding end alike, and on the way no more activations are
nested than may be. -/
theorem analyseUncalled_in_step (hcaptures : s.CapturesFrom (Program.funcs p))
    (hnested : s.activations.length ≤ s.options.maxCallDepth)
    (hmany : (Program.funcs p).length < sweeps) :
    analyseUncalled s = sweepsUpTo (b.invoke calls rounds) b.sweep sweeps [] s ∧
      Relation.ReflTransGen Run.Moves s (after analyseUncalled s) := by
  have hagree := analyseUncalled_agree (b := b) hdeep hle
    ((card_captured_le hcaptures).trans_lt hmany)
  obtain ⟨-, hlead⟩ := (hagree s rfl).after
  exact ⟨literalsIn.eq_of_agree hagree, (moves_of_steps hlead.steps hnested).1⟩

/-- The run of a program and its unfolding end alike, and on the way no more activations are nested
than may be. -/
theorem engine_in_step (hcaptures : s.CapturesFrom (Program.funcs p))
    (hnested : s.activations.length ≤ s.options.maxCallDepth)
    (hmany : (Program.funcs p).length < sweeps) :
    engine p s = engineUpTo b calls rounds sweeps p s ∧
      Relation.ReflTransGen Run.Moves s (after (engine p) s) := by
  have hfirst := inferProgram_agree (b := b) hdeep hle hcaptures s rfl
  have hrun : engine p s = EStateM.bind (inferProgram p) (fun _ => analyseUncalled) s := rfl
  have hunfolded : engineUpTo b calls rounds sweeps p s =
      EStateM.bind (inferProgramBy (b.invoke calls rounds) p)
        (fun _ => sweepsUpTo (b.invoke calls rounds) b.sweep sweeps []) s := rfl
  rw [after, hrun, hunfolded]
  unfold EStateM.bind
  generalize inferProgram p s = x at hfirst
  generalize inferProgramBy (b.invoke calls rounds) p s = x' at hfirst
  cases hfirst with
  | @ok _ t t' hsame hinv hlead _ =>
    cases hsame
    obtain ⟨hmoves, hnested'⟩ := moves_of_steps hlead.steps hnested
    have hoptions : t.options = s.options := hlead.keeps.options
    obtain ⟨hsame, hsweeping⟩ := analyseUncalled_in_step (b := b) (hlead.depthLeft.trans_lt hdeep)
      (hoptions ▸ hle) hinv.literals hnested' hmany
    exact ⟨hsame, hmoves.trans hsweeping⟩
  | error hsame _ hlead _ => exact ⟨congrArg _ hsame, (moves_of_steps hlead.steps hnested).1⟩

end Engine

theorem start_capturesFrom (options : Options) (globals : Globals) (literals : List Func) :
    (Run.start options globals).CapturesFrom literals :=
  fun _ _ hfound => nomatch (hfound : (#[] : Array Closure)[_]? = some _)

/-- The run of a program captures only literals of the program. -/
theorem inferProgram_captures (options : Options) (globals : Globals) (p : Program) :
    (after (inferProgram p) (Run.start options globals)).CapturesFrom (Program.funcs p) := by
  let b : Beyond := ⟨fun _ => return .any, fun _ => return .any, fun _ => return ()⟩
  have hagree := inferProgram_agree (b := b) (Nat.lt_succ_self _) (Nat.le_refl _)
    (start_capturesFrom options globals (Program.funcs p))
  exact (hagree _ rfl).after.1.literals

/-! ### Runs -/

/-- Every run ends.  A run is the same however often its recursions are unfolded from their bounds
on, and whatever comes after that; the recursion through calls has exactly one solution, in which
calls are nested no deeper than activations may be; a body is run at most as often as the bound on
rounds says, and at least once; and every sweep visits a literal of the program that was not visited
before. -/
theorem engine_terminates (options : Options) (globals : Globals) (p : Program) :
    (∀ (b : Beyond) (calls rounds sweeps : Nat), options.maxCallDepth < calls →
      max 1 options.maxRounds ≤ rounds → (Program.funcs p).length < sweeps →
        engine p (Run.start options globals) =
          engineUpTo b calls rounds sweeps p (Run.start options globals)) ∧
    Relation.ReflTransGen Run.Moves (Run.start options globals)
      (after (engine p) (Run.start options globals)) ∧
    (∀ i : Invoke, i = invokeThen solve i ↔ i = invoke) ∧
    (∀ (b : Beyond) (calls rounds : Nat) (call : Call) (s : Run), s.depthLeft < calls →
      max 1 s.options.maxRounds ≤ rounds → invoke call s = b.invoke calls rounds call s) ∧
    (∀ (beyond : Nat → Walk Ty) (rounds : Nat) (f : Func) (scope : ScopeId) (call : Call) (s : Run),
      s.activations.length < s.options.maxCallDepth → max 1 s.options.maxRounds ≤ rounds →
        solve invoke f scope call s = solveUpTo beyond rounds invoke f scope call s) ∧
    (after (inferProgram p) (Run.start options globals)).CapturesFrom (Program.funcs p) ∧
    (∀ (s t : Run) (visited now : List NodeId), s.CapturesFrom (Program.funcs p) →
      Discipline.Visits (literalIds (Program.funcs p)) visited →
      pendingClosures s.closures visited ≠ [] →
      sweep invoke visited (pendingClosures s.closures visited) s = .ok now t →
        t.CapturesFrom (Program.funcs p) ∧ Discipline.Visits (literalIds (Program.funcs p)) now ∧
          visited <:+ now ∧ ∃ v ∈ now, v ∉ visited) := by
  have hcaptures := start_capturesFrom options globals (Program.funcs p)
  have hwhole (b : Beyond) (calls rounds sweeps : Nat) (hdeep : options.maxCallDepth < calls)
      (hle : max 1 options.maxRounds ≤ rounds) (hmany : (Program.funcs p).length < sweeps) :=
    engine_in_step (b := b) (s := Run.start options globals) hdeep hle hcaptures
      (Nat.zero_le _) hmany
  refine ⟨fun b calls rounds sweeps hdeep hle hmany => (hwhole b _ _ _ hdeep hle hmany).1, ?_,
    invokeThen_unique, fun b calls rounds call s hdeep hle => ?_,
    fun beyond rounds f scope call s hroom hle =>
      solve_eq_solveUpTo beyond f scope call hroom hle,
    inferProgram_captures options globals p,
    fun s t visited now hcaptures hvisits hpending hran => sweep_visits_new hcaptures hvisits
      hpending hran⟩
  -- the updates are those of the run itself, so what lies beyond does not matter here
  · let b : Beyond := ⟨fun _ => return .any, fun _ => return .any, fun _ => return ()⟩
    exact (hwhole b _ _ _ (Nat.lt_succ_self _) (Nat.le_refl _) (Nat.lt_succ_self _)).2
  · exact literalsIn.eq_of_agree (literalsIn.answers hdeep hle s call
      (literalsIn.inv (capturesFrom_capturedIn s) rfl) rfl (literalsIn.callable s call))

/-- A function that calls itself and returns what it is given. -/
def selfCaller : Program :=
  [⟨0, ⟨0, 0⟩, .function ⟨1, ⟨0, 0⟩, some "f", ["x"],
    [⟨2, ⟨0, 0⟩, .ret (some ⟨3, ⟨0, 0⟩, .call (some ⟨4, ⟨0, 0⟩, .ident "f"⟩)
      [⟨5, ⟨0, 0⟩, .ident "x"⟩]⟩)⟩]⟩⟩]

/-- What stops a run as soon as it goes beyond the bounds. -/
def Beyond.stop : Beyond where
  call _ := throw (.dangling (.scope 0))
  round _ := throw (.dangling (.scope 0))
  sweep _ := throw (.dangling (.scope 0))

/-- Nothing beyond the bounds is reached where a function calls itself: no call inside four others,
no third round and no third sweep. -/
theorem engine_terminates_selfCaller :
    engine selfCaller (Run.start ⟨2, 3, false, false⟩ []) =
      engineUpTo .stop 4 2 2 selfCaller (Run.start ⟨2, 3, false, false⟩ []) :=
  (engine_terminates ⟨2, 3, false, false⟩ [] selfCaller).1 .stop 4 2 2 (by decide) (by decide)
    (by decide)

end TypeFlow
