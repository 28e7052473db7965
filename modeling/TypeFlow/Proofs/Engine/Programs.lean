import Mathlib
import TypeFlow.Proofs.Engine.Invocations
import TypeFlow.Proofs.Engine.Pending

/-!
# Walks through programs

Running a program and sweeping over the functions that nothing called keep to every discipline in
which errors may be reported.  A sweep that finds something to look at visits a literal that was not
visited before; there are no more sweeps than literals.  No malformation stops either of them.

## Main Definitions

* `inferPrograms` - running programs one after the other
* `Discipline.Visits` - the literals that sweeps have visited
* `Walk.Calm` - the computations that no malformation stops
* `Action` - the operations of a walk

## Main Statements

* `Discipline.Answers.inferProgramBy` - running a program
* `Discipline.Answers.sweep` - one sweep, and the literals that it visits
* `Discipline.Answers.sweepsUpTo` - sweeps after all literals were visited do nothing
* `Discipline.Does.inferProgram`, `Discipline.Does.analyseUncalled` - both, with calls answered
* `inferProgram_calm`, `analyseUncalled_calm` - no malformation stops them
* `Discipline.Does.action` - every operation of a walk keeps to every discipline
* `start_types` - the types before the first program are those of the globals
-/

namespace TypeFlow

/-- Runs programs one after the other. -/
def inferPrograms : List Program → Walk Unit
  | [] => return ()
  | p :: ps => do
    inferProgram p
    inferPrograms ps

namespace Discipline

variable {D : Discipline} {but : Option ClosureId} {s t : Run} {d : Nat} {i i' : Invoke}

/-! ### Errors -/

/-- A computation that goes on after a malformation. -/
theorem agree_recovering {m m' : Walk Unit} {handle handle' : Malformed → Walk Unit}
    {Q : Unit → Run → Prop} (h : D.Agree but s m m' fun _ _ => True)
    (hhandles : ∀ e t, D.Inv t → D.Leads but s t → D.Agree but t (handle e) (handle' e) Q)
    (hholds : ∀ t, D.Inv t → D.Leads but s t → Q () t) :
    D.Agree but s (recovering m handle) (recovering m' handle') Q := by
  intro s' hsim
  have houtcome := h s' hsim
  unfold recovering
  generalize m s = x at houtcome
  generalize m' s' = x' at houtcome
  cases houtcome with
  | ok hsim hinv hlead _ => exact .ok hsim hinv hlead (hholds _ hinv hlead)
  | @error e t t' hsim hinv hlead hfails =>
    cases e with
    | malformed e => exact (hhandles e t hinv hlead t' hsim).trans hlead
    | dangling d => exact .error hsim hinv hlead hfails

/-- An error is reported, unless it was. -/
theorem Does.reportOnce (hinv : D.Inv s) (hreports : D.reports) (m : Malformed) :
    D.Does but s (reportOnce m) fun _ _ => True := by
  refine Agree.get (fun s' hsim => by rw [D.sim_errors hreports hsim]) ?_
  exact Agree.ite (fun _ => Agree.pure hinv trivial) fun _ => Does.report hinv hreports m

/-! ### Programs -/

/-- What may be walked at all may be walked in the global scope. -/
theorem stands_global (s : Run) (n : Node) (hallowed : D.Allowed n) : D.Stands s Env.global n :=
  ⟨hallowed, fun _ => .inl rfl⟩

/-- Flagged statements are not looked at. -/
theorem Does.hoistUnflagged (hinv : D.Inv s) {p : List (Stmt × Option Malformed)}
    (hallowed : ∀ x, (x, none) ∈ p → ∀ n ∈ x.nodes false, D.Allowed n) :
    D.Does but s (hoistFlagged p) fun _ _ => True := by
  induction p generalizing s with
  | nil => exact Agree.pure hinv trivial
  | cons e rest ih =>
    have hlater := fun x hmem => hallowed x (List.mem_cons_of_mem e hmem)
    obtain ⟨x, flag⟩ := e
    cases flag with
    | some m => exact ih hinv hlater
    | none =>
      have hsingle : Stmt.nodesAll false [x] = x.nodes false := List.append_nil _
      have hstands : ∀ n ∈ Stmt.nodesAll false [x], D.Stands s Env.global n := fun n hmem =>
        stands_global s n (hallowed x List.mem_cons_self n (hsingle ▸ hmem))
      refine (Does.hoist hinv hinv.global hstands).bind fun _ t hinv _ _ => ?_
      exact ih hinv hlater

/-- The declarations of a program are hoisted, apart from those in flagged statements. -/
theorem Does.hoistFlagged (hinv : D.Inv s) {p : List (Stmt × Option Malformed)}
    (hallowed : ∀ e ∈ p, ∀ n ∈ e.1.nodes false, D.Allowed n) :
    D.Does but s (hoistFlagged p) fun _ _ => True :=
  Does.hoistUnflagged hinv fun x hmem => hallowed (x, none) hmem

section Answers

variable (hanswers : D.Answers d i i') (hreports : D.reports)

include hanswers hreports

/-- A statement that is flagged is reported and not run; one that is not is run, and an error in it
is reported. -/
theorem Answers.inferFlaggedTop (hinv : D.Inv s) (hdepth : s.depthLeft = d) {x : Stmt}
    {flag : Option Malformed} (hallowed : flag = none → ∀ n ∈ x.nodes false, D.Allowed n) :
    D.Agree but s (inferFlaggedTop i x flag) (inferFlaggedTop i' x flag) fun _ _ => True := by
  cases flag with
  | some m => exact (Does.emit hinv _).bind fun _ t hinv _ _ => Does.report hinv hreports m
  | none =>
    refine agree_recovering
      (hanswers.inferStmt x ⟨hinv, hdepth, hinv.global, stands_global s⟩ (hallowed rfl))
      (fun m t hinv _ => ?_) fun _ _ _ => trivial
    exact (Does.emit hinv _).bind fun _ t hinv _ _ => Does.report hinv hreports m

/-- Only the statements without a flag are walked. -/
theorem Answers.inferFlaggedUnflagged (hinv : D.Inv s) (hdepth : s.depthLeft = d)
    {p : List (Stmt × Option Malformed)}
    (hallowed : ∀ x, (x, none) ∈ p → ∀ n ∈ x.nodes false, D.Allowed n) :
    D.Agree but s (inferFlagged i p) (inferFlagged i' p) fun _ _ => True := by
  induction p generalizing s with
  | nil => exact Agree.pure hinv trivial
  | cons e rest ih =>
    have hlater := fun x hmem => hallowed x (List.mem_cons_of_mem e hmem)
    obtain ⟨x, flag⟩ := e
    have hallowed' : flag = none → ∀ n ∈ x.nodes false, D.Allowed n := by
      rintro rfl
      exact hallowed x List.mem_cons_self
    refine (hanswers.inferFlaggedTop hreports hinv hdepth hallowed').bind fun _ t hinv hlead _ => ?_
    exact ih hinv (hlead.depthLeft.trans hdepth) hlater

theorem Answers.inferFlagged (hinv : D.Inv s) (hdepth : s.depthLeft = d)
    {p : List (Stmt × Option Malformed)} (hallowed : ∀ e ∈ p, ∀ n ∈ e.1.nodes false, D.Allowed n) :
    D.Agree but s (inferFlagged i p) (inferFlagged i' p) fun _ _ => True :=
  hanswers.inferFlaggedUnflagged hreports hinv hdepth fun x hmem => hallowed (x, none) hmem

/-- Running a program, in which only the nodes of statements that are not flagged are walked. -/
theorem Answers.inferProgramUnflagged (hinv : D.Inv s) (hdepth : s.depthLeft = d) {p : Program}
    (hallowed : ∀ n ∈ Program.outerNodes p.unflagged, D.Allowed n) :
    D.Agree but s (inferProgramBy i p) (inferProgramBy i' p) fun _ _ => True := by
  have hkept : ∀ x, (x, none) ∈ p.zip (Program.flags p) → ∀ n ∈ x.nodes false, D.Allowed n :=
    fun x hmem n hinside =>
      hallowed n (Stmt.nodes_subset_nodesAll (Program.mem_unflagged hmem) hinside)
  rw [inferProgramBy_eq, inferProgramBy_eq]
  refine (Does.emit hinv _).bind fun _ t hinv hlead _ => ?_
  refine (Does.hoistUnflagged hinv hkept).bind fun _ t hinv hlead' _ => ?_
  have hdepth' := (hlead.trans hlead').depthLeft.trans hdepth
  refine (hanswers.inferFlaggedUnflagged hreports hinv hdepth' hkept).bind fun _ t hinv _ _ => ?_
  exact Does.emit hinv _

/-- Running a program keeps to the discipline. -/
theorem Answers.inferProgramBy (hinv : D.Inv s) (hdepth : s.depthLeft = d) {p : Program}
    (hallowed : ∀ n ∈ Program.outerNodes p, D.Allowed n) :
    D.Agree but s (inferProgramBy i p) (inferProgramBy i' p) fun _ _ => True :=
  hanswers.inferProgramUnflagged hreports hinv hdepth fun n hinside =>
    hallowed n (Stmt.nodesAll_mono p.unflagged_subset hinside)

end Answers

/-! ### Functions that nothing called -/

/-- A call of which nothing is known: all arguments are `any`. -/
theorem Answers.callBlindly (hanswers : D.Answers d i i') (hinv : D.Inv s)
    (hdepth : s.depthLeft = d) {id : ClosureId} (hlive : D.Live s (.closure id)) (f : Func) :
    D.Agree but s (callBlindly i id f) (callBlindly i' id f) fun _ _ => True := by
  have hgoods : ∀ a ∈ List.replicate f.params.length Ty.any, D.Good s a := fun a hmem =>
    List.eq_of_mem_replicate hmem ▸ D.any
  refine Agree.get (fun s' hsim => by rw [sim_protos hsim]) ?_
  cases s.protos.find? id with
  | some ctor =>
    exact (hanswers.instantiate hinv hdepth hlive hgoods f.id hinv.global).bind
      fun _ t hinv _ _ => Agree.pure hinv trivial
  | none =>
    have hcallable : D.Callable s ⟨id, .any, List.replicate f.params.length .any, f.id, Env.global,
        none⟩ := ⟨hlive, D.any, hgoods, hinv.global, nofun⟩
    exact (hanswers s _ hinv hdepth hcallable).weaken.bind
      fun _ t hinv _ _ => Agree.pure hinv trivial

/-- What sweeps have visited: literals among the given ones, none of them twice. -/
structure Visits (ids : Set NodeId) (visited : List NodeId) : Prop where
  nodup : visited.Nodup
  among : ∀ v ∈ visited, v ∈ ids

theorem Visits.nil {ids : Set NodeId} : Visits ids [] :=
  ⟨List.nodup_nil, nofun⟩

/-- No more literals are visited than there are. -/
theorem Visits.length_le {ids : Finset NodeId} {visited : List NodeId} (h : Visits ids visited) :
    visited.length ≤ ids.card := by
  rw [← List.toFinset_card_of_nodup h.nodup]
  exact Finset.card_le_card fun v hmem => h.among v (List.mem_toFinset.mp hmem)

/-- What is pending has not been visited. -/
theorem mem_pendingClosures {cs : Closures} {visited : List NodeId} {k : ClosureId}
    (h : k ∈ pendingClosures cs visited) :
    ∃ c, cs.table[k]? = some c ∧ c.func.id ∉ visited := by
  obtain ⟨-, hpending⟩ := List.mem_filter.mp h
  cases hfound : cs.table[k]? with
  | none => rw [hfound] at hpending; cases hpending
  | some c =>
    rw [hfound] at hpending
    refine ⟨c, rfl, fun hmem => ?_⟩
    simp [hmem] at hpending

section Sweeps

variable (hanswers : D.Answers d i i') (hreports : D.reports) {ids : Set NodeId}
variable (hliterals : ∀ f : Func, D.Allowed (.func f) → f.id ∈ ids)

include hanswers hreports hliterals

/-- A sweep visits the literals of all closures that it is given. -/
theorem Answers.sweep (hinv : D.Inv s) (hdepth : s.depthLeft = d) {visited : List NodeId}
    (hvisits : Visits ids visited) {ks : List ClosureId}
    (hfound : ∀ k ∈ ks, ∃ c, s.closures.table[k]? = some c) :
    D.Agree but s (sweep i visited ks) (sweep i' visited ks) fun now _ =>
      Visits ids now ∧ visited <:+ now ∧
        ∀ k ∈ ks, ∀ c, s.closures.table[k]? = some c → c.func.id ∈ now := by
  induction ks generalizing s visited with
  | nil => exact Agree.pure hinv ⟨hvisits, List.suffix_refl _, nofun⟩
  | cons k ks ih =>
    obtain ⟨⟨c, hget⟩, hlater⟩ := List.forall_mem_cons.mp hfound
    have hlive : D.Live s (.closure k) := fun _ => (Array.getElem?_eq_some_iff.mp hget).1
    -- What the rest of the sweep visits, from a later state and with this literal visited.
    have hgo {t : Run} {seen : List NodeId} (hinv : D.Inv t) (hlead : D.Leads but s t)
        (hvisits : Visits ids seen) (hsuffix : visited <:+ seen) (hself : c.func.id ∈ seen) :
        D.Agree but t (TypeFlow.sweep i seen ks) (TypeFlow.sweep i' seen ks) fun now _ =>
          Visits ids now ∧ visited <:+ now ∧
            ∀ j ∈ k :: ks, ∀ c, s.closures.table[j]? = some c → c.func.id ∈ now := by
      refine (ih hinv (hlead.depthLeft.trans hdepth) hvisits fun j hmem => ?_).mono
        fun now u _ _ ⟨hvisits', hsuffix', hall⟩ => ⟨hvisits', hsuffix.trans hsuffix', ?_⟩
      · obtain ⟨c, hat⟩ := hlater j hmem
        obtain ⟨c', hat', -⟩ := hlead.literal hat
        exact ⟨c', hat'⟩
      · refine List.forall_mem_cons.mpr ⟨fun c' hget' => ?_, fun j hmem c' hbefore => ?_⟩
        · cases hget.symm.trans hget'
          exact hsuffix'.mem hself
        · obtain ⟨c'', hafter, hsame⟩ := hlead.literal hbefore
          exact hsame ▸ hall j hmem c'' hafter
    refine (Does.askClosure hinv hlive).bind fun c' t hinv hlead hget' => ?_
    obtain ⟨c'', hafter, hsame⟩ := hlead.literal hget
    cases hget'.symm.trans hafter
    have hliteral : c'.func.id ∈ ids := hliterals c'.func (hinv.literals k c' hget')
    refine Agree.ite (fun hseen => ?_) fun hnew => ?_
    · exact hgo hinv hlead hvisits (List.suffix_refl _) (hsame ▸ List.contains_iff_mem.mp hseen)
    · refine (Does.emit hinv _).bind fun _ u hinv hlead' _ => ?_
      have hleads := hlead.trans hlead'
      have hunseen : c'.func.id ∉ visited := fun hmem => hnew (List.contains_iff_mem.mpr hmem)
      refine (agree_recovering (hanswers.callBlindly hinv (hleads.depthLeft.trans hdepth)
        (hleads.live hlive) c'.func) (fun m v hinv _ => Does.reportOnce hinv hreports m)
        fun _ _ _ => trivial).bind fun _ v hinv hlead'' _ => ?_
      refine hgo hinv (hleads.trans hlead'') ⟨List.nodup_cons.mpr ⟨hunseen, hvisits.nodup⟩, ?_⟩
        (List.suffix_cons _ _) (hsame ▸ List.mem_cons_self)
      exact List.forall_mem_cons.mpr ⟨hliteral, hvisits.among⟩

/-- One sweep: when there is something to look at, a literal is visited that was not before. -/
theorem Answers.sweepThen {again again' : List NodeId → Walk Unit} (hinv : D.Inv s)
    (hdepth : s.depthLeft = d) {visited : List NodeId} (hvisits : Visits ids visited)
    (hnext : ∀ t now, D.Inv t → D.Leads but s t → Visits ids now → visited <:+ now →
      visited.length < now.length → D.Agree but t (again now) (again' now) fun _ _ => True) :
    D.Agree but s (sweepThen i again visited) (sweepThen i' again' visited) fun _ _ => True := by
  refine Agree.get (fun s' hsim => by rw [sim_closures hsim]) ?_
  cases hpending : pendingClosures s.closures visited with
  | nil => exact Agree.pure hinv trivial
  | cons k ks =>
    have hfound : ∀ j ∈ k :: ks, ∃ c, s.closures.table[j]? = some c ∧ c.func.id ∉ visited :=
      fun j hmem =>
      mem_pendingClosures (hpending ▸ hmem)
    refine (hanswers.sweep hreports hliterals hinv hdepth hvisits fun j hmem => ?_).bind
      fun now t hinv hlead ⟨hvisits', hsuffix, hall⟩ => hnext t now hinv hlead hvisits' hsuffix ?_
    · obtain ⟨c, hat, -⟩ := hfound j hmem
      exact ⟨c, hat⟩
    · obtain ⟨c, hat, hunseen⟩ := hfound k List.mem_cons_self
      have hseen := hall k List.mem_cons_self c hat
      refine lt_of_le_of_ne hsuffix.length_le fun hsame => hunseen ?_
      exact hsuffix.eq_of_length hsame ▸ hseen

/-- Sweeps, as many on both sides. -/
theorem Answers.sweepsUpTo_same {beyond beyond' : List NodeId → Walk Unit} (n : Nat)
    (hinv : D.Inv s) (hdepth : s.depthLeft = d) {visited : List NodeId}
    (hvisits : Visits ids visited)
    (hlast : ∀ t now, D.Inv t → D.Agree but t (beyond now) (beyond' now) fun _ _ => True) :
    D.Agree but s (sweepsUpTo i beyond n visited) (sweepsUpTo i' beyond' n visited)
      fun _ _ => True := by
  induction n generalizing s visited with
  | zero => exact hlast s visited hinv
  | succ n ih =>
    refine hanswers.sweepThen hreports hliterals hinv hdepth hvisits
      fun t now hinv hlead hvisits' _ _ => ?_
    exact ih hinv (hlead.depthLeft.trans hdepth) hvisits'

end Sweeps

/-- Sweeps after all literals were visited do nothing: how often the loop is unfolded does not
matter, as soon as there are as many sweeps as literals. -/
theorem Answers.sweepsUpTo (hanswers : D.Answers d i i') (hreports : D.reports)
    {ids : Finset NodeId} (hliterals : ∀ f : Func, D.Allowed (.func f) → f.id ∈ ids)
    {beyond beyond' : List NodeId → Walk Unit} {n n' : Nat} (hinv : D.Inv s)
    (hdepth : s.depthLeft = d) {visited : List NodeId} (hvisits : Visits ids visited)
    (hreach : ids.card < n + visited.length) (hreach' : ids.card < n' + visited.length) :
    D.Agree but s (sweepsUpTo i beyond n visited) (sweepsUpTo i' beyond' n' visited)
      fun _ _ => True := by
  induction n generalizing n' s visited with
  | zero =>
    have := hvisits.length_le
    omega
  | succ n ih =>
    cases n' with
    | zero =>
      have := hvisits.length_le
      omega
    | succ n' =>
      refine hanswers.sweepThen hreports hliterals hinv hdepth hvisits
        fun t now hinv hlead hvisits' _ hmore => ?_
      exact ih hinv (hlead.depthLeft.trans hdepth) hvisits' (by omega) (by omega)

/-- The functions that nothing called, answered by one invocation. -/
theorem Does.analyseUncalled (hreports : D.reports) (hinv : D.Inv s) :
    D.Does but s analyseUncalled fun _ _ => True :=
  Agree.get (fun s' hsim => by rw [sim_closures hsim])
    (Answers.sweepsUpTo_same answers_invoke hreports (fun f _ => Set.mem_univ f.id) _ hinv rfl
      Visits.nil fun _ _ hinv => Agree.pure hinv trivial)

/-- Running a program. -/
theorem Does.inferProgram (hreports : D.reports) (hinv : D.Inv s) {p : Program}
    (hallowed : ∀ n ∈ Program.outerNodes p, D.Allowed n) :
    D.Does but s (inferProgram p) fun _ _ => True :=
  Answers.inferProgramBy answers_invoke hreports hinv rfl hallowed

/-- Running programs one after the other. -/
theorem Does.inferPrograms (hreports : D.reports) (hinv : D.Inv s) {ps : List Program}
    (hallowed : ∀ p ∈ ps, ∀ n ∈ Program.outerNodes p, D.Allowed n) :
    D.Does but s (inferPrograms ps) fun _ _ => True := by
  induction ps generalizing s with
  | nil => exact Agree.pure hinv trivial
  | cons p ps ih =>
    obtain ⟨hallowed', hlater⟩ := List.forall_mem_cons.mp hallowed
    exact (Does.inferProgram hreports hinv hallowed').bind fun _ t hinv _ _ => ih hinv hlater

end Discipline

/-! ### Malformations -/

/-- A computation that no malformation stops. -/
def Walk.Calm {α : Type} (m : Walk α) : Prop :=
  ∀ s e t, m s ≠ .error (.malformed e) t

namespace Walk.Calm

variable {α β : Type}

theorem pure (a : α) : Calm (pure a : Walk α) :=
  fun _ _ _ => nofun

/-- Computations that no malformation stops, one after the other. -/
theorem bind {m : Walk α} {f : α → Walk β} (h : m.Calm) (hnext : ∀ a, (f a).Calm) :
    (m >>= f).Calm := by
  intro s e t
  change EStateM.bind m f s ≠ _
  unfold EStateM.bind
  cases hran : m s with
  | ok a r => exact hnext a r e t
  | error e' r =>
    intro hstopped
    cases hstopped
    exact h s e t hran

theorem modify (f : Run → Run) : Calm (modify f) :=
  fun _ _ _ => nofun

theorem read {f : Run → Walk α} (hnext : ∀ s, (f s).Calm) : Calm (get >>= f) :=
  bind (fun _ _ _ => nofun) hnext

theorem ask (look : Run → Except Dangling α) : Calm (Walk.ask look) := by
  intro s e t hstopped
  rw [Walk.ask] at hstopped
  split at hstopped <;> cases hstopped

theorem onEnv (m : EStateM Dangling Env α) : Calm (Walk.onEnv m) := by
  intro s e t hstopped
  rw [Walk.onEnv] at hstopped
  split at hstopped <;> cases hstopped

theorem onClosures (m : EStateM Dangling Closures α) : Calm (Walk.onClosures m) := by
  intro s e t hstopped
  rw [Walk.onClosures] at hstopped
  split at hstopped <;> cases hstopped

theorem when {c : Prop} [Decidable c] {m : Walk Unit} (h : m.Calm) : Calm (Walk.when c m) := by
  rw [Walk.when]
  split
  · exact h
  · exact pure ()

/-- An error is handled where it happens, so no malformation stops the whole. -/
theorem recovering {m : Walk Unit} {handle : Malformed → Walk Unit} (h : ∀ e, (handle e).Calm) :
    Calm (recovering m handle) := by
  intro s e t hstopped
  rw [TypeFlow.recovering] at hstopped
  split at hstopped
  · cases hstopped
  · exact h _ _ _ _ hstopped
  · cases hstopped

end Walk.Calm

open Walk in
theorem captureFunc_calm (scope : ScopeId) (f : Func) (binding : Option String) :
    (captureFunc scope f binding).Calm :=
  (Calm.onClosures _).bind fun _ => (Calm.when (.onClosures _)).bind fun _ => .pure _

open Walk in
/-- Hoisting evaluates nothing that could be malformed. -/
theorem hoist_calm (scope : ScopeId) (body : List Stmt) : (hoist scope body).Calm := by
  have hvars (names : List String) : (hoistVars scope names).Calm := by
    induction names with
    | nil => exact .pure ()
    | cons name rest ih => exact (Calm.onEnv _).bind fun _ => ih
  have hfuncs (fs : List Func) : (hoistFuncs scope fs).Calm := by
    induction fs with
    | nil => exact .pure ()
    | cons f rest ih =>
      refine (captureFunc_calm scope f none).bind fun value => ?_
      cases f.name with
      | none => exact ih
      | some name => exact (Calm.onEnv _).bind fun _ => ih
  exact (hvars _).bind fun _ => hfuncs _

theorem hoistFlagged_calm (p : List (Stmt × Option Malformed)) : (hoistFlagged p).Calm := by
  induction p with
  | nil => exact .pure ()
  | cons e rest ih =>
    obtain ⟨x, flag⟩ := e
    cases flag with
    | some m => exact ih
    | none => exact (hoist_calm _ _).bind fun _ => ih

open Walk in
/-- An error in a statement is reported, and the next statement runs. -/
theorem inferFlagged_calm (invoke : Invoke) (p : List (Stmt × Option Malformed)) :
    (inferFlagged invoke p).Calm := by
  have hreports (e : Event) (m : Malformed) : Calm (do Walk.emit e; report m) :=
    (Calm.modify _).bind fun _ => .modify _
  induction p with
  | nil => exact .pure ()
  | cons e rest ih =>
    obtain ⟨x, flag⟩ := e
    refine Calm.bind ?_ fun _ => ih
    cases flag with
    | some m => exact hreports _ m
    | none => exact .recovering fun m => hreports _ m

open Walk in
/-- No malformation stops a program. -/
theorem inferProgram_calm (p : Program) : (inferProgram p).Calm := by
  rw [inferProgram, inferProgramBy_eq]
  exact (Calm.modify _).bind fun _ => (hoistFlagged_calm _).bind fun _ =>
    (inferFlagged_calm invoke _).bind fun _ => .modify _

/-- An error in a function that nothing called is reported, and the next one is swept. -/
theorem sweep_calm (invoke : Invoke) (visited : List NodeId) (ids : List ClosureId) :
    (sweep invoke visited ids).Calm := by
  induction ids generalizing visited with
  | nil => exact .pure _
  | cons id rest ih =>
    refine .bind (.ask _) fun c => ?_
    split
    · exact ih _
    · have hreported (m : Malformed) : (reportOnce m).Calm := by
        refine .read fun s => ?_
        split
        · exact .pure _
        · exact .modify _
      exact .bind (.modify _) fun _ => .bind (.recovering hreported) fun _ => ih _

/-- No malformation stops the sweeps over what nothing called. -/
theorem analyseUncalled_calm : analyseUncalled.Calm := by
  have hsweeps (n : Nat) (visited : List NodeId) :
      (sweepsUpTo invoke (fun _ => return ()) n visited).Calm := by
    induction n generalizing visited with
    | zero => exact .pure _
    | succ n ih =>
      refine .read fun s => ?_
      split
      · exact .pure _
      · exact .bind (sweep_calm _ _ _) ih
  exact .read fun s => hsweeps _ _

/-! ### The operations of a walk -/

/-- One operation of a walk, with what it is given. -/
inductive Action where
  | stmt (scope : ScopeId) (x : Stmt)
  | expr (scope : ScopeId) (e : Expr)
  /-- Calls a value. -/
  | call (callee this : Ty) (args : List Ty) (site : NodeId) (caller : ScopeId)
  /-- Creates an instance. -/
  | create (closure : ClosureId) (args : List Ty) (site : NodeId) (caller : ScopeId)
  /-- Answers the call of a closure. -/
  | invoke (c : Call)
  | hoist (scope : ScopeId) (body : List Stmt)

namespace Action

/-- Runs the operation, and forgets its result. -/
def run : Action → Walk Unit
  | stmt scope x => inferStmt TypeFlow.invoke scope x
  | expr scope e => do let _ ← inferExpr TypeFlow.invoke scope e
  | call callee this args site caller => do
    let _ ← callValue TypeFlow.invoke callee this args site caller
  | create closure args site caller => do
    let _ ← instantiate TypeFlow.invoke closure args site caller
  | invoke c => do let _ ← TypeFlow.invoke c
  | hoist scope body => TypeFlow.hoist scope body

/-- The types that an operation is given. -/
def types : Action → List Ty
  | stmt _ _ => []
  | expr _ _ => []
  | call callee this args _ _ => callee :: this :: args
  | create _ args _ _ => args
  | invoke c => c.this :: c.args
  | hoist _ _ => []

/-- The handles that an operation is given, outside of types. -/
def handles : Action → List Dangling
  | stmt scope _ => [.scope scope]
  | expr scope _ => [.scope scope]
  | call _ _ _ _ caller => [.scope caller]
  | create closure _ _ caller => [.closure closure, .scope caller]
  | invoke c => .closure c.closure :: .scope c.caller :: c.constructing.toList.map .ctor
  | hoist scope _ => [.scope scope]

/-- The nodes that an operation walks.  An expression is evaluated as a statement of its own. -/
def nodes : Action → List Node
  | stmt _ x => x.nodes false
  | expr _ e => .stmt ⟨e.id, e.span, .expr e⟩ :: e.nodes false
  | hoist _ body => Stmt.nodesAll false body
  | _ => []

end Action

namespace Discipline

variable {D : Discipline} {but : Option ClosureId} {s : Run}

/-- Every operation keeps to every discipline that allows what it is given, in any scope. -/
theorem Does.action (hinv : D.Inv s) {a : Action} (hgoods : ∀ t ∈ a.types, D.Good s t)
    (hlives : ∀ d ∈ a.handles, D.Live s d) (hallowed : ∀ n ∈ a.nodes, D.Allowed n)
    (hanywhere : ¬ D.placed := by exact id) : D.Does but s a.run fun _ _ => True := by
  have hstands (id : ScopeId) (n : Node) (hallowed : D.Allowed n) : D.Stands s id n :=
    ⟨hallowed, fun hplaced => (hanywhere hplaced).elim⟩
  have hdone {t : Run} (hinv : D.Inv t) : D.Does but t (pure ()) fun _ _ => True :=
    Agree.pure hinv trivial
  cases a with
  | stmt scope x =>
    exact answers_invoke.inferStmt x ⟨hinv, rfl, hlives _ List.mem_cons_self, hstands scope⟩
      hallowed
  | expr scope e =>
    obtain ⟨hself, hinside⟩ := List.forall_mem_cons.mp hallowed
    exact (answers_invoke.inferExpr e ⟨hinv, rfl, hlives _ List.mem_cons_self, hstands scope⟩
      ⟨_, hself, List.mem_cons_self⟩ hinside).bind fun _ _ hinv _ _ => hdone hinv
  | call callee this args site caller =>
    obtain ⟨hgood, hgoods⟩ := List.forall_mem_cons.mp hgoods
    obtain ⟨hgoodT, hgoods⟩ := List.forall_mem_cons.mp hgoods
    exact (answers_invoke.callValue hinv rfl hgood hgoodT hgoods site
      (hlives _ List.mem_cons_self)).bind fun _ _ hinv _ _ => hdone hinv
  | create closure args site caller =>
    obtain ⟨hlive, hliveS⟩ := List.forall_mem_cons.mp hlives
    exact (answers_invoke.instantiate hinv rfl hlive hgoods site (hliveS _ List.mem_cons_self)).bind
      fun _ _ hinv _ _ => hdone hinv
  | invoke c =>
    obtain ⟨hgood, hgoods⟩ := List.forall_mem_cons.mp hgoods
    obtain ⟨hlive, hlives⟩ := List.forall_mem_cons.mp hlives
    obtain ⟨hliveS, hlives⟩ := List.forall_mem_cons.mp hlives
    have hcallable : D.Callable s c := ⟨hlive, hgood, hgoods, hliveS, fun id hconstructing =>
      hlives _ (List.mem_map_of_mem (Option.mem_toList.mpr hconstructing))⟩
    exact (answers_invoke s c hinv rfl hcallable).weaken.bind fun _ _ hinv _ _ => hdone hinv
  | hoist scope body =>
    exact (Does.hoist hinv (hlives _ List.mem_cons_self) fun n hmem =>
      hstands scope n (hallowed n hmem)).mono fun _ _ _ _ _ => trivial

end Discipline

/-! ### The state before the first program -/

/-- A declaration changes the bindings of the global scope only. -/
theorem Env.declare_global (b : Fields) (n : Nat) (name : String) (t : Ty) :
    ∃ b' n', Env.declare Env.global name t ⟨#[⟨none, none, b⟩], .empty, n⟩ =
        .ok () ⟨#[⟨none, none, b'⟩], .empty, n'⟩ ∧ ∀ u ∈ b'.types, u = t ∨ u ∈ b.types := by
  by_cases hsame : OrdMap.get? b name = some t
  · refine ⟨b, n, ?_, fun u hmem => Or.inr hmem⟩
    change (if OrdMap.get? b name = some t then _ else _ : EStateM Dangling Env Unit) _ = _
    rw [if_pos hsame]
    rfl
  · refine ⟨OrdMap.insert b name t, n + 1, ?_, fun u hmem => ?_⟩
    · change (if OrdMap.get? b name = some t then _ else _ : EStateM Dangling Env Unit) _ = _
      rw [if_neg hsame]
      rfl
    · obtain ⟨e, hinside, rfl⟩ := List.mem_map.mp hmem
      rcases OrdMap.mem_insert_of_mem hinside with rfl | hstays
      · exact Or.inl rfl
      · exact Or.inr (Fields.mem_types hstays)

/-- Binding globals makes one scope, which has the types of the globals. -/
theorem Env.declareAll_global (seeds : List (String × Ty)) (b : Fields) (n : Nat) :
    ∃ b' n', Env.declareAll seeds ⟨#[⟨none, none, b⟩], .empty, n⟩ =
        .ok () ⟨#[⟨none, none, b'⟩], .empty, n'⟩ ∧
      ∀ u ∈ b'.types, u ∈ b.types ∨ ∃ g ∈ seeds, u = g.2 := by
  induction seeds generalizing b n with
  | nil => exact ⟨b, n, rfl, fun u hmem => Or.inl hmem⟩
  | cons g rest ih =>
    obtain ⟨b', n', hdeclare, htypes⟩ := Env.declare_global b n g.1 g.2
    obtain ⟨b'', n'', hlater, htypes'⟩ := ih b' n'
    refine ⟨b'', n'', ?_, fun u hmem => ?_⟩
    · change EStateM.bind (Env.declare Env.global g.1 g.2) (fun _ => Env.declareAll rest) _ = _
      rw [EStateM.bind, hdeclare]
      exact hlater
    · rcases htypes' u hmem with hmem' | ⟨g', hlisted, rfl⟩
      · rcases htypes u hmem' with rfl | hmem'
        · exact Or.inr ⟨g, List.mem_cons_self, rfl⟩
        · exact Or.inl hmem'
      · exact Or.inr ⟨g', List.mem_cons_of_mem g hlisted, rfl⟩

/-- The environment before the first program has one scope, which binds the globals. -/
theorem start_env (options : Options) (globals : Globals) :
    ∃ b n, (Run.start options globals).env = ⟨#[⟨none, none, b⟩], .empty, n⟩ ∧
      ∀ t ∈ b.types, ∃ g ∈ (if options.seedBuiltins then Globals.builtins else []) ++ globals,
        t = g.2 := by
  let seeds := (if options.seedBuiltins then Globals.builtins else []) ++ globals
  obtain ⟨b, n, hbound, htypes⟩ := Env.declareAll_global seeds [] 0
  refine ⟨b, n, ?_, fun t hmem => (htypes t hmem).resolve_left (nomatch ·)⟩
  have hrun : (Env.declareAll seeds).run Env.initial = .ok () ⟨#[⟨none, none, b⟩], .empty, n⟩ :=
    hbound
  change Env.withGlobals seeds = _
  rw [Env.withGlobals, hrun]

theorem start_global (options : Options) (globals : Globals) :
    (Run.start options globals).HasEntry (.scope Env.global) := by
  obtain ⟨b, n, henv, -⟩ := start_env options globals
  rw [Run.HasEntry, henv]
  exact Nat.one_pos

/-- Before the first program there are no handles outside of types. -/
theorem start_handles (options : Options) (globals : Globals) :
    (Run.start options globals).handles = [] := by
  obtain ⟨b, n, henv, -⟩ := start_env options globals
  rw [Run.handles, henv]
  rfl

/-- Before the first program nothing is interned. -/
theorem start_indexed (options : Options) (globals : Globals) :
    (Run.start options globals).Indexed := by
  obtain ⟨b, n, henv, -⟩ := start_env options globals
  refine ⟨?_, Indexes.empty _, Indexes.empty _, Indexes.empty _⟩
  rw [henv]
  exact ⟨Nat.one_pos, Index.Injects.empty 1, fun _ hled => by cases hled⟩

/-- What is true of the types of all globals is true of the types before the first program. -/
theorem start_types (options : Options) {globals : Globals} {P : Ty → Prop}
    (hbuiltins : ∀ g ∈ Globals.builtins, P g.2) (hgiven : ∀ g ∈ globals, P g.2) :
    ∀ t ∈ (Run.start options globals).types, P t := by
  intro t hstored
  obtain ⟨b, n, henv, htypes⟩ := start_env options globals
  have heq : (Run.start options globals).types = b.types := by
    rw [Run.types, henv]
    change b.types ++ [] ++ [] ++ [] ++ [] ++ [] ++ [] ++ [] = b.types
    simp only [List.append_nil]
  obtain ⟨g, hseeded, rfl⟩ := htypes t (heq ▸ hstored)
  rcases List.mem_append.mp hseeded with hbuiltin | hmem
  · split at hbuiltin
    · exact hbuiltins g hbuiltin
    · cases hbuiltin
  · exact hgiven g hmem

end TypeFlow
