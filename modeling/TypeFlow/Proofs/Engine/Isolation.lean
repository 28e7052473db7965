import Mathlib
import TypeFlow.Proofs.Engine.Stack
import TypeFlow.Proofs.Engine.Validity
import TypeFlow.Proofs.Script.Duplicates

/-!
# Isolated statements

A program runs as it does without its flagged statements, apart from the errors and the log.  Every
flagged statement adds the error that it is flagged with, in its place, and every other statement
adds one error at most.

## Main Definitions

* `Run.muted` - a state without its errors and its log
* `silentWalk` - walks that report nothing
* `Isolates` - how the two runs compare

## Main Statements

* `alike_of_does` - a walk does the same, whatever errors and log there are
* `flagged_statements_isolated` - a program and the program without its flagged statements
-/

namespace TypeFlow

open Walk

/-! ### Errors and log are not read -/

/-- A state without its errors and its log. -/
def Run.muted (s : Run) : Run :=
  { s with errors := [], log := #[] }

theorem Update.muted_apply (u : Update) (s : Run) :
    (u.apply s).muted = (u.apply s.muted).muted := by
  cases u <;> rfl

/-- States that differ in errors and log only. -/
def Similarity.muted : Similarity where
  Sim s s' := s'.muted = s.muted
  reports := False
  sim_view hsame := (congrArg Run.view hsame :)
  sim_errors := False.elim
  sim_apply u hsame := by rw [u.muted_apply, hsame, ← u.muted_apply]

/-- Walks that report nothing. -/
def silentWalk : Discipline :=
  { anyWalk with toSimilarity := .muted }

namespace silentWalk

theorem inv (s : Run) : silentWalk.Inv s :=
  ⟨fun _ _ => trivial, fun _ _ htight => htight.elim, fun _ _ _ => trivial,
    fun htight => htight.elim, trivial, False.elim, nofun⟩

theorem errors_of_steps {s t : Run} (hsteps : silentWalk.Steps s t) : t.errors = s.errors := by
  induction hsteps with
  | refl => rfl
  | tail _ hlast ih =>
    obtain ⟨u, hguard, rfl⟩ := hlast
    cases u with
    | report m => exact hguard.reason.elim
    | _ => exact ih

end silentWalk

/-- The outcomes of a computation from two states that differ in errors and log only.  The errors
are those from before. -/
inductive Alike {α : Type} (s s' : Run) :
    EStateM.Result Fault Run α → EStateM.Result Fault Run α → Prop where
  | ok {a : α} {t t' : Run} : t'.muted = t.muted → t.errors = s.errors → t'.errors = s'.errors →
    Alike s s' (.ok a t) (.ok a t')
  | error {e : Fault} {t t' : Run} : t'.muted = t.muted → t.errors = s.errors →
    t'.errors = s'.errors → Alike s s' (.error e t) (.error e t')

theorem alike_of_does {α : Type} {m : Walk α} {Q : α → Run → Prop} {s s' : Run}
    (hdoes : ∀ s, silentWalk.Does none s m Q) (hsame : s'.muted = s.muted) :
    Alike s s' (m s) (m s') := by
  have herrors (r : Run) : (after m r).errors = r.errors :=
    silentWalk.errors_of_steps (hdoes r r rfl).after.2.steps
  have houtcome := hdoes s s' hsame
  have herrors' := herrors s
  have hright := herrors s'
  unfold after at herrors' hright
  generalize m s = x at houtcome herrors'
  generalize m s' = x' at houtcome hright
  cases houtcome with
  | ok hsim => exact .ok hsim herrors' hright
  | error hsim => exact .error hsim herrors' hright

/-! ### Programs without their flagged statements -/

/-- How a run of statements compares with a run of those that are not flagged: both stop alike, or
both end, in states that differ in errors and log only.  There is an outcome for every statement,
which is the malformation of a flagged one, and the runs add these as errors. -/
inductive Isolates (flags : List (Option Malformed)) (s s' : Run) :
    EStateM.Result Fault Run Unit → EStateM.Result Fault Run Unit → Prop where
  | ok {t t' : Run} (outcomes : List (Option Malformed)) : t'.muted = t.muted →
    outcomes.length = flags.length →
    (∀ (i : Nat) m, flags[i]? = some (some m) → outcomes[i]? = some (some m)) →
    t.errors = s.errors ++ outcomes.reduceOption →
    t'.errors = s'.errors ++ (keptBy flags outcomes).reduceOption →
    Isolates flags s s' (.ok () t) (.ok () t')
  | error {e : Fault} {t t' : Run} : t'.muted = t.muted →
    Isolates flags s s' (.error e t) (.error e t')

namespace Isolates

variable {flags : List (Option Malformed)} {s s' r r' : Run}
variable {x x' : EStateM.Result Fault Run Unit}

/-- A flagged statement comes first. -/
theorem skipped (h : Isolates flags r s' x x') {m : Malformed}
    (herrors : r.errors = s.errors ++ [m]) : Isolates (some m :: flags) s s' x x' := by
  cases h with
  | ok outcomes hcore hlength hflagged herrors' hright =>
    refine .ok (some m :: outcomes) hcore (congrArg (· + 1) hlength) (fun i n hget => ?_) ?_ hright
    · cases i with
      | zero => exact hget
      | succ i => exact hflagged i n hget
    · rw [herrors', herrors, List.reduceOption_cons_of_some, List.append_assoc]
      rfl
  | error hcore => exact .error hcore

/-- Another statement comes first, with or without an error. -/
theorem ran (h : Isolates flags r r' x x') (outcome : Option Malformed)
    (herrors : r.errors = s.errors ++ outcome.toList)
    (herrors' : r'.errors = s'.errors ++ outcome.toList) :
    Isolates (none :: flags) s s' x x' := by
  have hcons (os : List (Option Malformed)) :
      (outcome :: os).reduceOption = outcome.toList ++ os.reduceOption := by
    cases outcome <;> rfl
  cases h with
  | ok outcomes hcore hlength hflagged hleft hright =>
    refine .ok (outcome :: outcomes) hcore (congrArg (· + 1) hlength) (fun i n hget => ?_) ?_ ?_
    · cases i with
      | zero => cases hget
      | succ i => exact hflagged i n hget
    · rw [hleft, herrors, hcons, List.append_assoc]
    · rw [hright, herrors', keptBy_none, hcons, List.append_assoc]
  | error hcore => exact .error hcore

/-- Both runs count from other errors. -/
theorem congr (h : Isolates flags r r' x x') (herrors : r.errors = s.errors)
    (herrors' : r'.errors = s'.errors) : Isolates flags s s' x x' := by
  cases h with
  | ok outcomes hcore hlength hflagged hleft hright =>
    exact .ok outcomes hcore hlength hflagged (herrors ▸ hleft) (herrors' ▸ hright)
  | error hcore => exact .error hcore

/-- An event follows in both runs. -/
theorem emit {m m' : Walk Unit} (h : Isolates flags s s' (m r) (m' r')) (e : Event) :
    Isolates flags s s' ((m >>= fun _ => Walk.emit e) r) ((m' >>= fun _ => Walk.emit e) r') := by
  rw [bind_apply, bind_apply]
  generalize m r = x at h
  generalize m' r' = x' at h
  cases h with
  | ok outcomes hcore hlength hflagged herrors herrors' =>
    exact .ok outcomes hcore hlength hflagged herrors herrors'
  | error hcore => exact .error hcore

end Isolates

theorem inferStmt_alike (x : Stmt) {s s' : Run} (hsame : s'.muted = s.muted) :
    Alike s s' (inferStmt invoke Env.global x s) (inferStmt invoke Env.global x s') := by
  refine alike_of_does (Q := fun _ _ => True) (fun s => ?_) hsame
  exact Discipline.answers_invoke.inferStmt x ⟨silentWalk.inv s, rfl, fun htight => htight.elim,
    Discipline.stands_global s⟩ fun _ _ => trivial

theorem hoistFlagged_alike (p : List (Stmt × Option Malformed)) {s s' : Run}
    (hsame : s'.muted = s.muted) :
    Alike s s' (hoistFlagged p s) (hoistFlagged p s') :=
  alike_of_does (Q := fun _ _ => True)
    (fun s => Discipline.Does.hoistFlagged (silentWalk.inv s) fun _ _ _ _ => trivial) hsame

/-- Flagged statements declare nothing. -/
theorem hoistFlagged_filter (p : List (Stmt × Option Malformed)) :
    hoistFlagged (p.filter (·.2.isNone)) = hoistFlagged p := by
  induction p with
  | nil => rfl
  | cons e rest ih =>
    obtain ⟨x, flag⟩ := e
    cases flag with
    | some m => exact ih
    | none => rw [List.filter_cons_of_pos rfl, hoistFlagged, hoistFlagged, ih]

theorem inferFlaggedTop_apply (x : Stmt) (s : Run) :
    inferFlaggedTop invoke x none s = match inferStmt invoke Env.global x s with
      | .ok _ t => .ok () t
      | .error (.malformed m) t =>
        .ok () { t.logged (.abandoned x.id m) with errors := t.errors ++ [m] }
      | .error (.dangling d) t => .error (.dangling d) t := rfl

/-- Running statements, and running those that are not flagged. -/
theorem isolates_inferFlagged (p : List (Stmt × Option Malformed)) {s s' : Run}
    (hsame : s'.muted = s.muted) :
    Isolates (p.map (·.2)) s s' (inferFlagged invoke p s)
      (inferFlagged invoke (p.filter (·.2.isNone)) s') := by
  induction p generalizing s s' with
  | nil => exact .ok [] hsame rfl nofun (List.append_nil _).symm (List.append_nil _).symm
  | cons e rest ih =>
    obtain ⟨x, flag⟩ := e
    cases flag with
    | some m =>
      let r := { s.logged (.skipped x.id m) with errors := s.errors ++ [m] }
      have hlater : s'.muted = r.muted := hsame
      exact (ih hlater).skipped rfl
    | none =>
      have halike := inferStmt_alike x hsame
      rw [List.filter_cons_of_pos rfl, inferFlagged, inferFlagged, bind_apply, bind_apply,
        inferFlaggedTop_apply, inferFlaggedTop_apply]
      generalize inferStmt invoke Env.global x s = y at halike
      generalize inferStmt invoke Env.global x s' = y' at halike
      cases halike with
      | @ok _ t t' hcore herrors herrors' =>
        refine (ih hcore).ran none ?_ ?_
        · exact herrors.trans (List.append_nil _).symm
        · exact herrors'.trans (List.append_nil _).symm
      | @error e t t' hcore herrors herrors' =>
        cases e with
        | malformed m =>
          let reported (r : Run) := { r.logged (.abandoned x.id m) with errors := r.errors ++ [m] }
          have hlater : (reported t').muted = (reported t).muted := hcore
          refine (ih hlater).ran (some m) ?_ ?_
          · exact congrArg (· ++ [m]) herrors
          · exact congrArg (· ++ [m]) herrors'
        | dangling d => exact .error hcore

/-- A program, and the program without its flagged statements. -/
theorem isolates_inferProgram (p : Program) (s : Run) :
    Isolates p.flags s s (inferProgram p s) (inferProgram p.unflagged s) := by
  have hflags : (p.zip p.flags).map (·.2) = p.flags := List.map_snd_zip p.length_flags.le
  let r := s.logged (.enterProgram p.length)
  let r' := s.logged (.enterProgram p.unflagged.length)
  have hentered (q : Program) : inferProgram q s =
      ((hoistFlagged (q.zip q.flags) >>= fun _ => inferFlagged invoke (q.zip q.flags)) >>=
        fun _ => emit .exitProgram) (s.logged (.enterProgram q.length)) := by
    rw [bind_assoc, inferProgram, inferProgramBy_eq]
    rfl
  rw [hentered, hentered, Program.zip_flags_unflagged]
  refine Isolates.emit ?_ _
  rw [bind_apply, bind_apply, hoistFlagged_filter]
  have hcore : r'.muted = r.muted := rfl
  have halike := hoistFlagged_alike (p.zip p.flags) hcore
  generalize hoistFlagged (p.zip p.flags) r = y at halike
  generalize hoistFlagged (p.zip p.flags) r' = y' at halike
  cases halike with
  | ok hcore herrors herrors' =>
    have hisolates := isolates_inferFlagged (p.zip p.flags) hcore
    rw [hflags] at hisolates
    exact hisolates.congr herrors herrors'
  | error hcore => exact .error hcore

/-- The flagged statements are listed in their order, each with its position.  A statement is
flagged exactly when one of its nodes carries an identity that occurs before, in the statements in
front of it or earlier in itself, and it is flagged with the first such node.  A program runs as it
does without its flagged statements, apart from the log and from the errors: there each flagged
statement adds what it is flagged with, in its place among the errors of the other statements, each
of which adds one at most.  From a valid state, both runs end. -/
theorem flagged_statements_isolated (p : Program) (s : Run) :
    (p.duplicates.Pairwise (fun a b => a.1 < b.1) ∧ ∀ e ∈ p.duplicates, e.1 < p.length) ∧
    (∀ (i : Nat) x, p[i]? = some x →
      (∀ m, (i, m) ∈ p.duplicates ↔
        ∃ n, FirstRepeat (p.idsBefore i) (x.nodes true) n ∧
          m = ⟨.duplicateNodeId, n.id, n.span⟩) ∧
      ((∀ m, (i, m) ∉ p.duplicates) ↔ ∀ k, ¬ RepeatsAt (p.idsBefore i) (x.nodes true) k)) ∧
    Isolates p.flags s s (inferProgram p s) (inferProgram p.unflagged s) ∧
    (s.Valid → (∃ t, inferProgram p s = .ok () t) ∧ ∃ t, inferProgram p.unflagged s = .ok () t) :=
  ⟨p.duplicates_positions,
    fun _ _ hfound => ⟨fun _ => Program.mem_duplicates_iff hfound,
      Program.not_mem_duplicates_iff hfound⟩,
    isolates_inferProgram p s, fun hvalid => ⟨inferProgram_ok hvalid p, inferProgram_ok hvalid _⟩⟩

/-- `?()`, then `a` with an identity from before, and then `?()` once more. -/
def repeatedBetween : Program :=
  [⟨0, ⟨0, 3⟩, .expr ⟨1, ⟨0, 3⟩, .call none []⟩⟩,
    ⟨2, ⟨4, 5⟩, .expr ⟨1, ⟨4, 5⟩, .ident "a"⟩⟩,
    ⟨3, ⟨6, 9⟩, .expr ⟨4, ⟨6, 9⟩, .call none []⟩⟩]

/-- The statement in the middle is flagged, and its error comes between those of the others. -/
theorem flagged_statements_isolated_repeatedBetween :
    let s := Run.start ⟨2, 3, false, false⟩ []
    let flag : Malformed := ⟨.duplicateNodeId, 1, ⟨4, 5⟩⟩
    let first : Malformed := ⟨.missingCallee, 1, ⟨0, 3⟩⟩
    let last : Malformed := ⟨.missingCallee, 4, ⟨6, 9⟩⟩
    repeatedBetween[1]? = some ⟨2, ⟨4, 5⟩, .expr ⟨1, ⟨4, 5⟩, .ident "a"⟩⟩ ∧
    (∃ n, FirstRepeat (repeatedBetween.idsBefore 1)
      [.stmt ⟨2, ⟨4, 5⟩, .expr ⟨1, ⟨4, 5⟩, .ident "a"⟩⟩, .expr ⟨1, ⟨4, 5⟩, .ident "a"⟩] n ∧
        flag = ⟨.duplicateNodeId, n.id, n.span⟩) ∧
    s.Valid ∧ (∃ t, inferProgram repeatedBetween s = .ok () t) ∧
    (after (inferProgram repeatedBetween) s).errors = [first, flag, last] ∧
    (after (inferProgram repeatedBetween.unflagged) s).errors = [first, last] := by
  intro s flag first last
  have hvalid : s.Valid := by decide
  obtain ⟨-, hflags, -, hends⟩ := flagged_statements_isolated repeatedBetween s
  have hflagged : (1, flag) ∈ repeatedBetween.duplicates := by decide
  exact ⟨rfl, ((hflags 1 _ rfl).1 flag).mp hflagged, hvalid, (hends hvalid).1, by decide, by decide⟩

end TypeFlow
