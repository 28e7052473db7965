import Mathlib
import TypeFlow.Proofs.Engine.Watch
import TypeFlow.Proofs.Types.Structural

/-!
# How statements complete

The ways in which the execution of a statement may end, given by rules that decide nothing about
values: any expression may throw, a branch takes either side, a loop runs its body any number of
times, a `switch` enters at any case or at none.  A statement that is said to always exit never
completes normally, so the result of a function leaves `undefined` out only where control cannot
fall off the end of its body.

## Main Definitions

* `Completion` - the ways to complete
* `StmtForm.Completes`, `Stmt.BodyCompletes` - the rules, for a statement and for a list of them
* `Stmt.LoopCompletes`, `Stmt.GuardCompletes` - the rules for loops, and for a guarded block before
  its final block
* `Stmt.EntersHandlers` - the handlers in a statement can be entered
* `Completion.Possible` - some completion is possible, and under a condition one that stays in the
  function

## Main Statements

* `Stmt.not_normal_of_alwaysExits` - a statement that always exits does not complete normally
* `Stmt.possible` - every statement completes in some way, and one that need not exit goes on or
  jumps when its handlers can be entered
* `exits_never_fall_through` - the same of statements, and of the results of function bodies

## Design Notes

A loop may also run its body not at all; for a `do` loop this is more than can happen.  A statement
in a block is only reached when those before it complete normally, so a block in which a `break`
stands before a `return` does not complete normally either: it leaves the loop around it.
-/

namespace TypeFlow

/-- How the execution of a statement ends. -/
inductive Completion where
  /-- Control falls off the end. -/
  | normal
  | returned
  | thrown
  /-- The loop or the `switch` around the statement is left. -/
  | broken
  /-- The loop around the statement goes on with its next iteration. -/
  | continued
deriving DecidableEq, Repr

/-! ### Parts of statements -/

/-- Whether the head of a `for` loop begins with an expression. -/
def ForInit.evaluates : ForInit → Bool
  | .none => false
  | .vars decls => decls.any (·.init.isSome)
  | .expr _ => true

/-- Whether a statement of this form evaluates an expression itself, besides those of the statements
in it. -/
def StmtForm.evaluates : StmtForm → Bool
  | .expr _ => true
  | .vars decls => decls.any (·.init.isSome)
  | .ret argument => argument.isSome
  | .branch _ _ _ => true
  | .whileLoop _ _ => true
  | .doWhile _ _ => true
  | .forLoop init test update _ => init.evaluates || test.isSome || update.isSome
  | .forIn _ _ _ => true
  | .switch _ _ => true
  | .throw _ => true
  | _ => false

/-- The statement that a loop repeats. -/
def StmtForm.loopBody? : StmtForm → Option Stmt
  | .whileLoop _ body => some body
  | .doWhile body _ => some body
  | .forLoop _ _ _ body => some body
  | .forIn _ _ body => some body
  | _ => none

/-- The statements that a `switch` runs when it enters at a case: falling through, those of all
cases from there on. -/
def Case.bodiesFrom (cases : List Case) (entry : Nat) : List Stmt :=
  (cases.drop entry).flatMap (·.body)

/-! ### The rules -/

mutual

/-- The ways in which a statement of a given form completes. -/
inductive StmtForm.Completes : StmtForm → Completion → Prop
  | throws {form : StmtForm} : form.evaluates = true → StmtForm.Completes form .thrown
  | empty : StmtForm.Completes .empty .normal
  | expr (e : Expr) : StmtForm.Completes (.expr e) .normal
  | vars (decls : List Declarator) : StmtForm.Completes (.vars decls) .normal
  | function (f : Func) : StmtForm.Completes (.function f) .normal
  | returns (argument : Option Expr) : StmtForm.Completes (.ret argument) .returned
  | breaks : StmtForm.Completes .break .broken
  | continues : StmtForm.Completes .continue .continued
  | block {body : List Stmt} {c : Completion} :
    Stmt.BodyCompletes body c → StmtForm.Completes (.block body) c
  | consequent {test : Expr} {s : Stmt} {alternate : Option Stmt} {c : Completion} :
    s.form.Completes c → StmtForm.Completes (.branch test s alternate) c
  | alternate {test : Expr} {s t : Stmt} {c : Completion} :
    t.form.Completes c → StmtForm.Completes (.branch test s (some t)) c
  | noAlternate {test : Expr} {s : Stmt} : StmtForm.Completes (.branch test s none) .normal
  | loop {form : StmtForm} {body : Stmt} {c : Completion} :
    form.loopBody? = some body → Stmt.LoopCompletes body c → StmtForm.Completes form c
  | noCase (e : Expr) (cases : List Case) : StmtForm.Completes (.switch e cases) .normal
  | enters {e : Expr} {cases : List Case} {c : Completion} (entry : Nat) :
    Stmt.BodyCompletes (Case.bodiesFrom cases entry) c → c ≠ .broken →
    StmtForm.Completes (.switch e cases) c
  | leaves {e : Expr} {cases : List Case} (entry : Nat) :
    Stmt.BodyCompletes (Case.bodiesFrom cases entry) .broken →
    StmtForm.Completes (.switch e cases) .normal
  | guarded {block : List Stmt} {handler : Option Handler} {finalizer : List Stmt}
    {c : Completion} :
    Stmt.GuardCompletes block handler c → Stmt.BodyCompletes finalizer .normal →
    StmtForm.Completes (.guarded block handler finalizer) c
  | overridden {block : List Stmt} {handler : Option Handler} {finalizer : List Stmt}
    {pending c : Completion} :
    Stmt.GuardCompletes block handler pending → Stmt.BodyCompletes finalizer c → c ≠ .normal →
    StmtForm.Completes (.guarded block handler finalizer) c

/-- The ways in which statements, run from first to last, complete. -/
inductive Stmt.BodyCompletes : List Stmt → Completion → Prop
  | nil : Stmt.BodyCompletes [] .normal
  | next {s : Stmt} {rest : List Stmt} {c : Completion} :
    s.form.Completes .normal → Stmt.BodyCompletes rest c → Stmt.BodyCompletes (s :: rest) c
  | abrupt {s : Stmt} {rest : List Stmt} {c : Completion} :
    s.form.Completes c → c ≠ .normal → Stmt.BodyCompletes (s :: rest) c

/-- The ways in which a loop with a given body completes, between iterations. -/
inductive Stmt.LoopCompletes : Stmt → Completion → Prop
  | ends (body : Stmt) : Stmt.LoopCompletes body .normal
  | again {body : Stmt} {c : Completion} :
    body.form.Completes .normal → Stmt.LoopCompletes body c → Stmt.LoopCompletes body c
  | continued {body : Stmt} {c : Completion} :
    body.form.Completes .continued → Stmt.LoopCompletes body c → Stmt.LoopCompletes body c
  | broken {body : Stmt} : body.form.Completes .broken → Stmt.LoopCompletes body .normal
  | returned {body : Stmt} : body.form.Completes .returned → Stmt.LoopCompletes body .returned
  | thrown {body : Stmt} : body.form.Completes .thrown → Stmt.LoopCompletes body .thrown

/-- The ways in which a guarded block completes, with its handler run after a throw. -/
inductive Stmt.GuardCompletes : List Stmt → Option Handler → Completion → Prop
  | unhandled {block : List Stmt} {c : Completion} :
    Stmt.BodyCompletes block c → Stmt.GuardCompletes block none c
  | passes {block : List Stmt} {handler : Handler} {c : Completion} :
    Stmt.BodyCompletes block c → c ≠ .thrown → Stmt.GuardCompletes block (some handler) c
  | caught {block : List Stmt} {handler : Handler} {c : Completion} :
    Stmt.BodyCompletes block .thrown → Stmt.BodyCompletes handler.body c →
    Stmt.GuardCompletes block (some handler) c

end

/-- The ways in which a statement completes. -/
def Stmt.Completes (s : Stmt) (c : Completion) : Prop :=
  s.form.Completes c

/-! ### What a normal completion takes -/

theorem StmtForm.Completes.of_block {body : List Stmt} {c : Completion}
    (h : (StmtForm.block body).Completes c) : Stmt.BodyCompletes body c := by
  cases h with
  | throws hevaluates => cases hevaluates
  | loop hloopBody _ => cases hloopBody
  | block hran => exact hran

theorem StmtForm.Completes.of_branch {test : Expr} {s t : Stmt}
    (h : (StmtForm.branch test s (some t)).Completes .normal) :
    s.form.Completes .normal ∨ t.form.Completes .normal := by
  cases h with
  | loop hloopBody _ => cases hloopBody
  | consequent hran => exact Or.inl hran
  | alternate hran => exact Or.inr hran

/-- A guarded block completes normally when it does so or its handler does, and then its final block
does. -/
theorem StmtForm.Completes.of_guarded {block finalizer : List Stmt} {handler : Option Handler}
    (h : (StmtForm.guarded block handler finalizer).Completes .normal) :
    Stmt.BodyCompletes finalizer .normal ∧ (Stmt.BodyCompletes block .normal ∨
      ∃ caught, handler = some caught ∧ Stmt.BodyCompletes caught.body .normal) := by
  cases h with
  | loop hloopBody _ => cases hloopBody
  | overridden _ _ habrupt => exact absurd rfl habrupt
  | guarded hran hfinal =>
    cases hran with
    | unhandled hran => exact ⟨hfinal, Or.inl hran⟩
    | passes hran _ => exact ⟨hfinal, Or.inl hran⟩
    | caught _ hran => exact ⟨hfinal, Or.inr ⟨_, rfl, hran⟩⟩

theorem Stmt.BodyCompletes.of_cons {s : Stmt} {rest : List Stmt}
    (h : Stmt.BodyCompletes (s :: rest) .normal) :
    s.form.Completes .normal ∧ Stmt.BodyCompletes rest .normal := by
  cases h with
  | abrupt _ habrupt => exact absurd rfl habrupt
  | next hfirst hran => exact ⟨hfirst, hran⟩

/-! ### Statements that always exit -/

mutual

/-- A statement that always exits does not complete normally. -/
theorem Stmt.not_normal_of_alwaysExits (s : Stmt) (hexits : s.alwaysExits = true) :
    ¬ s.form.Completes .normal := by
  cases s with
  | mk id span form =>
    rw [Stmt.alwaysExits] at hexits
    exact form.not_normal_of_alwaysExits hexits
termination_by structural s

/-- A form that always exits does not complete normally. -/
theorem StmtForm.not_normal_of_alwaysExits (form : StmtForm) (hexits : form.alwaysExits = true) :
    ¬ form.Completes .normal := by
  intro hnormal
  cases form with
  | ret argument =>
    cases hnormal with
    | loop hloopBody _ => cases hloopBody
  | throw e =>
    cases hnormal with
    | loop hloopBody _ => cases hloopBody
  | block body =>
    rw [StmtForm.alwaysExits] at hexits
    exact Stmt.not_normal_of_someExits body hexits hnormal.of_block
  | branch test s alternate =>
    cases alternate with
    | none => cases hexits
    | some t =>
      rw [StmtForm.alwaysExits, Bool.and_eq_true_iff] at hexits
      rcases hnormal.of_branch with hran | hran
      · exact s.not_normal_of_alwaysExits hexits.1 hran
      · exact t.not_normal_of_alwaysExits hexits.2 hran
  | guarded block handler finalizer =>
    rw [StmtForm.alwaysExits, Bool.or_eq_true_iff, Bool.and_eq_true_iff] at hexits
    obtain ⟨hfinal, hran⟩ := hnormal.of_guarded
    -- the final block exits, or both the block and its handler do
    rcases hexits with hexits | ⟨hexits, hhandlerExits⟩
    · exact Stmt.not_normal_of_someExits finalizer hexits hfinal
    · rcases hran with hran | ⟨caught, hloopBody, hran⟩
      · exact Stmt.not_normal_of_someExits block hexits hran
      · exact Handler.not_normal_of_optExits handler hhandlerExits hloopBody hran
  | _ => cases hexits
termination_by structural form

/-- Statements of which one always exits do not complete normally. -/
theorem Stmt.not_normal_of_someExits (body : List Stmt) (hexits : Stmt.someExits body = true) :
    ¬ Stmt.BodyCompletes body .normal := by
  intro hnormal
  cases body with
  | nil => cases hexits
  | cons s rest =>
    rw [Stmt.someExits, Bool.or_eq_true_iff] at hexits
    rcases hexits with hexits | hexits
    · exact s.not_normal_of_alwaysExits hexits hnormal.of_cons.1
    · exact Stmt.not_normal_of_someExits rest hexits hnormal.of_cons.2
termination_by structural body

/-- The body of a handler that always exits does not complete normally. -/
theorem Handler.not_normal_of_optExits (handler : Option Handler)
    (hexits : Handler.optExits handler = true) {caught : Handler} (heq : handler = some caught) :
    ¬ Stmt.BodyCompletes caught.body .normal := by
  cases handler with
  | none => cases heq
  | some h =>
    cases h with
    | mk param body =>
      rw [Handler.optExits] at hexits
      cases heq
      exact Stmt.not_normal_of_someExits body hexits
termination_by structural handler

end

/-! ### Statements that need not exit -/

/-- Whether control stays in the function: it falls off the end, or jumps inside of a loop or a
`switch`. -/
def Completion.stays : Completion → Bool
  | .normal => true
  | .broken => true
  | .continued => true
  | .returned => false
  | .thrown => false

mutual

/-- The handlers in a statement can be entered: each block with a handler may throw.  What stands in
a loop or in a `switch` does not matter. -/
def Stmt.EntersHandlers : Stmt → Prop
  | ⟨_, _, form⟩ => form.EntersHandlers
termination_by structural s => s

/-- The handlers in a statement of a given form can be entered. -/
def StmtForm.EntersHandlers : StmtForm → Prop
  | .block body => Stmt.EnterHandlers body
  | .branch _ s none => s.EntersHandlers
  | .branch _ s (some t) => s.EntersHandlers ∧ t.EntersHandlers
  | .guarded block handler finalizer =>
    Stmt.EnterHandlers block ∧ Handler.OptEntered block handler ∧ Stmt.EnterHandlers finalizer
  | _ => True
termination_by structural form => form

/-- The handlers in statements can be entered. -/
def Stmt.EnterHandlers : List Stmt → Prop
  | [] => True
  | s :: rest => s.EntersHandlers ∧ Stmt.EnterHandlers rest
termination_by structural body => body

/-- The handler of a block can be entered, and so can the handlers in it. -/
def Handler.OptEntered (block : List Stmt) : Option Handler → Prop
  | none => True
  | some ⟨_, body⟩ => Stmt.BodyCompletes block .thrown ∧ Stmt.EnterHandlers body
termination_by structural handler => handler

end

theorem Handler.optEntered_some {block : List Stmt} (caught : Handler) :
    Handler.OptEntered block (some caught) ↔
      Stmt.BodyCompletes block .thrown ∧ Stmt.EnterHandlers caught.body := by
  cases caught
  rw [Handler.OptEntered]

theorem Handler.optExits_some (caught : Handler) :
    Handler.optExits (some caught) = Stmt.someExits caught.body := by
  cases caught
  rw [Handler.optExits]

/-- There is a completion of some kind; where control goes on, there is one that stays in the
function. -/
def Completion.Possible (R : Completion → Prop) (goesOn : Prop) : Prop :=
  ∃ c, R c ∧ (goesOn → c.stays = true)

/-- Where a block can stay in the function, or can be left by a throw for a handler that does, the
guarded block can stay before its final block is run. -/
theorem Stmt.guard_possible {block : List Stmt} {handler : Option Handler}
    (hmain : Completion.Possible (Stmt.BodyCompletes block)
      (Stmt.EnterHandlers block ∧ Stmt.someExits block = false))
    (hcatches : ∀ caught, handler = some caught →
      Completion.Possible (Stmt.BodyCompletes caught.body)
        (Stmt.EnterHandlers caught.body ∧ Stmt.someExits caught.body = false)) :
    Completion.Possible (Stmt.GuardCompletes block handler)
      (Stmt.EnterHandlers block ∧ Handler.OptEntered block handler ∧
        (Stmt.someExits block = false ∨ Handler.optExits handler = false)) := by
  obtain ⟨c, hran, hstays⟩ := hmain
  cases handler with
  | none =>
    refine ⟨c, .unhandled hran, ?_⟩
    rintro ⟨henters, -, hgoesOn | hexits⟩
    · exact hstays ⟨henters, hgoesOn⟩
    · cases hexits
  | some caught =>
    obtain ⟨c', hran', hstays'⟩ := hcatches caught rfl
    rw [Handler.optEntered_some, Handler.optExits_some]
    by_cases hthrown : c = .thrown
    · -- The one completion at hand is a throw, so the block is left for the handler.
      subst hthrown
      refine ⟨c', .caught hran hran', ?_⟩
      rintro ⟨henters, hentered, hgoesOn | hgoesOn⟩
      · cases hstays ⟨henters, hgoesOn⟩
      · exact hstays' ⟨hentered.2, hgoesOn⟩
    by_cases hentered : Stmt.BodyCompletes block .thrown ∧ Stmt.someExits block = true
    · refine ⟨c', .caught hentered.1 hran', ?_⟩
      rintro ⟨-, henters, hgoesOn | hgoesOn⟩
      · cases hgoesOn.symm.trans hentered.2
      · exact hstays' ⟨henters.2, hgoesOn⟩
    · refine ⟨c, .passes hran hthrown, ?_⟩
      rintro ⟨henters, hthrows, -⟩
      exact hstays ⟨henters, Bool.eq_false_iff.mpr fun hexits => hentered ⟨hthrows.1, hexits⟩⟩

/-- A guarded block completes in some way, when its block, its handler and its final block do. -/
theorem StmtForm.guarded_possible {block finalizer : List Stmt} {handler : Option Handler}
    (hmain : Completion.Possible (Stmt.BodyCompletes block)
      (Stmt.EnterHandlers block ∧ Stmt.someExits block = false))
    (hcatches : ∀ caught, handler = some caught →
      Completion.Possible (Stmt.BodyCompletes caught.body)
        (Stmt.EnterHandlers caught.body ∧ Stmt.someExits caught.body = false))
    (hfinal : Completion.Possible (Stmt.BodyCompletes finalizer)
      (Stmt.EnterHandlers finalizer ∧ Stmt.someExits finalizer = false)) :
    Completion.Possible (StmtForm.guarded block handler finalizer).Completes
      ((StmtForm.guarded block handler finalizer).EntersHandlers ∧
        (StmtForm.guarded block handler finalizer).alwaysExits = false) := by
  obtain ⟨pending, hran, hstays⟩ := Stmt.guard_possible hmain hcatches
  obtain ⟨c, hran', hstays'⟩ := hfinal
  rw [StmtForm.EntersHandlers, StmtForm.alwaysExits, Bool.or_eq_false_iff, Bool.and_eq_false_iff]
  by_cases hnormal : c = .normal
  · refine ⟨pending, .guarded hran (hnormal ▸ hran'), ?_⟩
    rintro ⟨⟨henters, hentered, -⟩, -, hgoesOn⟩
    exact hstays ⟨henters, hentered, hgoesOn⟩
  · refine ⟨c, .overridden hran hran' hnormal, ?_⟩
    rintro ⟨⟨-, -, henters⟩, hgoesOn, -⟩
    exact hstays' ⟨henters, hgoesOn⟩

mutual

/-- Every statement completes in some way.  One that is not said to exit may stay in the function,
when its handlers can be entered. -/
theorem Stmt.possible (s : Stmt) :
    Completion.Possible s.form.Completes (s.EntersHandlers ∧ s.alwaysExits = false) := by
  cases s with
  | mk id span form =>
    rw [Stmt.EntersHandlers, Stmt.alwaysExits]
    exact form.possible
termination_by structural s

/-- Every form completes in some way. -/
theorem StmtForm.possible (form : StmtForm) :
    Completion.Possible form.Completes (form.EntersHandlers ∧ form.alwaysExits = false) := by
  cases form with
  | block body =>
    obtain ⟨c, hran, hstays⟩ := Stmt.body_possible body
    rw [StmtForm.EntersHandlers, StmtForm.alwaysExits]
    exact ⟨c, .block hran, hstays⟩
  | empty => exact ⟨_, .empty, fun _ => rfl⟩
  | expr e => exact ⟨_, .expr e, fun _ => rfl⟩
  | vars decls => exact ⟨_, .vars decls, fun _ => rfl⟩
  | function f => exact ⟨_, .function f, fun _ => rfl⟩
  | ret argument =>
    refine ⟨_, .returns argument, ?_⟩
    rintro ⟨-, hgoesOn⟩
    cases hgoesOn
  | branch test s alternate =>
    cases alternate with
    | none => exact ⟨_, .noAlternate, fun _ => rfl⟩
    | some t =>
      rw [StmtForm.EntersHandlers, StmtForm.alwaysExits, Bool.and_eq_false_iff]
      -- take the alternative when the consequent always exits: if control goes on, it goes on there
      by_cases hexits : s.alwaysExits = true
      · obtain ⟨c, hran, hstays⟩ := t.possible
        refine ⟨c, .alternate hran, ?_⟩
        rintro ⟨⟨-, henters⟩, hgoesOn | hgoesOn⟩
        · cases hgoesOn.symm.trans hexits
        · exact hstays ⟨henters, hgoesOn⟩
      · obtain ⟨c, hran, hstays⟩ := s.possible
        refine ⟨c, .consequent hran, ?_⟩
        rintro ⟨⟨henters, -⟩, -⟩
        exact hstays ⟨henters, Bool.eq_false_iff.mpr hexits⟩
  | whileLoop test body => exact ⟨_, .loop rfl (.ends body), fun _ => rfl⟩
  | doWhile body test => exact ⟨_, .loop rfl (.ends body), fun _ => rfl⟩
  | forLoop init test update body => exact ⟨_, .loop rfl (.ends body), fun _ => rfl⟩
  | forIn target right body => exact ⟨_, .loop rfl (.ends body), fun _ => rfl⟩
  | switch e cases => exact ⟨_, .noCase e cases, fun _ => rfl⟩
  | «break» => exact ⟨_, .breaks, fun _ => rfl⟩
  | «continue» => exact ⟨_, .continues, fun _ => rfl⟩
  | throw e =>
    refine ⟨_, .throws rfl, ?_⟩
    rintro ⟨-, hgoesOn⟩
    cases hgoesOn
  | guarded block handler finalizer =>
    exact StmtForm.guarded_possible (Stmt.body_possible block) (Handler.possible handler)
      (Stmt.body_possible finalizer)
termination_by structural form

/-- Statements one after the other complete in some way. -/
theorem Stmt.body_possible (body : List Stmt) :
    Completion.Possible (Stmt.BodyCompletes body)
      (Stmt.EnterHandlers body ∧ Stmt.someExits body = false) := by
  cases body with
  | nil => exact ⟨_, .nil, fun _ => rfl⟩
  | cons s rest =>
    obtain ⟨c, hfirst, hstays⟩ := s.possible
    rw [Stmt.EnterHandlers, Stmt.someExits, Bool.or_eq_false_iff]
    by_cases hnormal : c = .normal
    · obtain ⟨c', hran, hstays'⟩ := Stmt.body_possible rest
      refine ⟨c', .next (hnormal ▸ hfirst) hran, ?_⟩
      rintro ⟨⟨-, henters⟩, -, hgoesOn⟩
      exact hstays' ⟨henters, hgoesOn⟩
    · refine ⟨c, .abrupt hfirst hnormal, ?_⟩
      rintro ⟨⟨henters, -⟩, hgoesOn, -⟩
      exact hstays ⟨henters, hgoesOn⟩
termination_by structural body

/-- The body of a handler completes in some way. -/
theorem Handler.possible (handler : Option Handler) (caught : Handler)
    (heq : handler = some caught) :
    Completion.Possible (Stmt.BodyCompletes caught.body)
      (Stmt.EnterHandlers caught.body ∧ Stmt.someExits caught.body = false) := by
  cases handler with
  | none => cases heq
  | some h =>
    cases h with
    | mk param body =>
      cases heq
      exact Stmt.body_possible body
termination_by structural handler

end

/-! ### Results of function bodies -/

/-- Joining `undefined` into a type makes it one of the alternatives. -/
theorem Ty.undefined_mem_join (a : Ty) :
    a.join .undefined = .any ∨ .undefined ∈ (a.join .undefined).members := by
  by_cases hnever : a = .never
  · subst hnever
    exact Or.inr (List.mem_singleton_self _)
  by_cases hany : a = .any
  · subst hany
    exact Or.inl rfl
  by_cases hsame : a = .undefined
  · subst hsame
    exact Or.inr (List.mem_singleton_self _)
  rw [Ty.join_of_ne hnever (by simp) hany (by simp) hsame, Parts.add]
  have hprims : (Ty.ofParts? (some { a.parts with
      prims := OrdSet.insert .undefined a.parts.prims })).primPart =
      OrdSet.insert .undefined a.parts.prims := congrArg Parts.prims (Ty.parts_ofMembers _)
  right
  rw [← Ty.mem_primPart, hprims, OrdSet.mem_insert]
  exact Or.inl rfl

/-- **What always exits never falls through.**  Every statement completes in some way; one that
always exits does not complete normally, and any other one may complete inside of the function, when
its handlers can be entered.  A run of a function body answers what its `return` statements joined
to; it leaves `undefined` out only when control cannot fall off the end of the body. -/
theorem exits_never_fall_through :
    (∀ s : Stmt, (∃ c, s.Completes c) ∧ (s.alwaysExits = true → ¬ s.Completes .normal) ∧
      (s.EntersHandlers → s.alwaysExits = false → ∃ c, c.stays = true ∧ s.Completes c)) ∧
    ∀ (invoke : Invoke) (f : Func) (scope : ScopeId) (call : Call) (s t : Run) (r : Ty),
      runBody invoke f scope call s = .ok r t →
        ∃ u, inferBlock invoke scope f.body (s.pushed (call.activation scope)) = .ok () u ∧
          (r = u.returned ∧ ¬ Stmt.BodyCompletes f.body .normal ∨
            r = u.returned.join .undefined ∧ (r = .any ∨ .undefined ∈ r.members)) := by
  refine ⟨fun s => ?_, fun invoke f scope call s t r hran => ?_⟩
  · obtain ⟨c, hran, hstays⟩ := s.possible
    exact ⟨⟨c, hran⟩, s.not_normal_of_alwaysExits,
      fun henters hgoesOn => ⟨c, hstays ⟨henters, hgoesOn⟩, hran⟩⟩
  · rw [runBody_apply] at hran
    cases hwalked : inferBlock invoke scope f.body (s.pushed (call.activation scope)) with
    | error e u =>
      rw [hwalked] at hran
      cases hran
    | ok a u =>
      rw [hwalked] at hran
      cases hran
      refine ⟨u, rfl, ?_⟩
      by_cases hexits : Stmt.someExits f.body = true
      · rw [Func.resultOf, if_pos hexits]
        exact Or.inl ⟨rfl, Stmt.not_normal_of_someExits f.body hexits⟩
      · rw [Func.resultOf, if_neg hexits]
        exact Or.inr ⟨rfl, Ty.undefined_mem_join _⟩

/-- `try { if (x) return 1; else throw 1; } catch (e) { h }`. -/
def guardedChoice (h : List Stmt) : Stmt :=
  let one : Expr := ⟨1, ⟨0, 0⟩, .literal .number⟩
  ⟨2, ⟨0, 0⟩, .guarded [⟨3, ⟨0, 0⟩, .branch ⟨4, ⟨0, 0⟩, .ident "x"⟩ ⟨5, ⟨0, 0⟩, .ret (some one)⟩
    (some ⟨6, ⟨0, 0⟩, .throw one⟩)⟩] (some ⟨"e", h⟩) []⟩

/-- The guarded block always exits when its handler returns.  With an empty handler it may fall
through, and a function with nothing else in its body has `undefined` in its result. -/
theorem exits_never_fall_through_handler :
    let exits := guardedChoice [⟨7, ⟨0, 0⟩, .ret none⟩]
    let swallows := guardedChoice []
    let f : Func := ⟨8, ⟨0, 0⟩, none, [], [swallows]⟩
    let call : Call := ⟨0, .undefined, [], 9, Env.global, none⟩
    let s := Run.start ⟨2, 3, false, false⟩ []
    (exits.alwaysExits = true ∧ ¬ exits.Completes .normal) ∧
    (swallows.EntersHandlers ∧ swallows.alwaysExits = false ∧
      ∃ c, c.stays = true ∧ swallows.Completes c) ∧
    Stmt.BodyCompletes f.body .normal ∧
    ∃ t u, runBody invoke f Env.global call s = .ok (.union [.number, .undefined]) t ∧
      inferBlock invoke Env.global f.body (s.pushed (call.activation Env.global)) = .ok () u ∧
      Ty.union [.number, .undefined] = u.returned.join .undefined := by
  intro exits swallows f call s
  have hthrows : Stmt.BodyCompletes [⟨3, ⟨0, 0⟩, .branch ⟨4, ⟨0, 0⟩, .ident "x"⟩
      ⟨5, ⟨0, 0⟩, .ret (some ⟨1, ⟨0, 0⟩, .literal .number⟩)⟩
      (some ⟨6, ⟨0, 0⟩, .throw ⟨1, ⟨0, 0⟩, .literal .number⟩⟩)⟩] .thrown :=
    .abrupt (.throws rfl) (by decide)
  have hfalls : Stmt.BodyCompletes f.body .normal :=
    .next (.guarded (.caught hthrows .nil) .nil) .nil
  have henters : swallows.EntersHandlers :=
    ⟨⟨⟨trivial, trivial⟩, trivial⟩, ⟨hthrows, trivial⟩, trivial⟩
  have hran : runBody invoke f Env.global call s =
    .ok (.union [.number, .undefined]) (after (runBody invoke f Env.global call) s) := by rfl
  obtain ⟨hstatements, hbodies⟩ := exits_never_fall_through
  obtain ⟨u, hwalked, ⟨-, hstuck⟩ | ⟨heq, -⟩⟩ := hbodies invoke f Env.global call s _ _ hran
  · exact absurd hfalls hstuck
  · exact ⟨⟨rfl, (hstatements exits).2.1 rfl⟩,
      ⟨henters, rfl, (hstatements swallows).2.2 henters rfl⟩,
      hfalls, _, u, hran, hwalked, heq⟩

end TypeFlow
