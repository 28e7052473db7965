import Mathlib
import TypeFlow.Engine.Infer
import TypeFlow.Proofs.Engine.Calls

/-!
# Walks over trees

Running statements and evaluating expressions keeps to every discipline, as soon as answering single
calls does.  The induction is on the tree.

## Main Definitions

* `Asked`, `Bound` - some nodes want the value of an expression, and bind a name
* `Discipline.Here` - a state in which a walk stands in a scope, at a depth of calls

## Main Statements

* `Discipline.Answers.inferExpr`, `Discipline.Answers.inferStmt` - expressions and statements
-/

namespace TypeFlow

namespace Discipline

variable {D : Discipline} {but : Option ClosureId} {s t : Run} {d : Nat} {i i' : Invoke}
variable {scope : ScopeId} {C : Node → Prop}

/-- Some nodes want the value of an expression. -/
def Asked (C : Node → Prop) (e : Expr) : Prop :=
  ∃ n, C n ∧ e ∈ n.operands

/-- Some nodes bind a name. -/
def Bound (C : Node → Prop) (name : String) : Prop :=
  ∃ n, C n ∧ name ∈ n.binds

/-- A state in which a walk over some nodes stands in a scope, and in which `d` more activations may
be nested. -/
structure Here (D : Discipline) (C : Node → Prop) (d : Nat) (scope : ScopeId) (s : Run) :
    Prop where
  inv : D.Inv s
  depth : s.depthLeft = d
  live : D.Live s (.scope scope)
  stands : ∀ n, C n → D.Stands s scope n

/-- After a computation that keeps the running calls, the walk still stands there. -/
theorem Here.next (hhere : D.Here C d scope s) (hinv : D.Inv t) (hlead : D.Leads but s t) :
    D.Here C d scope t :=
  ⟨hinv, hlead.depthLeft.trans hhere.depth, hlead.live hhere.live,
    fun n hmem => hlead.stands (hhere.stands n hmem)⟩

/-- An identifier whose value is wanted may be read. -/
theorem Here.mayRead (hhere : D.Here C d scope s) {e : Expr} (hasked : Asked C e) {name : String}
    (hident : e.ident? = some name) : D.MayRead name := by
  obtain ⟨n, hmem, hoperand⟩ := hasked
  obtain ⟨id, span, form⟩ := e
  cases form with
  | ident k =>
    cases hident
    exact ⟨id, span, n, (hhere.stands n hmem).1, hoperand⟩
  | _ => cases hident

/-- A name that the nodes bind may be bound in the scope. -/
theorem Here.mayBind (hhere : D.Here C d scope s) {name : String} (hbound : Bound C name) :
    D.MayBind s scope name := by
  obtain ⟨n, hmem, hbinds⟩ := hbound
  exact (hhere.stands n hmem).mayBind hbinds

/-! ### Types of literals and operators -/

theorem good_literal (kind : Literal) : D.Good s kind.ty := by
  cases kind <;> exact D.prim _

theorem good_unary (op : UnaryOp) : D.Good s op.result := by
  cases op <;> exact D.prim _

/-- The result of an addition may be stored whatever the operands are, since it is a number, a text,
both or `any`. -/
theorem good_addResult (left right : Ty) : D.Good s (addResult left right) := by
  unfold addResult
  split
  · exact D.prim .string
  split
  · exact D.any
  split
  · exact D.never
  split
  · exact D.prim .number
  · exact D.join (D.join D.never (D.prim .number)) (D.prim .string)

/-- The result of a binary operator is a join of its operands, or a type that may always be
stored. -/
theorem good_binary (op : BinaryOp) {left right : Ty} (hgoodL : D.Good s left)
    (hgoodR : D.Good s right) : D.Good s (op.result left right) := by
  unfold BinaryOp.result
  split
  · exact good_addResult left right
  · split
    · exact hgoodL
    · split
      · exact hgoodR
      · exact D.join hgoodL hgoodR
  · split
    · exact hgoodL
    · split
      · exact hgoodR
      · exact D.join hgoodL hgoodR
  · split <;> exact D.prim _

/-! ### Expressions -/

/-- The type of an expression is recorded. -/
theorem Does.settleExpr (hinv : D.Inv s) (node : NodeId) (form : ExprForm) {r : Ty}
    (hgood : D.Good s r) : D.Does but s (settleExpr node form r) fun r t => D.Good t r := by
  refine (Agree.when hinv (fun _ => Does.noteAccess hinv node) fun _ => trivial).bind
    fun _ t hinv hlead _ => ?_
  refine (Does.record hinv node (hlead.good hgood)).bind fun _ r hinv hlead' _ => ?_
  exact Agree.pure hinv ((hlead.trans hlead').good hgood)

/-- A property without a name is a malformation. -/
theorem Does.checkProperty (hinv : D.Inv s) (node : NodeId) (span : Span) (property : String) :
    D.Does but s (checkProperty node span property) fun _ _ => True :=
  Agree.when hinv (fun _ => Agree.malformed hinv _ node span) fun _ => trivial

/-- The type of `this` may be stored, inside of a call and outside. -/
theorem Does.thisType (hinv : D.Inv s) : D.Does but s Walk.thisType fun r t => D.Good t r := by
  refine Agree.get (fun s' hsim => by rw [Run.thisType, Run.thisType, sim_current? hsim]) ?_
  refine Agree.pure hinv ?_
  unfold Run.thisType
  cases hrunning : s.current? with
  | none => exact D.prim .undefined
  | some a => exact (hinv.current hrunning).1 a.this List.mem_cons_self

/-- A callee with its receiver may be called later as well. -/
theorem Leads.callee (hlead : D.Leads but s t) {c : Callee} (hgood : D.GoodCallee s c) :
    D.GoodCallee t c :=
  ⟨hlead.good hgood.1, hlead.good hgood.2⟩

/-- The value of a sequence is that of its last expression. -/
theorem good_getLastD {ts : List Ty} (hgoods : ∀ r ∈ ts, D.Good s r) :
    D.Good s (ts.getLastD .undefined) := by
  rw [List.getLastD_eq_getLast?]
  cases hlast : ts.getLast? with
  | none => exact D.prim .undefined
  | some r => exact hgoods r (List.mem_of_getLast? hlast)

mutual

/-- Evaluating an expression keeps to the discipline.  The induction is on the tree, with a case for
every form in `inferForm`. -/
theorem Answers.inferExpr (hanswers : D.Answers d i i') (e : Expr) {s : Run}
    (hhere : D.Here C d scope s) (hasked : Asked C e) (hallowed : ∀ n ∈ e.nodes false, C n) :
    D.Agree but s (inferExpr i scope e) (inferExpr i' scope e) fun r t => D.Good t r := by
  cases e with
  | mk id span form =>
    rw [Expr.nodes] at hallowed
    obtain ⟨hself, hinside⟩ := List.forall_mem_cons.mp hallowed
    rw [TypeFlow.inferExpr, TypeFlow.inferExpr]
    refine (Answers.inferForm hanswers form hhere hself hasked hinside).bind
      fun r t hinv _ hgood => ?_
    exact Does.settleExpr hinv id form hgood
termination_by structural e

/-- The forms of expressions.  Each operand is evaluated in a state that the ones before it have led
to, so what was shown of earlier values is carried along. -/
theorem Answers.inferForm (hanswers : D.Answers d i i') (form : ExprForm) {id : NodeId}
    {span : Span} {s : Run} (hhere : D.Here C d scope s) (hself : C (.expr ⟨id, span, form⟩))
    (hasked : Asked C ⟨id, span, form⟩) (hallowed : ∀ n ∈ form.nodes false, C n) :
    D.Agree but s (inferForm i scope id span form) (inferForm i' scope id span form)
      fun r t => D.Good t r := by
  cases form with
  | literal kind =>
    rw [TypeFlow.inferForm, TypeFlow.inferForm]
    exact Agree.pure hhere.inv (good_literal kind)
  | ident name =>
    rw [TypeFlow.inferForm, TypeFlow.inferForm]
    exact Does.readVariable hhere.inv hhere.live (hhere.mayRead hasked rfl)
  | this =>
    rw [TypeFlow.inferForm, TypeFlow.inferForm]
    exact Does.thisType hhere.inv
  | array elements =>
    rw [ExprForm.nodes] at hallowed
    rw [TypeFlow.inferForm, TypeFlow.inferForm]
    refine (Answers.inferAll hanswers elements hhere (fun e hmem => ⟨_, hself, hmem⟩) hallowed).bind
      fun _ t hinv _ _ => ?_
    exact Agree.pure hinv D.any
  | object properties =>
    rw [ExprForm.nodes] at hallowed
    rw [TypeFlow.inferForm, TypeFlow.inferForm]
    have hasked : ∀ p ∈ properties, Asked C p.2 := fun p hmem =>
      ⟨_, hself, List.mem_map_of_mem (f := Prod.snd) hmem⟩
    refine (Answers.inferProps hanswers properties hhere hasked hallowed).bind
      fun fields t hinv hlead hgoods => ?_
    have hplain : ∀ k, (none : Option CtorId) = some k → D.Live t (.ctor k) := nofun
    refine (Does.create hinv (hlead.live hhere.live) hplain hgoods).bind
      fun cell t hinv _ hhas => ?_
    exact Agree.pure hinv (D.ofCell hhas)
  | function f =>
    rw [ExprForm.nodes] at hallowed
    rw [TypeFlow.inferForm, TypeFlow.inferForm]
    exact Does.captureFunc hhere.inv hhere.live (hhere.stands _ (hallowed _ f.self_mem_nodes)) none
  | member object property =>
    rw [ExprForm.nodes] at hallowed
    rw [TypeFlow.inferForm, TypeFlow.inferForm]
    refine (Does.checkProperty hhere.inv id span property).bind fun _ t hinv hlead _ => ?_
    refine (Answers.inferExpr hanswers object (hhere.next hinv hlead)
      ⟨_, hself, List.mem_cons_self⟩ hallowed).bind fun r t hinv _ hgood => ?_
    exact Does.readMember hinv hgood property
  | index object key =>
    rw [ExprForm.nodes] at hallowed
    obtain ⟨hallowedO, hallowedK⟩ := List.forall_mem_append.mp hallowed
    rw [TypeFlow.inferForm, TypeFlow.inferForm]
    have haskedK : Asked C key := ⟨_, hself, List.mem_cons_of_mem _ List.mem_cons_self⟩
    refine (Answers.inferExpr hanswers object hhere ⟨_, hself, List.mem_cons_self⟩ hallowedO).bind
      fun _ t hinv hlead _ => ?_
    refine (Answers.inferExpr hanswers key (hhere.next hinv hlead) haskedK hallowedK).bind
      fun _ t hinv _ _ => ?_
    exact Agree.pure hinv D.any
  | call callee arguments =>
    rw [ExprForm.nodes] at hallowed
    obtain ⟨hallowedC, hallowedA⟩ := List.forall_mem_append.mp hallowed
    cases callee with
    | none =>
      rw [TypeFlow.inferForm, TypeFlow.inferForm]
      exact Agree.malformed hhere.inv _ id span
    | some callee =>
      rw [Expr.nodesOpt] at hallowedC
      rw [TypeFlow.inferForm, TypeFlow.inferForm]
      have haskedA : ∀ e ∈ arguments, Asked C e :=
        fun e hmem => ⟨_, hself, List.mem_cons_of_mem _ hmem⟩
      refine (Answers.inferCallee hanswers callee hhere ⟨_, hself, List.mem_cons_self⟩
        hallowedC).bind
        fun c t hinv hlead hgood => ?_
      have hhere := hhere.next hinv hlead
      refine (Answers.inferAll hanswers arguments hhere haskedA hallowedA).bind
        fun args t hinv hlead hgoods => ?_
      have hhere := hhere.next hinv hlead
      exact hanswers.callee hinv hhere.depth (hlead.callee hgood) hgoods id hhere.live
  | construct callee arguments =>
    rw [ExprForm.nodes] at hallowed
    obtain ⟨hallowedC, hallowedA⟩ := List.forall_mem_append.mp hallowed
    rw [TypeFlow.inferForm, TypeFlow.inferForm]
    have haskedA : ∀ e ∈ arguments, Asked C e :=
      fun e hmem => ⟨_, hself, List.mem_cons_of_mem _ hmem⟩
    refine (Answers.inferExpr hanswers callee hhere ⟨_, hself, List.mem_cons_self⟩ hallowedC).bind
      fun c t hinv hlead hgood => ?_
    have hhere := hhere.next hinv hlead
    refine (Answers.inferAll hanswers arguments hhere haskedA hallowedA).bind
      fun args t hinv hlead hgoods => ?_
    have hhere := hhere.next hinv hlead
    exact hanswers.constructValue hinv hhere.depth (hlead.good hgood) hgoods id hhere.live
  | unary op argument =>
    rw [ExprForm.nodes] at hallowed
    rw [TypeFlow.inferForm, TypeFlow.inferForm]
    refine (Answers.inferExpr hanswers argument hhere ⟨_, hself, List.mem_cons_self⟩ hallowed).bind
      fun _ t hinv _ _ => ?_
    exact Agree.pure hinv (good_unary op)
  | update op argument =>
    rw [ExprForm.nodes] at hallowed
    rw [TypeFlow.inferForm, TypeFlow.inferForm]
    refine (Answers.evalTarget hanswers argument hhere hallowed).bind
      fun target t hinv hlead ⟨hgood, hnames⟩ => ?_
    have hhere := hhere.next hinv hlead
    have hmay : ∀ name, target = .variable name → D.MayRead name := fun name heq =>
      hhere.mayRead ⟨_, hself, List.mem_cons_self⟩ (hnames name heq)
    refine (Does.readTarget hinv hhere.live hgood hmay).bind fun current t hinv hlead hgoodC => ?_
    have hgood := hlead.target hgood
    have hhere := hhere.next hinv hlead
    refine (Does.record hinv argument.id hgoodC).bind fun _ t hinv hlead _ => ?_
    have hhere := hhere.next hinv hlead
    refine (Does.writeTarget hinv hhere.live (hlead.target hgood) (D.prim .number)).bind
      fun _ t hinv _ _ => ?_
    exact Agree.pure hinv (D.prim .number)
  | binary op left right =>
    rw [ExprForm.nodes] at hallowed
    obtain ⟨hallowedL, hallowedR⟩ := List.forall_mem_append.mp hallowed
    rw [TypeFlow.inferForm, TypeFlow.inferForm]
    have haskedR : Asked C right := ⟨_, hself, List.mem_cons_of_mem _ List.mem_cons_self⟩
    refine (Answers.inferExpr hanswers left hhere ⟨_, hself, List.mem_cons_self⟩ hallowedL).bind
      fun l t hinv hlead hgoodL => ?_
    refine (Answers.inferExpr hanswers right (hhere.next hinv hlead) haskedR hallowedR).bind
      fun r t hinv hlead hgoodR => ?_
    exact Agree.pure hinv (good_binary op (hlead.good hgoodL) hgoodR)
  | assign op left right =>
    rw [ExprForm.nodes] at hallowed
    obtain ⟨hallowedL, hallowedR⟩ := List.forall_mem_append.mp hallowed
    cases op with
    | none =>
      rw [TypeFlow.inferForm, TypeFlow.inferForm]
      have haskedR : Asked C right := ⟨_, hself, List.mem_cons_self⟩
      refine (Answers.evalTarget hanswers left hhere hallowedL).bind
        fun target t hinv hlead ⟨hgood, _⟩ => ?_
      have hhere := hhere.next hinv hlead
      refine Agree.bind (Q := fun r t => D.Good t r) ?_ fun value t hinv hlead hgoodV => ?_
      · match target with
        | .variable name => exact Answers.inferInit hanswers right name hhere haskedR hallowedR
        | .member _ _ _ => exact Answers.inferExpr hanswers right hhere haskedR hallowedR
        | .computed => exact Answers.inferExpr hanswers right hhere haskedR hallowedR
      have hgood := hlead.target hgood
      have hhere := hhere.next hinv hlead
      refine (Does.writeTarget hinv hhere.live hgood hgoodV).bind fun _ t hinv hlead _ => ?_
      have hgoodV := hlead.good hgoodV
      refine (Does.record hinv left.id hgoodV).bind fun _ t hinv hlead _ => ?_
      exact Agree.pure hinv (hlead.good hgoodV)
    | some op =>
      rw [TypeFlow.inferForm, TypeFlow.inferForm]
      have haskedR : Asked C right := ⟨_, hself, List.mem_cons_of_mem _ List.mem_cons_self⟩
      refine (Answers.evalTarget hanswers left hhere hallowedL).bind
        fun target t hinv hlead ⟨hgood, hnames⟩ => ?_
      have hhere := hhere.next hinv hlead
      have hmay : ∀ name, target = .variable name → D.MayRead name := fun name heq =>
        hhere.mayRead ⟨_, hself, List.mem_cons_self⟩ (hnames name heq)
      refine (Does.readTarget hinv hhere.live hgood hmay).bind fun current t hinv hlead hgoodC => ?_
      have hgood := hlead.target hgood
      have hhere := hhere.next hinv hlead
      refine (Answers.inferExpr hanswers right hhere haskedR hallowedR).bind
        fun r t hinv hlead hgoodR => ?_
      have hgood := hlead.target hgood
      have hhere := hhere.next hinv hlead
      have hgoodV := good_binary op (hlead.good hgoodC) hgoodR
      refine (Does.writeTarget hinv hhere.live hgood hgoodV).bind fun _ t hinv hlead _ => ?_
      have hgoodV := hlead.good hgoodV
      refine (Does.record hinv left.id hgoodV).bind fun _ t hinv hlead _ => ?_
      exact Agree.pure hinv (hlead.good hgoodV)
  | conditional test consequent alternate =>
    rw [ExprForm.nodes] at hallowed
    obtain ⟨hallowedTC, hallowedA⟩ := List.forall_mem_append.mp hallowed
    obtain ⟨hallowedT, hallowedC⟩ := List.forall_mem_append.mp hallowedTC
    rw [TypeFlow.inferForm, TypeFlow.inferForm]
    have hasked : ∀ e ∈ [test, consequent, alternate], Asked C e := fun e hmem => ⟨_, hself, hmem⟩
    obtain ⟨haskedT, hasked⟩ := List.forall_mem_cons.mp hasked
    obtain ⟨haskedC, hasked⟩ := List.forall_mem_cons.mp hasked
    have haskedA := List.forall_mem_singleton.mp hasked
    refine (Answers.inferExpr hanswers test hhere haskedT hallowedT).bind fun _ t hinv hlead _ => ?_
    have hhere := hhere.next hinv hlead
    refine (Answers.inferExpr hanswers consequent hhere haskedC hallowedC).bind
      fun a t hinv hlead hgoodA => ?_
    refine (Answers.inferExpr hanswers alternate (hhere.next hinv hlead) haskedA hallowedA).bind
      fun b t hinv hlead hgoodB => ?_
    exact Agree.pure hinv (D.join (hlead.good hgoodA) hgoodB)
  | sequence exprs =>
    rw [ExprForm.nodes] at hallowed
    rw [TypeFlow.inferForm, TypeFlow.inferForm]
    refine (Answers.inferAll hanswers exprs hhere (fun e hmem => ⟨_, hself, hmem⟩) hallowed).bind
      fun ts t hinv _ hgoods => ?_
    exact Agree.pure hinv (good_getLastD hgoods)
termination_by structural form

/-- The values of a list of expressions may all be stored at its end. -/
theorem Answers.inferAll (hanswers : D.Answers d i i') (es : List Expr) {s : Run}
    (hhere : D.Here C d scope s) (hasked : ∀ e ∈ es, Asked C e)
    (hallowed : ∀ n ∈ Expr.nodesAll false es, C n) :
    D.Agree but s (inferAll i scope es) (inferAll i' scope es) fun ts t =>
      ∀ r ∈ ts, D.Good t r := by
  cases es with
  | nil => exact Agree.pure hhere.inv (List.forall_mem_nil _)
  | cons e es =>
    rw [Expr.nodesAll] at hallowed
    obtain ⟨hallowedE, hallowedR⟩ := List.forall_mem_append.mp hallowed
    obtain ⟨haskedE, haskedR⟩ := List.forall_mem_cons.mp hasked
    rw [TypeFlow.inferAll, TypeFlow.inferAll]
    refine (Answers.inferExpr hanswers e hhere haskedE hallowedE).bind
      fun r t hinv hlead hgood => ?_
    refine (Answers.inferAll hanswers es (hhere.next hinv hlead) haskedR hallowedR).bind
      fun ts t hinv hlead hgoods => ?_
    exact Agree.pure hinv (List.forall_mem_cons.mpr ⟨hlead.good hgood, hgoods⟩)
termination_by structural es

/-- The fields of an object literal may all be stored at its end. -/
theorem Answers.inferProps (hanswers : D.Answers d i i') (ps : List (String × Expr)) {s : Run}
    (hhere : D.Here C d scope s) (hasked : ∀ p ∈ ps, Asked C p.2)
    (hallowed : ∀ n ∈ Expr.nodesProps false ps, C n) :
    D.Agree but s (inferProps i scope ps) (inferProps i' scope ps) fun fields t =>
      ∀ e ∈ fields, D.Good t e.2 := by
  cases ps with
  | nil => exact Agree.pure hhere.inv (List.forall_mem_nil _)
  | cons p ps =>
    cases p with
    | mk key e =>
      rw [Expr.nodesProps] at hallowed
      obtain ⟨hallowedE, hallowedR⟩ := List.forall_mem_append.mp hallowed
      obtain ⟨haskedE, haskedR⟩ := List.forall_mem_cons.mp hasked
      rw [TypeFlow.inferProps, TypeFlow.inferProps]
      refine (Answers.inferExpr hanswers e hhere haskedE hallowedE).bind
        fun r t hinv hlead hgood => ?_
      refine (Answers.inferProps hanswers ps (hhere.next hinv hlead) haskedR hallowedR).bind
        fun fields t hinv hlead hgoods => ?_
      exact Agree.pure hinv (List.forall_mem_cons.mpr ⟨hlead.good hgood, hgoods⟩)
termination_by structural ps

/-- A callee with its receiver may be called. -/
theorem Answers.inferCallee (hanswers : D.Answers d i i') (e : Expr) {s : Run}
    (hhere : D.Here C d scope s) (hasked : Asked C e) (hallowed : ∀ n ∈ e.nodes false, C n) :
    D.Agree but s (inferCallee i scope e) (inferCallee i' scope e) fun c t =>
      D.GoodCallee t c := by
  cases e with
  | mk id span form =>
    rw [Expr.nodes] at hallowed
    obtain ⟨hself, hinside⟩ := List.forall_mem_cons.mp hallowed
    -- a callee that is no member access is evaluated like any expression
    have hplain : D.Agree but s
        (do
          let r ← TypeFlow.inferForm i scope id span form
          let value ← TypeFlow.settleExpr id form r
          return (⟨value, .undefined, none⟩ : Callee))
        (do
          let r ← TypeFlow.inferForm i' scope id span form
          let value ← TypeFlow.settleExpr id form r
          return (⟨value, .undefined, none⟩ : Callee)) fun c t => D.GoodCallee t c := by
      refine (Answers.inferForm hanswers form hhere hself hasked hinside).bind
        fun r t hinv _ hgood => ?_
      refine (Does.settleExpr hinv id form hgood).bind fun value t hinv _ hgood => ?_
      exact Agree.pure hinv ⟨hgood, D.prim .undefined⟩
    cases form with
    | member object property =>
      rw [ExprForm.nodes] at hinside
      rw [TypeFlow.inferCallee, TypeFlow.inferCallee]
      refine (Does.checkProperty hhere.inv id span property).bind fun _ t hinv hlead _ => ?_
      have hhere := hhere.next hinv hlead
      refine (Answers.inferExpr hanswers object hhere ⟨_, hself, List.mem_cons_self⟩ hinside).bind
        fun receiver t hinv _ hgoodR => ?_
      refine (Does.readMember hinv hgoodR property).bind fun value t hinv hlead hgoodV => ?_
      have hgoodR := hlead.good hgoodR
      refine (Does.noteAccess hinv id).bind fun _ t hinv hlead _ => ?_
      have hgoodV := hlead.good hgoodV
      refine (Does.record hinv id hgoodV).bind fun _ t hinv hlead' _ => ?_
      exact Agree.pure hinv ⟨hlead'.good hgoodV, (hlead.trans hlead').good hgoodR⟩
    | _ =>
      rw [TypeFlow.inferCallee, TypeFlow.inferCallee]
      · exact hplain
      all_goals exact nofun
termination_by structural e

/-- What is assigned to is a target that may be written; a variable among them is the identifier
that was written down. -/
theorem Answers.evalTarget (hanswers : D.Answers d i i') (e : Expr) {s : Run}
    (hhere : D.Here C d scope s) (hallowed : ∀ n ∈ e.nodes false, C n) :
    D.Agree but s (evalTarget i scope e) (evalTarget i' scope e) fun target t =>
      D.GoodTarget t target ∧ ∀ name, target = .variable name → e.ident? = some name := by
  cases e with
  | mk id span form =>
    rw [Expr.nodes] at hallowed
    obtain ⟨hself, hinside⟩ := List.forall_mem_cons.mp hallowed
    cases form with
    | ident name =>
      rw [TypeFlow.evalTarget, TypeFlow.evalTarget]
      exact Agree.pure hhere.inv ⟨trivial, fun k hvariable => by cases hvariable; rfl⟩
    | member object property =>
      rw [ExprForm.nodes] at hinside
      rw [TypeFlow.evalTarget, TypeFlow.evalTarget]
      refine (Does.checkProperty hhere.inv id span property).bind fun _ t hinv hlead _ => ?_
      have hhere := hhere.next hinv hlead
      refine (Answers.inferExpr hanswers object hhere ⟨_, hself, List.mem_cons_self⟩ hinside).bind
        fun r t hinv _ hgood => ?_
      exact Agree.pure hinv ⟨hgood, nofun⟩
    | index object key =>
      rw [ExprForm.nodes] at hinside
      obtain ⟨hallowedO, hallowedK⟩ := List.forall_mem_append.mp hinside
      rw [TypeFlow.evalTarget, TypeFlow.evalTarget]
      have haskedK : Asked C key := ⟨_, hself, List.mem_cons_of_mem _ List.mem_cons_self⟩
      refine (Answers.inferExpr hanswers object hhere ⟨_, hself, List.mem_cons_self⟩ hallowedO).bind
        fun _ t hinv hlead _ => ?_
      have hhere := hhere.next hinv hlead
      refine (Answers.inferExpr hanswers key hhere haskedK hallowedK).bind fun _ t hinv _ _ => ?_
      exact Agree.pure hinv ⟨trivial, nofun⟩
    | _ =>
      rw [TypeFlow.evalTarget, TypeFlow.evalTarget]
      · exact Agree.malformed hhere.inv _ id span
      all_goals exact nofun
termination_by structural e

/-- An initial value may be a literal that is captured under the name of the variable. -/
theorem Answers.inferInit (hanswers : D.Answers d i i') (e : Expr) (name : String) {s : Run}
    (hhere : D.Here C d scope s) (hasked : Asked C e) (hallowed : ∀ n ∈ e.nodes false, C n) :
    D.Agree but s (inferInit i scope name e) (inferInit i' scope name e) fun r t =>
      D.Good t r := by
  cases e with
  | mk id span form =>
    rw [Expr.nodes] at hallowed
    obtain ⟨hself, hinside⟩ := List.forall_mem_cons.mp hallowed
    have hplain : D.Agree but s
        (do TypeFlow.settleExpr id form (← TypeFlow.inferForm i scope id span form))
        (do TypeFlow.settleExpr id form (← TypeFlow.inferForm i' scope id span form))
        fun r t => D.Good t r := by
      refine (Answers.inferForm hanswers form hhere hself hasked hinside).bind
        fun r t hinv _ hgood => ?_
      exact Does.settleExpr hinv id form hgood
    cases form with
    | function f =>
      rw [ExprForm.nodes] at hinside
      rw [TypeFlow.inferInit, TypeFlow.inferInit]
      have hstands := hhere.stands _ (hinside _ f.self_mem_nodes)
      refine (Does.captureFunc hhere.inv hhere.live hstands (some name)).bind
        fun value t hinv _ hgood => ?_
      refine (Does.record hinv id hgood).bind fun _ t hinv hlead _ => ?_
      exact Agree.pure hinv (hlead.good hgood)
    | _ =>
      rw [TypeFlow.inferInit, TypeFlow.inferInit]
      · exact hplain
      all_goals exact nofun
termination_by structural e

end

theorem Answers.inferOpt (hanswers : D.Answers d i i') (e : Option Expr)
    (hhere : D.Here C d scope s) (hasked : ∀ x ∈ e.toList, Asked C x)
    (hallowed : ∀ n ∈ Expr.nodesOpt false e, C n) :
    D.Agree but s (inferOpt i scope e) (inferOpt i' scope e) fun r t => D.Good t r := by
  cases e with
  | none => exact Agree.pure hhere.inv (D.prim .undefined)
  | some e => exact hanswers.inferExpr e hhere (hasked e List.mem_cons_self) hallowed

/-- The variables of a declaration may be bound, one after the other. -/
theorem Answers.inferDecls (hanswers : D.Answers d i i') {ds : List Declarator}
    (hhere : D.Here C d scope s) (hbound : ∀ decl ∈ ds, Bound C decl.name)
    (hasked : ∀ e ∈ ds.filterMap Declarator.init, Asked C e)
    (hallowed : ∀ n ∈ Declarator.nodesAll false ds, C n) :
    D.Agree but s (inferDecls i scope ds) (inferDecls i' scope ds) fun _ _ => True := by
  induction ds generalizing s with
  | nil => exact Agree.pure hhere.inv trivial
  | cons decl ds ih =>
    cases decl with
    | mk name init =>
      rw [Declarator.nodesAll] at hallowed
      obtain ⟨hallowedI, hallowedR⟩ := List.forall_mem_append.mp hallowed
      obtain ⟨hboundD, hboundR⟩ := List.forall_mem_cons.mp hbound
      cases init with
      | none => exact ih hhere hboundR hasked hallowedR
      | some e =>
        obtain ⟨haskedE, haskedR⟩ := List.forall_mem_cons.mp hasked
        refine (hanswers.inferInit e name hhere haskedE hallowedI).bind
          fun r t hinv hlead hgood => ?_
        have hhere := hhere.next hinv hlead
        refine (Does.bindVariable hinv hhere.live (hhere.mayBind hboundD) hgood).bind
          fun _ t hinv hlead _ => ?_
        exact ih (hhere.next hinv hlead) hboundR haskedR hallowedR

theorem Answers.inferForInit (hanswers : D.Answers d i i') (init : ForInit)
    (hhere : D.Here C d scope s)
    (hbound : ∀ decls, init = .vars decls → ∀ decl ∈ decls, Bound C decl.name)
    (hasked : ∀ e ∈ init.operands, Asked C e) (hallowed : ∀ n ∈ init.nodes false, C n) :
    D.Agree but s (inferForInit i scope init) (inferForInit i' scope init) fun _ _ => True := by
  cases init with
  | none => exact Agree.pure hhere.inv trivial
  | vars decls => exact hanswers.inferDecls hhere (hbound decls rfl) hasked hallowed
  | expr e =>
    refine (hanswers.inferExpr e hhere (hasked e List.mem_cons_self) hallowed).bind
      fun _ t hinv _ _ => ?_
    exact Agree.pure hinv trivial

/-- The target of a `for`-`in` loop is assigned a text. -/
theorem Answers.inferForTarget (hanswers : D.Answers d i i') (target : ForTarget)
    (hhere : D.Here C d scope s) (hbound : ∀ name, target = .var name → Bound C name)
    (hallowed : ∀ n ∈ target.nodes false, C n) :
    D.Agree but s (inferForTarget i scope target) (inferForTarget i' scope target)
      fun _ _ => True := by
  cases target with
  | var name =>
    refine (Does.bindVariable hhere.inv hhere.live (hhere.mayBind (hbound name rfl))
      (D.prim .string)).bind fun _ t hinv _ _ => ?_
    exact Agree.pure hinv trivial
  | expr e =>
    refine (hanswers.evalTarget e hhere hallowed).bind fun target t hinv hlead ⟨hgood, _⟩ => ?_
    refine (Does.writeTarget hinv (hlead.live hhere.live) hgood (D.prim .string)).bind
      fun _ t hinv _ _ => ?_
    exact Does.record hinv e.id (D.prim .string)

/-! ### Statements -/

mutual

/-- Running a statement keeps to the discipline. -/
theorem Answers.inferStmt (hanswers : D.Answers d i i') (x : Stmt) {s : Run}
    (hhere : D.Here C d scope s) (hallowed : ∀ n ∈ x.nodes false, C n) :
    D.Agree but s (inferStmt i scope x) (inferStmt i' scope x) fun _ _ => True := by
  cases x with
  | mk id span form =>
    rw [Stmt.nodes] at hallowed
    obtain ⟨hself, hinside⟩ := List.forall_mem_cons.mp hallowed
    rw [TypeFlow.inferStmt, TypeFlow.inferStmt]
    exact Answers.inferStmtForm hanswers form hhere hself hinside
termination_by structural x

/-- The forms of statements: both branches run, a loop body runs once. -/
theorem Answers.inferStmtForm (hanswers : D.Answers d i i') (form : StmtForm) {id : NodeId}
    {span : Span} {s : Run} (hhere : D.Here C d scope s) (hself : C (.stmt ⟨id, span, form⟩))
    (hallowed : ∀ n ∈ form.nodes false, C n) :
    D.Agree but s (inferStmtForm i scope id span form) (inferStmtForm i' scope id span form)
      fun _ _ => True := by
  cases form with
  | block body =>
    rw [StmtForm.nodes] at hallowed
    rw [TypeFlow.inferStmtForm, TypeFlow.inferStmtForm]
    exact Answers.inferBlock hanswers body hhere hallowed
  | expr e =>
    rw [StmtForm.nodes] at hallowed
    rw [TypeFlow.inferStmtForm, TypeFlow.inferStmtForm]
    refine (hanswers.inferExpr e hhere ⟨_, hself, List.mem_cons_self⟩ hallowed).bind
      fun _ t hinv _ _ => ?_
    exact Agree.pure hinv trivial
  | vars decls =>
    rw [StmtForm.nodes] at hallowed
    rw [TypeFlow.inferStmtForm, TypeFlow.inferStmtForm]
    exact hanswers.inferDecls hhere (fun decl hmem => ⟨_, hself, mem_binds_of_declared
      (List.mem_map_of_mem (f := Declarator.name) hmem)⟩) (fun e hmem => ⟨_, hself, hmem⟩) hallowed
  | function f =>
    rw [StmtForm.nodes] at hallowed
    rw [TypeFlow.inferStmtForm, TypeFlow.inferStmtForm]
    have hstands := hhere.stands _ (hallowed _ f.self_mem_nodes)
    refine (Does.captureFunc hhere.inv hhere.live hstands none).bind fun value t hinv _ hgood => ?_
    exact Does.record hinv f.id hgood
  | ret argument =>
    rw [StmtForm.nodes] at hallowed
    rw [TypeFlow.inferStmtForm, TypeFlow.inferStmtForm]
    refine (hanswers.inferOpt argument hhere (fun e hmem => ⟨_, hself, hmem⟩) hallowed).bind
      fun r t hinv _ hgood => ?_
    exact Does.addReturn hinv id span hgood
  | branch test consequent alternate =>
    rw [StmtForm.nodes] at hallowed
    obtain ⟨hallowedTC, hallowedA⟩ := List.forall_mem_append.mp hallowed
    obtain ⟨hallowedT, hallowedC⟩ := List.forall_mem_append.mp hallowedTC
    rw [TypeFlow.inferStmtForm, TypeFlow.inferStmtForm]
    refine (hanswers.inferExpr test hhere ⟨_, hself, List.mem_cons_self⟩ hallowedT).bind
      fun _ t hinv hlead _ => ?_
    have hhere := hhere.next hinv hlead
    refine (Answers.inferStmt hanswers consequent hhere hallowedC).bind fun _ t hinv hlead _ => ?_
    exact Answers.inferStmtOpt hanswers alternate (hhere.next hinv hlead) hallowedA
  | whileLoop test body =>
    rw [StmtForm.nodes] at hallowed
    obtain ⟨hallowedT, hallowedB⟩ := List.forall_mem_append.mp hallowed
    rw [TypeFlow.inferStmtForm, TypeFlow.inferStmtForm]
    refine (hanswers.inferExpr test hhere ⟨_, hself, List.mem_cons_self⟩ hallowedT).bind
      fun _ t hinv hlead _ => ?_
    exact Answers.inferStmt hanswers body (hhere.next hinv hlead) hallowedB
  | doWhile body test =>
    rw [StmtForm.nodes] at hallowed
    obtain ⟨hallowedT, hallowedB⟩ := List.forall_mem_append.mp hallowed
    rw [TypeFlow.inferStmtForm, TypeFlow.inferStmtForm]
    refine (hanswers.inferExpr test hhere ⟨_, hself, List.mem_cons_self⟩ hallowedT).bind
      fun _ t hinv hlead _ => ?_
    exact Answers.inferStmt hanswers body (hhere.next hinv hlead) hallowedB
  | forLoop init test update body =>
    rw [StmtForm.nodes] at hallowed
    obtain ⟨hallowedITU, hallowedB⟩ := List.forall_mem_append.mp hallowed
    obtain ⟨hallowedIT, hallowedU⟩ := List.forall_mem_append.mp hallowedITU
    obtain ⟨hallowedI, hallowedT⟩ := List.forall_mem_append.mp hallowedIT
    rw [TypeFlow.inferStmtForm, TypeFlow.inferStmtForm]
    have hasked : ∀ e ∈ init.operands ++ test.toList ++ update.toList, Asked C e :=
      fun e hmem => ⟨_, hself, hmem⟩
    obtain ⟨haskedIT, haskedU⟩ := List.forall_mem_append.mp hasked
    obtain ⟨haskedI, haskedT⟩ := List.forall_mem_append.mp haskedIT
    have hbound : ∀ decls, init = .vars decls → ∀ decl ∈ decls, Bound C decl.name := by
      rintro decls rfl decl hmem
      exact ⟨_, hself, mem_binds_of_declared (List.mem_map_of_mem (f := Declarator.name) hmem)⟩
    refine (hanswers.inferForInit init hhere hbound haskedI hallowedI).bind
      fun _ t hinv hlead _ => ?_
    have hhere := hhere.next hinv hlead
    refine (hanswers.inferOpt test hhere haskedT hallowedT).bind fun _ t hinv hlead _ => ?_
    have hhere := hhere.next hinv hlead
    refine (Answers.inferStmt hanswers body hhere hallowedB).bind fun _ t hinv hlead _ => ?_
    have hhere := hhere.next hinv hlead
    refine (hanswers.inferOpt update hhere haskedU hallowedU).bind fun _ t hinv _ _ => ?_
    exact Agree.pure hinv trivial
  | forIn target right body =>
    rw [StmtForm.nodes] at hallowed
    obtain ⟨hallowedTR, hallowedB⟩ := List.forall_mem_append.mp hallowed
    obtain ⟨hallowedT, hallowedR⟩ := List.forall_mem_append.mp hallowedTR
    rw [TypeFlow.inferStmtForm, TypeFlow.inferStmtForm]
    have hbound : ∀ name, target = .var name → Bound C name := by
      rintro name rfl
      exact ⟨_, hself, mem_binds_of_declared List.mem_cons_self⟩
    refine (hanswers.inferExpr right hhere ⟨_, hself, List.mem_cons_self⟩ hallowedR).bind
      fun _ t hinv hlead _ => ?_
    have hhere := hhere.next hinv hlead
    refine (hanswers.inferForTarget target hhere hbound hallowedT).bind fun _ t hinv hlead _ => ?_
    exact Answers.inferStmt hanswers body (hhere.next hinv hlead) hallowedB
  | switch discriminant cases =>
    rw [StmtForm.nodes] at hallowed
    obtain ⟨hallowedD, hallowedC⟩ := List.forall_mem_append.mp hallowed
    rw [TypeFlow.inferStmtForm, TypeFlow.inferStmtForm]
    have hasked : ∀ e ∈ discriminant :: cases.filterMap Case.test, Asked C e :=
      fun e hmem => ⟨_, hself, hmem⟩
    obtain ⟨haskedD, haskedC⟩ := List.forall_mem_cons.mp hasked
    refine (hanswers.inferExpr discriminant hhere haskedD hallowedD).bind fun _ t hinv hlead _ => ?_
    exact Answers.inferCases hanswers cases (hhere.next hinv hlead) haskedC hallowedC
  | throw argument =>
    rw [StmtForm.nodes] at hallowed
    rw [TypeFlow.inferStmtForm, TypeFlow.inferStmtForm]
    refine (hanswers.inferExpr argument hhere ⟨_, hself, List.mem_cons_self⟩ hallowed).bind
      fun _ t hinv _ _ => ?_
    exact Agree.pure hinv trivial
  | guarded block handler finalizer =>
    rw [StmtForm.nodes] at hallowed
    obtain ⟨hallowedBH, hallowedF⟩ := List.forall_mem_append.mp hallowed
    obtain ⟨hallowedB, hallowedH⟩ := List.forall_mem_append.mp hallowedBH
    rw [TypeFlow.inferStmtForm, TypeFlow.inferStmtForm]
    refine (Answers.inferBlock hanswers block hhere hallowedB).bind fun _ t hinv hlead _ => ?_
    have hhere := hhere.next hinv hlead
    have hbound : ∀ h, handler = some h → Bound C h.param := by
      rintro h rfl
      exact ⟨_, hself, mem_binds_of_caught rfl⟩
    refine (Answers.inferHandler hanswers handler hhere hbound hallowedH).bind
      fun _ t hinv hlead _ => ?_
    exact Answers.inferBlock hanswers finalizer (hhere.next hinv hlead) hallowedF
  | _ =>
    rw [TypeFlow.inferStmtForm, TypeFlow.inferStmtForm]
    exact Agree.pure hhere.inv trivial
termination_by structural form

/-- Running statements one after the other keeps to the discipline, as long as no fault stops it. -/
theorem Answers.inferBlock (hanswers : D.Answers d i i') (body : List Stmt) {s : Run}
    (hhere : D.Here C d scope s) (hallowed : ∀ n ∈ Stmt.nodesAll false body, C n) :
    D.Agree but s (inferBlock i scope body) (inferBlock i' scope body) fun _ _ => True := by
  cases body with
  | nil => exact Agree.pure hhere.inv trivial
  | cons x rest =>
    rw [Stmt.nodesAll] at hallowed
    obtain ⟨hallowedX, hallowedR⟩ := List.forall_mem_append.mp hallowed
    rw [TypeFlow.inferBlock, TypeFlow.inferBlock]
    refine (Answers.inferStmt hanswers x hhere hallowedX).bind fun _ t hinv hlead _ => ?_
    exact Answers.inferBlock hanswers rest (hhere.next hinv hlead) hallowedR
termination_by structural body

theorem Answers.inferStmtOpt (hanswers : D.Answers d i i') (x : Option Stmt) {s : Run}
    (hhere : D.Here C d scope s) (hallowed : ∀ n ∈ Stmt.nodesOpt false x, C n) :
    D.Agree but s (inferStmtOpt i scope x) (inferStmtOpt i' scope x) fun _ _ => True := by
  cases x with
  | none => exact Agree.pure hhere.inv trivial
  | some x => exact Answers.inferStmt hanswers x hhere hallowed
termination_by structural x

theorem Answers.inferCases (hanswers : D.Answers d i i') (cs : List Case) {s : Run}
    (hhere : D.Here C d scope s) (hasked : ∀ e ∈ cs.filterMap Case.test, Asked C e)
    (hallowed : ∀ n ∈ Case.nodesAll false cs, C n) :
    D.Agree but s (inferCases i scope cs) (inferCases i' scope cs) fun _ _ => True := by
  cases cs with
  | nil => exact Agree.pure hhere.inv trivial
  | cons c cs =>
    cases c with
    | mk test body =>
      rw [Case.nodesAll] at hallowed
      obtain ⟨hallowedTB, hallowedR⟩ := List.forall_mem_append.mp hallowed
      obtain ⟨hallowedT, hallowedB⟩ := List.forall_mem_append.mp hallowedTB
      have hasked : ∀ e ∈ test.toList ++ cs.filterMap Case.test, Asked C e := by
        cases test <;> exact hasked
      obtain ⟨haskedT, haskedR⟩ := List.forall_mem_append.mp hasked
      rw [TypeFlow.inferCases, TypeFlow.inferCases]
      refine (hanswers.inferOpt test hhere haskedT hallowedT).bind fun _ t hinv hlead _ => ?_
      have hhere := hhere.next hinv hlead
      refine (Answers.inferBlock hanswers body hhere hallowedB).bind fun _ t hinv hlead _ => ?_
      exact Answers.inferCases hanswers cs (hhere.next hinv hlead) haskedR hallowedR
termination_by structural cs

/-- A `catch` clause binds its parameter, and runs like a block. -/
theorem Answers.inferHandler (hanswers : D.Answers d i i') (h : Option Handler) {s : Run}
    (hhere : D.Here C d scope s) (hbound : ∀ handler, h = some handler → Bound C handler.param)
    (hallowed : ∀ n ∈ Handler.nodesOpt false h, C n) :
    D.Agree but s (inferHandler i scope h) (inferHandler i' scope h) fun _ _ => True := by
  cases h with
  | none => exact Agree.pure hhere.inv trivial
  | some h =>
    cases h with
    | mk param body =>
      rw [TypeFlow.inferHandler, TypeFlow.inferHandler]
      have hmay := hhere.mayBind (hbound _ rfl)
      refine (Does.bindVariable hhere.inv hhere.live hmay D.any).bind fun _ t hinv hlead _ => ?_
      exact Answers.inferBlock hanswers body (hhere.next hinv hlead) hallowed
termination_by structural h

end

end Discipline

end TypeFlow
