import Mathlib
import TypeFlow.Proofs.Engine.Coherence
import TypeFlow.Proofs.Engine.Idle
import TypeFlow.Proofs.Script.Exposure

/-!
# Surveys of trees

A walk over a tree that ends has recorded a type for every expression and captured every literal,
and no node of the tree is malformed.  A walk that a malformation stops has met a malformed node: in
the tree, or in the body of a function that was called.

## Main Definitions

* `Run.Has` - what is known of a node that was walked
* `Run.Gains` - a later state, in which as much is known
* `Run.Surveyed` - the closures come from literals that a run may capture, and the bodies of those
  that were called were walked
* `Fares` - how a computation ends: after walking given nodes, or at a malformed one
* `Treats` - the same for computations that are stopped by the nodes that they walk

## Main Statements

* `Fares.bind` and the rules beside it
* `Fares.captureFunc` - capturing a literal
* `Fares.inferExpr`, `Fares.inferStmt`, `Fares.inferBlock` - expressions and statements, as soon as
  calls fare well

## Design Notes

Which nodes are malformed depends on whether the walk stands inside of a function, since a `return`
statement is malformed outside.  The nodes with something known of them and the reason to stop are
kept apart: an expression that is assigned to is met first, and its type is recorded at the end.
-/

namespace TypeFlow

open Walk

/-! ### What is known of nodes -/

/-- What is known of a node that was walked: the type of an expression, and a closure of a
literal. -/
def Run.Has (s : Run) : Node → Prop
  | .stmt _ => True
  | .expr e => (OrdMap.get? s.nodeTypes e.id).isSome = true
  | .func f => ∃ (k : ClosureId) (c : Closure), s.closures.table[k]? = some c ∧ c.func = f

/-- A body that was walked, and that has no malformed node. -/
def Run.Walked (s : Run) (b : List Stmt) : Prop :=
  ∀ n ∈ Stmt.nodesAll false b, s.Has n ∧ n.isMalformed = false

/-- A later state, in which closures have been called as often or more often, and in which there are
types for all nodes that had one. -/
structure Run.Gains (s t : Run) : Prop where
  closures : Grows (fun c c' => c'.func = c.func ∧ c.calls ≤ c'.calls) s.closures.table
    t.closures.table
  types : ∀ id, (OrdMap.get? s.nodeTypes id).isSome = true →
    (OrdMap.get? t.nodeTypes id).isSome = true

/-- The same, with as many running calls. -/
structure Run.Advances (s t : Run) : Prop extends s.Gains t where
  depth : t.activations.length = s.activations.length

/-- The literals that a run of a program may capture. -/
def Program.MayCapture (p : Program) (d : Capture) : Prop :=
  ∃ b, p.Enters b ∧ d ∈ Stmt.capturesAll b

/-- Some exposed node of the program is malformed, wherever it stands. -/
def Program.Flawed (p : Program) : Prop :=
  ∃ n, p.Exposes n ∧ n.isMalformed = true

/-- The closures come from literals that a run of the program may capture, and they are marked as
these tell.  Those that were called, and are not marked, have bodies that were walked. -/
structure Run.Surveyed (p : Program) (s : Run) : Prop where
  indexed : s.closures.Indexed
  captured : ∀ (k : ClosureId) c, s.closures.table[k]? = some c →
    ∃ d, p.MayCapture d ∧ d.1 = c.func ∧ d.marks = c.selfReferential
  walked : ∀ (k : ClosureId) c, s.closures.table[k]? = some c → 0 < c.calls →
    c.selfReferential = false → s.Walked c.func.body

section Known

variable {p : Program} {s t r : Run} {n : Node} {b : List Stmt}

/-- A state with the same closures, in which no node has lost its type. -/
theorem Run.Gains.same (hclosures : t.closures = s.closures)
    (htypes : ∀ id, (OrdMap.get? s.nodeTypes id).isSome = true →
      (OrdMap.get? t.nodeTypes id).isSome = true) : s.Gains t :=
  ⟨hclosures ▸ Grows.refl (fun _ => ⟨rfl, Nat.le_refl _⟩) _, htypes⟩

theorem Run.Gains.trans (h : s.Gains t) (h' : t.Gains r) : s.Gains r where
  closures := h.closures.trans (fun _ _ _ hc hc' => ⟨hc'.1.trans hc.1, hc.2.trans hc'.2⟩)
    h'.closures
  types id hhas := h'.types id (h.types id hhas)

theorem Run.Advances.trans (h : s.Advances t) (h' : t.Advances r) : s.Advances r :=
  ⟨h.toGains.trans h'.toGains, h'.depth.trans h.depth⟩

/-- A state that only idles has lost nothing and has as many running calls. -/
theorem Run.Idles.advances (h : s.Idles t) : s.Advances t :=
  ⟨.same h.closures h.types, h.depth⟩

/-- What is known of a node stays known. -/
theorem Run.Has.later (hhas : s.Has n) (hgains : s.Gains t) : t.Has n := by
  cases n with
  | stmt x => trivial
  | expr e => exact hgains.types e.id hhas
  | func f =>
    obtain ⟨k, c, hfound, rfl⟩ := hhas
    obtain ⟨c', hfound', hsame, -⟩ := hgains.closures k c hfound
    exact ⟨k, c', hfound', hsame⟩

/-- A body that was walked stays walked. -/
theorem Run.Walked.later (hwalked : s.Walked b) (hgains : s.Gains t) : t.Walked b :=
  fun n hmem => ⟨(hwalked n hmem).1.later hgains, (hwalked n hmem).2⟩

/-- Surveys look at closures and at the types of nodes only. -/
theorem Run.Surveyed.same (h : s.Surveyed p) (hclosures : t.closures = s.closures)
    (htypes : ∀ id, (OrdMap.get? s.nodeTypes id).isSome = true →
      (OrdMap.get? t.nodeTypes id).isSome = true) : t.Surveyed p where
  indexed := hclosures ▸ h.indexed
  captured k c hfound := h.captured k c (hclosures ▸ hfound)
  walked k c hfound hcalled hunmarked :=
    (h.walked k c (hclosures ▸ hfound) hcalled hunmarked).later (.same hclosures htypes)

end Known

/-! ### How computations fare -/

/-- Whether a node is malformed where it stands, inside of a function or outside. -/
def Node.isFlawed (inside : Bool) (n : Node) : Bool :=
  (n.isReturn && !inside) || n.isMalformed

/-- Whether some of the nodes are malformed where they stand. -/
def flaws (inside : Bool) (ns : List Node) : Bool :=
  ns.any (Node.isFlawed inside)

/-- The flaws of a list are those of its parts. -/
theorem flaws_append (inside : Bool) (ns ns' : List Node) :
    flaws inside (ns ++ ns') = (flaws inside ns || flaws inside ns') :=
  List.any_append

/-- An expression is flawed by itself, or by what stands in it. -/
theorem flaws_expr (inside : Bool) (id : NodeId) (span : Span) (form : ExprForm) :
    flaws inside (Expr.nodes false ⟨id, span, form⟩) =
      (Expr.isMalformed ⟨id, span, form⟩ || flaws inside (form.nodes false)) := by
  rw [Expr.nodes]
  rfl

/-- A statement is flawed by itself, or by what stands in it. -/
theorem flaws_stmt (inside : Bool) (id : NodeId) (span : Span) (form : StmtForm) :
    flaws inside (Stmt.nodes false ⟨id, span, form⟩) =
      (Node.isFlawed inside (.stmt ⟨id, span, form⟩) || flaws inside (form.nodes false)) := by
  rw [Stmt.nodes]
  rfl

/-- Nodes without a flaw are not malformed, and a `return` statement among them stands inside of a
function. -/
theorem flawless {inside : Bool} {ns : List Node} (hnone : flaws inside ns = false) {n : Node}
    (hmem : n ∈ ns) : (n.isReturn && !inside) = false ∧ n.isMalformed = false := by
  have hflawless := List.any_eq_false.mp hnone n hmem
  rw [Bool.not_eq_true, Node.isFlawed, Bool.or_eq_false_iff] at hflawless
  exact hflawless

/-- A state in which a walk stands inside of a function, or outside of all. -/
structure Stands (p : Program) (inside : Bool) (s : Run) : Prop where
  surveyed : s.Surveyed p
  place : inside = true ↔ 0 < s.activations.length

/-- How a computation ends, as far as no handle lacks an entry: after walking the given nodes, when
there is no flaw, or at a malformed node. -/
inductive Fared {α : Type} (p : Program) (inside : Bool) (ns : List Node) (flawed : Bool)
    (s : Run) : EStateM.Result Fault Run α → Prop where
  | ended {a : α} {t : Run} : Stands p inside t → s.Advances t → (∀ n ∈ ns, t.Has n) →
    flawed = false → Fared p inside ns flawed s (.ok a t)
  | stopped {e : Malformed} {t : Run} : Stands p inside t → s.Advances t →
    flawed = true ∨ p.Flawed → Fared p inside ns flawed s (.error (.malformed e) t)
  | lost {d : Dangling} {t : Run} : Fared p inside ns flawed s (.error (.dangling d) t)

/-- A computation that ends after walking the given nodes, unless there is a flaw or a function that
is called has one. -/
def Fares (p : Program) (inside : Bool) (ns : List Node) (flawed : Bool) {α : Type} (m : Walk α) :
    Prop :=
  ∀ s, Stands p inside s → Fared p inside ns flawed s (m s)

/-- A computation that ends after walking the given nodes, unless one of them is malformed or a
function that is called has a malformed node. -/
abbrev Treats (p : Program) (inside : Bool) (ns : List Node) {α : Type} (m : Walk α) : Prop :=
  Fares p inside ns (flaws inside ns) m

section Fared

variable {p : Program} {inside : Bool} {ns ns' : List Node} {flawed flawed' : Bool} {s t : Run}
variable {α : Type} {x : EStateM.Result Fault Run α}

/-- A walk still stands where it stood as long as the run only idles. -/
theorem Stands.later (hstands : Stands p inside s) (hidles : s.Idles t) : Stands p inside t :=
  ⟨hstands.surveyed.same hidles.closures hidles.types, hstands.place.trans (by rw [hidles.depth])⟩

/-- How a computation ended, seen from an earlier state. -/
theorem Fared.later (h : Fared p inside ns flawed t x) (hadvances : s.Advances t) :
    Fared p inside ns flawed s x := by
  cases h with
  | ended hstands hadvances' hhas hsound =>
    exact .ended hstands (hadvances.trans hadvances') hhas hsound
  | stopped hstands hadvances' hreason =>
    exact .stopped hstands (hadvances.trans hadvances') hreason
  | lost => exact .lost

/-- Fewer nodes may be asked for, and a flaw may be found elsewhere in the program. -/
theorem Fared.imp (h : Fared p inside ns flawed s x)
    (hhas : ∀ t : Run, (∀ n ∈ ns, t.Has n) → ∀ n ∈ ns', t.Has n)
    (hsound : flawed = false → flawed' = false)
    (hreason : flawed = true → flawed' = true ∨ p.Flawed) : Fared p inside ns' flawed' s x := by
  cases h with
  | ended hstands hadvances hknown hnone =>
    exact .ended hstands hadvances (hhas _ hknown) (hsound hnone)
  | stopped hstands hadvances hwhy => exact .stopped hstands hadvances (hwhy.elim hreason Or.inr)
  | lost => exact .lost

/-- A computation that only idles has walked no node. -/
theorem Fared.idle {a : α} (hstands : Stands p inside s) (hidles : s.Idles t) :
    Fared p inside [] false s (.ok a t) :=
  .ended (hstands.later hidles) hidles.advances (List.forall_mem_nil _) rfl

end Fared

namespace Fares

variable {p : Program} {inside : Bool} {ns ns' : List Node} {flawed flawed' : Bool} {α β : Type}
variable {m : Walk α} {f : α → Walk β}

theorem mono (h : Fares p inside ns flawed m) (hsub : ns' ⊆ ns) (hsame : flawed' = flawed) :
    Fares p inside ns' flawed' m :=
  fun s hstands => (h s hstands).imp (fun _ hhas n hmem => hhas n (hsub hmem)) hsame.trans
    fun hflaw => Or.inl (hsame.trans hflaw)

/-- Computations one after the other: the first flaw stops them, and without one the nodes of both
were walked. -/
theorem bind (h : Fares p inside ns flawed m) (hnext : ∀ a, Fares p inside ns' flawed' (f a)) :
    Fares p inside (ns ++ ns') (flawed || flawed') (m >>= f) := by
  intro s hstands
  rw [bind_apply]
  have hfared := h s hstands
  generalize m s = x at hfared
  cases hfared with
  | @ended a t hstands hadvances hhas hsound =>
    have hfared' := hnext a t hstands
    dsimp only
    generalize f a t = y at hfared'
    cases hfared' with
    | ended hstands' hadvances' hhas' hsound' =>
      refine .ended hstands' (hadvances.trans hadvances')
        (List.forall_mem_append.mpr ⟨?_, hhas'⟩) ?_
      · exact fun n hmem => (hhas n hmem).later hadvances'.toGains
      · rw [hsound, hsound', Bool.or_false]
    | stopped hstands' hadvances' hreason =>
      refine .stopped hstands' (hadvances.trans hadvances') (hreason.imp_left fun hflaw => ?_)
      rw [hflaw, Bool.or_true]
    | lost => exact .lost
  | stopped hstands hadvances hreason =>
    refine .stopped hstands hadvances (hreason.imp_left fun hflaw => ?_)
    rw [hflaw, Bool.true_or]
  | lost => exact .lost

/-- Nothing is walked before. -/
theorem first {m : Walk α} (h : Fares p inside [] false m)
    (hnext : ∀ a, Fares p inside ns flawed (f a)) : Fares p inside ns flawed (m >>= f) :=
  h.bind hnext

/-- Nothing is walked afterwards. -/
theorem last (h : Fares p inside ns flawed m) (hnext : ∀ a, Fares p inside [] false (f a)) :
    Fares p inside ns flawed (m >>= f) :=
  (h.bind hnext).mono (List.subset_append_left _ _) (Bool.or_false _).symm

/-- Of a statement nothing has to become known. -/
theorem stmt {x : Stmt} (h : Fares p inside ns flawed m) :
    Fares p inside (.stmt x :: ns) flawed m :=
  fun s hstands => (h s hstands).imp (fun _ hhas => List.forall_mem_cons.mpr ⟨trivial, hhas⟩) id
    Or.inl

/-- One more node becomes known at the end. -/
theorem closing {n : Node} (h : Fares p inside ns flawed m)
    (hnext : ∀ a, Fares p inside [n] false (f a)) : Fares p inside (n :: ns) flawed (m >>= f) :=
  (h.bind hnext).mono (List.cons_subset.mpr ⟨List.mem_append_right _ (List.mem_singleton_self _),
    List.subset_append_left _ _⟩) (Bool.or_false _).symm

theorem idle (h : m.Idle) : Fares p inside [] false m := by
  intro s hstands
  have hidles := h.idles s
  have hcalm := h.calm s
  unfold after at hidles
  generalize m s = x at hidles hcalm
  cases x with
  | ok a t => exact .idle hstands hidles
  | error e t =>
    cases e with
    | malformed e => exact absurd rfl (hcalm e t)
    | dangling d => exact .lost

theorem pure (a : α) : Fares p inside [] false (pure a : Walk α) :=
  idle (.pure a)

/-- A malformation that is thrown is a flaw, whatever nodes were to be walked. -/
theorem malformed {kind : Malformation} {node : NodeId} {span : Span} :
    Fares p inside ns true (malformed kind node span : Walk α) :=
  fun s hstands => .stopped hstands (Run.Idles.refl s).advances (Or.inl rfl)

/-- A member access is flawed exactly when its property has no name. -/
theorem checkProperty (node : NodeId) (span : Span) (property : String) :
    Fares p inside [] (property == "") (checkProperty node span property) := by
  rw [TypeFlow.checkProperty, Walk.when]
  by_cases hempty : property = ""
  · rw [if_pos hempty, beq_iff_eq.mpr hempty]
    exact malformed
  · rw [if_neg hempty, beq_eq_false_iff_ne.mpr hempty]
    exact pure ()

/-- Recording the type of an expression. -/
theorem record (e : Expr) (t : Ty) : Fares p inside [.expr e] false (record e.id t) := by
  intro s hstands
  have hfared := idle (.record e.id t) s hstands
  cases hfared with
  | ended hstands hadvances _ _ =>
    refine .ended hstands hadvances (List.forall_mem_singleton.mpr ?_) rfl
    change (OrdMap.get? (OrdMap.upsert s.nodeTypes e.id _ _) e.id).isSome = true
    rw [OrdMap.get?_upsert_self]
    rfl

/-- An expression is known once its type is recorded. -/
theorem settleExpr (e : Expr) (t : Ty) :
    Fares p inside [.expr e] false (settleExpr e.id e.form t) :=
  first (idle (.when (.noteAccess e.id))) fun _ => last (record e t) fun _ => pure t

/-- A `return` statement is malformed outside of all functions. -/
theorem addReturn (node : NodeId) (span : Span) (t : Ty) :
    Fares p inside [] (!inside) (addReturn node span t) := by
  intro s hstands
  have hplace := hstands.place
  rw [addReturn_apply]
  cases hcalls : s.activations with
  | nil =>
    rw [hcalls] at hplace
    have houtside : (!inside) = true := by simpa using hplace
    exact .stopped hstands (Run.Idles.refl s).advances (Or.inl houtside)
  | cons a rest =>
    rw [hcalls] at hplace
    have hwithin : inside = true := hplace.mpr (Nat.succ_pos _)
    have hidles :
        s.Idles { s with activations := { a with returns := a.returns.join t } :: rest } :=
      ⟨rfl, fun _ hhas => hhas, (congrArg List.length hcalls).symm⟩
    have hstands' := hstands.surveyed.same hidles.closures hidles.types
    refine .ended ⟨hstands', ?_⟩ hidles.advances (List.forall_mem_nil _) ?_
    · exact ⟨fun _ => Nat.succ_pos _, fun _ => hwithin⟩
    · rw [hwithin, Bool.not_true]

/-! ### Captures -/

section Capture

variable (htidy : Tidy p.nodes)

include htidy

/-- Capturing a literal of the program leaves a closure of it. -/
theorem captureFunc (scope : ScopeId) {d : Capture} (hmay : p.MayCapture d) :
    Fares p inside [.func d.1] false (captureFunc scope d.1 d.2) := by
  intro s hstands
  obtain ⟨b, henters, hlisted⟩ := hmay
  cases hled : s.closures.bySite.place? (d.1.id, scope) with
  | some k =>
    obtain ⟨c, hfound, hid, -⟩ := hstands.surveyed.indexed.found hled
    obtain ⟨d', ⟨b', henters', hlisted'⟩, hfunc, hmarks⟩ := hstands.surveyed.captured k c hfound
    -- a closure with the identity of the literal is one of the literal, and marked already if at
    -- all
    cases Program.captures_unique htidy (henters'.mem_captures hlisted')
      (henters.mem_captures hlisted) (hfunc ▸ hid)
    rw [captureFunc_found hled hfound, Closures.marked_eq hfound hmarks.symm]
    refine .ended hstands (Run.Idles.refl s).advances (List.forall_mem_singleton.mpr ?_) rfl
    exact ⟨k, c, hfound, hfunc.symm⟩
  | none =>
    have hadvances : s.Advances { s with closures := s.closures.captured scope d } :=
      ⟨⟨Grows.push (fun _ => ⟨rfl, Nat.le_refl _⟩) _ _, fun _ hhas => hhas⟩, rfl⟩
    rw [captureFunc_absent hled]
    refine .ended ⟨⟨Indexes.note hstands.surveyed.indexed rfl hled, fun k c hget => ?_,
      fun k c hget hcalled hunmarked => ?_⟩, hstands.place⟩
      hadvances (List.forall_mem_singleton.mpr ?_) rfl
    · rcases getElem?_push_cases hget with hprev | ⟨rfl, rfl⟩
      · exact hstands.surveyed.captured k c hprev
      · exact ⟨d, ⟨b, henters, hlisted⟩, rfl, rfl⟩
    -- the new closure has not been called
    · rcases getElem?_push_cases hget with hprev | ⟨rfl, rfl⟩
      · exact (hstands.surveyed.walked k c hprev hcalled hunmarked).later hadvances.toGains
      · cases hcalled
    · exact ⟨s.closures.table.size, newClosure scope d, Array.getElem?_push_size, rfl⟩

end Capture

/-! ### Calls and instances -/

section Calls

variable {i : Invoke} (hcalls : ∀ call, Fares p inside [] false (i call))

include hcalls

/-- Calls walk no node of the tree that they stand in. -/
theorem callValue (callee this : Ty) (args : List Ty) (site : NodeId) (caller : ScopeId) :
    Fares p inside [] false (callValue i callee this args site caller) := by
  have hall (call : ClosureId → Call) (cs : List ClosureId) (acc : Ty) :
      Fares p inside [] false (invokeAll i call acc cs) := by
    induction cs generalizing acc with
    | nil => exact pure acc
    | cons c cs ih => exact first (hcalls _) fun ret => ih _
  unfold TypeFlow.callValue
  cases callee.funcPart? with
  | none => exact pure _
  | some f => exact hall _ _ _

theorem callee (c : Callee) (args : List Ty) (site : NodeId) (caller : ScopeId) :
    Fares p inside [] false (c.call i args site caller) := by
  unfold Callee.call
  cases c.this.func? with
  | none => exact callValue hcalls _ _ _ _ _
  | some f =>
    dsimp only
    split
    · exact callValue hcalls _ _ _ _ _
    · split <;> exact callValue hcalls _ _ _ _ _

/-- Ancestors that never ran are called, each for an instance of its own. -/
theorem runAncestors (args : List Ty) (site : NodeId) (caller : ScopeId) (ids : List CtorId) :
    Fares p inside [] false (runAncestors i args site caller ids) := by
  induction ids with
  | nil => exact pure ()
  | cons id rest ih =>
    refine first (idle (.ask _)) fun c => ?_
    cases c.closure with
    | none => exact ih
    | some closure =>
      by_cases hanalysed : c.analysed = true
      · simp only [hanalysed, if_true]
        exact ih
      · simp only [hanalysed, Bool.false_eq_true, if_false]
        exact first (idle (.onHeap _)) fun scratch => first (hcalls _) fun _ => ih

theorem instantiate (closure : ClosureId) (args : List Ty) (site : NodeId) (caller : ScopeId) :
    Fares p inside [] false (instantiate i closure args site caller) := by
  refine first (idle (.ctorOf closure)) fun ctor => first (idle (.onHeap _)) fun cell => ?_
  refine first (hcalls _) fun _ => first (idle (.ask _)) fun ids => ?_
  refine first (runAncestors hcalls args site caller ids) fun _ => first (idle (.ask _)) fun _ => ?_
  exact first (idle (.writeMissing cell _)) fun _ => pure _

/-- A construction calls the functions among the values of its callee. -/
theorem constructValue (callee : Ty) (args : List Ty) (site : NodeId) (caller : ScopeId) :
    Fares p inside [] false (constructValue i callee args site caller) := by
  have hall (cs : List ClosureId) (acc : Ty) :
      Fares p inside [] false (instantiateAll i args site caller acc cs) := by
    induction cs generalizing acc with
    | nil => exact pure acc
    | cons c cs ih => exact first (instantiate hcalls c args site caller) fun value => ih _
  unfold TypeFlow.constructValue
  cases callee.funcPart? with
  | none => exact pure _
  | some f =>
    dsimp only
    split
    · exact pure _
    · exact hall _ _

end Calls

end Fares

/-- What answers calls from inside of functions, or from outside, makes them fare well, and the
nodes of the program have different identities. -/
structure Serves (p : Program) (inside : Bool) (i : Invoke) : Prop where
  tidy : Tidy p.nodes
  calls : ∀ call, Fares p inside [] false (i call)

/-! ### Expressions -/

namespace Fares

variable {p : Program} {inside : Bool} {i : Invoke} {scope : ScopeId}

mutual

/-- An expression: its form first, and then its own type is recorded. -/
theorem inferExpr (h : Serves p inside i) (e : Expr)
    (hmay : ∀ d ∈ e.captures none, p.MayCapture d) :
    Treats p inside (e.nodes false) (inferExpr i scope e) := by
  cases e with
  | mk id span form =>
    rw [Expr.captures] at hmay
    rw [TypeFlow.inferExpr, Treats, flaws_expr, Expr.nodes]
    exact closing (inferForm h form id span hmay) fun t => settleExpr ⟨id, span, form⟩ t
termination_by structural e

/-- A form of expression: its operands are walked in the order in which they are evaluated, and it
may be malformed itself. -/
theorem inferForm (h : Serves p inside i) (form : ExprForm) (id : NodeId) (span : Span)
    (hmay : ∀ d ∈ form.captures none, p.MayCapture d) :
    Fares p inside (form.nodes false) (Expr.isMalformed ⟨id, span, form⟩ ||
      flaws inside (form.nodes false)) (inferForm i scope id span form) := by
  cases form with
  | literal kind =>
    rw [TypeFlow.inferForm]
    exact pure _
  | ident name =>
    rw [TypeFlow.inferForm]
    exact idle (.readVariable scope name)
  | this =>
    rw [TypeFlow.inferForm]
    exact idle .thisType
  | array elements =>
    rw [ExprForm.captures] at hmay
    rw [TypeFlow.inferForm]
    exact last (inferAll h elements hmay) fun _ => pure _
  | object properties =>
    rw [ExprForm.captures] at hmay
    rw [TypeFlow.inferForm]
    refine last (inferProps h properties hmay) fun fields => ?_
    exact first (idle (.onHeap _)) fun cell => pure _
  | function f =>
    rw [ExprForm.captures] at hmay
    rw [TypeFlow.inferForm, ExprForm.nodes, Func.nodes_false]
    exact captureFunc h.tidy scope (hmay _ List.mem_cons_self)
  | member object property =>
    rw [ExprForm.captures] at hmay
    rw [TypeFlow.inferForm, ExprForm.nodes]
    refine (checkProperty id span property).bind fun _ => ?_
    exact last (inferExpr h object hmay) fun t => idle (.readMember t property)
  | index object key =>
    rw [ExprForm.captures] at hmay
    obtain ⟨hmayO, hmayK⟩ := List.forall_mem_append.mp hmay
    rw [TypeFlow.inferForm, ExprForm.nodes, flaws_append]
    refine (inferExpr h object hmayO).bind fun _ => ?_
    exact last (inferExpr h key hmayK) fun _ => pure _
  | call callee arguments =>
    rw [ExprForm.captures] at hmay
    obtain ⟨hmayC, hmayA⟩ := List.forall_mem_append.mp hmay
    cases callee with
    | none =>
      rw [TypeFlow.inferForm]
      exact malformed
    | some callee =>
      rw [Expr.capturesOpt] at hmayC
      rw [TypeFlow.inferForm, ExprForm.nodes, Expr.nodesOpt, flaws_append]
      refine (inferCallee h callee hmayC).bind fun c => ?_
      exact last (inferAll h arguments hmayA) fun args => Fares.callee h.calls c args id scope
  | construct callee arguments =>
    rw [ExprForm.captures] at hmay
    obtain ⟨hmayC, hmayA⟩ := List.forall_mem_append.mp hmay
    rw [TypeFlow.inferForm, ExprForm.nodes, flaws_append]
    refine (inferExpr h callee hmayC).bind fun c => ?_
    exact last (inferAll h arguments hmayA) fun args => constructValue h.calls c args id scope
  | unary op argument =>
    rw [ExprForm.captures] at hmay
    rw [TypeFlow.inferForm, ExprForm.nodes]
    exact last (inferExpr h argument hmay) fun _ => pure _
  | update op argument =>
    rw [ExprForm.captures] at hmay
    rw [TypeFlow.inferForm, ExprForm.nodes]
    refine (evalTarget h argument hmay fun target _ => ?_).mono (List.subset_append_left _ [])
      (Bool.or_false _).symm
    refine first (idle (.readTarget scope target)) fun current => ?_
    refine last (record argument current) fun _ => ?_
    exact first (idle (.writeTarget scope .number target)) fun _ => pure _
  | binary op left right =>
    rw [ExprForm.captures] at hmay
    obtain ⟨hmayL, hmayR⟩ := List.forall_mem_append.mp hmay
    rw [TypeFlow.inferForm, ExprForm.nodes, flaws_append]
    refine (inferExpr h left hmayL).bind fun l => ?_
    exact last (inferExpr h right hmayR) fun r => pure _
  | assign op left right =>
    rw [ExprForm.captures] at hmay
    obtain ⟨hmayL, hmayR⟩ := List.forall_mem_append.mp hmay
    -- the type of the place is recorded after the value has been walked
    have hwritten {value : Ty} {target : Target} :
        Fares p inside [.expr left] false (do
          target.write scope value
          Walk.record left.id value
          return value) :=
      first (idle (.writeTarget scope value target)) fun _ =>
        last (record left value) fun _ => pure _
    cases op with
    | none =>
      rw [TypeFlow.inferForm, ExprForm.nodes, flaws_append, ← Bool.or_assoc]
      refine evalTarget h left hmayL fun target hnamed => ?_
      replace hmayR : ∀ d ∈ right.captures target.name?, p.MayCapture d := by
        simpa only [Option.isNone_none, if_true, hnamed] using hmayR
      refine closing ?_ fun _ => hwritten
      match target with
      | .variable name => exact inferInit h right name hmayR
      | .member _ _ _ => exact inferExpr h right hmayR
      | .computed => exact inferExpr h right hmayR
    | some op =>
      rw [TypeFlow.inferForm, ExprForm.nodes, flaws_append, ← Bool.or_assoc]
      refine evalTarget h left hmayL fun target _ => ?_
      refine first (idle (.readTarget scope target)) fun current => ?_
      exact closing (inferExpr h right hmayR) fun _ => hwritten
  | conditional test consequent alternate =>
    rw [ExprForm.captures] at hmay
    obtain ⟨hmayTC, hmayA⟩ := List.forall_mem_append.mp hmay
    obtain ⟨hmayT, hmayC⟩ := List.forall_mem_append.mp hmayTC
    rw [TypeFlow.inferForm, ExprForm.nodes, List.append_assoc, flaws_append, flaws_append]
    refine (inferExpr h test hmayT).bind fun _ => (inferExpr h consequent hmayC).bind fun a => ?_
    exact last (inferExpr h alternate hmayA) fun b => pure _
  | sequence exprs =>
    rw [ExprForm.captures] at hmay
    rw [TypeFlow.inferForm, ExprForm.nodes]
    exact last (inferAll h exprs hmay) fun ts => pure _
termination_by structural form

theorem inferAll (h : Serves p inside i) (es : List Expr)
    (hmay : ∀ d ∈ Expr.capturesAll es, p.MayCapture d) :
    Treats p inside (Expr.nodesAll false es) (inferAll i scope es) := by
  cases es with
  | nil => exact pure []
  | cons e es =>
    rw [Expr.capturesAll] at hmay
    obtain ⟨hmayE, hmayR⟩ := List.forall_mem_append.mp hmay
    rw [TypeFlow.inferAll, Expr.nodesAll, Treats, flaws_append]
    refine (inferExpr h e hmayE).bind fun t => ?_
    exact last (inferAll h es hmayR) fun ts => pure _
termination_by structural es

theorem inferProps (h : Serves p inside i) (ps : List (String × Expr))
    (hmay : ∀ d ∈ Expr.capturesProps ps, p.MayCapture d) :
    Treats p inside (Expr.nodesProps false ps) (inferProps i scope ps) := by
  cases ps with
  | nil => exact pure []
  | cons e ps =>
    cases e with
    | mk key e =>
      rw [Expr.capturesProps] at hmay
      obtain ⟨hmayE, hmayR⟩ := List.forall_mem_append.mp hmay
      rw [TypeFlow.inferProps, Expr.nodesProps, Treats, flaws_append]
      refine (inferExpr h e hmayE).bind fun t => ?_
      exact last (inferProps h ps hmayR) fun ts => pure _
termination_by structural ps

/-- The callee of a call is an expression, whose receiver is kept. -/
theorem inferCallee (h : Serves p inside i) (e : Expr)
    (hmay : ∀ d ∈ e.captures none, p.MayCapture d) :
    Treats p inside (e.nodes false) (inferCallee i scope e) := by
  cases e with
  | mk id span form =>
    rw [Expr.captures] at hmay
    have hplain : Fares p inside (.expr ⟨id, span, form⟩ :: form.nodes false)
        (Expr.isMalformed ⟨id, span, form⟩ || flaws inside (form.nodes false)) (do
          let t ← TypeFlow.inferForm i scope id span form
          let value ← TypeFlow.settleExpr id form t
          return (⟨value, .undefined, none⟩ : Callee)) := by
      refine closing (inferForm h form id span hmay) fun t => ?_
      exact last (settleExpr ⟨id, span, form⟩ t) fun value => pure _
    rw [Treats, flaws_expr, Expr.nodes]
    cases form with
    | member object property =>
      rw [ExprForm.captures] at hmay
      rw [TypeFlow.inferCallee, ExprForm.nodes]
      refine (checkProperty id span property).bind fun _ => ?_
      refine closing (inferExpr h object hmay) fun receiver => ?_
      refine first (idle (.readMember receiver property)) fun value => ?_
      exact first (idle (.noteAccess id)) fun _ =>
        last (record ⟨id, span, .member object property⟩ value) fun _ => pure _
    | _ =>
      rw [TypeFlow.inferCallee]
      · exact hplain
      all_goals exact nofun
termination_by structural e

/-- What is done with the place that is assigned to records a type for it. -/
theorem evalTarget (h : Serves p inside i) (e : Expr)
    (hmay : ∀ d ∈ e.captures none, p.MayCapture d) {β : Type}
    {ns : List Node} {flawed : Bool} {k : Target → Walk β}
    (hnext : ∀ target, e.ident? = target.name? → Fares p inside (.expr e :: ns) flawed (k target)) :
    Fares p inside (e.nodes false ++ ns)
      ((!e.isAssignable || flaws inside (e.nodes false)) || flawed)
        (evalTarget i scope e >>= k) := by
  cases e with
  | mk id span form =>
    rw [Expr.captures] at hmay
    rw [flaws_expr, Expr.nodes]
    cases form with
    | ident name =>
      rw [TypeFlow.evalTarget, pure_bind]
      exact hnext _ rfl
    | member object property =>
      rw [ExprForm.captures] at hmay
      rw [TypeFlow.evalTarget, ExprForm.nodes]
      simp only [bind_assoc, pure_bind]
      have hwalked := (checkProperty id span property).bind fun _ =>
        (inferExpr h object hmay).bind fun t => hnext (.member t property object.isThis) rfl
      rw [← Bool.or_assoc] at hwalked
      exact hwalked.mono List.perm_middle.symm.subset rfl
    | index object key =>
      rw [ExprForm.captures] at hmay
      obtain ⟨hmayO, hmayK⟩ := List.forall_mem_append.mp hmay
      rw [TypeFlow.evalTarget, ExprForm.nodes, flaws_append]
      simp only [bind_assoc, pure_bind]
      have hwalked := (inferExpr h object hmayO).bind fun _ => (inferExpr h key hmayK).bind fun _ =>
        hnext .computed rfl
      rw [← List.append_assoc, ← Bool.or_assoc] at hwalked
      exact hwalked.mono List.perm_middle.symm.subset rfl
    | _ =>
      rw [TypeFlow.evalTarget]
      · exact malformed
      all_goals exact nofun
termination_by structural e

/-- An initial value that is a function literal is captured under the name of the variable. -/
theorem inferInit (h : Serves p inside i) (e : Expr) (name : String)
    (hmay : ∀ d ∈ e.captures (some name), p.MayCapture d) :
    Treats p inside (e.nodes false) (inferInit i scope name e) := by
  cases e with
  | mk id span form =>
    rw [Expr.captures] at hmay
    rw [Treats, flaws_expr, Expr.nodes]
    cases form with
    | function f =>
      rw [ExprForm.captures] at hmay
      rw [TypeFlow.inferInit, ExprForm.nodes, Func.nodes_false]
      refine closing (captureFunc h.tidy scope (hmay _ List.mem_cons_self)) fun value => ?_
      exact last (record ⟨id, span, .function f⟩ value) fun _ => pure _
    | _ =>
      rw [TypeFlow.inferInit]
      · exact closing (inferForm h _ id span hmay) fun t => settleExpr ⟨id, span, _⟩ t
      all_goals exact nofun
termination_by structural e

end

theorem inferOpt (h : Serves p inside i) (e : Option Expr)
    (hmay : ∀ d ∈ Expr.capturesOpt none e, p.MayCapture d) :
    Treats p inside (Expr.nodesOpt false e) (inferOpt i scope e) := by
  cases e with
  | none => exact pure _
  | some e => exact inferExpr h e hmay

theorem inferDecls (h : Serves p inside i) (ds : List Declarator)
    (hmay : ∀ d ∈ Declarator.capturesAll ds, p.MayCapture d) :
    Treats p inside (Declarator.nodesAll false ds) (inferDecls i scope ds) := by
  induction ds with
  | nil => exact pure ()
  | cons decl ds ih =>
    cases decl with
    | mk name init =>
      rw [Declarator.capturesAll] at hmay
      obtain ⟨hmayI, hmayR⟩ := List.forall_mem_append.mp hmay
      cases init with
      | none => exact ih hmayR
      | some e =>
        rw [TypeFlow.inferDecls, Declarator.nodesAll, Treats, flaws_append]
        refine (inferInit h e name hmayI).bind fun t => ?_
        exact first (idle (.onEnv _)) fun _ => ih hmayR

theorem inferForInit (h : Serves p inside i) (init : ForInit)
    (hmay : ∀ d ∈ init.captures, p.MayCapture d) :
    Treats p inside (init.nodes false) (inferForInit i scope init) := by
  cases init with
  | none => exact pure ()
  | vars decls => exact inferDecls h decls hmay
  | expr e => exact last (inferExpr h e hmay) fun _ => pure ()

/-- The target of a `for`-`in` loop is flawed when it cannot be assigned to. -/
theorem inferForTarget (h : Serves p inside i) (target : ForTarget)
    (hmay : ∀ d ∈ target.captures, p.MayCapture d) :
    Fares p inside (target.nodes false) (!target.isAssignable || flaws inside (target.nodes false))
      (inferForTarget i scope target) := by
  cases target with
  | var name => exact first (idle (.onEnv _)) fun _ => pure ()
  | expr e =>
    rw [TypeFlow.inferForTarget]
    refine (evalTarget h e hmay fun target _ => ?_).mono (List.subset_append_left _ [])
      (Bool.or_false _).symm
    exact first (idle (.writeTarget scope .string target)) fun _ => record e .string

/-! ### Statements -/

mutual

/-- A statement, which is not recorded itself. -/
theorem inferStmt (h : Serves p inside i) (x : Stmt)
    (hmay : ∀ d ∈ x.captures, p.MayCapture d) :
    Treats p inside (x.nodes false) (inferStmt i scope x) := by
  cases x with
  | mk id span form =>
    rw [Stmt.captures] at hmay
    rw [TypeFlow.inferStmt]
    exact inferStmtForm h form id span hmay
termination_by structural x

/-- A form of statement: a `return` outside of functions is malformed after its argument was
walked. -/
theorem inferStmtForm (h : Serves p inside i) (form : StmtForm) (id : NodeId) (span : Span)
    (hmay : ∀ d ∈ form.captures, p.MayCapture d) :
    Treats p inside (Stmt.nodes false ⟨id, span, form⟩) (inferStmtForm i scope id span form) := by
  rw [Treats, flaws_stmt, Stmt.nodes]
  refine stmt ?_
  cases form with
  | block body =>
    rw [StmtForm.captures] at hmay
    rw [TypeFlow.inferStmtForm, StmtForm.nodes]
    exact inferBlock h body hmay
  | expr e =>
    rw [StmtForm.captures] at hmay
    rw [TypeFlow.inferStmtForm, StmtForm.nodes]
    exact last (inferExpr h e hmay) fun _ => pure ()
  | vars decls =>
    rw [StmtForm.captures] at hmay
    rw [TypeFlow.inferStmtForm, StmtForm.nodes]
    exact inferDecls h decls hmay
  | function f =>
    rw [StmtForm.captures] at hmay
    rw [TypeFlow.inferStmtForm, StmtForm.nodes, Func.nodes_false]
    refine last (captureFunc h.tidy scope (hmay _ List.mem_cons_self)) fun value => ?_
    exact idle (.record f.id value)
  | ret argument =>
    rw [StmtForm.captures] at hmay
    rw [TypeFlow.inferStmtForm, StmtForm.nodes]
    refine ((inferOpt h argument hmay).bind fun t => addReturn id span t).mono
      (List.subset_append_left _ []) ?_
    exact (Bool.or_comm _ _).trans (congrArg _ (Bool.or_false _))
  | branch test consequent alternate =>
    rw [StmtForm.captures] at hmay
    obtain ⟨hmayTC, hmayA⟩ := List.forall_mem_append.mp hmay
    obtain ⟨hmayT, hmayC⟩ := List.forall_mem_append.mp hmayTC
    rw [TypeFlow.inferStmtForm, StmtForm.nodes, List.append_assoc, flaws_append, flaws_append]
    refine (inferExpr h test hmayT).bind fun _ => ?_
    exact (inferStmt h consequent hmayC).bind fun _ => inferStmtOpt h alternate hmayA
  | whileLoop test body =>
    rw [StmtForm.captures] at hmay
    obtain ⟨hmayT, hmayB⟩ := List.forall_mem_append.mp hmay
    rw [TypeFlow.inferStmtForm, StmtForm.nodes, flaws_append]
    exact (inferExpr h test hmayT).bind fun _ => inferStmt h body hmayB
  | doWhile body test =>
    rw [StmtForm.captures] at hmay
    obtain ⟨hmayT, hmayB⟩ := List.forall_mem_append.mp hmay
    rw [TypeFlow.inferStmtForm, StmtForm.nodes, flaws_append]
    exact (inferExpr h test hmayT).bind fun _ => inferStmt h body hmayB
  | forLoop init test update body =>
    rw [StmtForm.captures] at hmay
    obtain ⟨hmayITU, hmayB⟩ := List.forall_mem_append.mp hmay
    obtain ⟨hmayIT, hmayU⟩ := List.forall_mem_append.mp hmayITU
    obtain ⟨hmayI, hmayT⟩ := List.forall_mem_append.mp hmayIT
    rw [TypeFlow.inferStmtForm, StmtForm.nodes]
    refine ((inferForInit h init hmayI).bind fun _ => (inferOpt h test hmayT).bind fun _ =>
      (inferStmt h body hmayB).bind fun _ => last (inferOpt h update hmayU) fun _ => pure ()).mono
        (fun n hmem => ?_) ?_
    · simp only [List.mem_append] at hmem ⊢
      tauto
    · change flaws inside _ = _
      simp only [flaws_append]
      ac_rfl
  | forIn target right body =>
    rw [StmtForm.captures] at hmay
    obtain ⟨hmayTR, hmayB⟩ := List.forall_mem_append.mp hmay
    obtain ⟨hmayT, hmayR⟩ := List.forall_mem_append.mp hmayTR
    rw [TypeFlow.inferStmtForm, StmtForm.nodes]
    refine ((inferExpr h right hmayR).bind fun _ => (inferForTarget h target hmayT).bind fun _ =>
      inferStmt h body hmayB).mono (fun n hmem => ?_) ?_
    · simp only [List.mem_append] at hmem ⊢
      tauto
    · change (!target.isAssignable || flaws inside _) = _
      simp only [flaws_append]
      ac_rfl
  | switch discriminant cases =>
    rw [StmtForm.captures] at hmay
    obtain ⟨hmayD, hmayC⟩ := List.forall_mem_append.mp hmay
    rw [TypeFlow.inferStmtForm, StmtForm.nodes, flaws_append]
    exact (inferExpr h discriminant hmayD).bind fun _ => inferCases h cases hmayC
  | throw argument =>
    rw [StmtForm.captures] at hmay
    rw [TypeFlow.inferStmtForm, StmtForm.nodes]
    exact last (inferExpr h argument hmay) fun _ => pure ()
  | guarded block handler finalizer =>
    rw [StmtForm.captures] at hmay
    obtain ⟨hmayBH, hmayF⟩ := List.forall_mem_append.mp hmay
    obtain ⟨hmayB, hmayH⟩ := List.forall_mem_append.mp hmayBH
    rw [TypeFlow.inferStmtForm, StmtForm.nodes, List.append_assoc, flaws_append, flaws_append]
    refine (inferBlock h block hmayB).bind fun _ => ?_
    exact (inferHandler h handler hmayH).bind fun _ => inferBlock h finalizer hmayF
  | _ =>
    rw [TypeFlow.inferStmtForm]
    exact pure ()
termination_by structural form

/-- Statements one after the other. -/
theorem inferBlock (h : Serves p inside i) (body : List Stmt)
    (hmay : ∀ d ∈ Stmt.capturesAll body, p.MayCapture d) :
    Treats p inside (Stmt.nodesAll false body) (inferBlock i scope body) := by
  cases body with
  | nil => exact pure ()
  | cons x rest =>
    rw [Stmt.capturesAll] at hmay
    obtain ⟨hmayX, hmayR⟩ := List.forall_mem_append.mp hmay
    rw [TypeFlow.inferBlock, Stmt.nodesAll, Treats, flaws_append]
    exact (inferStmt h x hmayX).bind fun _ => inferBlock h rest hmayR
termination_by structural body

theorem inferStmtOpt (h : Serves p inside i) (x : Option Stmt)
    (hmay : ∀ d ∈ Stmt.capturesOpt x, p.MayCapture d) :
    Treats p inside (Stmt.nodesOpt false x) (inferStmtOpt i scope x) := by
  cases x with
  | none => exact pure ()
  | some x => exact inferStmt h x hmay
termination_by structural x

theorem inferCases (h : Serves p inside i) (cs : List Case)
    (hmay : ∀ d ∈ Case.capturesAll cs, p.MayCapture d) :
    Treats p inside (Case.nodesAll false cs) (inferCases i scope cs) := by
  cases cs with
  | nil => exact pure ()
  | cons c cs =>
    cases c with
    | mk test body =>
      rw [Case.capturesAll] at hmay
      obtain ⟨hmayTB, hmayR⟩ := List.forall_mem_append.mp hmay
      obtain ⟨hmayT, hmayB⟩ := List.forall_mem_append.mp hmayTB
      rw [TypeFlow.inferCases, Case.nodesAll, Treats, List.append_assoc, flaws_append, flaws_append]
      refine (inferOpt h test hmayT).bind fun _ => ?_
      exact (inferBlock h body hmayB).bind fun _ => inferCases h cs hmayR
termination_by structural cs

/-- A `catch` clause is walked like a block, with its parameter bound. -/
theorem inferHandler (h : Serves p inside i) (handler : Option Handler)
    (hmay : ∀ d ∈ Handler.capturesOpt handler, p.MayCapture d) :
    Treats p inside (Handler.nodesOpt false handler) (inferHandler i scope handler) := by
  cases handler with
  | none => exact pure ()
  | some handler =>
    cases handler with
    | mk param body =>
      rw [TypeFlow.inferHandler]
      exact first (idle (.onEnv _)) fun _ => inferBlock h body hmay
termination_by structural handler

end

end Fares

end TypeFlow
