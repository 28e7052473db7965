import Mathlib
import TypeFlow.Proofs.Engine.Reached

/-!
# Ordered tables

The maps and the sets in the tables of a state ascend, in every state that a run passes.  So what
they hold determines them.

## Main Definitions

* `Run.Ordered` - the maps and the sets in the tables ascend

## Main Statements

* `Update.ordered` - every update keeps the tables ordered
* `Run.Reached.ordered` - the tables are ordered in all states that are reached

## Design Notes

What is noted for the report is left out, since no write to the tables depends on its order.
-/

namespace TypeFlow

/-! ### Ordered entries -/

/-- The maps and the sets of a constructor ascend. -/
structure Ctor.Ordered (c : Ctor) : Prop where
  parents : OrdSet.Ascending c.parents
  shares : OrdSet.Ascending c.shares
  methods : OrdMap.Ascending c.methods
  ownFields : OrdMap.Ascending c.ownFields

instance (c : Ctor) : Decidable c.Ordered :=
  decidable_of_iff (OrdSet.Ascending c.parents ∧ OrdSet.Ascending c.shares ∧
      OrdMap.Ascending c.methods ∧ OrdMap.Ascending c.ownFields)
    ⟨fun h => ⟨h.1, h.2.1, h.2.2.1, h.2.2.2⟩,
      fun h => ⟨h.parents, h.shares, h.methods, h.ownFields⟩⟩

/-- The maps and the sets in the tables ascend. -/
structure Run.Ordered (s : Run) : Prop where
  scopes : ∀ c ∈ s.env.scopes, OrdMap.Ascending c.bindings
  cells : ∀ c ∈ s.heap.cells, OrdMap.Ascending c.fields
  ctors : ∀ c ∈ s.protos.ctors, c.Ordered
  nodes : OrdMap.Ascending s.nodeTypes

instance (s : Run) : Decidable s.Ordered :=
  decidable_of_iff ((∀ c ∈ s.env.scopes, OrdMap.Ascending c.bindings) ∧
      (∀ c ∈ s.heap.cells, OrdMap.Ascending c.fields) ∧
      (∀ c ∈ s.protos.ctors, c.Ordered) ∧ OrdMap.Ascending s.nodeTypes)
    ⟨fun h => ⟨h.1, h.2.1, h.2.2.1, h.2.2.2⟩, fun h => ⟨h.scopes, h.cells, h.ctors, h.nodes⟩⟩

section Table

variable {α : Type} {P : α → Prop} {xs : Array α}

theorem forall_mem_push (hall : ∀ x ∈ xs, P x) {a : α} (hnew : P a) : ∀ x ∈ xs.push a, P x := by
  intro x hmem
  rcases Array.mem_push.mp hmem with hmem | rfl
  · exact hall x hmem
  · exact hnew

theorem forall_mem_modify (hall : ∀ x ∈ xs, P x) (id : Nat) {f : α → α}
    (hstep : ∀ x, P x → P (f x)) : ∀ x ∈ xs.modify id f, P x := by
  intro x hmem
  obtain ⟨i, hfound⟩ := Array.mem_iff_getElem?.mp hmem
  rcases getElem?_modify_cases hfound with hstays | ⟨-, y, hget, rfl⟩
  · exact hall x (Array.mem_of_getElem? hstays)
  · exact hstep y (hall y (Array.mem_of_getElem? hget))

end Table

/-! ### Writes -/

section Writes

theorem Env.setBindings_ordered {e : Env} (hordered : ∀ c ∈ e.scopes, OrdMap.Ascending c.bindings)
    (id : ScopeId) {b : Fields} (hnew : OrdMap.Ascending b) :
    ∀ c ∈ (e.setBindings id b).scopes, OrdMap.Ascending c.bindings := by
  rw [Env.setBindings]
  exact forall_mem_modify hordered id (f := fun c => { c with bindings := b }) fun _ _ => hnew

/-- Writes to the environment keep the bindings of all scopes in order. -/
theorem Env.Write.ordered (w : Env.Write) {e : Env}
    (hordered : ∀ c ∈ e.scopes, OrdMap.Ascending c.bindings) :
    ∀ c ∈ (w.apply e).scopes, OrdMap.Ascending c.bindings := by
  cases w with
  | bind id name t =>
    rcases Env.after_bind e id name t with hsame | ⟨c, hfound, -, heq⟩
    · rw [apply, hsame]
      exact hordered
    · rw [apply, heq]
      exact Env.setBindings_ordered hordered id
        ((hordered c (Array.mem_of_getElem? hfound)).insert name _)
  | enter key parent owner =>
    rcases Env.after_enter e key parent owner with hsame | ⟨-, heq⟩
    · rw [apply, hsame]
      exact hordered
    · rw [apply, heq]
      exact forall_mem_push hordered List.Pairwise.nil

/-- Writes to the heap keep the fields of all cells in order. -/
theorem Heap.Write.ordered (w : Heap.Write) {h : Heap}
    (hordered : ∀ c ∈ h.cells, OrdMap.Ascending c.fields) :
    ∀ c ∈ (w.apply h).cells, OrdMap.Ascending c.fields := by
  cases w with
  | alloc site =>
    rcases Heap.after_cellFor h site with hsame | ⟨-, heq⟩
    · rw [apply, hsame]
      exact hordered
    · rw [apply, heq]
      exact forall_mem_push hordered List.Pairwise.nil
  | field id name t =>
    rcases Heap.after_writeCell h id name t with hsame | ⟨c, -, -, heq⟩
    · rw [apply, hsame]
      exact hordered
    · rw [apply, heq]
      dsimp only
      apply forall_mem_modify hordered
      exact fun c hascends => hascends.insert name _

/-- Altering a constructor keeps the graph in order when the change keeps constructors in order. -/
theorem Protos.alter_ordered {g : Protos} (hordered : ∀ c ∈ g.ctors, c.Ordered) (id : CtorId)
    (changed : Ctor → Bool) {f : Ctor → Ctor} (hstep : ∀ c : Ctor, c.Ordered → (f c).Ordered) :
    ∀ c ∈ (after (Protos.alter id changed f) g).ctors, c.Ordered := by
  rcases Protos.after_alter g id changed f with hsame | ⟨c, -, -, heq⟩
  · rw [hsame]
    exact hordered
  · rw [heq]
    exact forall_mem_modify hordered id hstep

/-- Writes to the prototype graph keep all constructors in order. -/
theorem Protos.Write.ordered (w : Protos.Write) {g : Protos}
    (hordered : ∀ c ∈ g.ctors, c.Ordered) : ∀ c ∈ (w.apply g).ctors, c.Ordered := by
  cases w with
  | ctor closure name =>
    rcases Protos.after_ctorFor g closure name with hsame | ⟨-, heq⟩
    · rw [apply, hsame]
      exact hordered
    · rw [apply, heq]
      exact forall_mem_push hordered ⟨.nil, .nil, .nil, .nil⟩
  | method id name t =>
    exact Protos.alter_ordered hordered id _ fun c h =>
      ⟨h.parents, h.shares, h.methods.insert name _, h.ownFields⟩
  | ownField id name t =>
    exact Protos.alter_ordered hordered id _ fun c h =>
      ⟨h.parents, h.shares, h.methods, h.ownFields.insert name _⟩
  | parent id p =>
    exact Protos.alter_ordered hordered id _ fun c h =>
      ⟨h.parents.insert p, h.shares, h.methods, h.ownFields⟩
  | share id other =>
    rcases Protos.after_share g id other with hsame | heq
    · rw [apply, hsame]
      exact hordered
    · rw [apply, heq]
      exact Protos.alter_ordered hordered id _ fun c h =>
        ⟨h.parents, h.shares.insert other, h.methods, h.ownFields⟩
  | analysed id =>
    rcases Protos.after_markAnalysed g id with hsame | heq
    · rw [apply, hsame]
      exact hordered
    · rw [apply, heq]
      dsimp only
      apply forall_mem_modify hordered
      exact fun c h => ⟨h.parents, h.shares, h.methods, h.ownFields⟩

end Writes

/-! ### Runs -/

/-- Every update keeps the tables ordered. -/
theorem Update.ordered (u : Update) {s : Run} (h : s.Ordered) : (u.apply s).Ordered := by
  obtain ⟨hscopes, hcells, hctors, hnodes⟩ := h
  cases u with
  | env w => exact ⟨w.ordered hscopes, hcells, hctors, hnodes⟩
  | heap w => exact ⟨hscopes, w.ordered hcells, hctors, hnodes⟩
  | protos w => exact ⟨hscopes, hcells, w.ordered hctors, hnodes⟩
  | record node t => exact ⟨hscopes, hcells, hctors, hnodes.upsert node _ t⟩
  | _ => exact ⟨hscopes, hcells, hctors, hnodes⟩

theorem Env.declare_apply (e : Env) (id : ScopeId) (name : String) (t : Ty) :
    Env.declare id name t e =
      match e.scopes[id]? with
      | none => .error (.scope id) e
      | some c =>
        if OrdMap.get? c.bindings name = some t then .ok () e
        else .ok () (e.setBindings id (OrdMap.insert c.bindings name t)) := by
  change (Env.declare id name t).run e = _
  cases hfound : e.scopes[id]? with
  | none => simp [Env.declare, Env.scope, hfound]
  | some c =>
    by_cases hsame : OrdMap.get? c.bindings name = some t <;>
      simp [Env.declare, Env.scope, hfound, hsame]

/-- Declaring what is given before a run keeps the bindings in order. -/
theorem Env.declareAll_ordered {seeds : List (String × Ty)} {e e' : Env}
    (hordered : ∀ c ∈ e.scopes, OrdMap.Ascending c.bindings)
    (hran : Env.declareAll seeds e = .ok () e') :
    ∀ c ∈ e'.scopes, OrdMap.Ascending c.bindings := by
  induction seeds generalizing e with
  | nil =>
    cases hran
    exact hordered
  | cons g rest ih =>
    change EStateM.bind (Env.declare Env.global g.1 g.2) (fun _ => Env.declareAll rest) e =
      _ at hran
    rw [EStateM.bind, Env.declare_apply] at hran
    cases hfound : e.scopes[Env.global]? with
    | none =>
      rw [hfound] at hran
      cases hran
    | some c =>
      rw [hfound] at hran
      dsimp only at hran
      split at hran
      · next heq =>
        split at heq
        · cases heq
          exact ih hordered hran
        · cases heq
          exact ih (Env.setBindings_ordered hordered _
            ((hordered c (Array.mem_of_getElem? hfound)).insert g.1 g.2)) hran
      · cases hran

/-- The tables are ordered before the first program. -/
theorem start_ordered (options : Options) (globals : Globals) :
    (Run.start options globals).Ordered := by
  refine ⟨?_, by simp [Run.start, Heap.empty], by simp [Run.start, Protos.empty], .nil⟩
  let seeds := (if options.seedBuiltins then Globals.builtins else []) ++ globals
  obtain ⟨b, n, hbound, -⟩ := Env.declareAll_global seeds [] 0
  have hrun : (Env.declareAll seeds).run Env.initial = .ok () ⟨#[⟨none, none, b⟩], .empty, n⟩ :=
    hbound
  change ∀ c ∈ (Env.withGlobals seeds).scopes, _
  rw [Env.withGlobals, hrun]
  refine Env.declareAll_ordered ?_ hbound
  simp [OrdMap.Ascending]

/-- The tables are ordered in all states that are reached. -/
theorem Run.Reached.ordered {s : Run} {options : Options} {globals : Globals} {ps : List Program}
    (h : s.Reached options globals ps) : s.Ordered :=
  h.induct (start_ordered options globals) fun _ u _ _ hordered => u.ordered hordered

end TypeFlow
