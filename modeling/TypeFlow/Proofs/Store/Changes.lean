import Mathlib
import TypeFlow.Proofs.Ordered
import TypeFlow.Store.Closures
import TypeFlow.Store.Env
import TypeFlow.Store.Protos

/-!
# What the operations on the tables do

For every operation of the environment, of the closure table, of the heap and of the prototype graph
that alters one entry or adds one, all its outcomes.

## Main Definitions

* `Grows` - the entries of a table stay at their places in another one
* `after` - the state that a computation leaves behind

## Main Statements

* `Env.bind_apply`, `Env.enter_apply`, `Env.assign_apply` - the environment
* `Closures.captureId_apply`, `Closures.recordCall_apply` - the closure table
* `Heap.writeCell_apply`, `Heap.cellFor_apply` - the heap
* `Protos.ctorFor_apply`, `Protos.alter_apply`, `Protos.markAnalysed_apply` - the prototype graph
* `Env.enter_spec`, `Closures.captureId_spec`, `Heap.cellFor_spec`, `Protos.ctorFor_spec` - the
  index leads from the key to the entry that is answered

## Design Notes

An operation that fails leaves its table as it is, so each equation lists the failure beside the
outcomes in which nothing changes, an entry is altered, or an entry is added.
-/

namespace TypeFlow

/-! ### Tables -/

section Table

variable {α : Type} {R : α → α → Prop} {xs ys zs : Array α}

/-- Every entry of a table is still at its place in another one, altered at most as `R` allows. -/
def Grows (R : α → α → Prop) (xs ys : Array α) : Prop :=
  ∀ (i : Nat) x, xs[i]? = some x → ∃ y, ys[i]? = some y ∧ R x y

theorem Grows.refl (hR : ∀ x, R x x) (xs : Array α) : Grows R xs xs :=
  fun _ x hfound => ⟨x, hfound, hR x⟩

/-- A table that grows twice grows. -/
theorem Grows.trans (hR : ∀ x y z, R x y → R y z → R x z) (h : Grows R xs ys) (h' : Grows R ys zs) :
    Grows R xs zs := by
  intro i x hfound
  obtain ⟨y, hfoundY, hxy⟩ := h i x hfound
  obtain ⟨z, hfoundZ, hyz⟩ := h' i y hfoundY
  exact ⟨z, hfoundZ, hR x y z hxy hyz⟩

theorem Grows.size_le (h : Grows R xs ys) : xs.size ≤ ys.size := by
  by_contra hless
  have hinside : ys.size < xs.size := Nat.lt_of_not_le hless
  obtain ⟨y, hfound, -⟩ := h ys.size xs[ys.size] (Array.getElem?_eq_getElem hinside)
  simp at hfound

/-- A table grows by an entry at its end. -/
theorem Grows.push (hR : ∀ x, R x x) (xs : Array α) (a : α) : Grows R xs (xs.push a) := by
  intro i x hfound
  obtain ⟨hinside, -⟩ := Array.getElem?_eq_some_iff.mp hfound
  exact ⟨x, by rw [Array.getElem?_push_lt hinside, ← hfound, Array.getElem?_eq_getElem], hR x⟩

/-- A table grows when an entry is altered as `R` allows. -/
theorem Grows.modify (hR : ∀ x, R x x) {i : Nat} {f : α → α}
    (hf : ∀ x, xs[i]? = some x → R x (f x)) : Grows R xs (xs.modify i f) := by
  intro j x hfound
  rw [Array.getElem?_modify]
  split
  · next hsame =>
    subst hsame
    exact ⟨f x, by rw [hfound, Option.map_some], hf x hfound⟩
  · exact ⟨x, hfound, hR x⟩

theorem getElem?_push_cases {a b : α} {i : Nat} (h : (xs.push a)[i]? = some b) :
    xs[i]? = some b ∨ (i = xs.size ∧ b = a) := by
  rw [Array.getElem?_push] at h
  split at h
  · next hlast => exact Or.inr ⟨hlast, (Option.some.inj h).symm⟩
  · exact Or.inl h

theorem getElem?_modify_cases {f : α → α} {b : α} {i j : Nat} (h : (xs.modify i f)[j]? = some b) :
    xs[j]? = some b ∨ (j = i ∧ ∃ a, xs[i]? = some a ∧ b = f a) := by
  rw [Array.getElem?_modify] at h
  split at h
  · next hsame =>
    subst hsame
    obtain ⟨a, hfound, rfl⟩ := Option.map_eq_some_iff.mp h
    exact Or.inr ⟨rfl, a, hfound, rfl⟩
  · exact Or.inl h

end Table

/-- The state that a computation leaves behind, whether it succeeds or stops. -/
def after {ε σ α : Type} (m : EStateM ε σ α) (s : σ) : σ :=
  match m s with
  | .ok _ s' => s'
  | .error _ s' => s'

/-! ### Named slots -/

/-- An entry of a widened map is an old one, or has the new type, or the join of it with an old
one. -/
theorem Fields.mem_widen {m : Fields} {name : String} {t : Ty} {e : String × Ty}
    (h : e ∈ Fields.widen m name t) :
    e ∈ m ∨ e.2 = t ∨ ∃ old, (name, old) ∈ m ∧ e.2 = old.join t := by
  rcases OrdMap.mem_insert_of_mem h with rfl | hmem
  · unfold Fields.widened
    split
    · next old hfound => exact Or.inr (Or.inr ⟨old, OrdMap.mem_of_get? hfound, rfl⟩)
    · exact Or.inr (Or.inl rfl)
  · exact Or.inl hmem

/-! ### The environment -/

namespace Env

variable (e : Env)

/-- Binding a name fails without its scope, and changes the scope when it widens the type. -/
theorem bind_apply (id : ScopeId) (name : String) (t : Ty) :
    bind id name t e =
      match e.scopes[id]? with
      | none => .error (.scope id) e
      | some s =>
        if Fields.widens s.bindings name t then
          .ok true (e.setBindings id (Fields.widen s.bindings name t))
        else
          .ok false e := by
  change (bind id name t).run e = _
  cases hfound : e.scopes[id]? with
  | none =>
    simp only [bind, scope, EStateM.run_bind, EStateM.run_get, hfound]
    rfl
  | some s =>
    cases hwidens : Fields.widens s.bindings name t <;> simp [bind, scope, hfound, hwidens]

/-- An activation that the index leads to has its scope; for any other a scope is added, and the
index leads to it. -/
theorem enter_apply (key : ActivationKey) (parent : ScopeId) (owner : Option NodeId) :
    enter key parent owner e =
      match e.activations.place? key with
      | some id => .ok (id, false) e
      | none =>
        .ok (e.scopes.size, true)
          { e with
            scopes := e.scopes.push ⟨some parent, owner, []⟩
            activations := e.activations.note key e.scopes.size } := by
  change (enter key parent owner).run e = _
  cases hfound : e.activations.place? key <;> simp [enter, newScope, hfound]

/-- The index leads from an activation to the scope that it has. -/
theorem enter_spec {e e' : Env} {key : ActivationKey} {parent : ScopeId} {owner : Option NodeId}
    {r : ScopeId × Bool} (h : enter key parent owner e = .ok r e') :
    e'.activations.place? key = some r.1 := by
  rw [enter_apply] at h
  cases hfound : e.activations.place? key with
  | some id =>
    rw [hfound] at h
    cases h
    exact hfound
  | none =>
    rw [hfound] at h
    cases h
    rw [Index.place?_note, if_pos rfl]

/-- An assignment binds the name in the scope that it resolves to, and does nothing for a name that
is not bound. -/
theorem assign_apply (id : ScopeId) (name : String) (t : Ty) :
    assign id name t e =
      match e.resolve id name with
      | .error d => .error d e
      | .ok none => .ok none e
      | .ok (some owner) =>
        match bind owner name t e with
        | .ok _ e' => .ok (some owner) e'
        | .error d e' => .error d e' := by
  change (assign id name t).run e = _
  rcases hfound : e.resolve id name with d | _ | owner
  · simp only [assign, EStateM.run_bind, EStateM.run_get, hfound]
    rfl
  · simp [assign, hfound]
  · simp only [assign, EStateM.run_bind, EStateM.run_get, hfound]
    unfold EStateM.run
    cases bind owner name t e <;> rfl

end Env

/-! ### The closure table -/

namespace Closures

variable (cs : Closures)

/-- A literal that the index leads to in the scope has its closure; for any other a closure is
added, and the index leads to it. -/
theorem captureId_apply (scope : ScopeId) (f : Func) :
    captureId scope f cs =
      match cs.bySite.place? (f.id, scope) with
      | some id => .ok id cs
      | none =>
        .ok cs.table.size
          { table := cs.table.push
              ⟨f, scope, List.replicate f.params.length .never, .never, 0, false⟩
            bySite := cs.bySite.note (f.id, scope) cs.table.size } := by
  change (captureId scope f).run cs = _
  cases hfound : cs.bySite.place? (f.id, scope) <;> simp [captureId, hfound]

/-- The index leads from a literal and a scope to the closure that is captured. -/
theorem captureId_spec {cs cs' : Closures} {scope : ScopeId} {f : Func} {id : ClosureId}
    (h : captureId scope f cs = .ok id cs') : cs'.bySite.place? (f.id, scope) = some id := by
  rw [captureId_apply] at h
  cases hfound : cs.bySite.place? (f.id, scope) with
  | some i =>
    rw [hfound] at h
    cases h
    exact hfound
  | none =>
    rw [hfound] at h
    cases h
    rw [Index.place?_note, if_pos rfl]

/-- A recorded call joins into the signature of its closure and is counted there. -/
theorem recordCall_apply (id : ClosureId) (args : List Ty) (ret : Ty) :
    recordCall id args ret cs =
      match cs.table[id]? with
      | none => .error (.closure id) cs
      | some _ =>
        .ok () { cs with table := cs.table.modify id fun c =>
          { c with
            params := joinArgs c.params args
            ret := c.ret.join ret
            calls := c.calls + 1 } } := by
  change (recordCall id args ret).run cs = _
  cases hfound : cs.table[id]? with
  | none =>
    simp only [recordCall, closure, EStateM.run_bind, EStateM.run_get, hfound]
    rfl
  | some c => simp [recordCall, closure, hfound]

/-- A closure that exists is marked. -/
theorem markSelfReferential_apply (id : ClosureId) :
    markSelfReferential id cs =
      match cs.table[id]? with
      | none => .error (.closure id) cs
      | some _ =>
        .ok () { cs with table := cs.table.modify id fun c =>
          { c with selfReferential := true } } := by
  change (markSelfReferential id).run cs = _
  cases hfound : cs.table[id]? with
  | none =>
    simp only [markSelfReferential, closure, EStateM.run_bind, EStateM.run_get, hfound]
    rfl
  | some c => simp [markSelfReferential, closure, hfound]

/-- The arguments of a call are joined to the declared parameters, a missing one as `undefined`. -/
theorem mem_joinArgs {ps args : List Ty} {t : Ty} (h : t ∈ joinArgs ps args) :
    ∃ p ∈ ps, ∃ a, (a ∈ args ∨ a = .undefined) ∧ t = p.join a := by
  fun_induction joinArgs ps args with
  | case1 => cases h
  | case2 p ps ih =>
    rcases List.mem_cons.mp h with rfl | hmem
    · exact ⟨p, List.mem_cons_self, .undefined, Or.inr rfl, rfl⟩
    · obtain ⟨q, hinside, a, hgiven, heq⟩ := ih hmem
      exact ⟨q, List.mem_cons_of_mem p hinside, a, hgiven, heq⟩
  | case3 p ps a as ih =>
    rcases List.mem_cons.mp h with rfl | hmem
    · exact ⟨p, List.mem_cons_self, a, Or.inl List.mem_cons_self, rfl⟩
    · obtain ⟨q, hinside, b, hgiven, heq⟩ := ih hmem
      exact ⟨q, List.mem_cons_of_mem p hinside, b, hgiven.imp_left (List.mem_cons_of_mem a), heq⟩

end Closures

/-! ### The heap -/

namespace Heap

variable (h : Heap)

/-- Writing a field fails without the cell, and changes the cell when it widens the type. -/
theorem writeCell_apply (id : CellId) (name : String) (t : Ty) :
    writeCell id name t h =
      match h.cells[id]? with
      | none => .error (.cell id) h
      | some c =>
        if Fields.widens c.fields name t then
          .ok true
            { h with
              cells := h.cells.modify id fun c =>
                { c with fields := Fields.widen c.fields name t }
              changes := h.changes + 1 }
        else
          .ok false h := by
  change (writeCell id name t).run h = _
  cases hfound : h.cells[id]? with
  | none =>
    simp only [writeCell, cell, EStateM.run_bind, EStateM.run_get, hfound]
    rfl
  | some c =>
    cases hwidens : Fields.widens c.fields name t <;> simp [writeCell, cell, hfound, hwidens]

/-- A site that the index leads to has its cell; for any other a cell is added, and the index leads
to it. -/
theorem cellFor_apply (site : AllocSite) :
    cellFor site h =
      match h.bySite.place? site with
      | some id => .ok id h
      | none =>
        .ok h.cells.size
          { cells := h.cells.push ⟨site, []⟩
            bySite := h.bySite.note site h.cells.size
            changes := h.changes + 1 } := by
  change (cellFor site).run h = _
  cases hfound : h.bySite.place? site <;> simp [cellFor, hfound]

/-- The index leads from a site to its cell. -/
theorem cellFor_spec {h h' : Heap} {site : AllocSite} {id : CellId}
    (heq : cellFor site h = .ok id h') : h'.bySite.place? site = some id := by
  rw [cellFor_apply] at heq
  cases hfound : h.bySite.place? site with
  | some i =>
    rw [hfound] at heq
    cases heq
    exact hfound
  | none =>
    rw [hfound] at heq
    cases heq
    rw [Index.place?_note, if_pos rfl]

end Heap

/-! ### The prototype graph -/

namespace Protos

variable (g : Protos)

/-- A closure that the index leads to has its constructor; for any other a constructor is added, and
the index leads to it. -/
theorem ctorFor_apply (closure : ClosureId) (name : Option String) :
    ctorFor closure name g =
      match g.find? closure with
      | some id => .ok id g
      | none =>
        .ok g.ctors.size
          { ctors := g.ctors.push ⟨name, some closure, [], [], [], [], false⟩
            byClosure := g.byClosure.note closure g.ctors.size
            changes := g.changes + 1 } := by
  change (ctorFor closure name).run g = _
  cases hfound : g.find? closure <;> simp [ctorFor, add, hfound]

/-- The index leads from a closure to its constructor. -/
theorem ctorFor_spec {g g' : Protos} {closure : ClosureId} {name : Option String} {id : CtorId}
    (heq : ctorFor closure name g = .ok id g') : g'.find? closure = some id := by
  rw [ctorFor_apply] at heq
  cases hfound : g.find? closure with
  | some i =>
    rw [hfound] at heq
    cases heq
    exact hfound
  | none =>
    rw [hfound] at heq
    cases heq
    rw [find?, Index.place?_note, if_pos rfl]

/-- A constructor is altered when it exists and the test says that it changes. -/
theorem alter_apply (id : CtorId) (changed : Ctor → Bool) (f : Ctor → Ctor) :
    alter id changed f g =
      match g.ctors[id]? with
      | none => .error (.ctor id) g
      | some c =>
        if changed c then
          .ok true { g with ctors := g.ctors.modify id f, changes := g.changes + 1 }
        else
          .ok false g := by
  change (alter id changed f).run g = _
  cases hfound : g.ctors[id]? with
  | none =>
    simp only [alter, ctor, EStateM.run_bind, EStateM.run_get, hfound]
    rfl
  | some c => cases hchanges : changed c <;> simp [alter, ctor, hfound, hchanges]

theorem share_apply (id other : CtorId) :
    share id other g =
      if id = other then .ok false g
      else
        alter id (fun c => !c.shares.contains other)
          (fun c => { c with shares := OrdSet.insert other c.shares }) g := by
  unfold share
  split <;> rfl

theorem markAnalysed_apply (id : CtorId) :
    markAnalysed id g =
      match g.ctors[id]? with
      | none => .error (.ctor id) g
      | some _ =>
        .ok () { g with ctors := g.ctors.modify id fun c => { c with analysed := true } } := by
  change (markAnalysed id).run g = _
  cases hfound : g.ctors[id]? with
  | none =>
    simp only [markAnalysed, ctor, EStateM.run_bind, EStateM.run_get, hfound]
    rfl
  | some c => simp [markAnalysed, ctor, hfound]

end Protos

end TypeFlow
