import Mathlib
import TypeFlow.Proofs.Engine.Update
import TypeFlow.Proofs.Script.Names

/-!
# Frames

The scope of an activation is a frame of the function whose closure was called.  The nodes of the
function's body are walked in its frames, and a frame binds names of the function only.

## Main Definitions

* `Run.Binds` - a scope binds a name
* `Run.IsFrame` - a scope is a frame of a function
* `Run.Encloses` - a node is walked where it stands
* `Run.MayBind` - a name may be bound in a scope
* `Run.Prepared` - a frame binds all names that its function has

## Main Statements

* `Update.binds_cases` - only binding a name makes a scope bind it
* `Update.keeps_binds` - what is bound stays bound
-/

namespace TypeFlow

theorem Fields.contains_widen {m : Fields} {name k : String} {t : Ty} :
    OrdMap.contains (Fields.widen m name t) k = true ↔ k = name ∨ OrdMap.contains m k = true := by
  unfold OrdMap.contains Fields.widen
  by_cases hsame : k = name
  · subst hsame
    rw [OrdMap.get?_insert_self]
    exact ⟨fun _ => .inl rfl, fun _ => rfl⟩
  · rw [OrdMap.get?_insert_of_ne _ _ hsame]
    exact ⟨.inr, fun h => h.resolve_left hsame⟩

/-- Scopes keep the names that they bind. -/
theorem Env.Write.keeps_names (w : Env.Write) (e : Env) :
    Grows (fun x y : Scope => ∀ name, OrdMap.contains x.bindings name = true →
      OrdMap.contains y.bindings name = true) e.scopes (w.apply e).scopes := by
  cases w with
  | bind id name t =>
    rcases Env.after_bind e id name t with hsame | ⟨x, hfound, -, heq⟩
    · rw [Env.Write.apply, hsame]
      exact Grows.refl (fun _ _ hbound => hbound) _
    · rw [Env.Write.apply, heq]
      refine Grows.modify (fun _ _ hbound => hbound) fun y hfound' k hbound => ?_
      cases hfound.symm.trans hfound'
      exact Fields.contains_widen.mpr (.inr hbound)
  | enter key parent owner =>
    rcases Env.after_enter e key parent owner with hsame | ⟨-, heq⟩
    · rw [Env.Write.apply, hsame]
      exact Grows.refl (fun _ _ hbound => hbound) _
    · rw [Env.Write.apply, heq]
      exact Grows.push (fun _ _ hbound => hbound) _ _

namespace Run

/-- A scope binds a name. -/
def Binds (s : Run) (id : ScopeId) (name : String) : Prop :=
  ∃ x, s.env.scopes[id]? = some x ∧ OrdMap.contains x.bindings name = true

/-- A scope was made for an activation of a closure, which has the given literal. -/
def IsFrame (s : Run) (id : ScopeId) (k : ClosureId) (f : Func) : Prop :=
  ∃ key c, s.env.activations.place? key = some id ∧ key.closure = k ∧
    s.closures.table[k]? = some c ∧ c.func = f

/-- A node is walked where it stands: in a frame of the function that it is in.  All nodes may be
walked in the global scope. -/
def Encloses (s : Run) (id : ScopeId) (n : Node) : Prop :=
  id = Env.global ∨ ∃ k f, s.IsFrame id k f ∧ n ∈ Stmt.nodesAll false f.body

/-- A name may be bound in a scope: any name in the global one, and names of the function in a
frame. -/
def MayBind (s : Run) (id : ScopeId) (name : String) : Prop :=
  id = Env.global ∨ s.Binds id name ∨ ∃ k f, s.IsFrame id k f ∧ name ∈ f.frameNames

/-- A scope is a frame of a closure that binds all names that its function has. -/
def Prepared (s : Run) (id : ScopeId) (k : ClosureId) (f : Func) : Prop :=
  s.IsFrame id k f ∧ ∀ name ∈ f.ownNames, s.Binds id name

variable {s t : Run} {id : ScopeId} {k : ClosureId} {f : Func} {name : String}

theorem IsFrame.mono (h : s.IsFrame id k f) (hext : s.Extends t) : t.IsFrame id k f := by
  obtain ⟨key, c, hentered, hof, hclosure, hliteral⟩ := h
  obtain ⟨c', hclosure', hsame⟩ := hext.closures k c hclosure
  have hliteral' : c'.func = c.func := congrArg Prod.fst hsame
  exact ⟨key, c', hext.activations key id hentered, hof, hclosure', hliteral'.trans hliteral⟩

/-- A scope is a frame of one closure only. -/
theorem IsFrame.unique (hindexed : s.Indexed) (h : s.IsFrame id k f) {k' : ClosureId} {f' : Func}
    (h' : s.IsFrame id k' f') : k' = k ∧ f' = f := by
  obtain ⟨key, c, hentered, rfl, hclosure, rfl⟩ := h
  obtain ⟨key', c', hentered', rfl, hclosure', rfl⟩ := h'
  cases hindexed.env.injects.apart hentered hentered'
  cases hclosure.symm.trans hclosure'
  exact ⟨rfl, rfl⟩

/-- A frame is a scope of the table. -/
theorem IsFrame.hasEntry (hindexed : s.Indexed) (h : s.IsFrame id k f) :
    s.HasEntry (.scope id) := by
  obtain ⟨_, _, hentered, _⟩ := h
  exact hindexed.env.injects.inside hentered

theorem Encloses.mono {n : Node} (h : s.Encloses id n) (hext : s.Extends t) : t.Encloses id n :=
  h.imp_right fun ⟨k, f, hframe, hinside⟩ => ⟨k, f, hframe.mono hext, hinside⟩

/-- What a node binds may be bound where it is walked. -/
theorem Encloses.mayBind {n : Node} (h : s.Encloses id n) (hbinds : name ∈ n.binds) :
    s.MayBind id name := by
  refine h.imp_right fun ⟨k, f, hframe, hinside⟩ => .inr ⟨k, f, hframe, ?_⟩
  rw [Func.frameNames, Func.ownNames, List.append_assoc]
  exact List.mem_append_right _ (mem_binds_iff.mp ⟨n, hinside, hbinds⟩)

end Run

namespace Update

variable {s : Run} {id : ScopeId} {name : String}

/-- Only binding a name makes a scope bind it. -/
theorem binds_cases (u : Update) (h : (u.apply s).Binds id name) :
    s.Binds id name ∨ ∃ t, u = .env (.bind id name t) := by
  cases u with
  | env w =>
    obtain ⟨x, hfound, hbound⟩ := h
    change (w.apply s.env).scopes[id]? = some x at hfound
    cases w with
    | bind j k t =>
      rw [Env.Write.apply] at hfound
      rcases Env.after_bind s.env j k t with hsame | ⟨y, hat, -, heq⟩
      · rw [hsame] at hfound
        exact .inl ⟨x, hfound, hbound⟩
      · rw [heq] at hfound
        rcases getElem?_modify_cases hfound with hstays | ⟨rfl, y', hget, rfl⟩
        · exact .inl ⟨x, hstays, hbound⟩
        · cases hat.symm.trans hget
          rcases Fields.contains_widen.mp hbound with rfl | hbound
          · exact .inr ⟨t, rfl⟩
          · exact .inl ⟨y, hget, hbound⟩
    | enter key parent owner =>
      rw [Env.Write.apply] at hfound
      rcases Env.after_enter s.env key parent owner with hsame | ⟨-, heq⟩
      · rw [hsame] at hfound
        exact .inl ⟨x, hfound, hbound⟩
      · rw [heq] at hfound
        rcases getElem?_push_cases hfound with hstays | ⟨-, rfl⟩
        · exact .inl ⟨x, hstays, hbound⟩
        -- a new scope binds nothing yet
        · cases hbound
  | _ => exact .inl h

/-- Binding a name in a scope that exists makes the scope bind it. -/
theorem binds_bind {t : Ty} (hhas : s.HasEntry (.scope id)) :
    ((Update.env (.bind id name t)).apply s).Binds id name := by
  obtain ⟨x, hfound⟩ : ∃ x, s.env.scopes[id]? = some x := ⟨_, Array.getElem?_eq_getElem hhas⟩
  change ∃ y, (after (Env.bind id name t) s.env).scopes[id]? = some y ∧ _
  rw [after, Env.bind_apply, hfound]
  dsimp only
  cases hwidens : Fields.widens x.bindings name t with
  | true =>
    refine ⟨{ x with bindings := Fields.widen x.bindings name t }, ?_, ?_⟩
    · simp only [Env.setBindings, if_true, Array.getElem?_modify, hfound, Option.map_some]
    · exact Fields.contains_widen.mpr (.inl rfl)
  | false =>
    refine ⟨x, hfound, ?_⟩
    have hholds : OrdMap.get? x.bindings name = some (Fields.widened x.bindings name t) := by
      simpa [Fields.widens] using hwidens
    rw [OrdMap.contains, hholds]
    rfl

/-- What is bound stays bound. -/
theorem keeps_binds (u : Update) (h : s.Binds id name) : (u.apply s).Binds id name := by
  cases u with
  | env w =>
    obtain ⟨x, hfound, hbound⟩ := h
    obtain ⟨y, hstays, hgrown⟩ := w.keeps_names s.env id x hfound
    exact ⟨y, hstays, hgrown name hbound⟩
  | _ => exact h

end Update

end TypeFlow
