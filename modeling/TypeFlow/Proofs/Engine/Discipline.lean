import Mathlib
import TypeFlow.Proofs.Engine.Frames

/-!
# Disciplines

A discipline says which types may be stored in a state, which nodes may be walked and where, which
options a run may have and whether every handle has an entry.  A run keeps to any discipline that is
closed under what inference does with types; what a run does to the state can then be read off its
updates.

## Main Definitions

* `Similarity` - when a run does the same from two states
* `Discipline` - the types, the nodes and the handles that a run works with
* `Discipline.untyped` - disciplines that say nothing of types and handles
* `Discipline.Stands` - a node may be walked in a scope
* `Discipline.Inv` - the states that keep to a discipline
* `Discipline.Guard` - what an update must bring
* `Discipline.Steps` - sequences of guarded updates
* `Run.Keeps` - the running calls and the assumed results are the same

## Main Statements

* `Discipline.Inv.apply` - a guarded update keeps to the discipline
* `Discipline.Steps.inv`, `Discipline.Steps.extends` - so do sequences of them

## Design Notes

Whether a handle has an entry matters to some properties only.  A discipline that is not `tight`
says nothing of handles, and then a run may stop at one that has no entry.  Likewise, only in a
discipline that is `keyed` do the indices of the tables agree with the tables, and only in one that
is `placed` are nodes walked in the frames of the functions that they stand in; and only in one with
an `origin` is it known of every state that guarded updates lead to it from there.
-/

namespace TypeFlow

/-- What inference looks at: not what it only collects for the report. -/
def Run.view (s : Run) : Run :=
  { s with
    options := { s.options with strictUnbound := false }
    unbound := []
    errors := []
    log := #[] }

/-- When a run does the same from two states. -/
structure Similarity where
  /-- Two states in which a run does the same. -/
  Sim : Run → Run → Prop
  /-- Errors may be reported. -/
  reports : Prop
  sim_view : ∀ {s s' : Run}, Sim s s' → s'.view = s.view
  sim_errors : reports → ∀ {s s' : Run}, Sim s s' → s'.errors = s.errors
  sim_apply : ∀ {s s' : Run} (u : Update), Sim s s' → Sim (u.apply s) (u.apply s')

/-- Only a state itself is similar to it. -/
def Similarity.equal : Similarity where
  Sim := Eq
  reports := True
  sim_view hsame := hsame ▸ rfl
  sim_errors _ _ _ hsame := hsame ▸ rfl
  sim_apply _ hsame := hsame ▸ rfl

/-- Nodes that may be walked: with a function, what stands in its body. -/
structure NodeClass where
  /-- The nodes that may be walked. -/
  Allowed : Node → Prop
  body : ∀ {f : Func}, Allowed (.func f) → ∀ n ∈ Stmt.nodesAll false f.body, Allowed n

/-- All nodes. -/
def NodeClass.all : NodeClass where
  Allowed _ := True
  body _ _ _ := trivial

/-- Which types may be stored, which nodes may be walked, and whether handles have entries. -/
structure Discipline extends Similarity, NodeClass where
  /-- The types that may be stored in a state. -/
  Good : Run → Ty → Prop
  /-- The options that a run may have. -/
  Within : Options → Prop
  /-- Every handle has an entry. -/
  tight : Prop
  /-- Every node is walked in the global scope or in a frame of the function that it stands in. -/
  placed : Prop := False
  /-- The indices of the tables agree with the tables. -/
  keyed : Prop := placed
  keyed_of_placed : placed → keyed := by exact id
  /-- The state that a run begins in, if all its states are to come from one. -/
  origin : Option Run := none
  mono : ∀ {s t : Run} {a : Ty}, s.Extends t → Good s a → Good t a
  never : ∀ {s : Run}, Good s .never
  any : ∀ {s : Run}, Good s .any
  prim : ∀ {s : Run} (p : Prim), Good s (.prim p)
  join : ∀ {s : Run} {a b : Ty}, Good s a → Good s b → Good s (a.join b)
  member : ∀ {s : Run} {a m : Ty}, Good s a → m ∈ a.members → Good s m
  ret : ∀ {s : Run} {f : FuncTy}, Good s (.func f) → Good s f.ret
  field : ∀ {s : Run} {o : ObjTy} {e : String × Ty}, Good s (.obj o) → e ∈ o.fields → Good s e.2
  closure : ∀ {s : Run} {id : ClosureId} {f : Func}, (tight → s.HasEntry (.closure id)) →
    (keyed → ∃ c, s.closures.table[id]? = some c ∧ c.func.id = f.id ∧ Allowed (.func c.func)) →
      Allowed (.func f) → Good s (.closure id f.params.length)
  ofCell : ∀ {s : Run} {id : CellId}, (tight → s.HasEntry (.cell id)) → Good s (.ofCell id)
  ofInstance : ∀ {s : Run} {id : CellId} {ctor : CtorId}, (tight → s.HasEntry (.cell id)) →
    (tight → s.HasEntry (.ctor ctor)) → Good s (.ofInstance id ctor)
  prototypeOf : ∀ {s : Run} {ctor : CtorId}, (tight → s.HasEntry (.ctor ctor)) →
    Good s (.prototypeOf ctor)
  funcHandles : tight → ∀ {s : Run} {f : FuncTy}, Good s (.func f) →
    ∀ id ∈ f.closures, s.HasEntry (.closure id)
  cellHandles : tight → ∀ {s : Run} {o : ObjTy}, Good s (.obj o) →
    ∀ id ∈ o.cells, s.HasEntry (.cell id)
  ctorHandles : tight → ∀ {s : Run} {o : ObjTy}, Good s (.obj o) →
    ∀ id ∈ o.ctors ++ o.protoOf, s.HasEntry (.ctor id)

/-- Walks of the given nodes under the given options.  Nothing is said of types and of handles. -/
def Discipline.untyped (nodes : NodeClass) (within : Options → Prop) : Discipline where
  toSimilarity := .equal
  toNodeClass := nodes
  Good _ _ := True
  Within := within
  tight := False
  mono _ _ := trivial
  never := trivial
  any := trivial
  prim _ := trivial
  join _ _ := trivial
  member _ _ := trivial
  ret _ := trivial
  field _ _ := trivial
  closure _ _ _ := trivial
  ofCell _ := trivial
  ofInstance _ _ := trivial
  prototypeOf _ := trivial
  funcHandles htight := htight.elim
  cellHandles htight := htight.elim
  ctorHandles htight := htight.elim

/-! ### The running calls -/

/-- A running call, apart from what it returned so far. -/
def Activation.frame (a : Activation) : Activation :=
  { a with returns := .never }

/-- Two states with the same options, the same running calls and the same assumed results, except
for the result of one closure. -/
structure Run.Keeps (but : Option ClosureId) (s t : Run) : Prop where
  options : t.options = s.options
  seeded : t.seeded = s.seeded
  frames : t.activations.map Activation.frame = s.activations.map Activation.frame
  seeds : ∀ id, but ≠ some id → (t.solve? id).map (·.seed) = (s.solve? id).map (·.seed)

namespace Run.Keeps

variable {but : Option ClosureId} {s t r : Run}

theorem refl (s : Run) : s.Keeps but s :=
  ⟨rfl, rfl, rfl, fun _ _ => rfl⟩

theorem trans (h : s.Keeps but t) (h' : t.Keeps but r) : s.Keeps but r :=
  ⟨h'.options.trans h.options, h'.seeded.trans h.seeded, h'.frames.trans h.frames,
    fun id hne => (h'.seeds id hne).trans (h.seeds id hne)⟩

theorem weaken (h : s.Keeps none t) : s.Keeps but t :=
  ⟨h.options, h.seeded, h.frames, fun id _ => h.seeds id nofun⟩

theorem depth (h : s.Keeps but t) : t.activations.length = s.activations.length := by
  have := congrArg List.length h.frames
  rwa [List.length_map, List.length_map] at this

/-- As many activations may be nested afterwards as before. -/
theorem depthLeft (h : s.Keeps but t) : t.depthLeft = s.depthLeft := by
  rw [Run.depthLeft, Run.depthLeft, h.options, h.depth]

/-- Ending a call leaves the calls outside it. -/
theorem pop {a : Activation} (h : ((Update.push a).apply s).Keeps but t) :
    s.Keeps but t.popActivation where
  options := h.options
  seeded := h.seeded
  frames := by
    have := congrArg List.tail h.frames
    rwa [← List.map_tail] at this
  seeds := h.seeds

end Run.Keeps

namespace Update

/-- An update that concerns neither the running calls nor the assumed results. -/
def isLocal : Update → Bool
  | push _ => false
  | pop => false
  | seed _ _ => false
  | recursed _ _ => false
  | unseed _ => false
  | _ => true

/-- An update of the tables keeps the running calls and the assumed results. -/
theorem keeps_of_isLocal {u : Update} (h : u.isLocal = true) (s : Run) :
    s.Keeps none (u.apply s) := by
  cases u with
  | push a => cases h
  | pop => cases h
  | seed id t => cases h
  | recursed id t => cases h
  | unseed id => cases h
  | returns t =>
    refine ⟨rfl, rfl, ?_, fun _ _ => rfl⟩
    cases hcalls : s.activations with
    | nil => simp only [apply, hcalls, addReturns]
    | cons a rest => simp only [apply, hcalls, addReturns, List.map_cons, Activation.frame]
  | _ => exact ⟨rfl, rfl, rfl, fun _ _ => rfl⟩

end Update

/-! ### The states that keep to a discipline -/

namespace Discipline

variable (D : Discipline)

/-- A handle that may be used. -/
def Live (s : Run) (d : Dangling) : Prop :=
  D.tight → s.HasEntry d

/-- A node may be walked in a scope. -/
def Stands (s : Run) (id : ScopeId) (n : Node) : Prop :=
  D.Allowed n ∧ (D.placed → s.Encloses id n)

/-- A name may be bound in a scope. -/
def MayBind (s : Run) (id : ScopeId) (name : String) : Prop :=
  D.placed → s.MayBind id name

/-- A name may be read: a node that may be walked has it as an operand. -/
def MayRead (name : String) : Prop :=
  ∃ id span n, D.Allowed n ∧ ⟨id, span, .ident name⟩ ∈ n.operands

/-- What is true of an update beside what it brings. -/
def Reason (s : Run) : Update → Prop
  | .closures (.capture scope f) =>
    D.Allowed (.func f) ∧ (D.placed → scope = Env.global ∨ s.HasEntry (.scope scope))
  | .env (.bind id name _) => D.MayBind s id name
  | .env (.enter key parent owner) =>
    ∃ c, s.closures.table[key.closure]? = some c ∧ parent = c.scope ∧ owner = some c.func.id
  | .protos (.ctor closure name) => ∃ c, s.closures.table[closure]? = some c ∧ name = c.func.name
  | .push a =>
    s.activations.length < s.options.maxCallDepth ∧ (D.placed → ∃ f, s.Prepared a.scope a.closure f)
  | .unbound name => D.MayRead name
  | .report _ => D.reports
  | _ => True

/-- What an update must bring. -/
structure Guard (s : Run) (u : Update) : Prop where
  good : ∀ t ∈ u.types, D.Good s t
  live : ∀ d ∈ u.handles, D.Live s d
  reason : D.Reason s u

/-- One guarded update. -/
def Step (s t : Run) : Prop :=
  ∃ u, D.Guard s u ∧ t = u.apply s

/-- Guarded updates, one after the other. -/
abbrev Steps : Run → Run → Prop :=
  Relation.ReflTransGen D.Step

/-- The states that keep to a discipline. -/
structure Inv (s : Run) : Prop where
  good : ∀ t ∈ s.types, D.Good s t
  live : ∀ d ∈ s.handles, D.Live s d
  literals : ∀ (i : Nat) c, s.closures.table[i]? = some c → D.Allowed (.func c.func)
  global : D.Live s (.scope Env.global)
  within : D.Within s.options
  indexed : D.keyed → s.Indexed
  past : ∀ r ∈ D.origin, D.Steps r s

variable {D} {s t : Run} {u : Update}

/-- A handle that may be used may be used later. -/
theorem Live.mono {d : Dangling} (h : D.Live s d) (hext : s.Extends t) : D.Live t d :=
  fun htight => hext.hasEntry (h htight)

/-- Where a node may be walked, it may be walked later. -/
theorem Stands.mono {id : ScopeId} {n : Node} (h : D.Stands s id n) (hext : s.Extends t) :
    D.Stands t id n :=
  ⟨h.1, fun hplaced => (h.2 hplaced).mono hext⟩

/-- What a node binds may be bound where it is walked. -/
theorem Stands.mayBind {id : ScopeId} {n : Node} (h : D.Stands s id n) {name : String}
    (hbinds : name ∈ n.binds) : D.MayBind s id name :=
  fun hplaced => (h.2 hplaced).mayBind hbinds

/-- A guarded update keeps to the discipline. -/
theorem Inv.apply (hinv : D.Inv s) (hguard : D.Guard s u) : D.Inv (u.apply s) where
  good := by
    intro v hmem
    have hext := u.keeps s
    rcases u.types_cases s hmem with hstored | hbrought | ⟨old, hstored, new, hbrought, rfl⟩
    · exact D.mono hext (hinv.good v hstored)
    · exact D.mono hext (hguard.good v hbrought)
    · exact D.mono hext (D.join (hinv.good old hstored) (hguard.good new hbrought))
  live := by
    intro d hmem
    rcases u.handles_cases s hmem with hheld | hbrought | hhas
    · exact (hinv.live d hheld).mono (u.keeps s)
    · exact (hguard.live d hbrought).mono (u.keeps s)
    · exact fun _ => hhas
  literals := by
    intro i c hfound
    rcases u.literals_cases s hfound with ⟨c', hget, hsame⟩ | ⟨scope, rfl⟩
    · exact hsame ▸ hinv.literals i c' hget
    · exact hguard.reason.1
  global := hinv.global.mono (u.keeps s)
  within := by cases u <;> exact hinv.within
  indexed hkeyed := u.indexed (hinv.indexed hkeyed)
  past r hfirst := (hinv.past r hfirst).tail ⟨u, hguard, rfl⟩

/-- Guarded updates keep to the discipline. -/
theorem Steps.inv (h : D.Steps s t) (hinv : D.Inv s) : D.Inv t := by
  induction h with
  | refl => exact hinv
  | tail _ hlast ih =>
    obtain ⟨u, hguard, rfl⟩ := hlast
    exact ih.apply hguard

/-- Guarded updates take no entry away. -/
theorem Steps.extends (h : D.Steps s t) : s.Extends t := by
  induction h with
  | refl => exact Run.Extends.refl s
  | tail _ hlast ih =>
    obtain ⟨u, -, rfl⟩ := hlast
    exact ih.trans (u.keeps _)

theorem Steps.binds (h : D.Steps s t) {id : ScopeId} {name : String} (hbound : s.Binds id name) :
    t.Binds id name := by
  induction h with
  | refl => exact hbound
  | tail _ hlast ih =>
    obtain ⟨u, -, rfl⟩ := hlast
    exact u.keeps_binds ih

/-- A frame that is prepared stays prepared. -/
theorem Steps.prepared (h : D.Steps s t) {id : ScopeId} {k : ClosureId} {f : Func}
    (hprepared : s.Prepared id k f) : t.Prepared id k f :=
  ⟨hprepared.1.mono h.extends, fun name hown => h.binds (hprepared.2 name hown)⟩

end Discipline

end TypeFlow
