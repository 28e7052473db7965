import Mathlib
import TypeFlow.Proofs.Engine.Reached
import TypeFlow.Proofs.Engine.Validity
import TypeFlow.Proofs.Script.Duplicates
import TypeFlow.Proofs.Types.Inside

/-!
# Function types keep the arity of their closures

A function type that may be some closures has as many parameters as the literals of these closures.
Joining two functions of different arity gives `any`, so no type mixes closures of different arity;
and one program has no two literals of one identity, since statements that repeat an identity do not
run.

## Main Definitions

* `Run.Matches` - a function has as many parameters as the literals of its closures
* `Run.MatchesTy` - all functions in a type have
* `Run.OneLiteral` - the literals of closures are told by their identities
* `Run.Matched` - all functions in a state have, and all closures have a type for every parameter
* `Run.MatchedBy` - the states of runs of a program without repeated identities
* `matchingRuns` - such runs

## Main Statements

* `joinClosed_matches` - joins keep the arity
* `Run.Saturated.update` - an update keeps the number of declared parameters
* `matchingRuns_matchedBy` - the states of such runs match
* `matchingRuns_infer` - running one program is such a run
-/

namespace TypeFlow

/-! ### Arities -/

/-- The function has as many parameters as the literals of its closures, all of which have
entries. -/
def Run.Matches (s : Run) (f : FuncTy) : Prop :=
  ∀ id ∈ f.closures, ∃ c, s.closures.table[id]? = some c ∧ f.params.length = c.func.params.length

/-- All functions in the type, at any depth, have as many parameters as the literals of their
closures. -/
def Run.MatchesTy (s : Run) (t : Ty) : Prop :=
  ∀ f, .func f ∈ t.inside → s.Matches f

/-- The closures have a type for every parameter of their literals. -/
def Run.Saturated (s : Run) : Prop :=
  ∀ (id : ClosureId) (c : Closure), s.closures.table[id]? = some c →
    c.params.length = c.func.params.length

/-- Closures of literals with one identity have one literal. -/
def Run.OneLiteral (s : Run) : Prop :=
  ∀ (i j : ClosureId) (c d : Closure), s.closures.table[i]? = some c →
    s.closures.table[j]? = some d → c.func.id = d.func.id → c.func = d.func

/-- All functions in the types of a state have as many parameters as the literals of their closures,
and so have the closures. -/
structure Run.Matched (s : Run) : Prop where
  types : ∀ t ∈ s.types, s.MatchesTy t
  saturated : s.Saturated

section Matches

variable {s t : Run}

theorem Run.matchesTy_iff (s : Run) (a : Ty) :
    s.MatchesTy a ↔ a.Everywhere s.Matches fun _ => True := by
  rw [Ty.everywhere_iff_inside]
  constructor
  · intro h u hmem
    refine ⟨?_, fun _ _ => trivial⟩
    rintro f rfl
    exact h f hmem
  · intro h f hmem
    exact (h _ hmem).1 f rfl

theorem Run.Matches.mono {f : FuncTy} (h : s.Matches f) (hext : s.Extends t) : t.Matches f := by
  intro id hmem
  obtain ⟨c, hfound, harity⟩ := h id hmem
  obtain ⟨c', hfound', hsame⟩ := hext.closures id c hfound
  have hfunc : c'.func = c.func := congrArg Prod.fst hsame
  exact ⟨c', hfound', hfunc.symm ▸ harity⟩

theorem Run.MatchesTy.mono {a : Ty} (h : s.MatchesTy a) (hext : s.Extends t) : t.MatchesTy a :=
  fun f hmem => (h f hmem).mono hext

/-- Two functions that join have one arity, and the join keeps it. -/
theorem FuncTy.length_join? {f g h : FuncTy} (heq : f.join? g = some h) :
    h.params.length = f.params.length ∧ h.params.length = g.params.length ∧
      h.closures = OrdSet.union f.closures g.closures := by
  rw [FuncTy.join?_eq] at heq
  split at heq
  · next harity =>
    cases heq
    have hlength : (Ty.joinParams f.params g.params).length = f.params.length := by
      rw [Ty.joinParams_eq_zipWith, List.length_zipWith, ← harity, min_self]
    exact ⟨hlength, hlength.trans harity, rfl⟩
  · cases heq

/-- Joins keep the arity. -/
theorem joinClosed_matches (s : Run) : JoinClosed s.Matches fun _ => True where
  func f g h hf hg heq := by
    obtain ⟨hleft, hright, hclosures⟩ := FuncTy.length_join? heq
    intro id hmem
    rw [hclosures] at hmem
    rcases OrdSet.mem_union.mp hmem with hmem | hmem
    · rw [hleft]
      exact hf id hmem
    · rw [hright]
      exact hg id hmem
  obj _ _ _ _ := trivial

theorem Run.MatchesTy.join {a b : Ty} (ha : s.MatchesTy a) (hb : s.MatchesTy b) :
    s.MatchesTy (a.join b) := by
  rw [Run.matchesTy_iff] at ha hb ⊢
  exact ha.join (joinClosed_matches s) hb

theorem Run.MatchesTy.child {a c : Ty} (h : s.MatchesTy a) (hmem : c ∈ a.children) :
    s.MatchesTy c :=
  fun f hinside => h f (Ty.mem_inside.mpr (.inr ⟨c, hmem, hinside⟩))

theorem Run.MatchesTy.member {a m : Ty} (h : s.MatchesTy a) (hmem : m ∈ a.members) :
    s.MatchesTy m := by
  rw [Run.matchesTy_iff] at h ⊢
  exact h.member hmem

/-- Nothing is asked of a type without handles. -/
theorem Run.matchesTy_of_handles {a : Ty} (hplain : a.handles = []) : s.MatchesTy a := by
  have hnone : ∀ d ∈ a.handles, False := by simp [hplain]
  rw [Run.matchesTy_iff]
  refine ((Ty.forall_handles_iff a).mp hnone).mono (fun f hown id hmem => ?_) fun _ _ => trivial
  exact (hown (.closure id) (List.mem_map_of_mem hmem)).elim

theorem Run.matchesTy_leaf {a : Ty} (hisFunc : a.isFunc = false) (hleaf : a.children = []) :
    s.MatchesTy a := by
  intro f hmem
  rw [Ty.inside_eq, hleaf] at hmem
  cases List.mem_singleton.mp hmem
  cases hisFunc

theorem Run.matchesTy_closure {id : ClosureId} {c : Closure} {n : Nat}
    (hfound : s.closures.table[id]? = some c) (harity : n = c.func.params.length) :
    s.MatchesTy (.closure id n) := by
  intro f hmem
  rw [Ty.closure, Ty.mem_inside] at hmem
  rcases hmem with heq | ⟨a, hchild, hinside⟩
  · cases heq
    intro id' hmem
    cases List.mem_singleton.mp hmem
    exact ⟨c, hfound, by simpa using harity⟩
  · have hnever : a = .never := by
      rcases List.mem_append.mp hchild with hparam | hret
      · exact List.eq_of_mem_replicate hparam
      · exact List.mem_singleton.mp hret
    rw [hnever] at hinside
    cases List.mem_singleton.mp hinside

end Matches

/-! ### Declared parameters -/

theorem Closures.length_joinArgs (ps args : List Ty) : (joinArgs ps args).length = ps.length := by
  fun_induction joinArgs ps args with
  | case1 => rfl
  | case2 p ps ih => simp [ih]
  | case3 p ps a args ih => simp [ih]

/-- An update keeps the number of declared parameters. -/
theorem Run.Saturated.update {s : Run} (h : s.Saturated) (u : Update) : (u.apply s).Saturated := by
  cases u with
  | closures w =>
    intro id c hfound
    change (w.apply s.closures).table[id]? = some c at hfound
    cases w with
    | capture scope f =>
      rcases Closures.after_captureId s.closures scope f with hsame | ⟨-, heq⟩
      · rw [Closures.Write.apply, hsame] at hfound
        exact h id c hfound
      · rw [Closures.Write.apply, heq, Array.getElem?_push] at hfound
        split at hfound
        · cases hfound
          exact List.length_replicate
        · exact h id c hfound
    | record k args ret =>
      rcases Closures.after_recordCall s.closures k args ret with hsame | heq
      · rw [Closures.Write.apply, hsame] at hfound
        exact h id c hfound
      · rw [Closures.Write.apply, heq, Array.getElem?_modify] at hfound
        split at hfound
        · obtain ⟨old, hget, rfl⟩ := Option.map_eq_some_iff.mp hfound
          -- joining arguments keeps the number of declared parameters, however many are given
          exact (Closures.length_joinArgs old.params args).trans (h id old hget)
        · exact h id c hfound
    | mark k =>
      rcases Closures.after_markSelfReferential s.closures k with hsame | heq
      · rw [Closures.Write.apply, hsame] at hfound
        exact h id c hfound
      · rw [Closures.Write.apply, heq, Array.getElem?_modify] at hfound
        split at hfound
        · obtain ⟨old, hget, rfl⟩ := Option.map_eq_some_iff.mp hfound
          exact h id old hget
        · exact h id c hfound
  | _ => exact h

theorem Discipline.Steps.saturated {D : Discipline} {s t : Run} (hsteps : D.Steps s t)
    (h : s.Saturated) : t.Saturated := by
  induction hsteps with
  | refl => exact h
  | tail _ hlast ih =>
    obtain ⟨u, -, rfl⟩ := hlast
    exact ih.update u

/-! ### Nodes with different identities -/

/-- Nodes with different identities are told by them. -/
theorem Tidy.eq_of_id {ns : List Node} (htidy : Tidy ns) {m n : Node} (hm : m ∈ ns) (hn : n ∈ ns)
    (hsame : m.id = n.id) : m = n :=
  List.inj_on_of_nodup_map htidy hm hn hsame

/-! ### Runs of one program -/

/-- The states of runs of a program without repeated identities: types and closures match, the
indices agree with the tables, and the closures are of literals of the program. -/
structure Run.MatchedBy (p : Program) (s : Run) : Prop where
  matched : s.Matched
  indexed : s.Indexed
  literals : ∀ (i : ClosureId) (c : Closure), s.closures.table[i]? = some c → .func c.func ∈ p.nodes

/-- Runs of a program without repeated identities, from the given state. -/
def matchingRuns (p : Program) (htidy : Tidy p.nodes) (start : Run) : Discipline where
  toSimilarity := .equal
  toNodeClass := .of [p]
  Good s t := s.MatchesTy t
  Within _ := True
  tight := False
  keyed := True
  keyed_of_placed _ := trivial
  origin := some start
  mono hext hgood := hgood.mono hext
  never := Run.matchesTy_leaf rfl rfl
  any := Run.matchesTy_leaf rfl rfl
  prim _ := Run.matchesTy_leaf rfl rfl
  join ha hb := ha.join hb
  member hgood hmem := hgood.member hmem
  ret hgood := hgood.child (List.mem_append_right _ (List.mem_singleton_self _))
  field hgood hmem := hgood.child (List.mem_map_of_mem hmem)
  closure _ hcaptured hliteral := by
    -- The entry that is found has the identity of the literal, and so is of the literal itself.
    obtain ⟨c, hfound, hsame, q', hlisted', hinside'⟩ := hcaptured trivial
    obtain ⟨q, hlisted, hinside⟩ := hliteral
    cases List.mem_singleton.mp hlisted
    cases List.mem_singleton.mp hlisted'
    cases htidy.eq_of_id hinside' hinside hsame
    exact Run.matchesTy_closure hfound rfl
  ofCell _ := Run.matchesTy_leaf rfl rfl
  ofInstance _ _ := Run.matchesTy_leaf rfl rfl
  prototypeOf _ := Run.matchesTy_leaf rfl rfl
  funcHandles htight := htight.elim
  cellHandles htight := htight.elim
  ctorHandles htight := htight.elim

section Runs

variable {options : Options} {globals : Globals} {p : Program} {htidy : Tidy p.nodes}
  {s start : Run}

/-- The literals of a program may be walked. -/
theorem NodeClass.of_singleton {p : Program} {n : Node} :
    (NodeClass.of [p]).Allowed n ↔ n ∈ p.nodes := by
  constructor
  · rintro ⟨q, hlisted, hinside⟩
    cases List.mem_singleton.mp hlisted
    exact hinside
  · exact fun hinside => ⟨p, List.mem_singleton_self p, hinside⟩

/-- A state that matches is one from which such runs start. -/
theorem Run.MatchedBy.inv (h : s.MatchedBy p) : (matchingRuns p htidy s).Inv s where
  good := h.matched.types
  live _ _ htight := htight.elim
  literals i c hfound := NodeClass.of_singleton.mpr (h.literals i c hfound)
  global htight := htight.elim
  within := trivial
  indexed _ := h.indexed
  past _ hfirst := Option.some.inj hfirst ▸ .refl

/-- The states of a run of a program without repeated identities match. -/
theorem matchingRuns_matchedBy (hsaturated : start.Saturated)
    (hinv : (matchingRuns p htidy start).Inv s) : s.MatchedBy p where
  matched := ⟨hinv.good, (hinv.past _ rfl).saturated hsaturated⟩
  indexed := hinv.indexed trivial
  literals i c hfound := NodeClass.of_singleton.mp (hinv.literals i c hfound)

/-- Before the first program there is no closure, and no type has a handle. -/
theorem start_matchedBy (hplain : ∀ g ∈ globals, g.2.handles = []) :
    (Run.start options globals).MatchedBy p where
  matched := by
    constructor
    · intro t hstored
      exact Run.matchesTy_of_handles
        (start_types (P := fun t => t.handles = []) options builtins_handles hplain t hstored)
    · intro id c hfound
      cases (hfound : (#[] : Array Closure)[id]? = some c)
  indexed := start_indexed options globals
  literals i c hfound := by cases (hfound : (#[] : Array Closure)[i]? = some c)

theorem Run.MatchedBy.oneLiteral (h : s.MatchedBy p) (htidy : Tidy p.nodes) : s.OneLiteral := by
  intro i j c d hc hd hsame
  exact Node.func.inj (htidy.eq_of_id (h.literals i c hc) (h.literals j d hd) hsame)

/-- Watches out for bodies that are run in a state that does not match, or for a call with types
that do not. -/
def arityWatch (p : Program) (fault : Fault) : Watch where
  Sees _ _ call s :=
    ¬ (s.MatchedBy p ∧ s.MatchesTy call.this ∧ ∀ a ∈ call.args, s.MatchesTy a)
  fault := fault

/-- The nodes of the statements that are not flagged may be walked. -/
theorem outerNodes_allowed (p : Program) (htidy : Tidy p.unflagged.nodes) (start : Run) :
    ∀ n ∈ Program.outerNodes p.unflagged, (matchingRuns p.unflagged htidy start).Allowed n :=
  fun _ hmem =>
    NodeClass.of_singleton.mpr ((Stmt.opensAll p.unflagged).outer_sublist.subset hmem)

end Runs

/-- Running one program, flagged statements and all, is a run of the statements that are not
flagged. -/
theorem matchingRuns_infer (order : NodeOrder) (p : Program) {s : Run}
    (h : s.MatchedBy p.unflagged) :
    (matchingRuns p.unflagged p.tidy_unflagged s).Does none s (infer order p) fun _ _ => True := by
  refine (Discipline.Answers.inferProgramUnflagged Discipline.answers_invoke trivial h.inv rfl
    (outerNodes_allowed p _ s)).bind fun _ _ hinv _ _ => ?_
  exact Discipline.Does.finish order rfl id trivial hinv

end TypeFlow
