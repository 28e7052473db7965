import Mathlib
import TypeFlow.Proofs.Engine.Arities
import TypeFlow.Proofs.Result.Erased
import TypeFlow.Proofs.Result.Reports

/-!
# Parameters and their names line up

In the result of a run, the signature of a function literal has a type for every parameter, and so
has a global that is one closure.  Declarations print the names of the parameters next to their
types, and there are as many of one as of the other.

## Main Definitions

* `Ty.IsFuncOf` - a function type of an arity
* `KeepsArity` - the answer for a function type has its arity
* `ListsFuncs` - the signatures of the literals of closures
* `TypeMap.LinesUp` - the parameters in a result line up with their names

## Main Statements

* `resolveOn_keepsArity` - resolution keeps the arity, where the type is not cut
* `addSignature_lists` - joining the signature of one more closure
* `buildTypeMapIn_lists` - the literals and globals in the result of a state
* `parameters_line_up` - the result of a run

## Design Notes

Only where a handle leads back to itself is a function type answered with `any`.  Such an answer is
not remembered, and no handle leads to the type that was asked for.  So neither what is asked for
nor what is remembered was cut.
-/

namespace TypeFlow

open Resolve

/-! ### Function types of one arity -/

/-- The type is a function with so many parameters. -/
def Ty.IsFuncOf (t : Ty) (arity : Nat) : Prop :=
  ∃ f, t = .func f ∧ f.params.length = arity

/-- Functions of one arity join to a function of this arity. -/
theorem Ty.IsFuncOf.join {a b : Ty} {n : Nat} (ha : a.IsFuncOf n) (hb : b.IsFuncOf n) :
    (a.join b).IsFuncOf n := by
  obtain ⟨f, rfl, hf⟩ := ha
  obtain ⟨g, rfl, hg⟩ := hb
  have heq : (Ty.func f).join (.func g) = if Ty.func f = .func g then .func f else
      .ofParts? ((f.join? g).map fun h => ⟨[], some h, none⟩) := rfl
  rw [heq]
  split
  · exact ⟨f, rfl, hf⟩
  · cases hjoined : f.join? g with
    | none =>
      rw [FuncTy.join?_eq, if_pos (hf.trans hg.symm)] at hjoined
      cases hjoined
    | some h => exact ⟨h, rfl, (FuncTy.length_join? hjoined).1.trans hf⟩

/-! ### Resolution -/

/-- The answer for a function type that has the arity of its closures is a function of this
arity. -/
def KeepsArity (s : Run) (t r : Ty) : Prop :=
  ∀ f, t = .func f → s.Matches f → r.IsFuncOf f.params.length

section Resolution

variable {s : Run}

theorem EachTy.length {A : Ty → Ty → Ty → Prop} {ts rs rs' : List Ty} (h : EachTy A ts rs rs') :
    rs.length = ts.length := by
  induction h with
  | nil => rfl
  | cons _ _ ih => rw [List.length_cons, List.length_cons, ih]

theorem JoinsSignatures.isFuncOf {A : Ty → Ty → Ty → Prop} {n : Nat} {ids : List ClosureId}
    {acc out : Ty × Ty} (h : JoinsSignatures A s.closures ids acc out)
    (hclosures : ∀ id ∈ ids, ∃ c, s.closures.table[id]? = some c ∧ c.params.length = n)
    (hfirst : acc.1.IsFuncOf n) : out.1.IsFuncOf n := by
  induction h with
  | nil => exact hfirst
  | @cons id ids c r r' ps ps' acc out hfound _ heach _ ih =>
    obtain ⟨⟨c', hfound', harity⟩, hlater⟩ := List.forall_mem_cons.mp hclosures
    cases hfound.symm.trans hfound'
    exact ih hlater (hfirst.join ⟨_, rfl, heach.length.trans harity⟩)

/-- Expanding a function type keeps its arity. -/
theorem Expands.keepsArity {A : Ty → Ty → Ty → Prop} (hsaturated : s.Saturated) {t r r' : Ty}
    (h : Expands A s t r r') : KeepsArity s t r := by
  rintro f rfl hmatched
  cases h with
  | atom hatomic => cases hatomic
  | func heach _ hjoined =>
    refine hjoined.isFuncOf (fun id hmem => ?_) ⟨_, rfl, heach.length⟩
    obtain ⟨c, hfound, harity⟩ := hmatched id hmem
    exact ⟨c, hfound, (hsaturated id c hfound).trans harity.symm⟩

/-- Resolution keeps the arity, where the type is not cut. -/
theorem resolveOn_keepsArity (hsaturated : s.Saturated) (path : Path) (t : Ty) :
    (Logic.keeping (KeepsArity s)).Rel (resolveOn s path t) (resolveOn s path t)
      fun r _ => path.blocks t = false → KeepsArity s t r := by
  refine resolve_induction (s := s) (fun path t hparts hstored => ?_) path t
  have hexpands (hfree : path.blocks t = false) :
      (Logic.keeping (KeepsArity s)).Rel (expand s (resolveOn s) (resolveOn s) path t)
        (expand s (resolveOn s) (resolveOn s) path t) fun r _ => KeepsArity s t r := by
    refine Logic.mono _ (Logic.expand _ (A := fun _ _ _ => True) ?_ ?_)
      fun r r' h => h.keepsArity hsaturated
    · exact fun c hmem => Logic.mono _ (hparts c hmem) fun _ _ _ => trivial
    · exact fun c hunder => Logic.mono _ (hstored c hunder hfree) fun _ _ _ => trivial
  rw [resolveOn_eq, answerBy]
  split
  · intro memo r memo' heach hran
    rcases remembered_eq_ok.mp hran with ⟨hfound, rfl⟩ | ⟨-, between, hcomputed, rfl⟩
    · exact ⟨heach, r, fun _ => heach.found hfound⟩
    · split at hcomputed
      · next hblocked =>
        -- A cut is counted, so that its answer is not remembered.
        cases hcomputed
        have hcounted : Memo.Each (KeepsArity s) { memo with cuts := memo.cuts + 1 } := heach
        refine ⟨hcounted.after fun hsame => ?_, .any, fun hfree => ?_⟩
        · exact absurd hsame (Nat.succ_ne_self memo.cuts)
        · cases hblocked.symm.trans hfree
      · next hfree =>
        have hfree' : path.blocks t = false := by simpa using hfree
        obtain ⟨heach', -, hholds⟩ := hexpands hfree' memo r between heach hcomputed
        exact ⟨heach'.after fun _ => hholds, r, fun _ => hholds⟩
  · next hatomic =>
    refine Logic.pure _ fun _ => ?_
    rintro f rfl -
    exact absurd rfl hatomic

/-- A computation that keeps to remembered answers of the right arity, and what is true of its
result. -/
def Run.Builds (s : Run) {α : Type} (m : Resolve α) (Q : α → Prop) : Prop :=
  (Logic.keeping (KeepsArity s)).Rel m m fun a _ => Q a

theorem resolve_keepsArity (hsaturated : s.Saturated) (t : Ty) :
    s.Builds (resolve s t) (KeepsArity s t) :=
  Logic.mono _ (resolveOn_keepsArity hsaturated Path.empty t) fun _ _ hkeeps =>
    hkeeps (Path.blocks_empty t)

end Resolution

/-! ### Function literals -/

/-- What is listed for the literals of the closures before one: all of them have an entry, and every
entry names the parameters of a literal and has a type for each. -/
structure ListsFuncs (s : Run) (bound : ClosureId) (funcs : OrdMap NodeId FuncInfo) : Prop where
  listed : ∀ id < bound, ∀ c, s.closures.table[id]? = some c →
    (OrdMap.get? funcs c.func.id).isSome = true
  fits : ∀ e ∈ funcs, ∃ (id : ClosureId) (c : Closure), s.closures.table[id]? = some c ∧
    e.1 = c.func.id ∧ e.2.params = c.func.params ∧ e.2.signature.IsFuncOf c.func.params.length

section Literals

variable {s : Run}

/-- The signature of one more closure is joined. -/
theorem addSignature_lists (honeLiteral : s.OneLiteral) {id : ClosureId} {c : Closure}
    {funcs : OrdMap NodeId FuncInfo} {signature : Ty} (hlists : ListsFuncs s id funcs)
    (hfound : s.closures.table[id]? = some c) (hfunc : signature.IsFuncOf c.func.params.length) :
    ListsFuncs s (id + 1) (addSignature funcs c.func signature) where
  listed k hless d hat := by
    rcases Nat.lt_succ_iff_lt_or_eq.mp hless with hlt | rfl
    · exact OrdMap.isSome_get?_upsert _ _ _ _ (hlists.listed k hlt d hat)
    · cases hfound.symm.trans hat
      rw [addSignature, OrdMap.get?_upsert_self]
      rfl
  fits e hmem := by
    rcases OrdMap.mem_upsert_of_mem hmem with rfl | ⟨old, hpresent, rfl⟩ | hmem
    · exact ⟨id, c, hfound, rfl, rfl, hfunc⟩
    · -- The entry is that of the same literal, so that the signatures have one arity.
      obtain ⟨k, d, hat, hkey, hnames, hfits⟩ := hlists.fits _ hpresent
      have hsame : c.func = d.func := honeLiteral id k c d hfound hat hkey
      exact ⟨k, d, hat, hkey, hnames, hfits.join (hsame ▸ hfunc)⟩
    · exact hlists.fits e hmem

theorem resolveFuncs_lists (hsaturated : s.Saturated) (honeLiteral : s.OneLiteral) {id : ClosureId}
    {cs : List Closure} {acc : OrdMap NodeId FuncInfo}
    (hrest : ∀ i c, cs[i]? = some c → s.closures.table[id + i]? = some c)
    (hlists : ListsFuncs s id acc) :
    s.Builds (resolveFuncs s acc id cs) (ListsFuncs s (id + cs.length)) := by
  induction cs generalizing id acc with
  | nil => exact Logic.pure _ hlists
  | cons c cs ih =>
    have hfound : s.closures.table[id]? = some c := hrest 0 c rfl
    have hmatched : s.Matches ⟨List.replicate c.func.params.length .never, .never, [id]⟩ := by
      intro k hmem
      cases List.mem_singleton.mp hmem
      exact ⟨c, hfound, List.length_replicate⟩
    refine Logic.keeping_bind (resolve_keepsArity hsaturated _) fun signature hkeeps => ?_
    have hfunc : signature.IsFuncOf c.func.params.length := by
      simpa using hkeeps _ rfl hmatched
    have hnext : ∀ i d, cs[i]? = some d → s.closures.table[id + 1 + i]? = some d := by
      intro i d hat
      rw [Nat.add_assoc, Nat.add_comm 1]
      exact hrest (i + 1) d hat
    have hlater := ih hnext (addSignature_lists honeLiteral hlists hfound hfunc)
    rwa [Nat.add_assoc, Nat.add_comm 1] at hlater

end Literals

/-! ### Globals -/

theorem Ty.singleClosure?_eq_some {t : Ty} {id : ClosureId} (h : t.singleClosure? = some id) :
    ∃ f, t = .func f ∧ f.closures = [id] := by
  unfold Ty.singleClosure? at h
  split at h
  · cases h
    exact ⟨_, rfl, rfl⟩
  · cases h

/-- The global of a function literal is a function of the arity of the literal, and a class is
always the global of a function literal. -/
structure GlobalInfo.Fits (s : Run) (g : GlobalInfo) : Prop where
  func : ∀ n, g.func = some n → ∃ (id : ClosureId) (c : Closure), s.closures.table[id]? = some c ∧
    c.func.id = n ∧ g.ty.IsFuncOf c.func.params.length
  ofClass : g.class?.isSome = true → g.func.isSome = true

section Globals

variable {s : Run}

theorem GlobalInfo.fits {name : String} {t r : Ty} {func : Option NodeId} {cls : Option CtorId}
    (hmatches : s.MatchesTy t) (hkeeps : KeepsArity s t r)
    (hliteral : literalOf s t.singleClosure? = .ok func)
    (hctor : classOf s t.singleClosure? = .ok cls) : GlobalInfo.Fits s ⟨name, r, func, cls⟩ := by
  cases hsingle : t.singleClosure? with
  | none =>
    rw [hsingle] at hliteral hctor
    cases hliteral
    cases hctor
    refine ⟨fun n heq => ?_, fun hisSome => ?_⟩
    · cases heq
    · cases hisSome
  | some id =>
    obtain ⟨f, rfl, hclosures⟩ := Ty.singleClosure?_eq_some hsingle
    have hfits : s.Matches f := hmatches f (Ty.mem_inside.mpr (.inl rfl))
    obtain ⟨c, hfound, harity⟩ := hfits id (hclosures ▸ List.mem_singleton_self id)
    have hisLiteral : literalOf s (some id) = .ok (some c.func.id) := by
      rw [literalOf, Closures.closure, hfound]
      rfl
    rw [hsingle, hisLiteral] at hliteral
    cases hliteral
    refine ⟨fun n heq => ?_, fun _ => rfl⟩
    cases heq
    exact ⟨id, c, hfound, rfl, harity ▸ hkeeps f rfl hfits⟩

/-- What a state that matches shows of its literals and globals. -/
theorem buildTypeMapIn_lists (hmatched : s.Matched) (honeLiteral : s.OneLiteral)
    (order : NodeOrder) :
    s.Builds (buildTypeMapIn s (order.list s.nodeTypes)) fun m =>
      ListsFuncs s s.closures.table.size m.funcs ∧ ∀ g ∈ m.globals, g.Fits s := by
  have hsaturated := hmatched.saturated
  have hanswers : ∀ t ∈ s.types, s.Builds (resolve s t) fun _ => True := fun t _ =>
    Logic.mono _ (resolve_keepsArity hsaturated t) fun _ _ _ => trivial
  refine Logic.keeping_bind (Logic.keeping_nodes hanswers trivial fun e hmem => ?_) fun _ _ => ?_
  · exact s.node_types (List.mem_map_of_mem ((order.perm _).mem_iff.mp hmem))
  refine Logic.keeping_bind (Logic.keeping_scopes hanswers fun c hmem t hlisted => ?_) fun _ _ => ?_
  · exact s.scope_types (List.mem_flatMap.mpr ⟨c, hmem, hlisted⟩)
  have hentries : ∀ i c, s.closures.table.toList[i]? = some c →
    s.closures.table[0 + i]? = some c := by
    intro i c hfound
    rwa [Nat.zero_add, ← Array.getElem?_toList]
  -- no closure was listed yet, and each one that is adds its literal
  have hnone : ListsFuncs s 0 [] :=
    ⟨fun id hless => absurd hless (Nat.not_lt_zero id), fun e hmem => by cases hmem⟩
  refine Logic.keeping_bind (resolveFuncs_lists hsaturated honeLiteral hentries hnone)
    fun funcs hlists => ?_
  rw [Nat.zero_add, Array.length_toList] at hlists
  refine Logic.ask _ fun global heq => ?_
  have hbound : global.bindings.types ⊆ s.types := fun t hmem =>
    s.scope_types (Entry.types_subset (Env.scope_eq_ok heq) hmem)
  refine Logic.keeping_bind (Logic.keeping_globals (A := GlobalInfo.Fits s)
    fun g hmem func cls hliteral hctor => ?_) fun globals hfits => ?_
  · refine Logic.mono _ (resolve_keepsArity hsaturated g.2) fun r _ hkeeps => ?_
    exact GlobalInfo.fits (hmatched.types g.2 (hbound (Fields.mem_types hmem))) hkeeps
      hliteral hctor
  refine Logic.keeping_bind (Logic.keeping_ctors hanswers _ fun c hmem t hlisted => ?_)
    fun _ _ => ?_
  · exact s.ctor_types (List.mem_flatMap.mpr ⟨c, hmem, hlisted⟩)
  exact Logic.pure _ ⟨hlists, hfits⟩

end Globals

/-! ### Declarations -/

theorem Ty.IsFuncOf.eraseNever {t : Ty} {n : Nat} (h : t.IsFuncOf n) : t.eraseNever.IsFuncOf n := by
  obtain ⟨f, rfl, harity⟩ := h
  exact ⟨f.eraseNever, Ty.eraseNever_func f, List.length_map _ |>.trans harity⟩

/-- Where a declaration has parameters, all of them have a name, and there are no other names. -/
def Declaration.NamesFit : Declaration → Prop
  | .classDecl c => ∃ names, c.paramNames = some names ∧ names.length = c.params.length
  | .funcDecl _ f paramNames => ∃ names, paramNames = some names ∧ names.length = f.params.length
  | .varDecl _ _ => True

/-- The parameters in the result of a program line up with their names: in the signatures of its
literals, in the globals that are one of them, and in the declarations. -/
structure TypeMap.LinesUp (p : Program) (m : TypeMap) : Prop where
  funcs : ∀ n info, (n, info) ∈ m.funcs →
    (∃ f, .func f ∈ p.nodes ∧ f.id = n ∧ f.params = info.params) ∧
      info.signature.IsFuncOf info.params.length
  globals : ∀ g ∈ m.globals, ∀ n, g.func = some n →
    ∃ info, OrdMap.get? m.funcs n = some info ∧ g.ty.IsFuncOf info.params.length
  declarations : ∀ g ∈ m.globals, (m.declaration g).NamesFit

theorem TypeMap.namesFit {m : TypeMap} {g : GlobalInfo}
    (hfunc : ∀ n, g.func = some n →
      ∃ info, OrdMap.get? m.funcs n = some info ∧ g.ty.IsFuncOf info.params.length)
    (hofClass : g.class?.isSome = true → g.func.isSome = true) : (m.declaration g).NamesFit := by
  -- What a declaration reads of a global that is one literal.
  have hreads : g.func.isSome = true → ∃ names f, m.paramNames g.func = some names ∧
      g.ty.eraseNever = .func f ∧ names.length = f.params.length := by
    intro hisSome
    obtain ⟨n, heq⟩ := Option.isSome_iff_exists.mp hisSome
    obtain ⟨info, hfound, harity⟩ := hfunc n heq
    obtain ⟨f, herased, hlength⟩ := harity.eraseNever
    exact ⟨info.params, f, by simp [TypeMap.paramNames, heq, hfound], herased, hlength.symm⟩
  rw [TypeMap.declaration]
  split
  · next c hfound =>
    obtain ⟨id, hisClass, -⟩ := Option.bind_eq_some_iff.mp hfound
    obtain ⟨names, f, hnamed, herased, hlength⟩ := hreads (hofClass (by simp [hisClass]))
    exact ⟨names, hnamed, by simpa [TypeMap.classDecl, herased, Ty.func?] using hlength⟩
  · split
    · next f n hisFunc heq =>
      obtain ⟨names, f', hnamed, herased, hlength⟩ := hreads (by simp [heq])
      rw [herased] at hisFunc
      cases hisFunc
      exact ⟨names, hnamed, hlength⟩
    · trivial

/-! ### Runs of one program -/

/-- The result of a state that matches lines up. -/
theorem TypeMap.linesUp {s : Run} {p : Program} {m : TypeMap} (honeLiteral : s.OneLiteral)
    (hliterals : ∀ (i : ClosureId) (c : Closure), s.closures.table[i]? = some c →
      .func c.func ∈ p.nodes)
    (hlists : ListsFuncs s s.closures.table.size m.funcs) (hfits : ∀ g ∈ m.globals, g.Fits s) :
    m.LinesUp p := by
  have hglobals : ∀ g ∈ m.globals, ∀ n, g.func = some n →
      ∃ info, OrdMap.get? m.funcs n = some info ∧ g.ty.IsFuncOf info.params.length := by
    intro g hlisted n heq
    obtain ⟨id, c, hfound, rfl, harity⟩ := (hfits g hlisted).func n heq
    obtain ⟨hless, -⟩ := Array.getElem?_eq_some_iff.mp hfound
    obtain ⟨info, hentry⟩ := Option.isSome_iff_exists.mp (hlists.listed id hless c hfound)
    obtain ⟨k, d, hat, hkey, hnames, -⟩ := hlists.fits _ (OrdMap.mem_of_get? hentry)
    have hsame : c.func = d.func := honeLiteral id k c d hfound hat hkey
    exact ⟨info, hentry, by rwa [hnames, ← hsame]⟩
  refine ⟨fun n info hmem => ?_, hglobals, fun g hlisted => ?_⟩
  · obtain ⟨id, c, hfound, hkey, hnames, harity⟩ := hlists.fits _ hmem
    exact ⟨⟨c.func, hliterals id c hfound, hkey.symm, hnames.symm⟩, hnames ▸ harity⟩
  · exact TypeMap.namesFit (hglobals g hlisted) (hfits g hlisted).ofClass

/-- The result of running one program lines up, in whatever order the nodes are resolved. -/
theorem infer_linesUp {order : NodeOrder} {s t : Run} {p : Program} {m : TypeMap}
    (hran : infer order p s = .ok m t) (hlast : t.MatchedBy p.unflagged) : m.LinesUp p := by
  -- Since the result was built, only the log has changed.
  obtain ⟨-, v, -, -, hbuilt, rfl⟩ := infer_eq_ok hran
  have hmatched : v.Matched := ⟨hlast.matched.types, hlast.matched.saturated⟩
  have hone : v.OneLiteral := hlast.oneLiteral p.tidy_unflagged
  obtain ⟨left, hshown⟩ := run'_eq_ok.mp hbuilt
  obtain ⟨-, -, hlists, hfits⟩ :=
    buildTypeMapIn_lists hmatched hone order Memo.empty m left (Memo.each_empty _) hshown
  refine TypeMap.linesUp hone (fun i c hfound => ?_) hlists hfits
  exact Stmt.nodesAll_mono p.unflagged_subset (hlast.literals i c hfound)

/-- **Function types keep the arity of their closures.**  A run of one program, from globals without
handles, passes only states in which a function type has as many parameters as the literal of each
of its closures, and so does every operation of its statements in such a state that is given such
types.  Every round of every body, in the program and in the sweep after it, begins in such a state,
with such types for `this` and the arguments: stopping at a round that does not makes no difference.
The run ends, and in its result the parameters line up with their names. -/
theorem parameters_line_up (options : Options) (globals : Globals)
    (hglobals : ∀ g ∈ globals, g.2.handles = []) (p : Program) :
    (∀ order, (infer order p).Through (Run.MatchedBy p.unflagged) (Run.start options globals) ∧
      ∃ m t, infer order p (Run.start options globals) = .ok m t ∧ t.MatchedBy p.unflagged ∧
        m.LinesUp p) ∧
    (∀ fault, engineBy (arityWatch p.unflagged fault).invoke [p] (Run.start options globals) =
      (do inferPrograms [p]; analyseUncalled : Walk Unit) (Run.start options globals)) ∧
    ∀ s : Run, s.MatchedBy p.unflagged → ∀ a : Action, (∀ t ∈ a.types, s.MatchesTy t) →
      (∀ n ∈ a.nodes, n ∈ p.unflagged.nodes) →
        a.run.Through (Run.MatchedBy p.unflagged) s ∧ (after a.run s).MatchedBy p.unflagged := by
  have hstart : (Run.start options globals).MatchedBy p.unflagged := start_matchedBy hglobals
  have hkeeps {r s : Run} (hsaturated : r.Saturated)
      (hinv : (matchingRuns p.unflagged p.tidy_unflagged r).Inv s) : s.MatchedBy p.unflagged :=
    matchingRuns_matchedBy hsaturated hinv
  refine ⟨fun order => ?_, fun fault => ?_, fun s hs a htypes hnodes => ?_⟩
  · have hdoes := matchingRuns_infer order p hstart
    obtain ⟨hthrough, hends⟩ :=
      hdoes.through (fun _ => hkeeps hstart.matched.saturated) rfl hstart.inv
    obtain ⟨m, t, hran⟩ : ∃ m t, infer order p (Run.start options globals) = .ok m t :=
      infer_ok hglobals
    rw [after, hran] at hends
    exact ⟨hthrough, m, t, hran, hends, infer_linesUp hran hends⟩
  -- in front of each round the state and the arguments of the call keep to the discipline
  · refine Discipline.engineBy_unseen
      (D := matchingRuns p.unflagged p.tidy_unflagged (Run.start options globals)) rfl
      (fun d f scope call s hready => not_not_intro ?_) trivial hstart.inv
      (List.forall_mem_singleton.mpr (outerNodes_allowed p _ _))
    exact ⟨hkeeps hstart.matched.saturated hready.inv, hready.callable.this, hready.callable.args⟩
  · have hdoes : (matchingRuns p.unflagged p.tidy_unflagged s).Does none s a.run fun _ _ => True :=
      Discipline.Does.action hs.inv htypes (fun _ _ htight => htight.elim)
        fun n hn => NodeClass.of_singleton.mpr (hnodes n hn)
    exact hdoes.through (fun _ => hkeeps hs.matched.saturated) rfl hs.inv

/-- `function f(a, b) { return f }`, `f(0)`, `function C(x) {}` and `new C(0)`.  At the end there is
`function f(c) {}`, where the literal has the identity of the first. -/
def repeatedLiteral : Program :=
  [⟨0, ⟨0, 0⟩, .function ⟨1, ⟨0, 0⟩, some "f", ["a", "b"],
      [⟨2, ⟨0, 0⟩, .ret (some ⟨3, ⟨0, 0⟩, .ident "f"⟩)⟩]⟩⟩,
    ⟨4, ⟨0, 0⟩, .expr ⟨5, ⟨0, 0⟩, .call (some ⟨6, ⟨0, 0⟩, .ident "f"⟩)
      [⟨7, ⟨0, 0⟩, .literal .number⟩]⟩⟩,
    ⟨8, ⟨0, 0⟩, .function ⟨9, ⟨0, 0⟩, some "C", ["x"], []⟩⟩,
    ⟨10, ⟨0, 0⟩, .expr ⟨11, ⟨0, 0⟩, .construct ⟨12, ⟨0, 0⟩, .ident "C"⟩
      [⟨13, ⟨0, 0⟩, .literal .number⟩]⟩⟩,
    ⟨14, ⟨0, 0⟩, .function ⟨1, ⟨0, 0⟩, some "f", ["c"], []⟩⟩]

/-- A function that returns itself, a class, and a literal that is not captured, since its identity
is taken. -/
theorem parameters_line_up_repeatedLiteral :
    ∃ m t, infer .ascending repeatedLiteral (Run.start .standard []) = .ok m t ∧
      m.funcs.map (fun e => (e.1, e.2.params)) = [(1, ["a", "b"]), (9, ["x"])] ∧
      m.declarations = "declare class C \x7b\n    constructor(x: number);\n\x7d\n" ++
        "declare function f(a: number, b: undefined): any;\n" ∧
      t.MatchedBy repeatedLiteral.unflagged ∧ m.LinesUp repeatedLiteral ∧
      ∀ fault, engineBy (arityWatch repeatedLiteral.unflagged fault).invoke [repeatedLiteral]
          (Run.start .standard []) =
        (do inferPrograms [repeatedLiteral]; analyseUncalled : Walk Unit)
          (Run.start .standard []) := by
  obtain ⟨hruns, hwatched, -⟩ := parameters_line_up .standard [] (by simp) repeatedLiteral
  obtain ⟨-, m, t, hran, hmatched, hlines⟩ := hruns .ascending
  have hshown : ((infer .ascending repeatedLiteral).answer? (Run.start .standard [])).map
      (fun m => (m.funcs.map (fun e => (e.1, e.2.params)), m.declarations)) =
        some ([(1, ["a", "b"]), (9, ["x"])],
          "declare class C \x7b\n    constructor(x: number);\n\x7d\n" ++
            "declare function f(a: number, b: undefined): any;\n") := by
    decide +kernel
  rw [Walk.answer?, hran] at hshown
  obtain ⟨hfuncs, hdeclarations⟩ := Prod.mk.inj (Option.some.inj hshown)
  exact ⟨m, t, hran, hfuncs, hdeclarations, hmatched, hlines, hwatched⟩

end TypeFlow
