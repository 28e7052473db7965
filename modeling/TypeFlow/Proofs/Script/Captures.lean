import Mathlib
import TypeFlow.Proofs.Script.Nodes

/-!
# Captured literals

The function literals that a walk over a tree captures, each with the name that its value is about
to be stored under.  Where all nodes have different identities, a literal is told by its identity,
and so is the name.

## Main Definitions

* `Stmt.capturesAll` - the literals that a walk over a body captures
* `Func.Tidy` - all nodes of the literal have different identities

## Main Statements

* `capture_of_hoisted` - declared functions are among the captured literals
* `Func.Tidy.capture` - the literals that a walk over the body of a tidy literal captures are tidy
* `Func.Tidy.unique` - they are told by their identities
-/

namespace TypeFlow

/-- A captured literal, and the name that its value is about to be stored under. -/
abbrev Capture := Func × Option String

/-- Whether capturing a literal marks its closure as returning only itself. -/
def Capture.marks (c : Capture) : Bool :=
  (c.1.name.toList ++ c.2.toList).any c.1.returnsOnlyItself

mutual

/-- The literals that an expression captures, when its value is about to be stored under the given
name. -/
def Expr.captures (binding : Option String) : Expr → List Capture
  | ⟨_, _, form⟩ => form.captures binding
termination_by structural e => e

/-- The literals that an expression of a given form captures. -/
def ExprForm.captures (binding : Option String) : ExprForm → List Capture
  | .literal _ => []
  | .ident _ => []
  | .this => []
  | .array elements => Expr.capturesAll elements
  | .object properties => Expr.capturesProps properties
  | .function f => [(f, binding)]
  | .member object _ => object.captures none
  | .index object key => object.captures none ++ key.captures none
  | .call callee arguments => Expr.capturesOpt none callee ++ Expr.capturesAll arguments
  | .construct callee arguments => callee.captures none ++ Expr.capturesAll arguments
  | .unary _ argument => argument.captures none
  | .update _ argument => argument.captures none
  | .binary _ left right => left.captures none ++ right.captures none
  | .assign op left right =>
    left.captures none ++ right.captures (if op.isNone then left.ident? else none)
  | .conditional test consequent alternate =>
    test.captures none ++ consequent.captures none ++ alternate.captures none
  | .sequence exprs => Expr.capturesAll exprs
termination_by structural form => form

/-- The literals that expressions capture. -/
def Expr.capturesAll : List Expr → List Capture
  | [] => []
  | e :: es => e.captures none ++ Expr.capturesAll es
termination_by structural es => es

/-- The literals that the values of an object literal capture. -/
def Expr.capturesProps : List (String × Expr) → List Capture
  | [] => []
  | (_, e) :: ps => e.captures none ++ Expr.capturesProps ps
termination_by structural ps => ps

/-- The literals that an expression captures that may be absent. -/
def Expr.capturesOpt (binding : Option String) : Option Expr → List Capture
  | none => []
  | some e => e.captures binding
termination_by structural e => e

end

/-- The literals that the initial values of declarators capture. -/
def Declarator.capturesAll : List Declarator → List Capture
  | [] => []
  | ⟨name, init⟩ :: ds => Expr.capturesOpt (some name) init ++ Declarator.capturesAll ds

/-- The literals that a `for` initializer captures. -/
def ForInit.captures : ForInit → List Capture
  | .none => []
  | .vars decls => Declarator.capturesAll decls
  | .expr e => e.captures .none

/-- The literals that a `for`-`in` target captures. -/
def ForTarget.captures : ForTarget → List Capture
  | .var _ => []
  | .expr e => e.captures none

mutual

/-- The literals that a statement captures. -/
def Stmt.captures : Stmt → List Capture
  | ⟨_, _, form⟩ => form.captures
termination_by structural s => s

/-- The literals that a statement of a given form captures. -/
def StmtForm.captures : StmtForm → List Capture
  | .block body => Stmt.capturesAll body
  | .empty => []
  | .expr e => e.captures none
  | .vars decls => Declarator.capturesAll decls
  | .function f => [(f, none)]
  | .ret argument => Expr.capturesOpt none argument
  | .branch test consequent alternate =>
    test.captures none ++ consequent.captures ++ Stmt.capturesOpt alternate
  | .whileLoop test body => test.captures none ++ body.captures
  | .doWhile body test => test.captures none ++ body.captures
  | .forLoop init test update body =>
    init.captures ++ Expr.capturesOpt none test ++ Expr.capturesOpt none update ++ body.captures
  | .forIn target right body => target.captures ++ right.captures none ++ body.captures
  | .switch discriminant cases => discriminant.captures none ++ Case.capturesAll cases
  | .break => []
  | .continue => []
  | .throw argument => argument.captures none
  | .guarded block handler finalizer =>
    Stmt.capturesAll block ++ Handler.capturesOpt handler ++ Stmt.capturesAll finalizer
termination_by structural form => form

/-- The literals that a walk over a body captures. -/
def Stmt.capturesAll : List Stmt → List Capture
  | [] => []
  | s :: rest => s.captures ++ Stmt.capturesAll rest
termination_by structural body => body

/-- The literals that a statement captures that may be absent. -/
def Stmt.capturesOpt : Option Stmt → List Capture
  | none => []
  | some s => s.captures
termination_by structural s => s

/-- The literals that the cases of a `switch` capture. -/
def Case.capturesAll : List Case → List Capture
  | [] => []
  | ⟨test, body⟩ :: cs =>
    Expr.capturesOpt none test ++ Stmt.capturesAll body ++ Case.capturesAll cs
termination_by structural cs => cs

/-- The literals that a `catch` clause captures. -/
def Handler.capturesOpt : Option Handler → List Capture
  | none => []
  | some ⟨_, body⟩ => Stmt.capturesAll body
termination_by structural h => h

end

/-! ### Declared functions -/

section Hoisted

variable {x : Stmt}

mutual

/-- What a statement in the region of another one captures, that one captures. -/
theorem Stmt.captures_subset_of_region (s : Stmt) (h : x ∈ s.region) :
    x.captures ⊆ s.captures := by
  cases s with
  | mk id span form =>
    rw [Stmt.region] at h
    rcases List.mem_cons.mp h with rfl | hinside
    · exact List.Subset.refl _
    · rw [Stmt.captures]
      exact StmtForm.captures_subset_of_region form hinside
termination_by structural s

theorem StmtForm.captures_subset_of_region (form : StmtForm) (h : x ∈ form.region) :
    x.captures ⊆ form.captures := by
  cases form with
  | block body =>
    rw [StmtForm.region] at h
    rw [StmtForm.captures]
    exact Stmt.capturesAll_subset_of_region body h
  | branch test consequent alternate =>
    rw [StmtForm.region] at h
    rw [StmtForm.captures]
    rcases List.mem_append.mp h with hinside | hinside
    · refine List.subset_append_of_subset_left _ (List.subset_append_of_subset_right _ ?_)
      exact Stmt.captures_subset_of_region consequent hinside
    · refine List.subset_append_of_subset_right _ ?_
      exact Stmt.capturesOpt_subset_of_region alternate hinside
  | whileLoop test body =>
    rw [StmtForm.region] at h
    rw [StmtForm.captures]
    exact List.subset_append_of_subset_right _ (Stmt.captures_subset_of_region body h)
  | doWhile body test =>
    rw [StmtForm.region] at h
    rw [StmtForm.captures]
    exact List.subset_append_of_subset_right _ (Stmt.captures_subset_of_region body h)
  | forLoop init test update body =>
    rw [StmtForm.region] at h
    rw [StmtForm.captures]
    exact List.subset_append_of_subset_right _ (Stmt.captures_subset_of_region body h)
  | forIn target right body =>
    rw [StmtForm.region] at h
    rw [StmtForm.captures]
    exact List.subset_append_of_subset_right _ (Stmt.captures_subset_of_region body h)
  | switch discriminant cases =>
    rw [StmtForm.region] at h
    rw [StmtForm.captures]
    exact List.subset_append_of_subset_right _ (Case.capturesAll_subset_of_region cases h)
  | guarded block handler finalizer =>
    rw [StmtForm.region] at h
    rw [StmtForm.captures]
    rcases List.mem_append.mp h with hinside | hinside
    · refine List.subset_append_of_subset_left _ ?_
      rcases List.mem_append.mp hinside with hinside | hinside
      · refine List.subset_append_of_subset_left _ ?_
        exact Stmt.capturesAll_subset_of_region block hinside
      · refine List.subset_append_of_subset_right _ ?_
        exact Handler.capturesOpt_subset_of_region handler hinside
    · refine List.subset_append_of_subset_right _ ?_
      exact Stmt.capturesAll_subset_of_region finalizer hinside
  | _ =>
    rw [StmtForm.region] at h
    · cases h
    all_goals simp
termination_by structural form

/-- What a statement in the region of a body captures, the body captures. -/
theorem Stmt.capturesAll_subset_of_region (body : List Stmt) (h : x ∈ Stmt.regionAll body) :
    x.captures ⊆ Stmt.capturesAll body := by
  cases body with
  | nil => cases h
  | cons s rest =>
    rw [Stmt.regionAll] at h
    rw [Stmt.capturesAll]
    rcases List.mem_append.mp h with hinside | hinside
    · exact List.subset_append_of_subset_left _ (Stmt.captures_subset_of_region s hinside)
    · exact List.subset_append_of_subset_right _ (Stmt.capturesAll_subset_of_region rest hinside)
termination_by structural body

theorem Stmt.capturesOpt_subset_of_region (s : Option Stmt) (h : x ∈ Stmt.regionOpt s) :
    x.captures ⊆ Stmt.capturesOpt s := by
  cases s with
  | none => cases h
  | some s => exact Stmt.captures_subset_of_region s h
termination_by structural s

theorem Case.capturesAll_subset_of_region (cs : List Case) (h : x ∈ Case.regionAll cs) :
    x.captures ⊆ Case.capturesAll cs := by
  cases cs with
  | nil => cases h
  | cons c cs =>
    cases c with
    | mk test body =>
      rw [Case.regionAll] at h
      rw [Case.capturesAll]
      rcases List.mem_append.mp h with hinside | hinside
      · refine List.subset_append_of_subset_left _ (List.subset_append_of_subset_right _ ?_)
        exact Stmt.capturesAll_subset_of_region body hinside
      · exact List.subset_append_of_subset_right _ (Case.capturesAll_subset_of_region cs hinside)
termination_by structural cs

theorem Handler.capturesOpt_subset_of_region (h : Option Handler) (hmem : x ∈ Handler.regionOpt h) :
    x.captures ⊆ Handler.capturesOpt h := by
  cases h with
  | none => cases hmem
  | some h =>
    cases h with
    | mk param body => exact Stmt.capturesAll_subset_of_region body hmem
termination_by structural h

end

end Hoisted

/-- A declared function is among the captured literals, stored under no name but its own. -/
theorem capture_of_hoisted {body : List Stmt} {f : Func} (h : f ∈ hoistedFuncs body) :
    (f, none) ∈ Stmt.capturesAll body := by
  obtain ⟨s, hinside, hdeclares⟩ := List.mem_filterMap.mp h
  refine Stmt.capturesAll_subset_of_region body hinside ?_
  cases s with
  | mk id span form =>
    cases form with
    | function g =>
      cases hdeclares
      rw [Stmt.captures, StmtForm.captures]
      exact List.mem_singleton_self _
    | _ => cases hdeclares

/-! ### Captured literals and nodes -/

/-- The captured literals are the literals among some nodes, in the same order. -/
def Fits (cs : List Capture) (ns : List Node) : Prop :=
  cs.map Prod.fst = ns.filterMap Node.func?

theorem Fits.nil : Fits [] [] :=
  rfl

/-- Literals of parts, one after the other. -/
theorem Fits.append {cs cs' : List Capture} {ns ns' : List Node} (h : Fits cs ns)
    (h' : Fits cs' ns') : Fits (cs ++ cs') (ns ++ ns') := by
  rw [Fits, List.map_append, List.filterMap_append, h, h']

/-- A node that is no literal captures nothing itself. -/
theorem Fits.cons {cs : List Capture} {ns : List Node} (h : Fits cs ns) {n : Node}
    (hfunc : n.func? = none) : Fits cs (n :: ns) := by
  rw [Fits, List.filterMap_cons_none hfunc, h]

/-- A literal captures itself, under the name that it is stored under. -/
theorem Fits.literal (f : Func) (binding : Option String) :
    Fits [(f, binding)] (f.nodes false) := by
  cases f
  rw [Func.nodes]
  rfl

mutual

/-- An expression captures the literals in it, in the order in which they stand there. -/
theorem Expr.fits (e : Expr) (binding : Option String) :
    Fits (e.captures binding) (e.nodes false) := by
  cases e with
  | mk id span form =>
    rw [Expr.captures, Expr.nodes]
    exact (form.fits binding).cons rfl
termination_by structural e

/-- The name under which a literal is stored reaches it through a form only where the value of the
form is the literal. -/
theorem ExprForm.fits (form : ExprForm) (binding : Option String) :
    Fits (form.captures binding) (form.nodes false) := by
  cases form <;> rw [ExprForm.captures, ExprForm.nodes]
  case literal => exact .nil
  case ident => exact .nil
  case this => exact .nil
  case array elements => exact Expr.fitsAll elements
  case object properties => exact Expr.fitsProps properties
  case function f => exact .literal f binding
  case member object _ => exact object.fits none
  case index object key => exact (object.fits none).append (key.fits none)
  case call callee arguments => exact (Expr.fitsOpt callee none).append (Expr.fitsAll arguments)
  case construct callee arguments => exact (callee.fits none).append (Expr.fitsAll arguments)
  case unary _ argument => exact argument.fits none
  case update _ argument => exact argument.fits none
  case binary _ left right => exact (left.fits none).append (right.fits none)
  case assign _ left right => exact (left.fits none).append (right.fits _)
  case conditional test consequent alternate =>
    exact ((test.fits none).append (consequent.fits none)).append (alternate.fits none)
  case sequence exprs => exact Expr.fitsAll exprs
termination_by structural form

theorem Expr.fitsAll (es : List Expr) : Fits (Expr.capturesAll es) (Expr.nodesAll false es) := by
  cases es with
  | nil => exact .nil
  | cons e es =>
    rw [Expr.capturesAll, Expr.nodesAll]
    exact (e.fits none).append (Expr.fitsAll es)
termination_by structural es

theorem Expr.fitsProps (ps : List (String × Expr)) :
    Fits (Expr.capturesProps ps) (Expr.nodesProps false ps) := by
  cases ps with
  | nil => exact .nil
  | cons p ps =>
    cases p with
    | mk name e =>
      rw [Expr.capturesProps, Expr.nodesProps]
      exact (e.fits none).append (Expr.fitsProps ps)
termination_by structural ps

theorem Expr.fitsOpt (e : Option Expr) (binding : Option String) :
    Fits (Expr.capturesOpt binding e) (Expr.nodesOpt false e) := by
  cases e with
  | none => exact .nil
  | some e => exact e.fits binding
termination_by structural e

end

theorem Declarator.fitsAll (ds : List Declarator) :
    Fits (Declarator.capturesAll ds) (Declarator.nodesAll false ds) := by
  induction ds with
  | nil => exact .nil
  | cons d ds ih =>
    cases d with
    | mk name init =>
      rw [Declarator.capturesAll, Declarator.nodesAll]
      exact (Expr.fitsOpt init (some name)).append ih

theorem ForInit.fits (init : ForInit) : Fits init.captures (init.nodes false) := by
  cases init with
  | none => exact .nil
  | vars decls => exact Declarator.fitsAll decls
  | expr e => exact e.fits .none

theorem ForTarget.fits (target : ForTarget) : Fits target.captures (target.nodes false) := by
  cases target with
  | var name => exact .nil
  | expr e => exact e.fits none

mutual

/-- A statement captures the literals in it, in the order in which they stand there. -/
theorem Stmt.fits (x : Stmt) : Fits x.captures (x.nodes false) := by
  cases x with
  | mk id span form =>
    rw [Stmt.captures, Stmt.nodes]
    exact form.fits.cons rfl
termination_by structural x

theorem StmtForm.fits (form : StmtForm) : Fits form.captures (form.nodes false) := by
  cases form <;> rw [StmtForm.captures, StmtForm.nodes]
  case block body => exact Stmt.fitsAll body
  case empty => exact .nil
  case expr e => exact e.fits none
  case vars decls => exact Declarator.fitsAll decls
  case function f => exact .literal f none
  case ret argument => exact Expr.fitsOpt argument none
  case branch test consequent alternate =>
    exact ((test.fits none).append consequent.fits).append (Stmt.fitsOpt alternate)
  case whileLoop test body => exact (test.fits none).append body.fits
  case doWhile body test => exact (test.fits none).append body.fits
  case forLoop init test update body =>
    exact ((init.fits.append (Expr.fitsOpt test none)).append (Expr.fitsOpt update none)).append
      body.fits
  case forIn target right body => exact (target.fits.append (right.fits none)).append body.fits
  case «switch» discriminant cases => exact (discriminant.fits none).append (Case.fitsAll cases)
  case «break» => exact .nil
  case «continue» => exact .nil
  case throw argument => exact argument.fits none
  case guarded block handler finalizer =>
    exact ((Stmt.fitsAll block).append (Handler.fitsOpt handler)).append (Stmt.fitsAll finalizer)
termination_by structural form

/-- A body captures the literals in it. -/
theorem Stmt.fitsAll (body : List Stmt) :
    Fits (Stmt.capturesAll body) (Stmt.nodesAll false body) := by
  cases body with
  | nil => exact .nil
  | cons x rest =>
    rw [Stmt.capturesAll, Stmt.nodesAll]
    exact x.fits.append (Stmt.fitsAll rest)
termination_by structural body

theorem Stmt.fitsOpt (x : Option Stmt) : Fits (Stmt.capturesOpt x) (Stmt.nodesOpt false x) := by
  cases x with
  | none => exact .nil
  | some x => exact x.fits
termination_by structural x

theorem Case.fitsAll (cs : List Case) : Fits (Case.capturesAll cs) (Case.nodesAll false cs) := by
  cases cs with
  | nil => exact .nil
  | cons c cs =>
    cases c with
    | mk test body =>
      rw [Case.capturesAll, Case.nodesAll]
      exact ((Expr.fitsOpt test none).append (Stmt.fitsAll body)).append (Case.fitsAll cs)
termination_by structural cs

theorem Handler.fitsOpt (h : Option Handler) :
    Fits (Handler.capturesOpt h) (Handler.nodesOpt false h) := by
  cases h with
  | none => exact .nil
  | some h =>
    cases h with
    | mk param body => exact Stmt.fitsAll body
termination_by structural h

end

/-! ### Tidy literals -/

/-- All nodes have different identities. -/
def Tidy (ns : List Node) : Prop :=
  (ns.map Node.id).Nodup

/-- All nodes of the literal have different identities. -/
def Func.Tidy (f : Func) : Prop :=
  TypeFlow.Tidy (f.nodes true)

section Tidy

/-- Seen from outside, a literal is one node. -/
theorem Func.nodes_false (f : Func) : f.nodes false = [.func f] := by
  cases f
  rw [Func.nodes, if_neg Bool.false_ne_true]

/-- Opened, a literal has the nodes of its body too. -/
theorem Func.nodes_true (f : Func) : f.nodes true = .func f :: Stmt.nodesAll true f.body := by
  cases f
  rw [Func.nodes, if_pos rfl]

variable {cs : List Capture} {outer inner : List Node}

/-- What is captured is among the nodes. -/
theorem Fits.mem (hfits : Fits cs outer) {c : Capture} (hmem : c ∈ cs) : .func c.1 ∈ outer := by
  have hliteral : c.1 ∈ outer.filterMap Node.func? := hfits ▸ List.mem_map_of_mem hmem
  obtain ⟨n, hinside, hfunc⟩ := List.mem_filterMap.mp hliteral
  cases n <;> cases hfunc
  exact hinside

/-- What is a literal among the nodes is captured. -/
theorem Fits.capture (hfits : Fits cs outer) {f : Func} (hmem : .func f ∈ outer) :
    ∃ c ∈ cs, c.1 = f := by
  have hliteral : f ∈ cs.map Prod.fst := hfits ▸ List.mem_filterMap.mpr ⟨.func f, hmem, rfl⟩
  exact List.mem_map.mp hliteral

/-- Where the nodes have different identities, so have those of a literal that is captured. -/
theorem Fits.tidy (hfits : Fits cs outer) (hopens : Opens outer inner) (htidy : Tidy inner)
    {c : Capture} (hmem : c ∈ cs) : c.1.Tidy :=
  List.Nodup.sublist ((hopens.sublist (hfits.mem hmem)).map Node.id) htidy

/-- Nodes come before those inside them. -/
theorem Opens.outer_sublist (hopens : Opens outer inner) : outer.Sublist inner := by
  subst hopens
  induction outer with
  | nil => exact .slnil
  | cons n rest ih =>
    have hfirst : [n].Sublist n.opened := by
      cases n with
      | func f =>
        rw [Node.opened, Func.nodes_true]
        exact (List.nil_sublist _).cons_cons _
      | _ => exact List.Sublist.refl _
    exact hfirst.append ih

/-- Literals among nodes with different identities have different identities. -/
theorem Tidy.literals {ns : List Node} (htidy : Tidy ns) :
    ((ns.filterMap Node.func?).map Func.id).Nodup := by
  refine List.Nodup.sublist ?_ htidy
  clear htidy
  induction ns with
  | nil => exact .slnil
  | cons n rest ih =>
    cases n with
    | func f => exact ih.cons_cons _
    | _ => exact ih.cons _

/-- Where the nodes have different identities, captured literals are told by theirs, and so are the
names that they are stored under. -/
theorem Fits.unique (hfits : Fits cs outer) (hopens : Opens outer inner) (htidy : Tidy inner)
    {c d : Capture} (hc : c ∈ cs) (hd : d ∈ cs) (hsame : c.1.id = d.1.id) : c = d := by
  have houtside : Tidy outer := List.Nodup.sublist (hopens.outer_sublist.map Node.id) htidy
  have hnodup : (cs.map fun c => c.1.id).Nodup := by
    have hliterals := houtside.literals
    rwa [← hfits, List.map_map] at hliterals
  exact List.inj_on_of_nodup_map hnodup hc hd hsame

variable {f : Func} (htidy : f.Tidy)

include htidy

/-- The nodes of the body of a tidy literal have different identities. -/
theorem Func.Tidy.body : TypeFlow.Tidy (Stmt.nodesAll true f.body) := by
  have htidy : ((f.nodes true).map Node.id).Nodup := htidy
  rw [Func.nodes_true, List.map_cons] at htidy
  exact htidy.of_cons

/-- The literals that a walk over the body of a tidy literal captures are tidy. -/
theorem Func.Tidy.capture {c : Capture} (hmem : c ∈ Stmt.capturesAll f.body) : c.1.Tidy :=
  (Stmt.fitsAll f.body).tidy (Stmt.opensAll f.body) htidy.body hmem

/-- The literals that a walk over the body of a tidy literal captures are told by their
identities. -/
theorem Func.Tidy.unique {c d : Capture} (hc : c ∈ Stmt.capturesAll f.body)
    (hd : d ∈ Stmt.capturesAll f.body) (hsame : c.1.id = d.1.id) : c = d :=
  (Stmt.fitsAll f.body).unique (Stmt.opensAll f.body) htidy.body hc hd hsame

end Tidy

end TypeFlow
