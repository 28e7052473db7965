import Mathlib
import TypeFlow.Proofs.Script.Captures

/-!
# Exposed nodes

A function that returns only itself is never run, so what stands in its body is hidden.  All other
nodes of a program are exposed: each of them stands in the program itself or in the body of a
literal that is exposed and not marked.  A program is well-formed when its nodes have different
identities and no exposed node is malformed.

## Main Definitions

* `Program.bodies`, `Program.captures` - the bodies and the literals of a program
* `Program.Enters` - the bodies that a run may enter
* `Program.hidden` - the identities of the nodes in the bodies of marked literals
* `Program.WellFormed` - the programs without malformed nodes

## Main Statements

* `Program.nodes_perm` - every node of a program stands in one of its bodies, outside of all
  literals in it
* `Program.captures_unique` - a literal of a program is told by its identity
* `Program.exposes_iff` - a node is exposed exactly when it is not hidden
-/

namespace TypeFlow

/-! ### Malformed nodes -/

/-- Whether an expression is malformed itself: a call without callee, an access without property
name, or a write to what cannot be assigned to. -/
def Expr.isMalformed (e : Expr) : Bool :=
  match e.form with
  | .call none _ => true
  | .member _ property => property == ""
  | .update _ argument => !argument.isAssignable
  | .assign _ left _ => !left.isAssignable
  | _ => false

/-- Whether a `for`-`in` loop can assign to the target. -/
def ForTarget.isAssignable : ForTarget → Bool
  | .var _ => true
  | .expr e => e.isAssignable

/-- Whether a statement is malformed itself, wherever it stands: a `for`-`in` loop over what cannot
be assigned to. -/
def Stmt.isMalformed (s : Stmt) : Bool :=
  match s.form with
  | .forIn target _ _ => !target.isAssignable
  | _ => false

/-- Whether a node is malformed itself, wherever it stands. -/
def Node.isMalformed : Node → Bool
  | .stmt s => s.isMalformed
  | .expr e => e.isMalformed
  | .func _ => false

/-- Whether a node is a `return` statement. -/
def Node.isReturn : Node → Bool
  | .stmt s => s.returnValue?.isSome
  | _ => false

/-! ### Bodies -/

section Bodies

variable {b : List Stmt} {f : Func} {n : Node}

theorem mem_opened : n ∈ Stmt.nodesAll true b ↔
    n ∈ Stmt.nodesAll false b ∨
      ∃ f, .func f ∈ Stmt.nodesAll false b ∧ n ∈ Stmt.nodesAll true f.body := by
  rw [Stmt.opensAll b, List.mem_flatMap]
  constructor
  · rintro ⟨m, houtside, hinside⟩
    cases m with
    | func f =>
      rw [Node.opened, Func.nodes_true] at hinside
      rcases List.mem_cons.mp hinside with rfl | hinside
      · exact Or.inl houtside
      · exact Or.inr ⟨f, houtside, hinside⟩
    | _ =>
      cases List.mem_singleton.mp hinside
      exact Or.inl houtside
  · rintro (houtside | ⟨f, houtside, hinside⟩)
    · refine ⟨n, houtside, ?_⟩
      cases n with
      | func f => exact f.self_mem_nodes
      | _ => exact List.mem_singleton_self _
    · refine ⟨.func f, houtside, ?_⟩
      rw [Node.opened, Func.nodes_true]
      exact List.mem_cons_of_mem _ hinside

/-- The body of a literal has fewer nodes than what the literal stands in. -/
theorem length_body_lt (hmem : .func f ∈ Stmt.nodesAll false b) :
    (Stmt.nodesAll true f.body).length < (Stmt.nodesAll true b).length := by
  have hlength := ((Stmt.opensAll b).sublist hmem).length_le
  rw [Func.nodes_true] at hlength
  exact hlength

/-- The nodes in a literal are nodes of what the literal stands in, at whatever depth. -/
theorem body_subset (hmem : .func f ∈ Stmt.nodesAll true b) :
    Stmt.nodesAll true f.body ⊆ Stmt.nodesAll true b := by
  induction hsize : (Stmt.nodesAll true b).length using Nat.strong_induction_on generalizing b with
  | _ size ih =>
    subst hsize
    rcases mem_opened.mp hmem with houtside | ⟨g, houtside, hinside⟩
    · exact fun n hinside => mem_opened.mpr (Or.inr ⟨f, houtside, hinside⟩)
    · have hwithin := ih _ (length_body_lt houtside) hinside rfl
      exact fun n hmem => mem_opened.mpr (Or.inr ⟨g, houtside, hwithin hmem⟩)

open scoped List in
/-- Every node stands in the body itself or in that of one of its literals, outside of all literals
in it. -/
theorem nodesAll_perm (b : List Stmt) :
    Stmt.nodesAll true b ~ Stmt.nodesAll false b ++
      ((Stmt.nodesAll true b).filterMap Node.func?).flatMap fun f =>
        Stmt.nodesAll false f.body := by
  induction hsize : (Stmt.nodesAll true b).length using Nat.strong_induction_on generalizing b with
  | _ size ih =>
    subst hsize
    let inner (n : Node) : List Node := n.func?.elim [] fun f => Stmt.nodesAll true f.body
    have hopened (n : Node) : n.opened = n :: inner n := by
      cases n with
      | func f => exact f.nodes_true
      | _ => rfl
    have hbodies : (Stmt.nodesAll false b).flatMap inner ~
        ((Stmt.nodesAll true b).filterMap Node.func?).flatMap fun f =>
          Stmt.nodesAll false f.body := by
      -- each literal that is opened has a smaller body, to which the induction applies
      rw [Stmt.opensAll b, List.filterMap_flatMap, List.flatMap_assoc]
      refine List.Perm.flatMap_left _ fun n hmem => ?_
      cases n with
      | func f =>
        rw [hopened, List.filterMap_cons_some (show Node.func? (.func f) = some f from rfl),
          List.flatMap_cons]
        exact ih _ (length_body_lt hmem) f.body rfl
      | _ => exact List.Perm.refl _
    have hspread := List.map_append_flatMap_perm (Stmt.nodesAll false b) id inner
    rw [List.map_id] at hspread
    calc Stmt.nodesAll true b
        = (Stmt.nodesAll false b).flatMap fun n => n :: inner n := by
          rw [Stmt.opensAll b]
          exact List.flatMap_congr fun n _ => hopened n
      _ ~ Stmt.nodesAll false b ++ (Stmt.nodesAll false b).flatMap inner := hspread.symm
      _ ~ _ := hbodies.append_left _

end Bodies

/-! ### The bodies of a program -/

namespace Program

/-- The program itself, and the bodies of its function literals. -/
def bodies (p : Program) : List (List Stmt) :=
  p :: p.funcs.map Func.body

/-- The literals of a program at all depths, each with the name that its value is about to be stored
under. -/
def captures (p : Program) : List Capture :=
  p.bodies.flatMap Stmt.capturesAll

/-- The identities of the nodes in the bodies of marked literals. -/
def hidden (p : Program) : List NodeId :=
  (p.captures.filter Capture.marks).flatMap fun c => (Stmt.nodesAll true c.1.body).map Node.id

/-- The bodies that a run may enter: that of the program, and those of the literals in such bodies
that are not marked. -/
inductive Enters (p : Program) : List Stmt → Prop where
  | program : p.Enters p
  | literal {b : List Stmt} {c : Capture} : p.Enters b → c ∈ Stmt.capturesAll b →
    c.marks = false → p.Enters c.1.body

/-- The nodes in the bodies that a run may enter, outside of the literals in them. -/
def Exposes (p : Program) (n : Node) : Prop :=
  ∃ b, p.Enters b ∧ n ∈ Stmt.nodesAll false b

/-- The nodes of the program have different identities, no node is malformed unless it is hidden,
and no `return` statement stands outside of all functions. -/
structure WellFormed (p : Program) : Prop where
  tidy : (p.nodes.map Node.id).Nodup
  sound : ∀ n ∈ p.nodes, n.isMalformed = true → n.id ∈ p.hidden
  returns : ∀ n ∈ p.outerNodes, n.isReturn = false

instance (p : Program) : Decidable p.WellFormed :=
  decidable_of_iff ((p.nodes.map Node.id).Nodup ∧
      (∀ n ∈ p.nodes, n.isMalformed = true → n.id ∈ p.hidden) ∧
      ∀ n ∈ p.outerNodes, n.isReturn = false)
    ⟨fun h => ⟨h.1, h.2.1, h.2.2⟩, fun h => ⟨h.tidy, h.sound, h.returns⟩⟩

variable {p : Program} {b : List Stmt} {c d : Capture} {n : Node}

theorem mem_funcs {f : Func} : f ∈ p.funcs ↔ .func f ∈ p.nodes := by
  constructor
  · intro hmem
    obtain ⟨n, hinside, hfunc⟩ := List.mem_filterMap.mp hmem
    cases n <;> cases hfunc
    exact hinside
  · exact fun hmem => List.mem_filterMap.mpr ⟨_, hmem, rfl⟩

open scoped List in
theorem nodes_perm (p : Program) : p.nodes ~ p.bodies.flatMap (Stmt.nodesAll false) := by
  rw [bodies, List.flatMap_cons, List.flatMap_map]
  exact nodesAll_perm p

open scoped List in
theorem captures_perm (p : Program) : p.captures.map Prod.fst ~ p.funcs := by
  have hliterals : p.captures.map Prod.fst =
      (p.bodies.flatMap (Stmt.nodesAll false)).filterMap Node.func? := by
    rw [captures, List.map_flatMap, List.filterMap_flatMap]
    exact List.flatMap_congr fun b _ => Stmt.fitsAll b
  rw [hliterals]
  exact (p.nodes_perm.filterMap Node.func?).symm

theorem mem_captures (hmem : b ∈ p.bodies) (hcaptured : c ∈ Stmt.capturesAll b) : c ∈ p.captures :=
  List.mem_flatMap.mpr ⟨b, hmem, hcaptured⟩

theorem literal_of_mem_captures (hmem : c ∈ p.captures) : c.1 ∈ p.funcs :=
  p.captures_perm.subset (List.mem_map_of_mem hmem)

theorem Enters.mem_bodies (henters : p.Enters b) : b ∈ p.bodies := by
  induction henters with
  | program => exact List.mem_cons_self
  | literal _ hcaptured _ ih =>
    refine List.mem_cons_of_mem _ (List.mem_map_of_mem ?_)
    exact literal_of_mem_captures (mem_captures ih hcaptured)

theorem Enters.mem_captures (henters : p.Enters b) (hcaptured : c ∈ Stmt.capturesAll b) :
    c ∈ p.captures :=
  Program.mem_captures henters.mem_bodies hcaptured

theorem Exposes.mem_nodes (hexposes : p.Exposes n) : n ∈ p.nodes := by
  obtain ⟨b, henters, hinside⟩ := hexposes
  exact p.nodes_perm.symm.subset (List.mem_flatMap.mpr ⟨b, henters.mem_bodies, hinside⟩)

/-- A node that is not exposed stands in a marked literal that a run may come upon. -/
theorem exposed_or_marked (hmem : n ∈ p.nodes) :
    p.Exposes n ∨ ∃ b c, p.Enters b ∧ c ∈ Stmt.capturesAll b ∧ c.marks = true ∧
      n ∈ Stmt.nodesAll true c.1.body := by
  have hsearch (b : List Stmt) (henters : p.Enters b) (hinside : n ∈ Stmt.nodesAll true b) :
      p.Exposes n ∨ ∃ b c, p.Enters b ∧ c ∈ Stmt.capturesAll b ∧ c.marks = true ∧
        n ∈ Stmt.nodesAll true c.1.body := by
    -- the body of a literal has fewer nodes than what it stands in
    induction hsize : (Stmt.nodesAll true b).length using Nat.strong_induction_on
      generalizing b with
    | _ size ih =>
      subst hsize
      rcases mem_opened.mp hinside with houtside | ⟨f, houtside, hdeeper⟩
      · exact Or.inl ⟨b, henters, houtside⟩
      · obtain ⟨c, hcaptured, rfl⟩ := (Stmt.fitsAll b).capture houtside
        cases hmarks : c.marks with
        | false =>
          exact ih _ (length_body_lt houtside) _ (.literal henters hcaptured hmarks) hdeeper rfl
        | true => exact Or.inr ⟨b, c, henters, hcaptured, hmarks, hdeeper⟩
  exact hsearch p .program hmem

/-! ### Programs whose nodes have different identities -/

section Tidy

variable (htidy : Tidy p.nodes)

include htidy

/-- A literal of a program is told by its identity, and so is the name that it is stored under. -/
theorem captures_unique (hc : c ∈ p.captures) (hd : d ∈ p.captures) (hsame : c.1.id = d.1.id) :
    c = d := by
  have hnodup : (p.captures.map fun c => c.1.id).Nodup := by
    have hliterals : (p.funcs.map Func.id).Nodup := htidy.literals
    rw [← (p.captures_perm.map Func.id).nodup_iff, List.map_map] at hliterals
    exact hliterals
  exact List.inj_on_of_nodup_map hnodup hc hd hsame

/-- A node stands in one body only. -/
theorem body_unique {f : Func} (hmem : f ∈ p.funcs) (hinside : n ∈ Stmt.nodesAll false f.body) :
    n ∉ Stmt.nodesAll false p ∧
      ∀ g ∈ p.funcs, n ∈ Stmt.nodesAll false g.body → g = f := by
  have hnodup : (Stmt.nodesAll true p).Nodup := List.Nodup.of_map Node.id htidy
  rw [(nodesAll_perm p).nodup_iff, List.nodup_append'] at hnodup
  obtain ⟨-, hwithin, hdisjoint⟩ := hnodup
  refine ⟨fun houtside => hdisjoint houtside (List.mem_flatMap.mpr ⟨f, hmem, hinside⟩),
    fun g hmem' hagain => ?_⟩
  have : Std.Symm (Function.onFun List.Disjoint fun f : Func => Stmt.nodesAll false f.body) :=
    ⟨fun _ _ hdisjoint' => hdisjoint'.symm⟩
  by_contra hdiffer
  have hdisjoint' := (List.nodup_flatMap.mp hwithin).2.forall hmem' hmem hdiffer
  exact hdisjoint' hagain hinside

/-- No exposed node stands in the body of a marked literal. -/
theorem Enters.not_mem_marked (henters : p.Enters b) (hinside : n ∈ Stmt.nodesAll false b)
    (hcaptured : c ∈ p.captures) (hmarked : c.marks = true) : n ∉ Stmt.nodesAll true c.1.body := by
  have hliteral := literal_of_mem_captures hcaptured
  have hwithin := body_subset (mem_funcs.mp hliteral)
  -- the literal of the program in whose body a node of the marked literal stands
  have howner {n : Node} (hmem : n ∈ Stmt.nodesAll true c.1.body) : ∃ g ∈ p.funcs,
      n ∈ Stmt.nodesAll false g.body ∧ (g = c.1 ∨ .func g ∈ Stmt.nodesAll true c.1.body) := by
    rcases List.mem_append.mp ((nodesAll_perm c.1.body).subset hmem) with hmem' | hbodies
    · exact ⟨c.1, hliteral, hmem', Or.inl rfl⟩
    · obtain ⟨g, hnested, hmem'⟩ := List.mem_flatMap.mp hbodies
      obtain ⟨m, hnested, hfunc⟩ := List.mem_filterMap.mp hnested
      cases m <;> cases hfunc
      exact ⟨g, mem_funcs.mpr (hwithin hnested), hmem', Or.inr hnested⟩
  induction henters generalizing n with
  | program =>
    intro hmem
    obtain ⟨g, hknown, hmem', -⟩ := howner hmem
    exact (body_unique htidy hknown hmem').1 hinside
  | @literal b d henters hnested hunmarked ih =>
    intro hmem
    obtain ⟨g, hknown, hmem', hplace⟩ := howner hmem
    have hlisted := henters.mem_captures hnested
    cases (body_unique htidy hknown hmem').2 d.1 (literal_of_mem_captures hlisted) hinside
    rcases hplace with hsame | hdeeper
    · cases captures_unique htidy hlisted hcaptured (congrArg Func.id hsame)
      cases hunmarked.symm.trans hmarked
    · exact ih ((Stmt.fitsAll b).mem hnested) hdeeper

/-- A node of a program is exposed exactly when it is not hidden. -/
theorem exposes_iff (hmem : n ∈ p.nodes) : p.Exposes n ↔ n.id ∉ p.hidden := by
  constructor
  · rintro ⟨b, henters, hinside⟩ hhidden
    obtain ⟨c, hmarked, hlisted⟩ := List.mem_flatMap.mp hhidden
    obtain ⟨hcaptured, hmarks⟩ := List.mem_filter.mp hmarked
    obtain ⟨m, hwithin, hsame⟩ := List.mem_map.mp hlisted
    have hliteral := mem_funcs.mp (literal_of_mem_captures hcaptured)
    cases List.inj_on_of_nodup_map htidy (body_subset hliteral hwithin) hmem hsame
    exact henters.not_mem_marked htidy hinside hcaptured hmarks hwithin
  · intro hvisible
    rcases exposed_or_marked hmem with hexposes | ⟨b, c, henters, hcaptured, hmarks, hwithin⟩
    · exact hexposes
    · refine absurd (List.mem_flatMap.mpr ⟨c, ?_, List.mem_map_of_mem hwithin⟩) hvisible
      exact List.mem_filter.mpr ⟨henters.mem_captures hcaptured, hmarks⟩

end Tidy

/-- No exposed node of a well-formed program is malformed. -/
theorem WellFormed.exposed (h : p.WellFormed) (hexposes : p.Exposes n) : n.isMalformed = false := by
  by_contra hmalformed
  have hhidden := h.sound n hexposes.mem_nodes (Bool.eq_true_of_not_eq_false hmalformed)
  exact (exposes_iff h.tidy hexposes.mem_nodes).mp hexposes hhidden

end Program

end TypeFlow
