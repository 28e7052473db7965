import Mathlib
import TypeFlow.Proofs.Result.Bindings
import TypeFlow.Proofs.Result.Printed

/-!
# Classes that declarations mention

A declaration file mentions classes by name: as the type of a variable that holds an instance, and
as the parent of another class.  The name is that of a constructor.  When the constructor makes its
function a class, the file declares this class exactly when a global of the name is the function and
nothing else.

## Main Definitions

* `TypeMap.Closed` - all classes that are mentioned are declared
* `Run.HoldsFunc`, `Run.HoldsClass` - a global of a state is a class and nothing else
* `TypeMap.Lists` - the globals and constructors of a result are those of a state

## Main Statements

* `TypeMap.DeclaresClass.text` - classes that are declared stand in the file
* `TypeMap.lists_of_built` - results list the globals and the constructors of the state
* `TypeMap.Lists.declaresClassOf_iff` - which classes are declared
* `TypeMap.Lists.mentions` - which classes are mentioned
* `mentioned_classes` - which of the mentioned classes are declared

## Design Notes

The two are chosen apart: classes are declared by going through the globals, mentions come from
constructors.  They meet because no two constructors have one closure.
-/

namespace TypeFlow

open Resolve

/-! ### Mentions -/

/-- The declarations have a class of the name. -/
def TypeMap.DeclaresClass (m : TypeMap) (name : String) : Prop :=
  ∃ g ∈ m.globals, (m.declaration g).className? = some name

/-- The declarations have a class of the name, and it is that of the constructor. -/
def TypeMap.DeclaresClassOf (m : TypeMap) (name : String) (id : CtorId) : Prop :=
  ∃ g ∈ m.globals, g.class? = some id ∧ (m.declaration g).className? = some name

/-- All classes that the declarations mention are among them. -/
def TypeMap.Closed (m : TypeMap) : Prop :=
  ∀ g ∈ m.globals, ∀ name ∈ (m.declaration g).mentions, m.DeclaresClass name

/-- A class that is declared stands in the file. -/
theorem TypeMap.DeclaresClass.text {m : TypeMap} {name : String} (h : m.DeclaresClass name) :
    ∃ before rest, m.declarations =
      before ++ "declare class " ++ Text.propertyName name ++ rest := by
  obtain ⟨g, hlisted, hclass⟩ := h
  obtain ⟨before, rest, hfile⟩ := m.declarations_split hlisted
  obtain ⟨body, htext⟩ := Declaration.text_of_className? hclass
  refine ⟨before, body ++ rest, ?_⟩
  rw [hfile, htext]
  simp only [String.append_assoc]

instance (m : TypeMap) (name : String) : Decidable (m.DeclaresClass name) :=
  inferInstanceAs (Decidable (∃ g ∈ m.globals, (m.declaration g).className? = some name))

instance (m : TypeMap) : Decidable m.Closed :=
  inferInstanceAs
    (Decidable (∀ g ∈ m.globals, ∀ name ∈ (m.declaration g).mentions, m.DeclaresClass name))

/-- What a declaration mentions is a constructor: the only one of the instances that a global holds,
or the one that the prototype of a class was built from. -/
def GlobalInfo.RefersTo (g : GlobalInfo) (s : Run) (id : CtorId) : Prop :=
  (∃ o, g.ty.eraseNever = .obj o ∧ o.ctors = [id]) ∨
    ∃ k, g.class? = some k ∧ s.protos.effectiveParent k = .ok (some id)

/-- The global of the name is the closure and nothing else. -/
def Run.BindsExactly (s : Run) (name : String) (closure : ClosureId) : Prop :=
  ∃ t, (name, t) ∈ s.bindings Env.global ∧ t.singleClosure? = some closure

/-- A constructor goes by the name of its function, or by that of a global when it has none. -/
def Run.Names (s : Run) (name : String) (id : CtorId) : Prop :=
  ∃ c, s.protos.ctors[id]? = some c ∧
    (c.name = some name ∨ c.name = none ∧ ∃ k, c.closure = some k ∧ s.BindsExactly name k)

/-- A global that the program made is the function of the constructor and nothing else. -/
def Run.HoldsFunc (s : Run) (name : String) (c : Ctor) : Prop :=
  ∃ k, c.closure = some k ∧ name ∉ s.seeded ∧ s.BindsExactly name k

/-- A global that the program made is the function of the constructor and nothing else, and the
constructor makes the function a class. -/
def Run.HoldsClass (s : Run) (name : String) (id : CtorId) : Prop :=
  ∃ c, s.protos.ctors[id]? = some c ∧ c.isClass = true ∧ s.HoldsFunc name c

/-! ### The result of a run -/

theorem Resolve.ask_eq_ok {α : Type} {look : Except Dangling α} {memo memo' : Memo} {a : α} :
    Resolve.ask look memo = .ok (a, memo') ↔ look = .ok a ∧ memo' = memo := by
  cases look with
  | error d => exact ⟨nofun, fun hboth => nomatch hboth.1⟩
  | ok b =>
    constructor
    · rintro ⟨⟩
      exact ⟨rfl, rfl⟩
    · rintro ⟨⟨⟩, rfl⟩
      rfl

/-- The globals that the program made are listed, with their classes. -/
theorem resolveGlobals_mem {s : Run} {fs : Fields} {gs : List GlobalInfo} {memo memo' : Memo}
    (hran : resolveGlobals s fs memo = .ok (gs, memo')) (name : String) (cls : Option CtorId) :
    (∃ g ∈ gs, g.name = name ∧ g.class? = cls) ↔
      ∃ t, (name, t) ∈ fs ∧ name ∉ s.seeded ∧ classOf s t.singleClosure? = .ok cls := by
  induction fs generalizing memo memo' gs with
  | nil =>
    cases hran
    simp
  | cons e fs ih =>
    obtain ⟨first, u⟩ := e
    rw [resolveGlobals] at hran
    by_cases hgiven : s.seeded.contains first = true
    -- what was given before the run is not listed
    · rw [if_pos hgiven] at hran
      rw [ih hran]
      have hgiven' : first ∈ s.seeded := List.contains_iff_mem.mp hgiven
      constructor
      · rintro ⟨t, hbound, hrest⟩
        exact ⟨t, List.mem_cons_of_mem _ hbound, hrest⟩
      · rintro ⟨t, hbound, hmade, hrest⟩
        rcases List.mem_cons.mp hbound with heq | hbound
        · cases heq
          exact absurd hgiven' hmade
        · exact ⟨t, hbound, hmade, hrest⟩
    -- a global of the program is listed with the class that is found for its closure
    · rw [if_neg hgiven] at hran
      have hmade : first ∉ s.seeded := fun hmem => hgiven (List.contains_iff_mem.mpr hmem)
      obtain ⟨func, _, -, hran⟩ := Resolve.bind_eq_ok.mp hran
      obtain ⟨own, _, hasked, hran⟩ := Resolve.bind_eq_ok.mp hran
      obtain ⟨r, _, -, hran⟩ := Resolve.bind_eq_ok.mp hran
      obtain ⟨others, _, hrest, hran⟩ := Resolve.bind_eq_ok.mp hran
      cases hran
      have hanswered := (Resolve.ask_eq_ok.mp hasked).1
      rw [List.exists_mem_cons_iff, ih hrest]
      constructor
      · rintro (⟨rfl, rfl⟩ | ⟨t, hbound, hrest⟩)
        · exact ⟨u, List.mem_cons_self, hmade, hanswered⟩
        · exact ⟨t, List.mem_cons_of_mem _ hbound, hrest⟩
      · rintro ⟨t, hbound, hmade, hlooked⟩
        rcases List.mem_cons.mp hbound with heq | hbound
        · cases heq
          exact .inl ⟨rfl, Except.ok.inj (hanswered.symm.trans hlooked)⟩
        · exact .inr ⟨t, hbound, hmade, hlooked⟩

/-- The constructors are listed in their order, with their names and parents. -/
theorem resolveCtors_getElem? {s : Run} {globals : Fields} {id : CtorId} {cs : List Ctor}
    {infos : List CtorInfo} {memo memo' : Memo}
    (hran : resolveCtors s globals id cs memo = .ok (infos, memo')) :
    infos.length = cs.length ∧ ∀ (i : Nat) c info, cs[i]? = some c → infos[i]? = some info →
      info.name = ctorDisplayName globals c ∧
        s.protos.effectiveParent (id + i) = .ok info.parent := by
  induction cs generalizing id memo memo' infos with
  | nil =>
    cases hran
    exact ⟨rfl, nofun⟩
  | cons c cs ih =>
    obtain ⟨func, _, -, hran⟩ := Resolve.bind_eq_ok.mp hran
    obtain ⟨parent, _, hasked, hran⟩ := Resolve.bind_eq_ok.mp hran
    obtain ⟨methods, _, -, hran⟩ := Resolve.bind_eq_ok.mp hran
    obtain ⟨written, _, -, hran⟩ := Resolve.bind_eq_ok.mp hran
    obtain ⟨fields, _, -, hran⟩ := Resolve.bind_eq_ok.mp hran
    obtain ⟨others, _, hrest, hran⟩ := Resolve.bind_eq_ok.mp hran
    cases hran
    obtain ⟨hlength, heach⟩ := ih hrest
    refine ⟨congrArg Nat.succ hlength, fun i d info hfound hfound' => ?_⟩
    cases i with
    | zero =>
      cases hfound
      cases hfound'
      exact ⟨rfl, (Resolve.ask_eq_ok.mp hasked).1⟩
    | succ i =>
      obtain ⟨hname, hparent⟩ := heach i d info hfound hfound'
      exact ⟨hname, by rw [← hparent, Nat.add_right_comm, Nat.add_assoc]⟩

/-- The globals of a result are those of a state that the program made, and its constructors are
those of the state. -/
structure TypeMap.Lists (m : TypeMap) (s : Run) : Prop where
  globals : ∀ name cls, (∃ g ∈ m.globals, g.name = name ∧ g.class? = cls) ↔
    ∃ t, (name, t) ∈ s.bindings Env.global ∧ name ∉ s.seeded ∧
      classOf s t.singleClosure? = .ok cls
  size : m.ctors.size = s.protos.ctors.size
  ctors : ∀ (id : Nat) c info, s.protos.ctors[id]? = some c → m.ctors[id]? = some info →
    info.name = ctorDisplayName (s.bindings Env.global) c ∧
      s.protos.effectiveParent id = .ok info.parent

/-- Results list the globals and the constructors of the state, in whatever order the nodes are
resolved. -/
theorem TypeMap.lists_of_built {s : Run} {order : List (NodeId × Ty)} {m : TypeMap}
    {memo memo' : Memo} (hbuilt : buildTypeMapIn s order memo = .ok (m, memo')) : m.Lists s := by
  obtain ⟨nodes, _, -, hbuilt⟩ := Resolve.bind_eq_ok.mp hbuilt
  obtain ⟨scopes, _, -, hbuilt⟩ := Resolve.bind_eq_ok.mp hbuilt
  obtain ⟨funcs, _, -, hbuilt⟩ := Resolve.bind_eq_ok.mp hbuilt
  obtain ⟨top, _, hasked, hbuilt⟩ := Resolve.bind_eq_ok.mp hbuilt
  obtain ⟨globals, _, hlisted, hbuilt⟩ := Resolve.bind_eq_ok.mp hbuilt
  obtain ⟨ctors, _, hshown, hbuilt⟩ := Resolve.bind_eq_ok.mp hbuilt
  cases hbuilt
  have hbindings : s.bindings Env.global = top.bindings := by
    rw [Run.bindings, Env.scope_eq_ok (Resolve.ask_eq_ok.mp hasked).1]
    rfl
  obtain ⟨hlength, heach⟩ := resolveCtors_getElem? hshown
  refine ⟨hbindings ▸ resolveGlobals_mem hlisted, ?_, fun id c info hfound hfound' => ?_⟩
  · simpa using hlength
  · rw [hbindings]
    rw [← Array.getElem?_toList] at hfound hfound'
    simpa using heach id c info hfound hfound'

/-! ### Classes -/

section Classes

variable {s : Run} {m : TypeMap} {id : CtorId} {c : Ctor}

/-- A closure has the class of the constructor that has the closure, if it makes it a class. -/
theorem classOf_eq_some_iff (hindexed : s.protos.Indexed)
    {closure : Option ClosureId} :
    classOf s closure = .ok (some id) ↔
      ∃ c k, s.protos.ctors[id]? = some c ∧ c.isClass = true ∧ c.closure = some k ∧
        closure = some k := by
  unfold classOf
  constructor
  · intro heq
    cases hsearch : closure.bind s.protos.find? with
    | none =>
      rw [hsearch] at heq
      cases heq
    | some j =>
      obtain ⟨k, rfl, hsearch'⟩ := Option.bind_eq_some_iff.mp hsearch
      obtain ⟨c, hfound, hclosure⟩ := hindexed.find?_eq_some_iff.mp hsearch'
      have hlooked : s.protos.ctor j = .ok c := by rw [Protos.ctor, hfound]
      simp only [hsearch, hlooked, bind, Except.bind] at heq
      split at heq
      · next hisClass =>
        cases heq
        exact ⟨c, k, hfound, hisClass, hclosure, rfl⟩
      · cases heq
  · rintro ⟨c, k, hfound, hisClass, hclosure, rfl⟩
    have hsearch : s.protos.find? k = some id :=
      hindexed.find?_eq_some_iff.mpr ⟨c, hfound, hclosure⟩
    have hlooked : s.protos.ctor id = .ok c := by rw [Protos.ctor, hfound]
    simp only [Option.bind_some, hsearch, hlooked, bind, Except.bind, hisClass]
    rfl

namespace TypeMap

/-- A global is declared as a class exactly when it has one. -/
theorem className?_declaration (m : TypeMap) (g : GlobalInfo) :
    (m.declaration g).className? = (g.class?.bind (m.ctors[·]?)).map fun _ => g.name := by
  unfold declaration
  split
  · next hfound => simp only [Declaration.className?, hfound, Option.map_some, classDecl]
  · next hmissing =>
    rw [hmissing]
    split <;> rfl

namespace Lists

variable (hlists : m.Lists s)
include hlists

/-- The result has a constructor exactly when the state does. -/
theorem info_of_ctor (hfound : s.protos.ctors[id]? = some c) :
    ∃ info, m.ctors[id]? = some info := by
  obtain ⟨hinside, -⟩ := Array.getElem?_eq_some_iff.mp hfound
  exact ⟨_, Array.getElem?_eq_getElem (hlists.size ▸ hinside)⟩

theorem ctor_of_info {info : CtorInfo} (hfound : m.ctors[id]? = some info) :
    ∃ c, s.protos.ctors[id]? = some c := by
  obtain ⟨hinside, -⟩ := Array.getElem?_eq_some_iff.mp hfound
  exact ⟨_, Array.getElem?_eq_getElem (hlists.size ▸ hinside)⟩

/-- The class of a constructor is declared under a name exactly when the global of the name is its
function and nothing else, and the constructor makes the function a class. -/
theorem declaresClassOf_iff (hindexed : s.protos.Indexed) (name : String) :
    m.DeclaresClassOf name id ↔ s.HoldsClass name id := by
  constructor
  · rintro ⟨g, hlisted, hclass, hdeclared⟩
    obtain ⟨t, hbound, hmade, hcls⟩ :=
      (hlists.globals g.name (some id)).mp ⟨g, hlisted, rfl, hclass⟩
    obtain ⟨c, k, hfound, hisClass, hclosure, hsingle⟩ := (classOf_eq_some_iff hindexed).mp hcls
    rw [className?_declaration] at hdeclared
    obtain ⟨-, -, rfl⟩ := Option.map_eq_some_iff.mp hdeclared
    exact ⟨c, hfound, hisClass, k, hclosure, hmade, t, hbound, hsingle⟩
  · -- The global is listed with the constructor that is found for its closure, and this is the only
    -- constructor with the closure.
    rintro ⟨c, hfound, hisClass, k, hclosure, hmade, t, hbound, hsingle⟩
    have hcls := (classOf_eq_some_iff hindexed).mpr ⟨c, k, hfound, hisClass, hclosure, hsingle⟩
    obtain ⟨g, hlisted, rfl, hclass⟩ := (hlists.globals name (some id)).mpr ⟨t, hbound, hmade, hcls⟩
    obtain ⟨info, hshown⟩ := hlists.info_of_ctor hfound
    refine ⟨g, hlisted, hclass, ?_⟩
    rw [className?_declaration, hclass, Option.bind_some, hshown, Option.map_some]

/-- A class that is declared is that of some constructor. -/
theorem declaresClass_iff (hindexed : s.protos.Indexed) (name : String) :
    m.DeclaresClass name ↔ ∃ id, s.HoldsClass name id := by
  constructor
  · rintro ⟨g, hlisted, hdeclared⟩
    have hsome := hdeclared
    rw [className?_declaration] at hsome
    obtain ⟨_, hshown, -⟩ := Option.map_eq_some_iff.mp hsome
    obtain ⟨id, hclass, -⟩ := Option.bind_eq_some_iff.mp hshown
    exact ⟨id, (hlists.declaresClassOf_iff hindexed name).mp ⟨g, hlisted, hclass, hdeclared⟩⟩
  · rintro ⟨id, hholds⟩
    obtain ⟨g, hlisted, -, hdeclared⟩ := (hlists.declaresClassOf_iff hindexed name).mpr hholds
    exact ⟨g, hlisted, hdeclared⟩

/-- A constructor with a name in the result goes by it in the state. -/
theorem names {name : String} (hnamed : m.ctorName? id = some name) : s.Names name id := by
  obtain ⟨info, hshown, hname⟩ := Option.bind_eq_some_iff.mp hnamed
  obtain ⟨c, hfound⟩ := hlists.ctor_of_info hshown
  refine ⟨c, hfound, ?_⟩
  rw [(hlists.ctors id c info hfound hshown).1, ctorDisplayName] at hname
  cases hown : c.name with
  | some given =>
    rw [hown] at hname
    exact .inl hname
  | none =>
    rw [hown] at hname
    obtain ⟨k, hclosure, hglobal⟩ := Option.bind_eq_some_iff.mp hname
    obtain ⟨⟨_, t⟩, hfirst, rfl⟩ := Option.map_eq_some_iff.mp hglobal
    have hsingle := List.find?_some hfirst
    exact .inr ⟨rfl, k, hclosure, t, List.mem_of_find?_eq_some hfirst, eq_of_beq hsingle⟩

/-- What a declaration mentions is a constructor that goes by the name. -/
theorem mentions {g : GlobalInfo} {name : String}
    (hmention : (m.declaration g).mentions = some name) :
    ∃ id, g.RefersTo s id ∧ m.ctorName? id = some name := by
  unfold declaration at hmention
  split at hmention
  · -- A class mentions its parent.
    next info hfound =>
    obtain ⟨k, hcls, hshown⟩ := Option.bind_eq_some_iff.mp hfound
    obtain ⟨id, hparent, hnamed⟩ := Option.bind_eq_some_iff.mp hmention
    obtain ⟨c, hget⟩ := hlists.ctor_of_info hshown
    refine ⟨id, .inr ⟨k, hcls, ?_⟩, hnamed⟩
    rw [← hparent]
    exact (hlists.ctors k c info hget hshown).2
  · split at hmention
    · cases hmention
    · unfold declaredType at hmention
      split at hmention
      · -- A variable mentions the constructor of the instances that it holds.
        next fields cells id protoOf heraseNever =>
        split at hmention
        · next given hnamed =>
          cases hmention
          exact ⟨id, .inl ⟨_, heraseNever, rfl⟩, hnamed⟩
        · cases hmention
      · cases hmention

end Lists

end TypeMap

end Classes

/-! ### Runs -/

/-- **Which of the mentioned classes are declared.**  A class that a declaration file mentions,
after the colon of a variable or after `extends`, is a constructor that goes by the name: the only
one of the instances that the variable holds, or the one that the prototype was built from.  When
this constructor makes its function a class, the file declares the class under the name exactly when
a global of the name, made by the program, is the function and nothing else; and it declares any
class under the name exactly when this holds of some constructor.  From globals without handles
there is always a file. -/
theorem mentioned_classes (options : Options) (globals : Globals) (ps : List Program)
    (order : NodeOrder) :
    (∀ m t, analysePrograms order ps (Run.start options globals) = .ok m t →
      (∀ name, m.DeclaresClass name → ∃ before rest, m.declarations =
        before ++ "declare class " ++ Text.propertyName name ++ rest) ∧
      ∀ g ∈ m.globals,
        (∃ before rest, m.declarations = before ++ (m.declaration g).text ++ rest) ∧
        ∀ name, (m.declaration g).mentions = some name →
          (m.declaration g).Shows name ∧
          ∃ id c, g.RefersTo t id ∧ t.Names name id ∧ t.protos.ctors[id]? = some c ∧
            (c.isClass = true →
              (m.DeclaresClassOf name id ↔ t.HoldsFunc name c) ∧
              (m.DeclaresClass name ↔ ∃ id, t.HoldsClass name id))) ∧
    ((∀ g ∈ globals, g.2.handles = []) →
      ∃ m t, analysePrograms order ps (Run.start options globals) = .ok m t) := by
  refine ⟨fun m t hran => ⟨fun name => TypeMap.DeclaresClass.text, fun g hlisted =>
    ⟨m.declarations_split hlisted, fun name hmentions =>
      ⟨Declaration.shows_of_mentions hmentions, ?_⟩⟩⟩, fun hglobals => ?_⟩
  · obtain ⟨-, memo, hbuilt⟩ := analysePrograms_ends hran
    have hlists := TypeMap.lists_of_built hbuilt
    have hreached := reached_analysePrograms order options globals ps
    rw [after, hran] at hreached
    have hindexed := (hreached.inv.indexed trivial).protos
    obtain ⟨id, hrefers, hnamed⟩ := hlists.mentions hmentions
    obtain ⟨c, hc, hname⟩ := hlists.names hnamed
    refine ⟨id, c, hrefers, ⟨c, hc, hname⟩, hc, fun hclass => ⟨?_, ?_⟩⟩
    · rw [hlists.declaresClassOf_iff hindexed]
      constructor
      · rintro ⟨d, hd, -, hholds⟩
        cases hd.symm.trans hc
        exact hholds
      · exact fun hholds => ⟨c, hc, hclass, hholds⟩
    · exact hlists.declaresClass_iff hindexed name
  · obtain ⟨m, t, hran, -⟩ := analysePrograms_ok order options ps hglobals
    exact ⟨m, t, hran⟩

/-- `function A() {}`, `function B() {}`, `B.prototype = new A()` and `var x = new B()`. -/
def derivedClass : Program :=
  [⟨0, ⟨0, 0⟩, .function ⟨1, ⟨0, 0⟩, some "A", [], []⟩⟩,
    ⟨2, ⟨0, 0⟩, .function ⟨3, ⟨0, 0⟩, some "B", [], []⟩⟩,
    ⟨4, ⟨0, 0⟩, .expr ⟨5, ⟨0, 0⟩, .assign none
      ⟨6, ⟨0, 0⟩, .member ⟨7, ⟨0, 0⟩, .ident "B"⟩ "prototype"⟩
      ⟨8, ⟨0, 0⟩, .construct ⟨9, ⟨0, 0⟩, .ident "A"⟩ []⟩⟩⟩,
    ⟨10, ⟨0, 0⟩, .vars [⟨"x", some ⟨11, ⟨0, 0⟩, .construct ⟨12, ⟨0, 0⟩, .ident "B"⟩ []⟩⟩]⟩]

/-- The class `B` mentions its parent and the variable its class, and both are held by globals. -/
theorem mentioned_classes_derivedClass :
    ∃ m t, analysePrograms .ascending [derivedClass] (Run.start .standard []) = .ok m t ∧
      m.globals.map (fun g => (m.declaration g).mentions) = [none, some "A", some "B"] ∧
      m.Closed ∧ t.protos.ctors.map Ctor.isClass = #[true, true] ∧
      ∀ name ∈ ["A", "B"],
        (∃ id c, t.Names name id ∧ t.protos.ctors[id]? = some c ∧
          (m.DeclaresClassOf name id ↔ t.HoldsFunc name c)) ∧ ∃ id, t.HoldsClass name id := by
  obtain ⟨hmentioned, hends⟩ := mentioned_classes .standard [] [derivedClass] .ascending
  obtain ⟨m, t, hran⟩ := hends (by simp)
  have hshown : ((analysePrograms .ascending [derivedClass]).run' (Run.start .standard [])).map
      (fun m => (m.globals.map fun g => (m.declaration g).mentions, decide m.Closed)) =
        some ([none, some "A", some "B"], true) := by
    decide +kernel
  have hctors : (after (analysePrograms .ascending [derivedClass])
      (Run.start .standard [])).protos.ctors.map Ctor.isClass = #[true, true] := by
    decide +kernel
  rw [TypeFlow.run'_eq_some.mpr ⟨t, hran⟩] at hshown
  rw [after, hran] at hctors
  obtain ⟨hmentions, hclosed⟩ := Prod.mk.inj (Option.some.inj hshown)
  replace hclosed := of_decide_eq_true hclosed
  refine ⟨m, t, hran, hmentions, hclosed, hctors, fun name hname => ?_⟩
  have hmem : some name ∈ m.globals.map fun g => (m.declaration g).mentions := by
    rw [hmentions]
    exact List.mem_cons_of_mem _ (List.mem_map_of_mem hname)
  obtain ⟨g, hlisted, hmention⟩ := List.mem_map.mp hmem
  obtain ⟨-, id, c, -, hnames, hc, hdeclared⟩ := ((hmentioned m t hran).2 g hlisted).2 name hmention
  have hclass : c.isClass = true := by
    have hflag : (t.protos.ctors.map Ctor.isClass)[id]? = some c.isClass := by
      rw [Array.getElem?_map, hc, Option.map_some]
    rw [hctors] at hflag
    have hmem : c.isClass ∈ [true, true] := Array.mem_toList_iff.mpr (Array.mem_of_getElem? hflag)
    simpa using hmem
  obtain ⟨hexact, hsome⟩ := hdeclared hclass
  exact ⟨⟨id, c, hnames, hc, hexact⟩, hsome.mp (hclosed g hlisted name hmention)⟩

/-- `function mk() { function F() {} return new F() }` and `var x = mk()`. -/
def innerConstructor : Program :=
  [⟨0, ⟨0, 0⟩, .function ⟨1, ⟨0, 0⟩, some "mk", [],
      [⟨2, ⟨0, 0⟩, .function ⟨3, ⟨0, 0⟩, some "F", [], []⟩⟩,
        ⟨4, ⟨0, 0⟩, .ret (some ⟨5, ⟨0, 0⟩, .construct ⟨6, ⟨0, 0⟩, .ident "F"⟩ []⟩)⟩]⟩⟩,
    ⟨7, ⟨0, 0⟩, .vars [⟨"x", some ⟨8, ⟨0, 0⟩, .call (some ⟨9, ⟨0, 0⟩, .ident "mk"⟩) []⟩⟩]⟩]

/-- A class is mentioned that is not declared, since no global holds its constructor. -/
theorem undeclared_class_mentioned :
    (analyse .ascending .standard [] innerConstructor).toOption.map
        (fun a => (a.types.declarations, decide a.types.Closed)) =
      some ("declare function mk(): \x7b\x7d;\ndeclare var x: F;\n", false) := by
  decide +kernel

end TypeFlow
