import Mathlib
import TypeFlow.Proofs.Store.Writes
import TypeFlow.Proofs.Types.Inside
import TypeFlow.Proofs.Types.Legible
import TypeFlow.Result.Declarations

/-!
# The text of declarations

A declaration file is put together from words and types.  What is said of the types of a
declaration, or of the classes that it mentions and declares, is said of its text.

## Main Definitions

* `Declaration.parts`, `TypeMap.parts` - the words and the types of a declaration, and of a file
* `Declaration.types` - the types of a declaration
* `Declaration.mentions`, `Declaration.className?` - the class that a declaration mentions, declares
* `Declaration.Shows` - the name of a class stands in the text of a declaration

## Main Statements

* `TypeMap.declarations_eq_parts` - a file is the text of its parts
* `Declaration.inside_types` - what is printed of types is inside the types of the declaration
* `Declaration.shows_of_mentions`, `Declaration.text_of_className?` - classes in the text
-/

namespace TypeFlow

/-! ### Words and types -/

/-- A part of a text: a word that is printed as it is, or a type. -/
abbrev TextPart := String ⊕ Ty

/-- The text of parts, one after the other. -/
def textOf (parts : List TextPart) : String :=
  String.join (parts.map (Sum.elim id Ty.format))

theorem textOf_cons (x : TextPart) (xs : List TextPart) :
    textOf (x :: xs) = Sum.elim id Ty.format x ++ textOf xs := by
  rw [textOf, List.map_cons, String.join_cons, textOf]

theorem textOf_append (xs ys : List TextPart) : textOf (xs ++ ys) = textOf xs ++ textOf ys := by
  rw [textOf, List.map_append, String.join_append, textOf, textOf]

theorem textOf_word (word : String) : textOf [.inl word] = word := by
  rw [textOf_cons, Sum.elim_inl, id, textOf, List.map_nil, String.join_nil, String.append_empty]

theorem textOf_type (t : Ty) : textOf [.inr t] = t.format := by
  rw [textOf_cons, Sum.elim_inr, textOf, List.map_nil, String.join_nil, String.append_empty]

/-- The text of parts that are listed one after the other is joined from theirs. -/
theorem textOf_flatMap {α : Type} (f : α → List TextPart) (xs : List α) :
    textOf (xs.flatMap f) = String.join (xs.map fun x => textOf (f x)) := by
  induction xs with
  | nil => rfl
  | cons x xs ih => rw [List.flatMap_cons, textOf_append, ih, List.map_cons, String.join_cons]

/-- The parameters from position `i` on. -/
def paramParts (names : PendingNames) : Nat → List Ty → List TextPart
  | _, [] => []
  | i, t :: ts =>
    .inl ((if i = 0 then "" else ", ") ++ paramName names i ++ ": ") :: .inr t ::
      paramParts names (i + 1) ts

/-- A named signature. -/
def signatureParts (name : String) (f : FuncTy) (names : PendingNames) : List TextPart :=
  .inl (Text.propertyName name ++ "(") ::
    (paramParts names 0 f.params ++ [.inl (")" ++ ": "), .inr f.ret])

/-- A named type. -/
def propertyParts (name : String) (t : Ty) : List TextPart :=
  [.inl (Text.propertyName name ++ ": "), .inr t]

/-- A method: a signature, or a property when it is no function. -/
def methodParts (name : String) (t : Ty) : List TextPart :=
  match t.func? with
  | some f => signatureParts name f none
  | none => propertyParts name t

/-- A line inside a class. -/
def lineParts (parts : List TextPart) : List TextPart :=
  .inl "    " :: (parts ++ [.inl ";\n"])

/-- The constructor of a class. -/
def constructorParts (names : PendingNames) (params : List Ty) : List TextPart :=
  .inl ("constructor" ++ "(") :: (paramParts names 0 params ++ [.inl ")"])

/-- The words and the types of a class. -/
def ClassDecl.parts (c : ClassDecl) : List TextPart :=
  .inl ("declare class " ++ Text.propertyName c.name ++ extendsClause c.parent ++ " \x7b\n") ::
    (lineParts (constructorParts c.paramNames c.params)
      ++ c.fields.flatMap (fun f => lineParts (propertyParts f.1 f.2))
      ++ c.methods.flatMap (fun f => lineParts (methodParts f.1 f.2)) ++ [.inl "\x7d\n"])

/-- The words and the types of a declaration. -/
def Declaration.parts : Declaration → List TextPart
  | .classDecl c => c.parts
  | .funcDecl name f names =>
    .inl "declare function " :: (signatureParts name f names ++ [.inl ";\n"])
  | .varDecl name (.ofClass cls) =>
    [.inl ("declare var " ++ Text.propertyName name ++ ": " ++ Text.propertyName cls ++ ";\n")]
  | .varDecl name (.plain t) =>
    [.inl ("declare var " ++ Text.propertyName name ++ ": "), .inr t, .inl ";\n"]

/-- The words and the types of a declaration file. -/
def TypeMap.parts (m : TypeMap) : List TextPart :=
  m.globals.flatMap fun g => (m.declaration g).parts

/-! ### Texts -/

/-- A parameter list is printed part by part; no names are left for the types in it. -/
theorem writeParams_eq_parts (names : PendingNames) (i : Nat) (ts : List Ty) :
    (Ty.writeParams names i none ts).1 = textOf (paramParts names i ts) := by
  induction ts generalizing i with
  | nil => rfl
  | cons t ts ih =>
    have hhead := Ty.write_pending false t
    rw [Ty.writeParams, paramParts, textOf_cons, textOf_cons, ← ih]
    dsimp only
    rw [hhead]
    simp only [Sum.elim_inl, Sum.elim_inr, id, Ty.format, String.append_assoc]

/-- Parameters are the text of their parts. -/
theorem formatParams_eq_parts (names : PendingNames) (ts : List Ty) :
    Ty.formatParams names ts = "(" ++ textOf (paramParts names 0 ts) ++ ")" := by
  rw [Ty.formatParams, writeParams_eq_parts]

/-- A signature is the text of its parts. -/
theorem formatSignature_eq_parts (name : String) (f : FuncTy) (names : PendingNames) :
    formatSignature name f names = textOf (signatureParts name f names) := by
  rw [formatSignature, formatParams_eq_parts, signatureParts, textOf_cons, textOf_append,
    textOf_cons, textOf_type, Sum.elim_inl, Sum.elim_inl, id, id]
  generalize "(" = opening, ")" = closing, ": " = colon
  simp only [String.append_assoc]

/-- A property is the text of its parts. -/
theorem formatProperty_eq_parts (name : String) (t : Ty) :
    formatProperty name t = textOf (propertyParts name t) := by
  rw [formatProperty, propertyParts, textOf_cons, textOf_type, Sum.elim_inl, id]

/-- A method is the text of its parts. -/
theorem formatMethod_eq_parts (name : String) (t : Ty) :
    formatMethod name t = textOf (methodParts name t) := by
  unfold formatMethod methodParts
  cases t.func? with
  | some f => exact formatSignature_eq_parts name f none
  | none => exact formatProperty_eq_parts name t

/-- A line of a class is the text of its parts. -/
theorem memberLine_eq_parts (parts : List TextPart) :
    memberLine (textOf parts) = textOf (lineParts parts) := by
  rw [memberLine, lineParts, textOf_cons, textOf_append, textOf_word, Sum.elim_inl, id,
    String.append_assoc]

theorem constructor_eq_parts (names : PendingNames) (params : List Ty) :
    "constructor" ++ Ty.formatParams names params = textOf (constructorParts names params) := by
  rw [formatParams_eq_parts, constructorParts, textOf_cons, textOf_append, textOf_word,
    Sum.elim_inl, id]
  generalize "constructor" = word, "(" = opening, ")" = closing
  simp only [String.append_assoc]

/-- The text of a class is that of its words and types. -/
theorem ClassDecl.text_eq_parts (c : ClassDecl) : c.text = textOf c.parts := by
  unfold ClassDecl.text ClassDecl.parts
  rw [textOf_cons, textOf_append, textOf_append, textOf_append, textOf_flatMap, textOf_flatMap,
    textOf_word, Sum.elim_inl, id]
  simp only [← memberLine_eq_parts, ← formatProperty_eq_parts, ← formatMethod_eq_parts,
    ← constructor_eq_parts]
  generalize "declare class " = word, " \x7b\n" = opening, "\x7d\n" = closing
  simp only [String.append_assoc]

/-- The text of a declaration is that of its words and types. -/
theorem Declaration.text_eq_parts (d : Declaration) : d.text = textOf d.parts := by
  cases d with
  | classDecl c => exact c.text_eq_parts
  | funcDecl name f names =>
    unfold Declaration.text Declaration.parts
    dsimp only
    rw [textOf_cons, textOf_append, textOf_word, ← formatSignature_eq_parts, Sum.elim_inl, id,
      String.append_assoc]
  | varDecl name value =>
    cases value with
    | ofClass cls => exact (textOf_word _).symm
    | plain t =>
      unfold Declaration.text Declaration.parts DeclaredType.text
      dsimp only
      rw [textOf_cons, textOf_cons, textOf_word, Sum.elim_inl, Sum.elim_inr, id,
        String.append_assoc]

/-- **A declaration file is the text of its words and types.** -/
theorem TypeMap.declarations_eq_parts (m : TypeMap) : m.declarations = textOf m.parts := by
  rw [TypeMap.declarations, TypeMap.parts, textOf_flatMap]
  simp only [Declaration.text_eq_parts]

/-! ### Types -/

/-- The types of a declaration. -/
def Declaration.types : Declaration → List Ty
  | .classDecl c => c.params ++ c.fields.types ++ c.methods.types
  | .funcDecl _ f _ => f.params ++ [f.ret]
  | .varDecl _ (.plain t) => [t]
  | .varDecl _ (.ofClass _) => []

section Inside

variable {t : Ty}

/-- The types in the text of parameters are the types of the parameters. -/
theorem mem_of_paramParts {names : PendingNames} {i : Nat} {ts : List Ty}
    (h : .inr t ∈ paramParts names i ts) : t ∈ ts := by
  induction ts generalizing i with
  | nil => cases h
  | cons u ts ih =>
    rcases List.mem_cons.mp h with hword | h
    · cases hword
    rcases List.mem_cons.mp h with hhead | h
    · cases hhead
      exact List.mem_cons_self
    · exact List.mem_cons_of_mem _ (ih h)

/-- The types in the text of a signature are its parameters and its result. -/
theorem mem_of_signatureParts {name : String} {f : FuncTy} {names : PendingNames}
    (h : .inr t ∈ signatureParts name f names) : t ∈ f.params ++ [f.ret] := by
  rcases List.mem_cons.mp h with hword | h
  · cases hword
  rcases List.mem_append.mp h with hparam | hret
  · exact List.mem_append_left _ (mem_of_paramParts hparam)
  · simp only [List.mem_cons, reduceCtorEq, Sum.inr.injEq, List.not_mem_nil, or_false,
      false_or] at hret
    exact List.mem_append_right _ (List.mem_singleton.mpr hret)

/-- What is printed of a method is the type of the method, or a part of it. -/
theorem inside_of_methodParts {name : String} {u : Ty} (h : .inr t ∈ methodParts name u) :
    t ∈ u.inside := by
  unfold methodParts at h
  cases hfunc : u.func? with
  | none =>
    rw [hfunc] at h
    simp only [propertyParts, List.mem_cons, reduceCtorEq, Sum.inr.injEq, List.not_mem_nil,
      or_false, false_or] at h
    exact Ty.mem_inside.mpr (.inl h)
  | some f =>
    rw [hfunc] at h
    cases u <;> cases hfunc
    exact Ty.mem_inside.mpr (.inr ⟨t, mem_of_signatureParts h, Ty.mem_inside.mpr (.inl rfl)⟩)

theorem mem_of_lineParts {parts : List TextPart} (h : .inr t ∈ lineParts parts) :
    .inr t ∈ parts := by
  simpa [lineParts] using h

/-- What is printed of types is inside the types of the declaration. -/
theorem Declaration.inside_types {d : Declaration} (h : .inr t ∈ d.parts) :
    ∃ u ∈ d.types, t ∈ u.inside := by
  have hself : t ∈ t.inside := Ty.mem_inside.mpr (.inl rfl)
  cases d with
  | classDecl c =>
    simp only [Declaration.parts, ClassDecl.parts, List.mem_cons, reduceCtorEq, false_or,
      List.mem_append, List.mem_flatMap, List.not_mem_nil, or_false] at h
    rcases h with (hline | ⟨f, hf, hline⟩) | ⟨f, hf, hline⟩
    · have hparam : t ∈ c.params := by
        have hparts := mem_of_lineParts hline
        simp only [constructorParts, List.mem_cons, reduceCtorEq, false_or, List.mem_append,
          List.not_mem_nil, or_false] at hparts
        exact mem_of_paramParts hparts
      exact ⟨t, List.mem_append_left _ (List.mem_append_left _ hparam), hself⟩
    · have hparts := mem_of_lineParts hline
      simp only [propertyParts, List.mem_cons, reduceCtorEq, Sum.inr.injEq, List.not_mem_nil,
        or_false, false_or] at hparts
      have hfield : t ∈ c.fields.types := hparts ▸ Fields.mem_types hf
      exact ⟨t, List.mem_append_left _ (List.mem_append_right _ hfield), hself⟩
    · have hmethod : f.2 ∈ c.methods.types := Fields.mem_types hf
      exact ⟨f.2, List.mem_append_right _ hmethod, inside_of_methodParts (mem_of_lineParts hline)⟩
  | funcDecl name f names =>
    simp only [Declaration.parts, List.mem_cons, reduceCtorEq, false_or, List.mem_append,
      List.not_mem_nil, or_false] at h
    exact ⟨t, mem_of_signatureParts h, hself⟩
  | varDecl name value =>
    cases value with
    | ofClass cls => simp [Declaration.parts] at h
    | plain u =>
      simp only [Declaration.parts, List.mem_cons, reduceCtorEq, Sum.inr.injEq, List.not_mem_nil,
        or_false, false_or] at h
      exact ⟨u, List.mem_singleton_self _, h ▸ hself⟩

end Inside

/-! ### Classes -/

/-- The class that a declaration mentions: the parent of a class, or the class of an instance. -/
def Declaration.mentions : Declaration → Option String
  | .classDecl c => c.parent
  | .funcDecl _ _ _ => none
  | .varDecl _ (.ofClass name) => some name
  | .varDecl _ (.plain _) => none

/-- The class that a declaration declares. -/
def Declaration.className? : Declaration → Option String
  | .classDecl c => some c.name
  | .funcDecl _ _ _ => none
  | .varDecl _ _ => none

/-- The text of a declaration has the name of a class, after the colon of a variable or after
`extends`. -/
def Declaration.Shows (d : Declaration) (name : String) : Prop :=
  (∃ var, d.text =
      "declare var " ++ Text.propertyName var ++ ": " ++ Text.propertyName name ++ ";\n") ∨
    ∃ cls rest, d.text =
      "declare class " ++ Text.propertyName cls ++ " extends " ++ Text.propertyName name ++ rest

/-- The text of a class begins with its name and that of its parent. -/
theorem ClassDecl.text_eq (c : ClassDecl) :
    ∃ body, c.text =
      "declare class " ++ Text.propertyName c.name ++ extendsClause c.parent ++ body := by
  unfold ClassDecl.text
  generalize "declare class " = start, " \x7b\n" = opening, "\x7d\n" = closing
  simp only [String.append_assoc]
  exact ⟨_, rfl⟩

/-- What a declaration mentions stands in its text. -/
theorem Declaration.shows_of_mentions {d : Declaration} {name : String}
    (hmentions : d.mentions = some name) : d.Shows name := by
  cases d with
  | classDecl c =>
    have hparent : c.parent = some name := hmentions
    obtain ⟨body, htext⟩ := c.text_eq
    rw [hparent] at htext
    have hassoc : "declare class " ++ Text.propertyName c.name ++
        (" extends " ++ Text.propertyName name) = "declare class " ++ Text.propertyName c.name ++
          " extends " ++ Text.propertyName name := String.append_assoc.symm
    exact .inr ⟨c.name, body, htext.trans (congrArg (· ++ body) hassoc)⟩
  | funcDecl f signature names => cases hmentions
  | varDecl var value =>
    cases value with
    | ofClass cls =>
      cases hmentions
      exact .inl ⟨var, rfl⟩
    | plain t => cases hmentions

/-- The text of a class begins with its name. -/
theorem Declaration.text_of_className? {d : Declaration} {name : String}
    (hclass : d.className? = some name) :
    ∃ rest, d.text = "declare class " ++ Text.propertyName name ++ rest := by
  cases d with
  | classDecl c =>
    cases hclass
    obtain ⟨body, htext⟩ := c.text_eq
    exact ⟨extendsClause c.parent ++ body, htext.trans String.append_assoc⟩
  | funcDecl f signature names => cases hclass
  | varDecl var value => cases hclass

/-- The declaration of every global stands in the file. -/
theorem TypeMap.declarations_split {m : TypeMap} {g : GlobalInfo} (hlisted : g ∈ m.globals) :
    ∃ before rest, m.declarations = before ++ (m.declaration g).text ++ rest := by
  obtain ⟨earlier, later, hsplit⟩ := List.append_of_mem hlisted
  refine ⟨String.join (earlier.map fun g => (m.declaration g).text),
    String.join (later.map fun g => (m.declaration g).text), ?_⟩
  rw [TypeMap.declarations, hsplit, List.map_append, List.map_cons, String.join_append,
    String.join_cons, String.append_assoc]

end TypeFlow
