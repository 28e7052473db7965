import Mathlib
import TypeFlow.Proofs.Text.Quoted
import TypeFlow.Proofs.Types.Handles
import TypeFlow.Proofs.Types.Normal
import TypeFlow.Ty.Print

/-!
# Printed types can be read back

Two normal types without handles that print the same are the same.  A printed type can be told from
what follows it, unless this goes on with the bar of a union: a function in a union stands in
parentheses, and what follows a type inside another one is a parenthesis, a comma, a semicolon or a
brace.

## Main Definitions

* `Ty.text`, `Ty.memberText` - a type as printed, alone or as a member of a union
* `Ty.Plain` - normal types without handles
* `Ends` - what may follow a type
* `Ty.Legible` - the types that can be told from all others and from what follows them

## Main Statements

* `Ty.legible` - plain types are legible

## Design Notes

Only the first signature of a type can have given parameter names.  None are given here, and then
none are pending anywhere inside, so the text of a part does not depend on where it stands.
-/

namespace TypeFlow

/-! ### Printing without given names -/

mutual

/-- Where no names are pending, none are left. -/
theorem Ty.write_pending (inUnion : Bool) (t : Ty) : (t.write inUnion none).2 = none := by
  cases t with
  | func f =>
    cases f with
    | mk params ret closures =>
      have hargs := Ty.writeParams_pending none 0 params
      have hresult := Ty.write_pending false ret
      rw [Ty.write]
      dsimp only
      rw [hargs, hresult]
  | obj o =>
    cases o with
    | mk fields cells ctors protoOf =>
      cases fields with
      | nil => rfl
      | cons f fs =>
        rw [Ty.write]
        exact Ty.writeFields_pending (f :: fs)
  | union ms =>
    rw [Ty.write]
    exact Ty.writeMembers_pending ms
  | _ => rfl
termination_by structural t

/-- The names of a parameter list are not passed on to the types in it. -/
theorem Ty.writeParams_pending (names : PendingNames) (i : Nat) (ts : List Ty) :
    (Ty.writeParams names i none ts).2 = none := by
  cases ts with
  | nil => rfl
  | cons t ts =>
    have hhead := Ty.write_pending false t
    have hlater := Ty.writeParams_pending names (i + 1) ts
    rw [Ty.writeParams]
    dsimp only
    rw [hhead, hlater]
termination_by structural ts

theorem Ty.writeFields_pending (fs : List (String × Ty)) : (Ty.writeFields none fs).2 = none := by
  cases fs with
  | nil => rfl
  | cons e fs =>
    cases e with
    | mk name t =>
      have hhead := Ty.write_pending false t
      have hlater := Ty.writeFields_pending fs
      rw [Ty.writeFields]
      dsimp only
      rw [hhead, hlater]
termination_by structural fs

theorem Ty.writeMembers_pending (ts : List Ty) : (Ty.writeMembers none ts).2 = none := by
  cases ts with
  | nil => rfl
  | cons t ts =>
    have hhead := Ty.write_pending true t
    have hlater := Ty.writeMembers_pending ts
    rw [Ty.writeMembers]
    dsimp only
    rw [hhead, hlater]
termination_by structural ts

end

namespace Ty

/-- A type as printed. -/
def text (t : Ty) : List Char :=
  (t.write false none).1.toList

/-- A type as printed in a union. -/
def memberText (t : Ty) : List Char :=
  (t.write true none).1.toList

/-- Parameters as printed, from a position on. -/
def paramsText (i : Nat) (ts : List Ty) : List Char :=
  (writeParams none i none ts).1.toList

/-- Fields as printed. -/
def fieldsText (fs : List (String × Ty)) : List Char :=
  (writeFields none fs).1.toList

/-- Members as printed. -/
def membersText (ts : List Ty) : List Char :=
  (writeMembers none ts).1.toList

/-- What stands before the parameter at a position. -/
def paramLead (i : Nat) : List Char :=
  ((if i = 0 then "" else ", ") ++ paramName none i ++ ": ").toList

/-- A function as printed on its own. -/
theorem text_func (f : FuncTy) :
    (func f).text =
      '(' :: (paramsText 0 f.params ++ ')' :: ([' ', '=', '>', ' '] ++ f.ret.text)) := by
  cases f with
  | mk params ret closures =>
    rw [text, write]
    simp [writeParams_pending, paramsText, text]

/-- A function stands in parentheses in a union. -/
theorem memberText_func (f : FuncTy) : (func f).memberText = '(' :: ((func f).text ++ [')']) := by
  cases f with
  | mk params ret closures =>
    rw [memberText, text, write, write]
    simp

theorem paramsText_cons (i : Nat) (t : Ty) (ts : List Ty) :
    paramsText i (t :: ts) = paramLead i ++ (t.text ++ paramsText (i + 1) ts) := by
  rw [paramsText, writeParams]
  simp [write_pending, paramsText, text, paramLead]

theorem fieldsText_cons (name : String) (t : Ty) (fs : List (String × Ty)) :
    fieldsText ((name, t) :: fs) =
      (Text.propertyName name).toList ++ [':'] ++
        (' ' :: (t.text ++ ((if fs.isEmpty then [] else [';', ' ']) ++ fieldsText fs))) := by
  rw [fieldsText, writeFields]
  cases fs <;> simp [write_pending, fieldsText, text]

theorem membersText_cons (t : Ty) (ts : List Ty) :
    membersText (t :: ts) =
      t.memberText ++ ((if ts.isEmpty then [] else [' ', '|', ' ']) ++ membersText ts) := by
  rw [membersText, writeMembers]
  cases ts <;> simp [write_pending, membersText, memberText]

/-- An object stands in braces. -/
theorem memberText_obj (o : ObjTy) :
    (obj o).memberText =
      '\x7b' ::
        (if o.fields = [] then ['\x7d'] else ' ' :: (fieldsText o.fields ++ [' ', '\x7d'])) := by
  cases o with
  | mk fields cells ctors protoOf => cases fields <;> simp [memberText, write, fieldsText]

/-- A type that is no function is printed like its members. -/
theorem text_eq_membersText {t : Ty} (hne : ∀ f, t ≠ func f) :
    t.text = membersText t.members := by
  have htext (u : Ty) (hsame : u.text = u.memberText) : u.text = membersText [u] := by
    rw [membersText_cons, hsame]
    simp [membersText, writeMembers]
  cases t with
  | func f => exact absurd rfl (hne f)
  | union ms => rfl
  | obj o =>
    cases o with
    | mk fields cells ctors protoOf => cases fields <;> exact htext _ rfl
  | _ => exact htext _ rfl

end Ty

/-! ### Plain types -/

/-- A normal type without handles. -/
structure Ty.Plain (t : Ty) : Prop where
  normal : t.Normal
  handles : t.handles = []

namespace Ty.Plain

/-- The members of a plain type are plain. -/
theorem member {t m : Ty} (h : t.Plain) (hmem : m ∈ t.members) : m.Plain :=
  ⟨h.normal.member hmem, List.subset_nil.mp (h.handles ▸ Ty.handles_member hmem)⟩

/-- The parts of a plain function are plain, and it has no closures. -/
theorem func {f : FuncTy} (h : (Ty.func f).Plain) :
    (∀ p ∈ f.params, p.Plain) ∧ f.ret.Plain ∧ f.closures = [] := by
  obtain ⟨hnormal, hhandles⟩ := h
  rw [Ty.Normal, FuncTy.normal_iff] at hnormal
  rw [Ty.handles, List.eq_nil_iff_forall_not_mem] at hhandles
  simp only [FuncTy.mem_handles, not_or, not_exists, not_and] at hhandles
  refine ⟨fun p hmem => ⟨hnormal.1 p hmem, ?_⟩, ⟨hnormal.2.1, ?_⟩, ?_⟩
  · exact List.eq_nil_iff_forall_not_mem.mpr fun d => (hhandles d).2.1 p hmem
  · exact List.eq_nil_iff_forall_not_mem.mpr fun d => (hhandles d).2.2
  · exact List.map_eq_nil_iff.mp (List.eq_nil_iff_forall_not_mem.mpr fun d => (hhandles d).1)

/-- The fields of a plain object are plain, and it has nothing but fields. -/
theorem obj {o : ObjTy} (h : (Ty.obj o).Plain) :
    (∀ e ∈ o.fields, e.2.Plain) ∧ o = .ofFields o.fields := by
  obtain ⟨hnormal, hhandles⟩ := h
  rw [Ty.Normal, ObjTy.normal_iff] at hnormal
  rw [Ty.handles, List.eq_nil_iff_forall_not_mem] at hhandles
  simp only [ObjTy.mem_handles, not_or, not_exists, not_and] at hhandles
  refine ⟨fun e hmem => ⟨hnormal.1 e hmem, ?_⟩, ?_⟩
  · exact List.eq_nil_iff_forall_not_mem.mpr fun d => (hhandles d).2 e hmem
  · have hown : o.ownHandles = [] := List.eq_nil_iff_forall_not_mem.mpr fun d => (hhandles d).1
    cases o with
    | mk fields cells ctors protoOf =>
      simp only [ObjTy.ownHandles, List.append_eq_nil_iff, List.map_eq_nil_iff] at hown
      obtain ⟨rfl, rfl, rfl⟩ := hown
      rfl

end Ty.Plain

/-! ### What follows a type -/

/-- The text does not go on with the bar of a union. -/
def Ends (r : List Char) : Prop :=
  ∀ r', r ≠ ' ' :: '|' :: r'

theorem ends_cons {c : Char} (r : List Char) (hne : c ≠ ' ') : Ends (c :: r) :=
  fun _ heq => hne (List.cons.inj heq).1

/-- The type can be told from every other plain type and from what follows. -/
def Ty.Legible (t : Ty) : Prop :=
  t.Plain → ∀ u : Ty, u.Plain → ∀ r r', Ends r → Ends r' → t.text ++ r = u.text ++ r' →
    t = u ∧ r = r'

/-- The alternative can be told from every other one and from whatever follows. -/
def Ty.MemberLegible (t : Ty) : Prop :=
  t.Plain → ∀ u : Ty, u.Plain → (∀ ms, u ≠ .union ms) → ∀ r r',
    t.memberText ++ r = u.memberText ++ r' → t = u ∧ r = r'

namespace Ty

/-! ### Functions -/

theorem paramLead_cons (i : Nat) : ∃ c l, paramLead i = c :: l ∧ c ∈ ['p', ','] := by
  unfold paramLead
  split
  · exact ⟨'p', _, by simp [paramName]; rfl, by simp⟩
  · exact ⟨',', _, by simp; rfl, by simp⟩

/-- What follows a parameter, or comes before the first one, is a parenthesis, a comma or a name. -/
theorem paramsText_begins (i : Nat) (ts : List Ty) (r : List Char) :
    ∃ c l, paramsText i ts ++ ')' :: r = c :: l ∧ c ∈ [')', 'p', ','] := by
  cases ts with
  | nil => exact ⟨')', r, rfl, by simp⟩
  | cons t ts =>
    obtain ⟨c, l, hlead, hmem⟩ := paramLead_cons i
    rw [paramsText_cons, hlead]
    exact ⟨c, _, rfl, List.mem_cons_of_mem _ hmem⟩

/-- What follows a parameter does not go on with the bar of a union. -/
theorem ends_paramsText (i : Nat) (ts : List Ty) (r : List Char) :
    Ends (paramsText i ts ++ ')' :: r) := by
  obtain ⟨c, l, heq, hmem⟩ := paramsText_begins i ts r
  rw [heq]
  refine ends_cons l ?_
  rintro rfl
  simp at hmem

/-- The end of a parameter list can be told from a parameter. -/
theorem paramsText_cons_ne (i : Nat) (u : Ty) (us : List Ty) (r r' : List Char) :
    ')' :: r ≠ paramsText i (u :: us) ++ r' := by
  obtain ⟨c, l, hlead, hmem⟩ := paramLead_cons i
  rw [paramsText_cons, hlead]
  intro hsame
  have hfirst : ')' = c := (List.cons.inj hsame).1
  rw [← hfirst] at hmem
  simp at hmem

/-- Parameters that can be told from all others can be told as a list: the closing parenthesis tells
where the list ends. -/
theorem paramsText_cancel {ts us : List Ty} (hlegible : ∀ p ∈ ts, p.Legible)
    (hplain : ∀ p ∈ ts, p.Plain) (hplain' : ∀ p ∈ us, p.Plain) {i : Nat} {r r' : List Char}
    (heq : paramsText i ts ++ ')' :: r = paramsText i us ++ ')' :: r') : ts = us ∧ r = r' := by
  induction ts generalizing i us with
  | nil =>
    cases us with
    | nil => exact ⟨rfl, (List.cons.inj heq).2⟩
    | cons u us => exact absurd heq (paramsText_cons_ne i u us r _)
  | cons t ts ih =>
    cases us with
    | nil => exact absurd heq.symm (paramsText_cons_ne i t ts r' _)
    | cons u us =>
      obtain ⟨hlegibleT, hlegible⟩ := List.forall_mem_cons.mp hlegible
      obtain ⟨hplainT, hplain⟩ := List.forall_mem_cons.mp hplain
      obtain ⟨hplainU, hplain'⟩ := List.forall_mem_cons.mp hplain'
      simp only [paramsText_cons, List.append_assoc] at heq
      -- Parameters are named by their positions, so the names are the same.
      obtain ⟨hhead, hlater⟩ := hlegibleT hplainT u hplainU _ _ (ends_paramsText _ _ _)
        (ends_paramsText _ _ _) (List.append_cancel_left heq)
      obtain ⟨htail, hrest⟩ := ih hlegible hplain hplain' hlater
      exact ⟨by rw [hhead, htail], hrest⟩

/-- A function can be told from another one when its parameters and its result can. -/
theorem text_func_cancel {f g : FuncTy} (hparams : ∀ p ∈ f.params, p.Legible) (hret : f.ret.Legible)
    (hplain : (func f).Plain) (hplain' : (func g).Plain) {r r' : List Char} (hends : Ends r)
    (hends' : Ends r') (heq : (func f).text ++ r = (func g).text ++ r') : f = g ∧ r = r' := by
  obtain ⟨hplainP, hplainR, hclosures⟩ := hplain.func
  obtain ⟨hplainP', hplainR', hclosures'⟩ := hplain'.func
  rw [text_func, text_func] at heq
  simp only [List.cons_append, List.append_assoc, List.nil_append, List.cons.injEq, true_and] at heq
  obtain ⟨hsameP, hlater⟩ := paramsText_cancel hparams hplainP hplainP' heq
  simp only [List.cons.injEq, true_and] at hlater
  obtain ⟨hsameR, hrest⟩ := hret hplainR g.ret hplainR' r r' hends hends' hlater
  refine ⟨?_, hrest⟩
  cases f
  cases g
  simp_all

/-! ### Objects -/

/-- What follows a field is a semicolon or the closing brace. -/
theorem ends_fieldsText (fs : List (String × Ty)) (r : List Char) :
    Ends ((if fs.isEmpty then [] else [';', ' ']) ++ (fieldsText fs ++ ' ' :: '\x7d' :: r)) := by
  cases fs with
  | nil =>
    intro r' heq
    exact absurd (List.cons.inj (List.cons.inj heq).2).1 (by decide)
  | cons e fs => exact ends_cons _ (by decide)

/-- Fields can be told as a list: the closing brace tells where the list ends. -/
theorem fieldsText_cancel {fs gs : List (String × Ty)} (hlegible : ∀ e ∈ fs, e.2.Legible)
    (hplain : ∀ e ∈ fs, e.2.Plain) (hplain' : ∀ e ∈ gs, e.2.Plain) (hsome : fs ≠ [])
    (hsome' : gs ≠ []) {r r' : List Char}
    (heq : fieldsText fs ++ ' ' :: '\x7d' :: r = fieldsText gs ++ ' ' :: '\x7d' :: r') :
    fs = gs ∧ r = r' := by
  induction fs generalizing gs with
  | nil => exact absurd rfl hsome
  | cons e fs ih =>
    cases gs with
    | nil => exact absurd rfl hsome'
    | cons e' gs =>
      obtain ⟨name, t⟩ := e
      obtain ⟨name', u⟩ := e'
      obtain ⟨hlegibleT, hlegible⟩ := List.forall_mem_cons.mp hlegible
      obtain ⟨hplainT, hplain⟩ := List.forall_mem_cons.mp hplain
      obtain ⟨hplainU, hplain'⟩ := List.forall_mem_cons.mp hplain'
      rw [fieldsText_cons, fieldsText_cons, List.append_assoc _ (' ' :: _),
        List.append_assoc _ (' ' :: _)] at heq
      obtain ⟨hnames, htyped⟩ := Text.prefixFree_propertyName name name' _ _ heq
      simp only [List.cons_append, List.cons.injEq, true_and, List.append_assoc] at htyped
      obtain ⟨htypes, hlater⟩ := hlegibleT hplainT u hplainU _ _ (ends_fieldsText fs r)
        (ends_fieldsText gs r') htyped
      have hhead : (name, t) = (name', u) := Prod.ext hnames htypes
      -- A semicolon or the closing brace tells whether there is another field.
      cases fs with
      | nil =>
        cases gs with
        | nil => exact ⟨by rw [hhead], (List.cons.inj (List.cons.inj hlater).2).2⟩
        | cons g gs => exact absurd (List.cons.inj hlater).1 (by decide)
      | cons f fs =>
        cases gs with
        | nil => exact absurd (List.cons.inj hlater).1 (by decide)
        | cons g gs =>
          simp only [List.isEmpty_cons, Bool.false_eq_true, if_false, List.cons_append,
            List.nil_append, List.cons.injEq, true_and] at hlater
          obtain ⟨htail, hrest⟩ :=
            ih hlegible hplain hplain' (List.cons_ne_nil f fs) (List.cons_ne_nil g gs) hlater
          exact ⟨by rw [hhead, htail], hrest⟩

/-- An object can be told from another one when its fields can. -/
theorem memberText_obj_cancel {o p : ObjTy} (hfields : ∀ e ∈ o.fields, e.2.Legible)
    (hplain : (obj o).Plain) (hplain' : (obj p).Plain) {r r' : List Char}
    (heq : (obj o).memberText ++ r = (obj p).memberText ++ r') : o = p ∧ r = r' := by
  obtain ⟨hplainF, hown⟩ := hplain.obj
  obtain ⟨hplainF', hown'⟩ := hplain'.obj
  rw [memberText_obj, memberText_obj, List.cons_append, List.cons_append] at heq
  have hinside := (List.cons.inj heq).2
  split at hinside <;> split at hinside
  · next hnone hnone' =>
    refine ⟨?_, (List.cons.inj hinside).2⟩
    rw [hown, hown', hnone, hnone']
  · exact absurd (List.cons.inj hinside).1 (by decide)
  · exact absurd (List.cons.inj hinside).1 (by decide)
  · next hsome hsome' =>
    simp only [List.append_assoc, List.cons_append, List.nil_append, List.cons.injEq, true_and]
      at hinside
    obtain ⟨hsame, hrest⟩ := fieldsText_cancel hfields hplainF hplainF' hsome hsome' hinside
    refine ⟨?_, hrest⟩
    rw [hown, hown', hsame]

/-! ### Alternatives -/

/-- The types that are printed as a word. -/
def words : List Ty :=
  [.never, .any, .boolean, .string, .number, .null, .undefined]

/-- No word is the beginning of another one. -/
theorem words_apart : ∀ t ∈ words, ∀ u ∈ words, t.memberText <+: u.memberText → t = u := by
  decide +kernel

/-- A word does not begin like a function or an object. -/
theorem word_ne {t : Ty} (hword : t ∈ words) {c : Char} (hbracket : c ∈ ['(', '\x7b'])
    (l r : List Char) : t.memberText ++ r ≠ c :: l := by
  obtain ⟨d, rest, hshown, hnotMem⟩ : ∃ d rest, t.memberText = d :: rest ∧ d ∉ ['(', '\x7b'] := by
    simp only [words, List.mem_cons, List.not_mem_nil, or_false] at hword
    rcases hword with rfl | rfl | rfl | rfl | rfl | rfl | rfl <;> exact ⟨_, _, rfl, by decide⟩
  rw [hshown]
  intro heq
  exact hnotMem ((List.cons.inj heq).1 ▸ hbracket)

/-- An alternative is a word, a function or an object. -/
theorem alternative_cases {t : Ty} (hsingle : ∀ ms, t ≠ union ms) :
    t ∈ words ∨ (∃ f, t = func f) ∨ ∃ o, t = obj o := by
  cases t with
  | prim p => cases p <;> exact .inl (by decide)
  | func f => exact .inr (.inl ⟨f, rfl⟩)
  | obj o => exact .inr (.inr ⟨o, rfl⟩)
  | union ms => exact absurd rfl (hsingle ms)
  | never => exact .inl (by decide)
  | any => exact .inl (by decide)

/-- An alternative is legible as soon as what stands inside it is. -/
theorem memberLegible {t : Ty} (hsingle : ∀ ms, t ≠ union ms)
    (hfuncs : ∀ f, t = func f → (∀ p ∈ f.params, p.Legible) ∧ f.ret.Legible)
    (hobjs : ∀ o, t = obj o → ∀ e ∈ o.fields, e.2.Legible) : t.MemberLegible := by
  intro hplain u hplain' hsingle' r r' heq
  -- Two alternatives of one kind cancel, and those of two kinds differ in the first character.
  rcases alternative_cases hsingle with hword | ⟨f, rfl⟩ | ⟨o, rfl⟩ <;>
    rcases alternative_cases hsingle' with hword' | ⟨g, rfl⟩ | ⟨p, rfl⟩
  · have hsame : t = u := by
      rcases List.append_eq_append_iff.mp heq with ⟨l, hlonger, -⟩ | ⟨l, hlonger, -⟩
      · exact words_apart t hword u hword' ⟨l, hlonger.symm⟩
      · exact (words_apart u hword' t hword ⟨l, hlonger.symm⟩).symm
    subst hsame
    exact ⟨rfl, List.append_cancel_left heq⟩
  · rw [memberText_func] at heq
    exact absurd heq (word_ne hword (by decide) _ r)
  · rw [memberText_obj] at heq
    exact absurd heq (word_ne hword (by decide) _ r)
  · rw [memberText_func] at heq
    exact absurd heq.symm (word_ne hword' (by decide) _ r')
  · obtain ⟨hparams, hret⟩ := hfuncs f rfl
    simp only [memberText_func, List.cons_append, List.cons.injEq, true_and, List.append_assoc,
      List.nil_append] at heq
    have hclose (r : List Char) : Ends (')' :: r) := ends_cons r (by decide)
    obtain ⟨hsame, hlater⟩ := text_func_cancel hparams hret hplain hplain' (hclose r)
      (hclose r') heq
    exact ⟨congrArg func hsame, (List.cons.inj hlater).2⟩
  · rw [memberText_func, memberText_obj] at heq
    exact absurd (List.cons.inj heq).1 (by decide)
  · rw [memberText_obj] at heq
    exact absurd heq.symm (word_ne hword' (by decide) _ r')
  · rw [memberText_func, memberText_obj] at heq
    exact absurd (List.cons.inj heq).1 (by decide)
  · obtain ⟨hsame, hrest⟩ := memberText_obj_cancel (hobjs o rfl) hplain hplain' heq
    exact ⟨congrArg obj hsame, hrest⟩

/-! ### Unions -/

/-- Members can be told as a list, as what follows a union does not go on with a bar. -/
theorem membersText_cancel {ts us : List Ty} (hlegible : ∀ m ∈ ts, m.MemberLegible)
    (hplain : ∀ m ∈ ts, m.Plain) (hplain' : ∀ m ∈ us, m.Plain)
    (hsingle' : ∀ m ∈ us, ∀ ms, m ≠ union ms) (hsome : ts ≠ []) (hsome' : us ≠ [])
    {r r' : List Char} (hends : Ends r) (hends' : Ends r')
    (heq : membersText ts ++ r = membersText us ++ r') : ts = us ∧ r = r' := by
  induction ts generalizing us with
  | nil => exact absurd rfl hsome
  | cons t ts ih =>
    cases us with
    | nil => exact absurd rfl hsome'
    | cons u us =>
      obtain ⟨hlegibleT, hlegible⟩ := List.forall_mem_cons.mp hlegible
      obtain ⟨hplainT, hplain⟩ := List.forall_mem_cons.mp hplain
      obtain ⟨hplainU, hplain'⟩ := List.forall_mem_cons.mp hplain'
      obtain ⟨hsingleU, hsingle'⟩ := List.forall_mem_cons.mp hsingle'
      simp only [membersText_cons, List.append_assoc] at heq
      obtain ⟨hhead, hlater⟩ := hlegibleT hplainT u hplainU hsingleU _ _ heq
      -- a bar tells whether there is another member
      cases ts with
      | nil =>
        cases us with
        | nil => exact ⟨by rw [hhead], hlater⟩
        | cons v us => exact absurd hlater (hends _)
      | cons m ts =>
        cases us with
        | nil => exact absurd hlater.symm (hends' _)
        | cons v us =>
          simp only [List.isEmpty_cons, Bool.false_eq_true, if_false, List.cons_append,
            List.nil_append, List.cons.injEq, true_and] at hlater
          obtain ⟨htail, hrest⟩ := ih hlegible hplain hplain' hsingle' (List.cons_ne_nil m ts)
            (List.cons_ne_nil v us) hlater
          exact ⟨by rw [hhead, htail], hrest⟩

/-- The members of a normal type are alternatives, and the function and the object among them are
those of the type. -/
theorem Normal.member_spec {t : Ty} (hnormal : t.Normal) {m : Ty} (hmem : m ∈ t.members) :
    (∀ ms, m ≠ union ms) ∧ (∀ f, m = func f → t.funcPart? = some f) ∧
      ∀ o, m = obj o → t.objPart? = some o := by
  cases t with
  | union ts =>
    obtain ⟨-, hparts, -⟩ := (normal_union_iff ts).mp hnormal
    have hmem : m ∈ (union ts).parts.members := hparts.symm ▸ hmem
    obtain ⟨q, -, rfl⟩ | ⟨f, hpart, rfl⟩ | ⟨o, hpart, rfl⟩ := Parts.mem_members hmem
    · exact ⟨nofun, nofun, nofun⟩
    · exact ⟨nofun, fun g hsame => func.inj hsame ▸ hpart, nofun⟩
    · exact ⟨nofun, nofun, fun p hsame => obj.inj hsame ▸ hpart⟩
  | _ =>
    cases List.mem_singleton.mp hmem
    refine ⟨nofun, fun f hsame => ?_, fun o hsame => ?_⟩ <;> cases hsame <;> rfl

theorem Normal.members_ne_nil {t : Ty} (hnormal : t.Normal) : t.members ≠ [] := by
  cases t with
  | union ts =>
    obtain ⟨hle, -⟩ := (normal_union_iff ts).mp hnormal
    rintro rfl
    exact absurd hle (by decide)
  | _ => exact List.cons_ne_nil _ _

theorem Normal.ofMembers_members {t : Ty} (hnormal : t.Normal) : ofMembers t.members = t := by
  cases t with
  | union ts =>
    obtain ⟨hle, -⟩ := (normal_union_iff ts).mp hnormal
    match ts, hle with
    | _ :: _ :: _, _ => rfl
  | _ => rfl

/-- A function that stands alone does not begin like one in a union. -/
theorem text_func_ne {f : FuncTy} {m : Ty} (hsingle : ∀ ms, m ≠ union ms) (ms : List Ty)
    (r r' : List Char) : (func f).text ++ r ≠ membersText (m :: ms) ++ r' := by
  have hopens (g : FuncTy) : ∃ l, (func g).text = '(' :: l := ⟨_, text_func g⟩
  obtain ⟨c, l, hparams, hmem⟩ :=
    paramsText_begins 0 f.params ([' ', '=', '>', ' '] ++ f.ret.text)
  rw [membersText_cons, List.append_assoc]
  intro heq
  rw [text_func, hparams] at heq
  rcases alternative_cases hsingle with hword | ⟨g, rfl⟩ | ⟨o, rfl⟩
  · exact word_ne hword (by decide) _ _ heq.symm
  · obtain ⟨l', htext⟩ := hopens g
    rw [memberText_func, htext] at heq
    have hsecond : c = '(' := (List.cons.inj (List.cons.inj heq).2).1
    rw [hsecond] at hmem
    exact absurd hmem (by decide)
  · rw [memberText_obj] at heq
    exact absurd (List.cons.inj heq).1 (by decide)

/-- A type is legible as soon as what stands inside it is. -/
theorem legible_of_parts {t : Ty}
    (hfuncs : ∀ f, t.funcPart? = some f → (∀ p ∈ f.params, p.Legible) ∧ f.ret.Legible)
    (hobjs : ∀ o, t.objPart? = some o → ∀ e ∈ o.fields, e.2.Legible) : t.Legible := by
  intro hplain u hplain' r r' hends hends' heq
  -- a function alone stands without parentheses, so its text starts as that of no other type
  have hne (f : FuncTy) (v : Ty) (hplain : v.Plain) (hne' : ∀ f, v ≠ func f) (r r' : List Char) :
      (func f).text ++ r ≠ v.text ++ r' := by
    obtain ⟨m, ms, hmembers⟩ := List.exists_cons_of_ne_nil hplain.normal.members_ne_nil
    have hmem : m ∈ v.members := hmembers ▸ List.mem_cons_self
    rw [text_eq_membersText hne', hmembers]
    exact text_func_ne (hplain.normal.member_spec hmem).1 ms r r'
  by_cases hisFunc : ∃ f, t = func f <;> by_cases hisFunc' : ∃ g, u = func g
  · obtain ⟨f, rfl⟩ := hisFunc
    obtain ⟨g, rfl⟩ := hisFunc'
    obtain ⟨hparams, hret⟩ := hfuncs f rfl
    obtain ⟨hsame, hrest⟩ := text_func_cancel hparams hret hplain hplain' hends hends' heq
    exact ⟨congrArg func hsame, hrest⟩
  · obtain ⟨f, rfl⟩ := hisFunc
    exact absurd heq (hne f u hplain' (not_exists.mp hisFunc') r r')
  · obtain ⟨g, rfl⟩ := hisFunc'
    exact absurd heq.symm (hne g t hplain (not_exists.mp hisFunc) r' r)
  · rw [text_eq_membersText (not_exists.mp hisFunc),
      text_eq_membersText (not_exists.mp hisFunc')] at heq
    have hlegible : ∀ m ∈ t.members, m.MemberLegible := by
      intro m hmem
      obtain ⟨hsingle, hfunc, hobj⟩ := hplain.normal.member_spec hmem
      exact memberLegible hsingle (fun f heq' => hfuncs f (hfunc f heq'))
        fun o heq' => hobjs o (hobj o heq')
    obtain ⟨hmembers, hrest⟩ := membersText_cancel hlegible (fun m => hplain.member)
      (fun m => hplain'.member) (fun m hmem => (hplain'.normal.member_spec hmem).1)
      hplain.normal.members_ne_nil hplain'.normal.members_ne_nil hends hends' heq
    refine ⟨?_, hrest⟩
    rw [← hplain.normal.ofMembers_members, hmembers, hplain'.normal.ofMembers_members]

/-- Plain types are legible. -/
theorem legible (t : Ty) : t.Legible :=
  partsInduction (fun _ hfuncs hobjs => legible_of_parts hfuncs hobjs) t

end Ty

/-- Printing is unambiguous: normal types without handles that print the same are the same, and so
are property names. -/
theorem printing_unambiguous :
    (∀ a b : Ty, a.Normal → b.Normal → a.handles = [] → b.handles = [] → a.format = b.format →
      a = b) ∧
    Function.Injective Text.propertyName := by
  refine ⟨fun a b hnormal hnormal' hhandles hhandles' hsame => ?_, Text.propertyName_injective⟩
  have htext : a.text = b.text := congrArg String.toList hsame
  have hends : Ends [] := fun _ => nofun
  exact (a.legible ⟨hnormal, hhandles⟩ b ⟨hnormal', hhandles'⟩ [] [] hends hends (by rw [htext])).1

/-- A function or an object, and a function that returns a text or the object: parentheses tell them
apart, and quotes the name of the field from the text around it. -/
theorem printing_unambiguous_functionOrObject :
    let f : Ty := .signature [] .string
    let o : Ty := .record [("a: string \x7d", .number)]
    let either : Ty := f.join o
    let returns : Ty := .signature [] (.union [.string, o])
    either.Normal ∧ either.handles = [] ∧ returns.Normal ∧ returns.handles = [] ∧
    either.format = "(() => string) | \x7b \"a: string \x7d\": number \x7d" ∧
    either = .union [f, o] ∧ returns.format ≠ either.format := by
  intro f o either returns
  have hnormal : either.Normal := by decide +kernel
  have hhandles : either.handles = [] := by decide +kernel
  have hnormal' : returns.Normal := by decide +kernel
  have hhandles' : returns.handles = [] := by decide +kernel
  have hshown : either.format = (Ty.union [f, o]).format := by decide +kernel
  refine ⟨hnormal, hhandles, hnormal', hhandles', by decide +kernel, ?_, fun hsame => ?_⟩
  · exact printing_unambiguous.1 either (.union [f, o]) hnormal (by decide +kernel) hhandles
      (by decide +kernel) hshown
  · have hequal := printing_unambiguous.1 returns either hnormal' hnormal hhandles' hhandles hsame
    exact absurd hequal (by decide +kernel)

end TypeFlow
