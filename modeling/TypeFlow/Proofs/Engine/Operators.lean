import Mathlib
import TypeFlow.Proofs.Engine.Widening
import TypeFlow.Proofs.Types.Structural

/-!
# Operators are monotone

The type of a binary operator grows with the types of its operands, as long as both operands have a
value.  What an operator asks of an operand is asked of each alternative by its kind: the primitive
that it is, or that it is a function or an object.  Every alternative of a type has one of its kind
in each wider type, so what all alternatives of the wider type answer, those of the narrower one
answer too.

## Main Definitions

* `Ty.Alike` - two alternatives of one kind
* `Ty.KindTest` - a question about alternatives that only asks for their kind
* `shortCircuit` - the common shape of `&&` and `||`

## Main Statements

* `Ty.Le.counterpart` - an alternative has one of its kind in every wider precise type
* `Ty.Le.all_members` - what holds of all alternatives of a type holds of those of a narrower one
* `shortCircuit_le`, `addResult_le` - the operators that look at their operands
* `operators_monotone` - all operators

## Design Notes

Without a value nothing is settled: `never && r` is `r`, but `null && r` is `null`, and
`any + never` is `any`, but `any + string` is a string.
-/

namespace TypeFlow

/-! ### Alternatives by kind -/

/-- Two alternatives of one kind: the same primitive, two functions or two objects. -/
inductive Ty.Alike : Ty → Ty → Prop
  | prim (p : Prim) : Ty.Alike (.prim p) (.prim p)
  | func (f g : FuncTy) : Ty.Alike (.func f) (.func g)
  | obj (o p : ObjTy) : Ty.Alike (.obj o) (.obj p)

/-- A question about alternatives that is answered by their kind; `any` is no answer. -/
structure Ty.KindTest (Q : Ty → Bool) : Prop where
  any : Q .any = false
  alike : ∀ m n, m.Alike n → Q n = true → Q m = true

namespace Ty

variable {a b : Ty} {Q R : Ty → Bool}

/-- The alternatives of a normal type that has some are those of its parts. -/
theorem Normal.members_parts (ha : a.Normal) (hknown : a ≠ .never) (hprecise : a ≠ .any) :
    a.parts.members = a.members := by
  cases a with
  | never => exact absurd rfl hknown
  | any => exact absurd rfl hprecise
  | prim p => rfl
  | func f => rfl
  | obj o => rfl
  | union ms => exact ((Ty.normal_union_iff ms).mp ha).2.1

theorem Normal.exists_member (ha : a.Normal) : ∃ m, m ∈ a.members := by
  cases a with
  | union ms =>
    have hle := ((Ty.normal_union_iff ms).mp ha).1
    exact List.exists_mem_of_length_pos (Nat.lt_of_lt_of_le Nat.zero_lt_two hle)
  | _ => exact ⟨_, List.mem_singleton_self _⟩

/-- An alternative of a type has one of its kind in every wider precise type. -/
theorem Le.counterpart (h : a.Le b) (ha : a.Normal) (hknown : a ≠ .never) (hpb : b ≠ .any) {m : Ty}
    (hmem : m ∈ a.members) : ∃ n ∈ b.members, m.Alike n := by
  rw [← ha.members_parts hknown (h.precise hpb)] at hmem
  have hle := h.parts hpb
  obtain ⟨p, hinside, rfl⟩ | ⟨f, heq, rfl⟩ | ⟨o, heq, rfl⟩ := Parts.mem_members hmem
  · obtain ⟨n, hmemN, hprim⟩ := List.mem_filterMap.mp (hle.prims p hinside)
    cases n <;> simp [Ty.prim?] at hprim
    exact ⟨_, hmemN, hprim ▸ .prim _⟩
  · obtain ⟨g, heq', -⟩ := hle.func f heq
    exact ⟨_, Ty.mem_members_of_funcPart? heq', .func f g⟩
  · obtain ⟨p, heq', -⟩ := hle.obj o heq
    exact ⟨_, Ty.mem_members_of_objPart? heq', .obj o p⟩

/-- What holds of all alternatives of a type holds of those of a narrower one. -/
theorem Le.all_members (htest : KindTest Q) (h : a.Le b) (ha : a.Normal) (hknown : a ≠ .never)
    (hall : b.members.all Q = true) : a.members.all Q = true := by
  rw [List.all_eq_true] at hall ⊢
  intro m hmem
  by_cases hpb : b = .any
  · subst hpb
    exact absurd (hall .any (List.mem_singleton_self _)) (by simp [htest.any])
  · obtain ⟨n, hmemN, halike⟩ := h.counterpart ha hknown hpb hmem
    exact htest.alike m n halike (hall n hmemN)

/-- Two questions that no alternative answers both are not both answered by all of them. -/
theorem Normal.not_all_both (ha : a.Normal) (heq : ∀ m, Q m = true → R m = false)
    (hfirst : a.members.all Q = true) : a.members.all R = false := by
  obtain ⟨m, hmem⟩ := ha.exists_member
  refine List.all_eq_false.mpr ⟨m, hmem, ?_⟩
  simp [heq m (List.all_eq_true.mp hfirst m hmem)]

/-! ### What operators ask -/

/-- That an alternative is truthy for sure is told by its kind. -/
theorem kindTest_truthy : KindTest fun m => m.isFunc || m.isObj where
  any := rfl
  alike _ _ halike hor := by
    cases halike <;> exact hor

/-- That an alternative is falsy for sure is told by its kind. -/
theorem kindTest_falsy :
    KindTest fun m => m.prim? == some .null || m.prim? == some .undefined where
  any := rfl
  alike _ _ halike hor := by
    cases halike <;> exact hor

theorem kindTest_string : KindTest fun m => m.prim? == some .string where
  any := rfl
  alike _ _ halike hbeq := by
    cases halike <;> exact hbeq

/-- That an alternative adds like a number is told by its kind. -/
theorem kindTest_numericLike : KindTest fun m => m.isPrim && m.prim? != some .string where
  any := rfl
  alike _ _ halike hand := by
    cases halike <;> exact hand

/-- No type is falsy and truthy for sure. -/
theorem Normal.not_truthy_of_falsy (ha : a.Normal) (hfalsy : a.definitelyFalsy = true) :
    a.definitelyTruthy = false := by
  refine ha.not_all_both (fun m hor => ?_) hfalsy
  cases m with
  | func f => exact absurd hor Bool.false_ne_true
  | obj o => exact absurd hor Bool.false_ne_true
  | _ => rfl

/-- No type adds like a number and is a string for sure. -/
theorem Normal.not_string_of_numericLike (ha : a.Normal) (hnumeric : a.isNumericLike = true) :
    a.definitelyString = false := by
  refine ha.not_all_both (fun m hand => ?_) hnumeric
  cases m with
  | prim p =>
    cases p with
    | string => exact absurd hand Bool.false_ne_true
    | _ => rfl
  | _ => rfl

theorem Normal.not_falsy_of_truthy (ha : a.Normal) (htruthy : a.definitelyTruthy = true) :
    a.definitelyFalsy = false :=
  Bool.eq_false_iff.mpr fun hfalsy => Bool.eq_false_iff.mp (ha.not_truthy_of_falsy hfalsy) htruthy

theorem isAny_iff : a.isAny = true ↔ a = .any := by
  cases a <;> simp [Ty.isAny]

theorem isNever_iff : a.isNever = true ↔ a = .never := by
  cases a <;> simp [Ty.isNever]

end Ty

/-! ### Short circuits -/

/-- The type of an operator that answers its left operand when all its values stop it, its right
operand when none does, and else either. -/
def shortCircuit (stops passes : Ty → Bool) (left right : Ty) : Ty :=
  if stops left then left
  else if passes left then right
  else left.join right

theorem result_and (left right : Ty) : BinaryOp.and.result left right =
    shortCircuit Ty.definitelyFalsy Ty.definitelyTruthy left right := rfl

theorem result_or (left right : Ty) : BinaryOp.or.result left right =
    shortCircuit Ty.definitelyTruthy Ty.definitelyFalsy left right := rfl

section Monotone

variable {l l' r r' : Ty}

/-- Joins are monotone. -/
theorem Ty.join_le_join (hl : l.Normal) (hr : r.Normal) (hl' : l'.Normal) (hr' : r'.Normal)
    (hleft : l.Le l') (hright : r.Le r') : (l.join r).Le (l'.join r') := by
  have hlub := hl'.isLub_join hr'
  exact (hl.isLub_join hr).least _ (hleft.trans hlub.left) (hright.trans hlub.right)

/-- A short circuit is monotone when what stops or passes all values of a type does so for the
narrower operand, and this operand is not both stopped and passed. -/
theorem shortCircuit_le {stops passes : Ty → Bool} (hl : l.Normal) (hr : r.Normal)
    (hl' : l'.Normal) (hr' : r'.Normal) (hstopsDown : stops l' = true → stops l = true)
    (hpassesDown : passes l' = true → passes l = true)
    (heq : stops l = true → passes l = false) (hleft : l.Le l') (hright : r.Le r') :
    (shortCircuit stops passes l r).Le (shortCircuit stops passes l' r') := by
  have hlub := hl'.isLub_join hr'
  unfold shortCircuit
  cases hstop : stops l with
  | true =>
    -- The wider operand may let some values pass, but not all of them.
    have hpassed : passes l' = false :=
      Bool.eq_false_iff.mpr (mt hpassesDown (Bool.eq_false_iff.mp (heq hstop)))
    rw [if_pos rfl, hpassed]
    split
    · exact hleft
    · exact hleft.trans hlub.left
  | false =>
    have hstopped : stops l' = false :=
      Bool.eq_false_iff.mpr (mt hstopsDown (Bool.eq_false_iff.mp hstop))
    rw [if_neg Bool.false_ne_true, hstopped, if_neg Bool.false_ne_true]
    cases hpass : passes l with
    | true =>
      rw [if_pos rfl]
      split
      · exact hright
      · exact hright.trans hlub.right
    | false =>
      have hpassed : passes l' = false :=
        Bool.eq_false_iff.mpr (mt hpassesDown (Bool.eq_false_iff.mp hpass))
      rw [hpassed]
      exact Ty.join_le_join hl hr hl' hr' hleft hright

/-! ### Sums -/

/-- Numbers and what converts to them add up to a number. -/
theorem addResult_numericLike (hl : l.Normal) (hr : r.Normal) (hknownL : l ≠ .never)
    (hknownR : r ≠ .never) (hleft : l.isNumericLike = true) (hright : r.isNumericLike = true) :
    addResult l r = .number := by
  have hpreciseL : l ≠ .any := by
    rintro rfl
    cases hleft
  have hpreciseR : r ≠ .any := by
    rintro rfl
    cases hright
  rw [addResult, hl.not_string_of_numericLike hleft, hr.not_string_of_numericLike hright,
    hleft, hright]
  simp [Ty.isAny_iff, Ty.isNever_iff, hpreciseL, hpreciseR, hknownL, hknownR]

/-- Of operands of which something is known a sum is at most a number or a string. -/
theorem addResult_le_union (hpreciseL : l ≠ .any) (hpreciseR : r ≠ .any) :
    (addResult l r).Le (.unionOf [.number, .string]) := by
  have hnormal : (Ty.unionOf [.number, .string]).Normal := by decide
  have hbelow {t : Ty} (ht : t.Normal) (hsub : t.isSubtype (.unionOf [.number, .string]) = true) :
      t.Le (.unionOf [.number, .string]) := (ht.isSubtype_iff hnormal).mp hsub
  rw [addResult, if_neg (c := (l.isAny || r.isAny) = true)
    (by simp [Ty.isAny_iff, hpreciseL, hpreciseR])]
  split
  · exact hbelow trivial (by decide)
  split
  · exact Ty.never_le _
  split
  · exact hbelow trivial (by decide)
  · exact hnormal.le_refl

/-- Addition is monotone in operands that have a value. -/
theorem addResult_le (hl : l.Normal) (hr : r.Normal) (hl' : l'.Normal) (hr' : r'.Normal)
    (hknownL : l ≠ .never) (hknownR : r ≠ .never) (hleft : l.Le l') (hright : r.Le r') :
    (addResult l r).Le (addResult l' r') := by
  have hknownL' : l' ≠ .never := by
    rintro rfl
    exact hknownL (hleft.eq_never hl)
  have hknownR' : r' ≠ .never := by
    rintro rfl
    exact hknownR (hright.eq_never hr)
  by_cases hstrings : (l'.definitelyString || r'.definitelyString) = true
  · have hstrings' : (l.definitelyString || r.definitelyString) = true :=
      Bool.or_eq_true_iff.mpr ((Bool.or_eq_true_iff.mp hstrings).imp
        (hleft.all_members Ty.kindTest_string hl hknownL)
        (hright.all_members Ty.kindTest_string hr hknownR))
    rw [addResult, if_pos hstrings', addResult, if_pos hstrings]
    exact Ty.Normal.le_refl trivial
  by_cases hunknown : (l'.isAny || r'.isAny) = true
  · rw [addResult.eq_1 l', if_neg hstrings, if_pos hunknown]
    exact Ty.le_any _
  by_cases hnumeric : l'.isNumericLike = true ∧ r'.isNumericLike = true
  · rw [addResult_numericLike hl' hr' hknownL' hknownR' hnumeric.1 hnumeric.2,
      addResult_numericLike hl hr hknownL hknownR
        (hleft.all_members Ty.kindTest_numericLike hl hknownL hnumeric.1)
        (hright.all_members Ty.kindTest_numericLike hr hknownR hnumeric.2)]
    exact Ty.Normal.le_refl trivial
  · rw [addResult.eq_1 l', if_neg hstrings, if_neg hunknown, if_neg, if_neg]
    · simp only [Bool.or_eq_true_iff, Ty.isAny_iff, not_or] at hunknown
      exact addResult_le_union (hleft.precise hunknown.1) (hright.precise hunknown.2)
    · rwa [Bool.and_eq_true_iff]
    · simp [Ty.isNever_iff, hknownL', hknownR']

end Monotone

/-! ### All operators -/

/-- Operators give normal types. -/
theorem BinaryOp.result_normal (op : BinaryOp) {l r : Ty} (hl : l.Normal) (hr : r.Normal) :
    (op.result l r).Normal :=
  Discipline.good_binary (D := normalTypes) (s := Run.start default []) op hl hr

/-- **Operators are monotone.**  When both operands have a value, wider operands give a wider
result. -/
theorem operators_monotone (op : BinaryOp) {l l' r r' : Ty} (hl : l.Normal) (hl' : l'.Normal)
    (hr : r.Normal) (hr' : r'.Normal) (hleft : l.isSubtype l' = true)
    (hright : r.isSubtype r' = true) (hknownL : l ≠ .never) (hknownR : r ≠ .never) :
    (op.result l r).isSubtype (op.result l' r') = true := by
  rw [hl.isSubtype_iff hl'] at hleft
  rw [hr.isSubtype_iff hr'] at hright
  rw [(op.result_normal hl hr).isSubtype_iff (op.result_normal hl' hr')]
  have htruthy := hleft.all_members Ty.kindTest_truthy hl hknownL
  have hfalsy := hleft.all_members Ty.kindTest_falsy hl hknownL
  cases op with
  | add => exact addResult_le hl hr hl' hr' hknownL hknownR hleft hright
  | and =>
    rw [result_and, result_and]
    exact shortCircuit_le hl hr hl' hr' hfalsy htruthy hl.not_truthy_of_falsy hleft hright
  | or =>
    rw [result_or, result_or]
    exact shortCircuit_le hl hr hl' hr' htruthy hfalsy hl.not_falsy_of_truthy hleft hright
  | _ => exact Ty.Normal.le_refl trivial

/-- An object that may turn out to be missing no longer decides what `&&` gives, and a string that
may turn out to be a number no longer makes a sum a string. -/
theorem operators_monotone_widened :
    let object := Ty.record [("k", .number)]
    let optional := Ty.union [.undefined, .obj (.ofFields [("k", .number), ("m", .any)])]
    let text := Ty.union [.string, .number]
    (BinaryOp.and.result object .string = .string ∧
      BinaryOp.and.result optional text =
        .union [.string, .number, .undefined, .obj (.ofFields [("k", .number), ("m", .any)])] ∧
      (BinaryOp.and.result object .string).isSubtype (BinaryOp.and.result optional text) = true) ∧
    BinaryOp.add.result .string object = .string ∧
      BinaryOp.add.result text optional = .unionOf [.number, .string] ∧
      (BinaryOp.add.result .string object).isSubtype (BinaryOp.add.result text optional) =
        true := by
  intro object optional text
  have hObject : object.Normal := by decide
  have hOptional : optional.Normal := by decide
  have hText : text.Normal := by decide
  have hwider : object.isSubtype optional = true := by decide
  have hwider' : Ty.string.isSubtype text = true := by decide
  exact ⟨⟨by decide, by decide, operators_monotone .and hObject hOptional trivial hText
    hwider hwider'
      (by decide) (by decide)⟩, by decide, by decide,
    operators_monotone .add trivial hText hObject hOptional hwider' hwider (by decide) (by decide)⟩

end TypeFlow
