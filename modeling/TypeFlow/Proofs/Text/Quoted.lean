import Mathlib
import TypeFlow.Text.Quoted

/-!
# Printed names can be read back

A name that stands in a text can be told from what follows it.  A bare name ends where the next
character cannot belong to it, and a quoted one at the first quote that no backslash precedes.

## Main Definitions

* `Text.PrefixFree` - texts that can be told from what follows them

## Main Statements

* `Text.prefixFree_escape` - escaped characters
* `Text.prefixFree_quote` - quoted names
* `Text.prefixFree_propertyName` - property names with the colon behind them
-/

namespace TypeFlow.Text

/-! ### Texts and what follows them -/

/-- Texts that can be told from whatever follows them, and from each other. -/
def PrefixFree {α : Type} (text : α → List Char) : Prop :=
  ∀ a b r r', text a ++ r = text b ++ r' → a = b ∧ r = r'

namespace PrefixFree

variable {α : Type} {text : α → List Char} {c : Char}

/-- Texts without a character can be told from what follows the character. -/
theorem ended (hinjective : Function.Injective text) (habsent : ∀ a, c ∉ text a) :
    PrefixFree fun a => text a ++ [c] := by
  have hcut (a : α) (r : List Char) : (text a ++ [c] ++ r).takeWhile (· ≠ c) = text a := by
    have hall : ∀ d ∈ text a, decide (d ≠ c) = true := fun d hmem =>
      decide_eq_true fun hsame => habsent a (hsame ▸ hmem)
    rw [List.append_assoc, List.takeWhile_append_of_pos hall]
    simp
  intro a b r r' heq
  have hsame : text a = text b := by
    rw [← hcut a r, ← hcut b r']
    exact congrArg _ heq
  obtain rfl := hinjective hsame
  exact ⟨rfl, List.append_cancel_left heq⟩

/-- Texts one after the other end at a character that none of them begins with. -/
theorem flatMap_ended (hfree : PrefixFree text) (hbegins : ∀ a r r', text a ++ r ≠ c :: r') :
    PrefixFree fun l : List α => l.flatMap text ++ [c] := by
  intro l
  induction l with
  | nil =>
    intro l' r r' heq
    cases l' with
    | nil => exact ⟨rfl, (List.cons.inj heq).2⟩
    | cons b l' =>
      simp only [List.flatMap_cons, List.append_assoc] at heq
      exact absurd heq.symm (hbegins b _ _)
  | cons a l ih =>
    intro l' r r' heq
    cases l' with
    | nil =>
      simp only [List.flatMap_cons, List.append_assoc] at heq
      exact absurd heq (hbegins a _ _)
    | cons b l' =>
      simp only [List.flatMap_cons, List.append_assoc] at heq
      obtain ⟨rfl, hlater⟩ := hfree a b _ _ heq
      obtain ⟨rfl, hrest⟩ := ih l' r r' (by simpa only [List.append_assoc] using hlater)
      exact ⟨rfl, hrest⟩

end PrefixFree

/-! ### Code points -/

theorem digits_eq (k : Nat) :
    Nat.toDigits 16 k =
      (if k < 16 then [] else Nat.toDigits 16 (k / 16)) ++ [Nat.digitChar (k % 16)] := by
  split
  · next hsmall => rw [Nat.toDigits_of_lt_base hsmall, Nat.mod_eq_of_lt hsmall, List.nil_append]
  · next hlarge => exact Nat.toDigits_of_base_le (by decide) (Nat.le_of_not_lt hlarge)

/-- The digits of a number tell the number. -/
theorem digits_injective : Function.Injective (Nat.toDigits 16) := by
  have hdigits : ∀ a < 16, ∀ b < 16, Nat.digitChar a = Nat.digitChar b → a = b := by decide
  intro n
  induction n using Nat.strongRecOn with
  | ind n ih =>
    intro m hsame
    rw [digits_eq n, digits_eq m] at hsame
    obtain ⟨hfront, hcons⟩ := List.append_inj' hsame rfl
    have hlast : n % 16 = m % 16 :=
      hdigits _ (Nat.mod_lt n (by decide)) _ (Nat.mod_lt m (by decide))
        (List.singleton_inj.mp hcons)
    split at hfront <;> split at hfront
    · omega
    · exact absurd hfront.symm Nat.toDigits_ne_nil
    · exact absurd hfront Nat.toDigits_ne_nil
    · have hquotient : n / 16 = m / 16 := ih (n / 16) (by omega) hfront
      omega

theorem brace_notMem_digits (n : Nat) : '\x7d' ∉ Nat.toDigits 16 n := by
  have hdigits : ∀ a < 16, '\x7d' ≠ Nat.digitChar a := by decide
  induction n using Nat.strongRecOn with
  | ind n ih =>
    intro hmem
    rw [digits_eq] at hmem
    rcases List.mem_append.mp hmem with hfront | hmem'
    · split at hfront
      · cases hfront
      · exact ih (n / 16) (by omega) hfront
    · exact hdigits _ (Nat.mod_lt n (by decide)) (List.mem_singleton.mp hmem')

/-! ### Escaped characters -/

/-- The characters with a letter of their own behind the backslash. -/
def letters : List (Char × Char) :=
  [('\x00', '0'), ('\t', 't'), ('\r', 'r'), ('\n', 'n'), ('"', '"'), ('\\', '\\')]

/-- The code point of a character, in braces. -/
def codePoint (c : Char) : List Char :=
  Nat.toDigits 16 c.toNat ++ ['\x7d']

theorem prefixFree_codePoint : PrefixFree codePoint := by
  refine PrefixFree.ended (fun a b hsame => ?_) fun a => brace_notMem_digits a.toNat
  exact Char.toNat_inj.mp (digits_injective hsame)

/-- The ways to write a character: as it is, by a letter, or by its code point. -/
theorem escape_cases (c : Char) :
    (escape c = [c] ∧ c ≠ '"' ∧ c ≠ '\\') ∨
    (∃ k, (c, k) ∈ letters ∧ escape c = ['\\', k]) ∨
    escape c = '\\' :: 'u' :: '\x7b' :: codePoint c := by
  unfold escape
  split_ifs with hnul htab hcr hnl hquote hback
  · exact .inr (.inl ⟨'0', by simp [hnul, letters], rfl⟩)
  · exact .inr (.inl ⟨'t', by simp [htab, letters], rfl⟩)
  · exact .inr (.inl ⟨'r', by simp [hcr, letters], rfl⟩)
  · exact .inr (.inl ⟨'n', by simp [hnl, letters], rfl⟩)
  · exact .inr (.inl ⟨'"', by simp [hquote, letters], rfl⟩)
  · exact .inr (.inl ⟨'\\', by simp [hback, letters], rfl⟩)
  · exact .inl ⟨rfl, hquote, hback⟩
  · exact .inr (.inr rfl)

theorem prefixFree_escape : PrefixFree escape := by
  have hnamed : ∀ p ∈ letters, p.2 ≠ 'u' ∧ ∀ q ∈ letters, p.2 = q.2 → p = q := by decide
  intro a b r r' heq
  rcases escape_cases a with ⟨hea, -, hbackA⟩ | ⟨k, hmemA, hea⟩ | hea <;>
    rcases escape_cases b with ⟨heb, -, hbackB⟩ | ⟨l, hmemB, heb⟩ | heb <;>
    rw [hea, heb] at heq
  · obtain ⟨rfl, hrest⟩ := List.cons.inj heq
    exact ⟨rfl, hrest⟩
  · exact absurd (List.cons.inj heq).1 hbackA
  · exact absurd (List.cons.inj heq).1 hbackA
  · exact absurd (List.cons.inj heq).1.symm hbackB
  · obtain ⟨hsame, hrest⟩ := List.cons.inj (List.cons.inj heq).2
    obtain ⟨rfl, -⟩ := Prod.mk.inj ((hnamed _ hmemA).2 _ hmemB hsame)
    exact ⟨rfl, hrest⟩
  · exact absurd (List.cons.inj (List.cons.inj heq).2).1 (hnamed _ hmemA).1
  · exact absurd (List.cons.inj heq).1.symm hbackB
  · exact absurd (List.cons.inj (List.cons.inj heq).2).1.symm (hnamed _ hmemB).1
  · have hpoints := (List.cons.inj (List.cons.inj (List.cons.inj heq).2).2).2
    exact prefixFree_codePoint a b r r' hpoints

/-- No escaped character begins like the end of a quoted name. -/
theorem escape_ne_quote (c : Char) (r r' : List Char) : escape c ++ r ≠ '"' :: r' := by
  intro heq
  rcases escape_cases c with ⟨hec, hquoted, -⟩ | ⟨k, -, hec⟩ | hec <;> rw [hec] at heq
  · exact hquoted (List.cons.inj heq).1
  · exact absurd (List.cons.inj heq).1 (by decide)
  · exact absurd (List.cons.inj heq).1 (by decide)

/-! ### Names -/

theorem quote_toList (s : String) :
    (quote s).toList = '"' :: (s.toList.flatMap escape ++ ['"']) := by
  rw [quote, String.toList_ofList, List.cons_append]

theorem prefixFree_quote : PrefixFree fun s => (quote s).toList := by
  intro s t r r' heq
  simp only [quote_toList] at heq
  have hfree := PrefixFree.flatMap_ended prefixFree_escape escape_ne_quote
  obtain ⟨hsame, hrest⟩ := hfree s.toList t.toList r r' (List.cons.inj heq).2
  exact ⟨String.toList_inj.mp hsame, hrest⟩

/-- A bare name is not empty, and consists of letters, digits, `_` and `$`. -/
theorem isPlainIdentifier_spec {name : String} (hplain : isPlainIdentifier name = true) :
    ∃ c rest, name.toList = c :: rest ∧ ∀ d ∈ name.toList, isIdentifierRest d = true := by
  unfold isPlainIdentifier at hplain
  split at hplain
  · cases hplain
  · next c rest heq =>
    simp only [Bool.and_eq_true] at hplain
    obtain ⟨⟨hstart, hall⟩, -⟩ := hplain
    rw [heq]
    refine ⟨c, rest, rfl, List.forall_mem_cons.mpr ⟨?_, List.all_eq_true.mp hall⟩⟩
    simp only [isIdentifierStart, isIdentifierRest, Char.isAlphanum, Bool.or_eq_true] at hstart ⊢
    tauto

/-- Property names can be told from what follows the colon behind them. -/
theorem prefixFree_propertyName : PrefixFree fun n => (propertyName n).toList ++ [':'] := by
  have hquoteFirst {n m : String} {r r' : List Char} (hplain : isPlainIdentifier n = true) :
      n.toList ++ [':'] ++ r ≠ (quote m).toList ++ [':'] ++ r' := by
    obtain ⟨c, rest, heq, hall⟩ := isPlainIdentifier_spec hplain
    rw [heq, quote_toList]
    intro hsame
    have hfirst : c = '"' := (List.cons.inj hsame).1
    have hident := hall c (by rw [heq]; exact List.mem_cons_self)
    rw [hfirst] at hident
    exact absurd hident (by decide)
  intro n m r r' heq
  simp only [propertyName] at heq
  split at heq <;> split at heq
  · next hplainN hplainM =>
    have hbare : PrefixFree fun n : { n : String // isPlainIdentifier n = true } =>
        n.1.toList ++ [':'] := by
      refine PrefixFree.ended (fun a b hsame => Subtype.ext (String.toList_inj.mp hsame)) ?_
      intro a hcolon
      obtain ⟨-, -, -, hall⟩ := isPlainIdentifier_spec a.2
      exact absurd (hall ':' hcolon) (by decide)
    obtain ⟨hsame, hrest⟩ := hbare ⟨n, hplainN⟩ ⟨m, hplainM⟩ r r' heq
    exact ⟨congrArg Subtype.val hsame, hrest⟩
  · next hplainN _ => exact absurd heq (hquoteFirst hplainN)
  · next _ hplainM => exact absurd heq.symm (hquoteFirst hplainM)
  · rw [List.append_assoc, List.append_assoc] at heq
    obtain ⟨hsame, hrest⟩ := prefixFree_quote n m _ _ heq
    exact ⟨hsame, (List.cons.inj hrest).2⟩

theorem propertyName_injective : Function.Injective propertyName := by
  intro n m hsame
  exact (prefixFree_propertyName n m [] [] (by dsimp only; rw [hsame])).1

end TypeFlow.Text
