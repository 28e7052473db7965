import Mathlib
import TypeFlow.Ordered

/-!
# Ascending sets and maps

A set or a map that is built by insertion lists its elements, or its keys, in strictly ascending
order.  In that form equal contents have one representation: two ascending sets with the same
elements are equal, and so are two ascending maps that answer every lookup alike.

## Main Definitions

* `OrdSet.Ascending`, `OrdMap.Ascending` - the elements, or the keys, ascend strictly

## Main Statements

* `OrdSet.Ascending.ext`, `OrdMap.Ascending.ext` - equality of contents is equality
* `OrdMap.Ascending.get?_eq_some_iff` - looking up is membership
-/

namespace TypeFlow

/-! ### Sets -/

namespace OrdSet

variable {α : Type} [LT α]

/-- The elements ascend strictly. -/
def Ascending (s : OrdSet α) : Prop :=
  s.Pairwise (· < ·)

instance [DecidableLT α] (s : OrdSet α) : Decidable (Ascending s) :=
  inferInstanceAs (Decidable (s.Pairwise (· < ·)))

variable [IsStrictTotalOrder α (· < ·)]

/-- Ascending sets with the same elements are equal. -/
theorem Ascending.ext {s t : OrdSet α} (hs : Ascending s) (ht : Ascending t)
    (hsame : ∀ a, a ∈ s ↔ a ∈ t) : s = t :=
  List.Pairwise.eq_of_mem_iff hs ht hsame

variable [DecidableLT α] [DecidableEq α]

theorem Ascending.insert {s : OrdSet α} (h : Ascending s) (a : α) :
    Ascending (OrdSet.insert a s) := by
  induction s with
  | nil => exact List.pairwise_singleton _ a
  | cons b rest ih =>
    obtain ⟨hbelow, hascends⟩ := List.pairwise_cons.mp h
    rw [OrdSet.insert]
    split
    · next hlt =>
      refine List.pairwise_cons.mpr ⟨fun x hmem => ?_, h⟩
      rcases List.mem_cons.mp hmem with rfl | hmem
      · exact hlt
      · exact trans_of (· < ·) hlt (hbelow x hmem)
    · next hnotLt =>
      split
      · exact h
      · next hne =>
        have hgt : b < a := by
          rcases trichotomous_of (· < ·) a b with hlt | heq | hgt
          · exact absurd hlt hnotLt
          · exact absurd heq hne
          · exact hgt
        refine List.pairwise_cons.mpr ⟨fun x hmem => ?_, ih hascends⟩
        rcases OrdSet.mem_insert.mp hmem with rfl | hmem
        · exact hgt
        · exact hbelow x hmem

/-- Unions of ascending sets ascend. -/
theorem Ascending.union {s : OrdSet α} (h : Ascending s) (t : OrdSet α) :
    Ascending (OrdSet.union s t) := by
  induction t generalizing s with
  | nil => exact h
  | cons a rest ih => exact ih (h.insert a)

end OrdSet

/-! ### Maps -/

namespace OrdMap

variable {κ α : Type}

/-- The keys ascend strictly. -/
def Ascending [LT κ] (m : OrdMap κ α) : Prop :=
  m.Pairwise fun e f => e.1 < f.1

instance [LT κ] [DecidableLT κ] (m : OrdMap κ α) : Decidable (Ascending m) :=
  inferInstanceAs (Decidable (m.Pairwise fun e f => e.1 < f.1))

section Lookup

variable [DecidableEq κ]

theorem mem_of_get? {m : OrdMap κ α} {k : κ} {v : α} (h : get? m k = some v) : (k, v) ∈ m := by
  induction m with
  | nil => simp [get?] at h
  | cons e rest ih =>
    rw [get?] at h
    split at h
    · next heq =>
      cases h
      rw [heq]
      exact List.mem_cons_self
    · exact List.mem_cons_of_mem e (ih h)

theorem get?_isSome_of_mem {m : OrdMap κ α} {k : κ} {v : α} (h : (k, v) ∈ m) :
    ∃ w, get? m k = some w := by
  induction m with
  | nil => simp at h
  | cons e rest ih =>
    rw [get?]
    split
    · exact ⟨_, rfl⟩
    · next hne =>
      rcases List.mem_cons.mp h with heq | hmem
      · exact absurd (congrArg Prod.fst heq) hne
      · exact ih hmem

/-- A key is found when it is one of the keys. -/
theorem get?_isSome_iff {m : OrdMap κ α} {k : κ} :
    (get? m k).isSome = true ↔ k ∈ m.map Prod.fst := by
  rw [Option.isSome_iff_exists, List.mem_map]
  constructor
  · rintro ⟨v, hfound⟩
    exact ⟨(k, v), mem_of_get? hfound, rfl⟩
  · rintro ⟨⟨_, v⟩, hmem, rfl⟩
    exact get?_isSome_of_mem hmem

/-- An entry is never removed by changing or adding one. -/
theorem isSome_get?_upsert [LT κ] [DecidableLT κ] (m : OrdMap κ α) (k : κ) (f : α → α) (v : α)
    {j : κ} (hfound : (get? m j).isSome = true) : (get? (upsert m k f v) j).isSome = true := by
  by_cases hsame : j = k
  · rw [hsame, get?_upsert_self]
    rfl
  · rw [get?_upsert_of_ne m f v hsame]
    exact hfound

/-- An entry after an insertion is the new one or an old one. -/
theorem mem_insert_of_mem [LT κ] [DecidableLT κ] {m : OrdMap κ α} {k : κ} {v : α} {e : κ × α}
    (h : e ∈ insert m k v) : e = (k, v) ∨ e ∈ m := by
  induction m with
  | nil => simpa [insert] using h
  | cons f rest ih =>
    rw [insert] at h
    split at h
    · exact List.mem_cons.mp h
    · split at h
      · rcases List.mem_cons.mp h with heq | hmem
        · exact Or.inl heq
        · exact Or.inr (List.mem_cons_of_mem f hmem)
      · rcases List.mem_cons.mp h with heq | hmem
        · exact Or.inr (heq ▸ List.mem_cons_self)
        · exact (ih hmem).imp_right (List.mem_cons_of_mem f)

theorem get?_erase_self (m : OrdMap κ α) (k : κ) : get? (erase m k) k = none := by
  unfold erase
  induction m with
  | nil => rfl
  | cons e rest ih =>
    rw [List.filter_cons]
    split
    · next hkeep => rw [get?, if_neg fun hsame => of_decide_eq_true hkeep hsame.symm, ih]
    · exact ih

theorem get?_erase_of_ne (m : OrdMap κ α) {j k : κ} (hne : j ≠ k) :
    get? (erase m k) j = get? m j := by
  unfold erase
  induction m with
  | nil => rfl
  | cons e rest ih =>
    rw [List.filter_cons]
    split
    · rw [get?, get?, ih]
    · next hdrop =>
      have hsame : e.1 = k := by simpa using hdrop
      rw [get?, if_neg (hsame ▸ hne), ih]

/-- An entry after an upsert is the new one, an altered one or an old one. -/
theorem mem_upsert_of_mem [LT κ] [DecidableLT κ] {m : OrdMap κ α} {k : κ} {f : α → α} {v : α}
    {e : κ × α} (h : e ∈ upsert m k f v) :
    e = (k, v) ∨ (∃ old, (k, old) ∈ m ∧ e = (k, f old)) ∨ e ∈ m := by
  unfold upsert at h
  cases hfound : get? m k with
  | none =>
    rw [hfound] at h
    exact (mem_insert_of_mem h).imp_right Or.inr
  | some old =>
    rw [hfound] at h
    exact Or.inr ((mem_insert_of_mem h).imp_left fun heq => ⟨old, mem_of_get? hfound, heq⟩)

/-- What a map has after missing entries were added: what it had, and else what was added. -/
theorem get?_addMissing [LT κ] [DecidableLT κ] (m n : OrdMap κ α) (k : κ) :
    get? (addMissing m n) k = (get? m k).or (get? n k) := by
  unfold addMissing
  induction n generalizing m with
  | nil => simp [get?]
  | cons e rest ih =>
    rw [List.foldl_cons, ih, get?]
    by_cases hsame : k = e.1
    · subst hsame
      cases hheld : get? m e.1 with
      | none => simp [contains, hheld]
      | some v => simp [contains, hheld]
    · rw [if_neg hsame]
      split
      · rfl
      · rw [get?_insert_of_ne m e.2 hsame]

end Lookup

section Ascends

variable [DecidableEq κ] [LT κ] [IsStrictTotalOrder κ (· < ·)]

/-- In an ascending map a lookup finds every entry. -/
theorem Ascending.get?_of_mem {m : OrdMap κ α} (h : Ascending m) {k : κ} {v : α}
    (hmem : (k, v) ∈ m) : get? m k = some v := by
  induction m with
  | nil => simp at hmem
  | cons e rest ih =>
    obtain ⟨hbelow, hascends⟩ := List.pairwise_cons.mp h
    rw [get?]
    rcases List.mem_cons.mp hmem with rfl | hmem
    · exact if_pos rfl
    · have hne : k ≠ e.1 := by
        rintro rfl
        exact irrefl_of (· < ·) e.1 (hbelow (e.1, v) hmem)
      rw [if_neg hne]
      exact ih hascends hmem

/-- In an ascending map looking up is membership. -/
theorem Ascending.get?_eq_some_iff {m : OrdMap κ α} (h : Ascending m) {k : κ} {v : α} :
    get? m k = some v ↔ (k, v) ∈ m :=
  ⟨mem_of_get?, h.get?_of_mem⟩

/-- Ascending maps that answer every lookup alike are equal. -/
theorem Ascending.ext {m n : OrdMap κ α} (hm : Ascending m) (hn : Ascending n)
    (hsame : ∀ k, get? m k = get? n k) : m = n := by
  have : Std.Antisymm fun e f : κ × α => e.1 < f.1 :=
    ⟨fun e f hlt hgt => absurd hgt (asymm_of (· < ·) hlt)⟩
  have : Std.Irrefl fun e f : κ × α => e.1 < f.1 :=
    ⟨fun e => irrefl_of (· < ·) e.1⟩
  refine List.Pairwise.eq_of_mem_iff hm hn fun e => ?_
  rw [← hm.get?_eq_some_iff, ← hn.get?_eq_some_iff, hsame]

variable [DecidableLT κ]

theorem Ascending.insert {m : OrdMap κ α} (h : Ascending m) (k : κ) (v : α) :
    Ascending (OrdMap.insert m k v) := by
  induction m with
  | nil => exact List.pairwise_singleton _ (k, v)
  | cons e rest ih =>
    obtain ⟨hbelow, hascends⟩ := List.pairwise_cons.mp h
    rw [OrdMap.insert]
    split
    · next hlt =>
      refine List.pairwise_cons.mpr ⟨fun f hmem => ?_, h⟩
      rcases List.mem_cons.mp hmem with rfl | hmem
      · exact hlt
      · exact trans_of (· < ·) hlt (hbelow f hmem)
    · next hnotLt =>
      split
      · next heq => exact List.pairwise_cons.mpr ⟨fun f hmem => heq ▸ hbelow f hmem, hascends⟩
      · next hne =>
        have hgt : e.1 < k := by
          rcases trichotomous_of (· < ·) k e.1 with hlt | heq | hgt
          · exact absurd hlt hnotLt
          · exact absurd heq hne
          · exact hgt
        refine List.pairwise_cons.mpr ⟨fun f hmem => ?_, ih hascends⟩
        rcases mem_insert_of_mem hmem with rfl | hmem
        · exact hgt
        · exact hbelow f hmem

/-- An ascending map ascends after an upsert. -/
theorem Ascending.upsert {m : OrdMap κ α} (h : Ascending m) (k : κ) (f : α → α) (v : α) :
    Ascending (OrdMap.upsert m k f v) :=
  h.insert k _

theorem ascending_ofList (entries : List (κ × α)) : Ascending (ofList entries) := by
  have hrun : ∀ m : OrdMap κ α, Ascending m →
      Ascending (entries.foldl (fun acc e => OrdMap.insert acc e.1 e.2) m) := by
    induction entries with
    | nil => exact fun m h => h
    | cons e rest ih => exact fun m h => ih _ (h.insert e.1 e.2)
  exact hrun [] List.Pairwise.nil

end Ascends

end OrdMap

end TypeFlow
