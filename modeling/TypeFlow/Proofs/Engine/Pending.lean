import Mathlib
import TypeFlow.Engine.Program
import TypeFlow.Proofs.Script.Duplicates

/-!
# Pending malformations

A program keeps the malformations of its flagged statements in a list, by the positions of the
statements.  Passing over a statement takes its malformation off the list, and what is last on the
list moves to its place.  The order of the list is lost on the way, but every statement still finds
its own malformation: running a program is running its statements side by side with their flags.

## Main Definitions

* `hoistFlagged`, `inferFlagged` - statements side by side with their flags

## Main Statements

* `swapRemove_perm` - taking an element out loses nothing else
* `takeFlag_perm` - what is taken for a position, and what stays pending
* `hoistProgram_eq`, `inferTops_eq` - the two ways of keeping flags agree
* `inferProgramBy_eq` - running a program with the flags beside the statements
-/

namespace TypeFlow

open Walk

/-! ### Taking a malformation off the list -/

/-- The last element moves to the place of the one that is taken out. -/
theorem swapRemove_append {α : Type} (before later : List α) (a : α) :
    (swapRemove (before ++ a :: later) before.length).Perm (before ++ later) := by
  rcases List.eq_nil_or_concat later with rfl | ⟨mid, last, rfl⟩
  · have hlast : (before ++ [a]).getLast? = some a := List.getLast?_concat
    rw [swapRemove, hlast]
    dsimp only
    rw [List.set_append_right _ _ (Nat.le_refl _), Nat.sub_self, List.set_cons_zero,
      List.dropLast_concat, List.append_nil]
  · rw [List.concat_eq_append]
    have hlast : (before ++ a :: (mid ++ [last])).getLast? = some last := by
      rw [← List.cons_append, ← List.append_assoc, List.getLast?_concat]
    rw [swapRemove, hlast]
    dsimp only
    rw [List.set_append_right _ _ (Nat.le_refl _), Nat.sub_self, List.set_cons_zero,
      ← List.cons_append, ← List.append_assoc, List.dropLast_concat]
    exact (List.perm_append_singleton last mid).symm.append_left before

/-- Taking an element out of a list loses nothing else. -/
theorem swapRemove_perm {α : Type} {xs : List α} {place : Nat} {a : α}
    (h : xs[place]? = some a) : (a :: swapRemove xs place).Perm xs := by
  obtain ⟨hinside, rfl⟩ := List.getElem?_eq_some_iff.mp h
  have hsplit : xs = xs.take place ++ xs[place] :: xs.drop (place + 1) := by
    rw [← List.drop_eq_getElem_cons hinside, List.take_append_drop]
  have hlength : (xs.take place).length = place := by
    rw [List.length_take, Nat.min_eq_left (Nat.le_of_lt hinside)]
  have hrest := swapRemove_append (xs.take place) (xs.drop (place + 1)) xs[place]
  rw [← hsplit, hlength] at hrest
  have hperm : (xs[place] :: (xs.take place ++ xs.drop (place + 1))).Perm xs :=
    List.perm_middle.symm.trans (.of_eq hsplit.symm)
  exact (hrest.cons _).trans hperm

section Taking

variable {pending rest : List (Nat × Malformed)} {i : Nat} {m : Malformed}

/-- Nothing is taken exactly when nothing is pending for the position. -/
theorem takeFlag_eq_none_iff : takeFlag pending i = none ↔ ∀ e ∈ pending, e.1 ≠ i := by
  unfold takeFlag
  cases hfound : pending.findIdx? (·.1 == i) with
  | none =>
    refine iff_of_true rfl fun e hmem hfst => ?_
    have hbeq := List.findIdx?_eq_none_iff.mp hfound e hmem
    exact absurd hfst (beq_eq_false_iff_ne.mp hbeq)
  | some place =>
    obtain ⟨hinside, hfst, -⟩ := List.findIdx?_eq_some_iff_getElem.mp hfound
    refine iff_of_false (fun hnone => ?_) fun hnone => ?_
    · rw [Option.bind_eq_bind, Option.bind_some, List.getElem?_eq_getElem hinside] at hnone
      cases hnone
    · exact hnone _ (List.getElem_mem hinside) (eq_of_beq hfst)

/-- What is taken was pending for the position, and everything else stays pending. -/
theorem takeFlag_perm (h : takeFlag pending i = some (m, rest)) :
    ((i, m) :: rest).Perm pending := by
  unfold takeFlag at h
  obtain ⟨place, hfound, h⟩ := Option.bind_eq_some_iff.mp h
  obtain ⟨e, hat, h⟩ := Option.bind_eq_some_iff.mp h
  cases h
  obtain ⟨hinside, hbeq, -⟩ := List.findIdx?_eq_some_iff_getElem.mp hfound
  have hget : pending[place] = e :=
    Option.some.inj ((List.getElem?_eq_getElem hinside).symm.trans hat)
  rw [hget] at hbeq
  have hentry : (i, e.2) = e := Prod.ext (eq_of_beq hbeq).symm rfl
  rw [hentry]
  exact swapRemove_perm hat

end Taking

/-! ### Flags beside the statements -/

/-- Binds the declarations of the statements that are not flagged. -/
def hoistFlagged : List (Stmt × Option Malformed) → Walk Unit
  | [] => return ()
  | (_, some _) :: rest => hoistFlagged rest
  | (s, none) :: rest => do
    hoist Env.global [s]
    hoistFlagged rest

/-- Runs a statement of the program, unless it is flagged. -/
def inferFlaggedTop (invoke : Invoke) (s : Stmt) (flag : Option Malformed) : Walk Unit :=
  match flag with
  | some m => skipTop s m
  | none => inferTop invoke s

/-- Runs the statements of the program that are not flagged, from first to last. -/
def inferFlagged (invoke : Invoke) : List (Stmt × Option Malformed) → Walk Unit
  | [] => return ()
  | (s, flag) :: rest => do
    inferFlaggedTop invoke s flag
    inferFlagged invoke rest

section Pending

variable {pending : List (Nat × Malformed)} {flags : List (Option Malformed)}

/-- Nothing that is pending for later positions is pending for this one. -/
theorem pending_later {i j : Nat} (hless : i < j) {e : Nat × Malformed}
    (hmem : e ∈ numbered j flags) : e.1 ≠ i := by
  obtain ⟨k, hat, -⟩ := mem_numbered.mp hmem
  omega

/-- Which declarations are bound depends on what is pending, in whatever order. -/
theorem hoistProgram_eq {i : Nat} {p : List Stmt} (hlong : p.length ≤ flags.length)
    (hlisted : ∀ j, i ≤ j → (pending.any (·.1 == j) ↔ ∃ m, (j, m) ∈ numbered i flags)) :
    hoistProgram pending i p = hoistFlagged (p.zip flags) := by
  induction p generalizing i flags with
  | nil => rfl
  | cons s p ih =>
    cases flags with
    | nil => cases hlong
    | cons flag flags =>
      have hlater : ∀ j, i + 1 ≤ j →
          (pending.any (·.1 == j) ↔ ∃ m, (j, m) ∈ numbered (i + 1) flags) := by
        intro j hle
        rw [hlisted j (by omega)]
        refine exists_congr fun m => ?_
        rw [numbered, List.mem_append, or_iff_right]
        intro hfirst
        obtain ⟨_, -, hsame⟩ := List.mem_map.mp hfirst
        have := congrArg Prod.fst hsame
        dsimp only at this
        omega
      rw [hoistProgram, ih (Nat.le_of_succ_le_succ hlong) hlater, List.zip_cons_cons]
      cases flag with
      | some m =>
        have hany : pending.any (·.1 == i) :=
          (hlisted i (Nat.le_refl i)).mpr ⟨m, List.mem_append_left _ (List.mem_singleton_self _)⟩
        rw [if_pos hany, hoistFlagged]
      | none =>
        have hfree : ¬ pending.any (·.1 == i) := by
          rw [hlisted i (Nat.le_refl i)]
          rintro ⟨m, hmem⟩
          exact pending_later (Nat.lt_succ_self i) hmem rfl
        rw [if_neg hfree, hoistFlagged]

/-- Every statement finds its own malformation, in whatever order they are pending. -/
theorem inferTops_eq {invoke : Invoke} {i : Nat} {p : List Stmt} (hlong : p.length ≤ flags.length)
    (hperm : pending.Perm (numbered i flags)) :
    inferTops invoke pending i p = inferFlagged invoke (p.zip flags) := by
  induction p generalizing i flags pending with
  | nil => rfl
  | cons s p ih =>
    cases flags with
    | nil => cases hlong
    | cons flag flags =>
      have hlong' := Nat.le_of_succ_le_succ hlong
      rw [inferTops, List.zip_cons_cons, inferFlagged]
      cases flag with
      | none =>
        have hnothing : takeFlag pending i = none := takeFlag_eq_none_iff.mpr fun e hmem =>
          pending_later (Nat.lt_succ_self i) (hperm.mem_iff.mp hmem)
        rw [hnothing]
        dsimp only
        rw [ih hlong' hperm, inferFlaggedTop]
      | some m =>
        cases htaken : takeFlag pending i with
        | none =>
          have hmem : (i, m) ∈ pending := hperm.mem_iff.mpr List.mem_cons_self
          exact absurd rfl (takeFlag_eq_none_iff.mp htaken _ hmem)
        | some both =>
          obtain ⟨m', others⟩ := both
          have hall : ((i, m') :: others).Perm ((i, m) :: numbered (i + 1) flags) :=
            (takeFlag_perm htaken).trans hperm
          -- only one malformation is pending for the position
          have hsame : m' = m := by
            rcases List.mem_cons.mp (hall.mem_iff.mp List.mem_cons_self) with heq | hmem
            · exact congrArg Prod.snd heq
            · exact absurd rfl (pending_later (Nat.lt_succ_self i) hmem)
          subst hsame
          dsimp only
          rw [ih hlong' (List.perm_cons _ |>.mp hall), inferFlaggedTop]

end Pending

/-- The declarations of a program are bound side by side with its flags. -/
theorem hoistProgram_duplicates (p : Program) :
    hoistProgram p.duplicates 0 p = hoistFlagged (p.zip p.flags) := by
  refine hoistProgram_eq (p.length_flags.ge) fun j _ => ?_
  rw [p.duplicates_eq_numbered, List.any_eq_true]
  constructor
  · rintro ⟨e, hmem, hbeq⟩
    exact ⟨e.2, by rwa [← eq_of_beq hbeq]⟩
  · rintro ⟨m, hmem⟩
    exact ⟨(j, m), hmem, beq_self_eq_true j⟩

/-- The first statements of a program run side by side with their flags. -/
theorem inferTops_duplicates (invoke : Invoke) (p : Program) (k : Nat) :
    inferTops invoke p.duplicates 0 (p.take k) = inferFlagged invoke ((p.take k).zip p.flags) := by
  have hlong : (p.take k).length ≤ p.flags.length := by
    rw [p.length_flags]
    exact List.length_take_le' k p
  exact inferTops_eq hlong (.of_eq p.duplicates_eq_numbered)

/-- Running a program, with the flags beside the statements. -/
theorem inferProgramBy_eq (invoke : Invoke) (p : Program) :
    inferProgramBy invoke p = (do
      emit (.enterProgram p.length)
      hoistFlagged (p.zip p.flags)
      inferFlagged invoke (p.zip p.flags)
      emit .exitProgram) := by
  have htops := inferTops_duplicates invoke p p.length
  rw [List.take_length] at htops
  unfold inferProgramBy
  dsimp only
  rw [hoistProgram_duplicates, htops]

end TypeFlow
