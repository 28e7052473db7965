/-!
# Indices of tables

The tables of a run are arrays that only grow, so that the place of an entry serves as its handle.
A table whose entries are found again by a key has an *index* beside it, which leads from a key to
the place of the entry that was made for it.

## Main Definitions

* `Index` - an index, as the list of the places noted so far
* `Index.place?` - the place noted for a key
* `Index.note` - notes the place of a new entry

## Design Notes

An index is data of its own: nothing in its type says that a place it leads to is one of the table,
or that the entry there was made for the key.  That table and index agree is an invariant of the
operations that change the two together.
-/

namespace TypeFlow

/-- The places of the entries of a table, by their keys; the latest first. -/
structure Index (κ : Type) where
  entries : List (κ × Nat)

namespace Index

variable {κ : Type}

/-- The index in which nothing is noted. -/
def empty : Index κ := ⟨[]⟩

/-- Notes the place of an entry. -/
def note (m : Index κ) (k : κ) (place : Nat) : Index κ :=
  ⟨(k, place) :: m.entries⟩

variable [DecidableEq κ]

/-- The place noted for a key. -/
def place? (m : Index κ) (k : κ) : Option Nat :=
  m.entries.lookup k

/-- Nothing is found in the empty index. -/
@[simp] theorem place?_empty (k : κ) : (empty : Index κ).place? k = none := rfl

/-- A note is found under its key and hides nothing else. -/
theorem place?_note (m : Index κ) (k j : κ) (place : Nat) :
    (m.note k place).place? j = if j = k then some place else m.place? j := by
  by_cases h : j = k
  · simp [place?, note, h]
  · simp [place?, note, List.lookup_cons, beq_eq_false_iff_ne.2 h, h]

/-- What is found was noted. -/
theorem mem_entries_of_place? {m : Index κ} {k : κ} {place : Nat} (h : m.place? k = some place) :
    (k, place) ∈ m.entries := by
  obtain ⟨before, after, hsplit, -⟩ := List.lookup_eq_some_iff.1 h
  rw [hsplit]
  exact List.mem_append_right _ List.mem_cons_self

end Index

end TypeFlow
