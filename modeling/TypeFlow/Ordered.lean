/-!
# Ordered sets and maps

Finite sets and finite maps as lists in strictly ascending order of their keys.  Equal contents
then have one representation, equality of contents is equality of lists, and iteration follows the
order of the keys.

## Main Definitions

* `OrdSet` - a finite set: its elements in ascending order
* `OrdMap` - a finite map: its entries in ascending key order

## Design Notes

Both are abbreviations for lists, so that they can occur below a nested inductive type and so that
every list operation applies.  Looking up a key compares for equality only: the lookup laws of
`OrdMap.insert` need no sortedness.
-/

namespace TypeFlow

/-- A finite set, as the list of its elements in strictly ascending order. -/
abbrev OrdSet (α : Type) := List α

/-- A finite map, as the list of its entries in strictly ascending order of the keys. -/
abbrev OrdMap (κ α : Type) := List (κ × α)

/-! ### Sets -/

namespace OrdSet

variable {α : Type} [LT α] [DecidableLT α] [DecidableEq α]

/-- Adds an element at its place; an element already present stays as it is. -/
def insert (a : α) : OrdSet α → OrdSet α
  | [] => [a]
  | b :: rest =>
    if a < b then a :: b :: rest
    else if a = b then b :: rest
    else b :: insert a rest

/-- The elements of either set. -/
def union (s t : OrdSet α) : OrdSet α :=
  t.foldl (fun acc a => insert a acc) s

/-- The set of the elements of a list. -/
def ofList (xs : List α) : OrdSet α :=
  union [] xs

@[simp] theorem mem_insert {x a : α} {s : OrdSet α} : x ∈ insert a s ↔ x = a ∨ x ∈ s := by
  induction s with
  | nil => simp [insert]
  | cons b rest ih =>
    simp only [insert]
    split
    · simp
    · split
      · next h => simp [h]
      · rw [List.mem_cons, ih, List.mem_cons, or_left_comm]

@[simp] theorem mem_union {x : α} {s t : OrdSet α} : x ∈ union s t ↔ x ∈ s ∨ x ∈ t := by
  induction t generalizing s with
  | nil => simp [union]
  | cons b rest ih =>
    have hstep : union s (b :: rest) = union (insert b s) rest := rfl
    rw [hstep, ih, mem_insert, List.mem_cons, or_comm (a := x = b), or_assoc]

end OrdSet

/-! ### Maps -/

namespace OrdMap

variable {κ α : Type} [DecidableEq κ]

/-- The value stored under a key. -/
def get? (m : OrdMap κ α) (k : κ) : Option α :=
  match m with
  | [] => none
  | (j, v) :: rest => if k = j then some v else get? rest k

/-- Whether a key has a value. -/
def contains (m : OrdMap κ α) (k : κ) : Bool :=
  (get? m k).isSome

/-- Removes a key and its value. -/
def erase (m : OrdMap κ α) (k : κ) : OrdMap κ α :=
  m.filter fun e => e.1 ≠ k

variable [LT κ] [DecidableLT κ]

/-- Stores a value under a key, replacing the value the key had. -/
def insert (m : OrdMap κ α) (k : κ) (v : α) : OrdMap κ α :=
  match m with
  | [] => [(k, v)]
  | (j, w) :: rest =>
    if k < j then (k, v) :: (j, w) :: rest
    else if k = j then (k, v) :: rest
    else (j, w) :: insert rest k v

/-- Changes the value of a key by `f` when it has one, and stores `v` when it has none. -/
def upsert (m : OrdMap κ α) (k : κ) (f : α → α) (v : α) : OrdMap κ α :=
  insert m k (match get? m k with
    | some old => f old
    | none => v)

/-- Adds the entries of `n` whose keys `m` lacks. -/
def addMissing (m n : OrdMap κ α) : OrdMap κ α :=
  n.foldl (fun acc e => if contains acc e.1 then acc else insert acc e.1 e.2) m

/-- The map of a list of entries, a later entry replacing an earlier one of the same key. -/
def ofList (entries : List (κ × α)) : OrdMap κ α :=
  entries.foldl (fun acc e => insert acc e.1 e.2) []

@[simp] theorem get?_insert_self (m : OrdMap κ α) (k : κ) (v : α) :
    get? (insert m k v) k = some v := by
  induction m with
  | nil => simp [insert, get?]
  | cons e rest ih =>
    simp only [insert]
    split
    · simp [get?]
    · split
      · simp [get?]
      · next h => simp [get?, h, ih]

theorem get?_insert_of_ne (m : OrdMap κ α) {j k : κ} (v : α) (h : j ≠ k) :
    get? (insert m k v) j = get? m j := by
  induction m with
  | nil => simp [insert, get?, h]
  | cons e rest ih =>
    simp only [insert]
    split
    · simp [get?, h]
    · split
      · next heq => simp [get?, h, ← heq]
      · simp [get?, ih]

@[simp] theorem get?_upsert_self (m : OrdMap κ α) (k : κ) (f : α → α) (v : α) :
    get? (upsert m k f v) k = some (((get? m k).map f).getD v) := by
  unfold upsert
  cases get? m k <;> simp

theorem get?_upsert_of_ne (m : OrdMap κ α) {j k : κ} (f : α → α) (v : α) (h : j ≠ k) :
    get? (upsert m k f v) j = get? m j :=
  get?_insert_of_ne m _ h

end OrdMap

end TypeFlow
