import Mathlib
import TypeFlow.Proofs.Store.Reads

/-!
# The links between constructors

The constructors as a graph.  An edge leads from a constructor to each one whose method table it
shares, and to each one whose instances are its prototype.  The graph may have cycles, and a
constructor may have several links of both kinds.

## Main Definitions

* `Protos.method?`, `Protos.ownField?` - what a constructor itself has for a name
* `Protos.LinksTo`, `Protos.Leads` - one link, and any number of them
* `Protos.Path`, `Protos.distance` - a number of links, and the least such number
* `Protos.Distinct` - lists of different constructors

## Main Statements

* `Protos.Distinct.length_le` - there are no more of them than entries in the table, which is what
  bounds every search that passes over what it has visited
-/

namespace TypeFlow

namespace Protos

/-! ### What a constructor has -/

/-- The method that a constructor has under a name. -/
def method? (g : Protos) (id : CtorId) (name : String) : Option Ty :=
  g.ctors[id]?.bind fun c => OrdMap.get? c.methods name

/-- The field that a constructor writes on its instances under a name. -/
def ownField? (g : Protos) (id : CtorId) (name : String) : Option Ty :=
  g.ctors[id]?.bind fun c => OrdMap.get? c.ownFields name

variable {g : Protos} {a b c id : CtorId} {k : Ctor} {name : String}

theorem method?_eq (hfound : g.ctors[id]? = some k) :
    g.method? id name = OrdMap.get? k.methods name := by
  rw [method?, hfound, Option.bind_some]

theorem ownField?_eq (hfound : g.ctors[id]? = some k) :
    g.ownField? id name = OrdMap.get? k.ownFields name := by
  rw [ownField?, hfound, Option.bind_some]

/-! ### Links -/

/-- The first constructor shares the method table of the second. -/
def Shares (g : Protos) (a b : CtorId) : Prop :=
  ∃ k, g.ctors[a]? = some k ∧ b ∈ k.shares

/-- An instance of the second constructor is the prototype of the first. -/
def HasParent (g : Protos) (a b : CtorId) : Prop :=
  ∃ k, g.ctors[a]? = some k ∧ b ∈ k.parents

/-- There is a link from the first constructor to the second. -/
def LinksTo (g : Protos) (a b : CtorId) : Prop :=
  g.Shares a b ∨ g.HasParent a b

/-- The second constructor is reached from the first by zero or more links. -/
def Leads (g : Protos) : CtorId → CtorId → Prop :=
  Relation.ReflTransGen g.LinksTo

instance (g : Protos) : Decidable g.Linked :=
  decidable_of_iff (∀ k ∈ g.ctors.toList, ∀ l ∈ k.shares ++ k.parents, l < g.ctors.size) <| by
    constructor
    · intro heach i k l hfound hmem
      exact heach k (Array.mem_toList_iff.mpr (Array.mem_of_getElem? hfound)) l hmem
    · intro hlinked k hlisted l hmem
      obtain ⟨i, hfound⟩ := Array.mem_iff_getElem?.mp (Array.mem_toList_iff.mp hlisted)
      exact hlinked i k l hfound hmem

/-- A constructor links to those whose table it shares, and to its parents. -/
theorem linksTo_iff (hfound : g.ctors[a]? = some k) :
    g.LinksTo a b ↔ b ∈ k.shares ++ k.parents := by
  simp [LinksTo, Shares, HasParent, hfound]

/-- Where all links lead to constructors that exist, a link does. -/
theorem LinksTo.inside (hlinked : g.Linked) (hlink : g.LinksTo a b) : b < g.ctors.size := by
  obtain ⟨k, hfound, hmem⟩ | ⟨k, hfound, hmem⟩ := hlink
  · exact hlinked a k b hfound (List.mem_append_left _ hmem)
  · exact hlinked a k b hfound (List.mem_append_right _ hmem)

/-! ### Distances -/

/-- The constructor is reached from the first one by so many links. -/
inductive Path (g : Protos) (c : CtorId) : Nat → CtorId → Prop
  | refl : Path g c 0 c
  | tail {n : Nat} {a b : CtorId} : Path g c n a → g.LinksTo a b → Path g c (n + 1) b

/-- The least number of links that lead from one constructor to another. -/
noncomputable def distance (g : Protos) (c a : CtorId) : Nat :=
  sInf {n | g.Path c n a}

/-- The constructor is reached by so many links, and by no fewer. -/
def AtDistance (g : Protos) (c : CtorId) (n : Nat) (a : CtorId) : Prop :=
  g.Path c n a ∧ ∀ m < n, ¬ g.Path c m a

theorem path_zero_iff : g.Path c 0 a ↔ a = c := by
  constructor
  · intro hpath
    cases hpath
    rfl
  · rintro rfl
    exact .refl

/-- A constructor is reached when it is reached by some number of links. -/
theorem leads_iff_path : g.Leads c a ↔ ∃ n, g.Path c n a := by
  constructor
  · intro hleads
    induction hleads with
    | refl => exact ⟨0, .refl⟩
    | tail _ hlast ih =>
      obtain ⟨n, hpath⟩ := ih
      exact ⟨n + 1, hpath.tail hlast⟩
  · rintro ⟨n, hpath⟩
    induction hpath with
    | refl => exact .refl
    | tail _ hlast ih => exact ih.tail hlast

/-- The distance is the length of some path. -/
theorem Leads.path_distance (hleads : g.Leads c a) : g.Path c (g.distance c a) a :=
  Nat.sInf_mem (leads_iff_path.mp hleads)

/-- No path is shorter than the distance. -/
theorem distance_le {n : Nat} (hpath : g.Path c n a) : g.distance c a ≤ n :=
  Nat.sInf_le hpath

/-- A constructor that is reached is reached at its distance. -/
theorem Leads.atDistance (hleads : g.Leads c a) : g.AtDistance c (g.distance c a) a :=
  ⟨hleads.path_distance, fun _ hfewer hpath => absurd (distance_le hpath) (Nat.not_le.mpr hfewer)⟩

/-- A constructor is at one distance only. -/
theorem AtDistance.distance_eq {n : Nat} (hdistance : g.AtDistance c n a) : g.distance c a = n := by
  refine Nat.le_antisymm (distance_le hdistance.1) (Nat.not_lt.mp fun hfewer => ?_)
  exact hdistance.2 _ hfewer (leads_iff_path.mpr ⟨n, hdistance.1⟩).path_distance

theorem distance_self (g : Protos) (c : CtorId) : g.distance c c = 0 :=
  Nat.le_zero.mp (distance_le .refl)

/-! ### Different constructors -/

/-- Constructors of the graph, each listed once. -/
structure Distinct (g : Protos) (ids : List CtorId) : Prop where
  nodup : ids.Nodup
  inside : ∀ id ∈ ids, id < g.ctors.size

/-- There are no more different constructors than entries in the table. -/
theorem Distinct.length_le {ids : List CtorId} (h : g.Distinct ids) :
    ids.length ≤ g.ctors.size := by
  have hwithin : ids ⊆ List.range g.ctors.size :=
    fun id hmem => List.mem_range.mpr (h.inside id hmem)
  simpa using (h.nodup.subperm hwithin).length_le

theorem Distinct.nil (g : Protos) : g.Distinct [] :=
  ⟨List.nodup_nil, nofun⟩

/-- One more constructor that is not listed yet. -/
theorem Distinct.cons {ids : List CtorId} (h : g.Distinct ids) (hinside : id < g.ctors.size)
    (hfresh : id ∉ ids) : g.Distinct (id :: ids) :=
  ⟨List.nodup_cons.mpr ⟨hfresh, h.nodup⟩, List.forall_mem_cons.mpr ⟨hinside, h.inside⟩⟩

end Protos

end TypeFlow
