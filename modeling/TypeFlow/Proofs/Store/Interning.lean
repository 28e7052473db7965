import Mathlib
import TypeFlow.Proofs.Store.Reads

/-!
# Interned entries

The four tables find an entry again by a key: an index beside the table leads from the key to the
entry, and where it leads nowhere an entry is added and noted.  As long as table and index are
inverse to each other, the place that is answered tells the key, and the key tells the place.

## Main Definitions

* `Index.Injects` - an index leads into a table, and from different keys to different places
* `Indexes` - an index leads from a key exactly to the entry that carries the key
* `Closure.place` - the key of a closure: its literal's identity and its defining scope
* `Env.Indexed`, `Closures.Indexed`, `Heap.Indexed`, `Protos.Indexed` - table and index agree

## Main Statements

* `Index.Injects.answer_eq_iff` - looking a key up, and taking the next place when it is new,
  answers the place of another key never
* `Env.Write.indexed`, `Closures.Write.indexed`, `Heap.Write.indexed`, `Protos.Write.indexed` -
  writes keep table and index in agreement
* `Env.enter_answers`, `Closures.captureId_answers`, `Heap.create_answers`,
  `Protos.ctorFor_answers` - each operation looks its key up

## Design Notes

A closure, a cell and the constructor of a closure carry their keys, so index and table can be
compared entry by entry.  A scope does not carry the key of its activation: of the scopes it is only
said that different activations have different ones, none of which is the global scope.  A scope and
a constructor need not have a key, and any number of such entries may be added.
-/

namespace TypeFlow

/-! ### Indices that lead into a table -/

namespace Index

variable {κ : Type} [DecidableEq κ] {m m' : Index κ} {keys : List κ} {n n' : Nat}

/-- An index leads to places of a table of `n` entries, and from different keys to different
ones. -/
structure Injects (m : Index κ) (n : Nat) : Prop where
  inside : ∀ {k i}, m.place? k = some i → i < n
  apart : ∀ {k k' i}, m.place? k = some i → m.place? k' = some i → k = k'

theorem Injects.empty (n : Nat) : (Index.empty : Index κ).Injects n :=
  ⟨nofun, nofun⟩

/-- An edit keeps different keys at different places. -/
theorem Injects.edit (h : m.Injects n) (hedited : Index.Edit keys n n' m m') (hgrown : n ≤ n') :
    m'.Injects n' where
  inside hfound := by
    rcases hedited.place_cases hfound with hplace | ⟨-, -, rfl, rfl⟩
    · exact Nat.lt_of_lt_of_le (h.inside hplace) hgrown
    · exact Nat.lt_succ_self _
  apart hfound hfound' := by
    cases hedited with
    | same => exact h.apart hfound hfound'
    | note j _ habsent _ =>
      rw [place?_note] at hfound hfound'
      split at hfound <;> split at hfound'
      · next heq heq' => exact heq.trans heq'.symm
      · cases hfound
        exact absurd (h.inside hfound') (Nat.lt_irrefl _)
      · cases hfound'
        exact absurd (h.inside hfound) (Nat.lt_irrefl _)
      · exact h.apart hfound hfound'

/-- Looking a key up, and taking the next place when it is new, answers the place of a key exactly
for this key. -/
theorem Injects.answer_eq_iff (h : m.Injects n) {k k' : κ} {i : Nat}
    (hfound : m.place? k = some i) :
    (m.place? k').getD n = i ↔ k' = k := by
  constructor
  · intro hsame
    cases hfound' : m.place? k' with
    | none =>
      rw [hfound', Option.getD_none] at hsame
      exact absurd (hsame ▸ h.inside hfound) (Nat.lt_irrefl _)
    | some j =>
      rw [hfound', Option.getD_some] at hsame
      exact h.apart (hsame ▸ hfound') hfound
  · rintro rfl
    rw [hfound, Option.getD_some]

end Index

/-! ### Tables whose entries carry their keys -/

section Table

variable {α κ : Type} [DecidableEq κ] {key : α → Option κ} {m : Index κ} {xs ys : Array α}

/-- An index and a table are inverse to each other: the index leads from a key exactly to the entry
that carries it. -/
def Indexes (key : α → Option κ) (m : Index κ) (xs : Array α) : Prop :=
  ∀ k i, m.place? k = some i ↔ ∃ x, xs[i]? = some x ∧ key x = some k

theorem Indexes.empty (key : α → Option κ) : Indexes key .empty #[] := by
  intro k i
  simp

/-- An index that is inverse to a table leads into it, to different places from different keys. -/
theorem Indexes.injects (h : Indexes key m xs) : m.Injects xs.size where
  inside hfound := by
    obtain ⟨x, hinside, -⟩ := (h _ _).mp hfound
    exact (Array.getElem?_eq_some_iff.mp hinside).1
  apart hfound hfound' := by
    obtain ⟨x, hatX, hisX⟩ := (h _ _).mp hfound
    obtain ⟨y, hatY, hisY⟩ := (h _ _).mp hfound'
    cases hatX.symm.trans hatY
    exact Option.some.inj (hisX.symm.trans hisY)

/-- An entry with a new key may be added when it is noted. -/
theorem Indexes.note (h : Indexes key m xs) {a : α} {k : κ} (heq : key a = some k)
    (habsent : m.place? k = none) : Indexes key (m.note k xs.size) (xs.push a) := by
  intro j i
  rw [Index.place?_note]
  split
  · next hsame =>
    subst hsame
    constructor
    · intro heq'
      cases heq'
      exact ⟨a, Array.getElem?_push_size, heq⟩
    · rintro ⟨x, hfound, hcarries⟩
      rcases getElem?_push_cases hfound with hget | ⟨rfl, -⟩
      · cases habsent.symm.trans ((h j i).mpr ⟨x, hget, hcarries⟩)
      · rfl
  · next hne =>
    rw [h j i]
    constructor
    · rintro ⟨x, hfound, hcarries⟩
      have hinside := (Array.getElem?_eq_some_iff.mp hfound).1
      exact ⟨x, by rw [Array.getElem?_push_lt hinside, ← hfound, Array.getElem?_eq_getElem],
        hcarries⟩
    · rintro ⟨x, hfound, hcarries⟩
      rcases getElem?_push_cases hfound with hget | ⟨-, rfl⟩
      · exact ⟨x, hget, hcarries⟩
      · exact absurd (Option.some.inj (hcarries.symm.trans heq)) hne

/-- An entry without a key may always be added. -/
theorem Indexes.push_none (h : Indexes key m xs) {a : α} (hnone : key a = none) :
    Indexes key m (xs.push a) := by
  intro k i
  rw [h k i]
  constructor
  · rintro ⟨x, hfound, hcarries⟩
    have hinside := (Array.getElem?_eq_some_iff.mp hfound).1
    exact ⟨x, by rw [Array.getElem?_push_lt hinside, ← hfound, Array.getElem?_eq_getElem], hcarries⟩
  · rintro ⟨x, hfound, hcarries⟩
    rcases getElem?_push_cases hfound with hget | ⟨-, rfl⟩
    · exact ⟨x, hget, hcarries⟩
    · cases hnone.symm.trans hcarries

/-- Altering an entry keeps index and table inverse to each other when it adds no entry. -/
theorem Indexes.edit {K : Entry α} (read : K.Key → Option κ) {news : List Ty}
    {held : List Dangling} (h : Indexes (fun x => read (K.key x)) m xs)
    (hedited : K.Edit [] news held xs ys) : Indexes (fun x => read (K.key x)) m ys := by
  intro k i
  rw [h k i]
  constructor
  · rintro ⟨x, hfound, hcarries⟩
    obtain ⟨y, hfound', hsame⟩ := hedited.keeps i x hfound
    exact ⟨y, hfound', (congrArg read hsame).trans hcarries⟩
  · rintro ⟨y, hfound, hcarries⟩
    obtain ⟨x, hget, hsame⟩ := (hedited.keys_cases hfound).resolve_right List.not_mem_nil
    exact ⟨x, hget, (congrArg read hsame).symm.trans hcarries⟩

end Table

/-! ### Scopes -/

namespace Env

variable {e : Env}

/-- Different activations have different scopes, none of which is the global scope. -/
structure Indexed (e : Env) : Prop where
  global : Env.global < e.scopes.size
  injects : e.activations.Injects e.scopes.size
  outside : ∀ key, e.activations.place? key ≠ some Env.global

/-- Entering looks the activation up, and leads to the scope from then on. -/
theorem enter_answers (key : ActivationKey) (parent : ScopeId) (owner : Option NodeId) (e : Env) :
    ∃ new e', enter key parent owner e =
      .ok ((e.activations.place? key).getD e.scopes.size, new) e' := by
  rw [enter_apply]
  cases e.activations.place? key with
  | some id => exact ⟨false, e, rfl⟩
  | none => exact ⟨_, _, rfl⟩

/-- A write keeps the scopes of different activations apart. -/
theorem Write.indexed (w : Write) (h : e.Indexed) : (w.apply e).Indexed where
  global := Nat.lt_of_lt_of_le h.global (w.edit e).keeps.size_le
  injects := h.injects.edit (w.index e) (w.edit e).keeps.size_le
  outside key hfound := by
    rcases (w.index e).place_cases hfound with hplace | ⟨-, -, hglobal, -⟩
    · exact h.outside key hplace
    · exact absurd (hglobal ▸ h.global) (Nat.lt_irrefl _)

end Env

/-! ### Closures -/

/-- What tells one closure from another: the identity of its literal, and its defining scope. -/
def Closure.place (c : Closure) : Option (NodeId × ScopeId) :=
  some (c.func.id, c.scope)

namespace Closures

variable {cs : Closures}

/-- The index of the closures is inverse to their table. -/
def Indexed (cs : Closures) : Prop :=
  Indexes Closure.place cs.bySite cs.table

/-- The closure that the index leads to is one of the literal in the scope. -/
theorem Indexed.found (h : cs.Indexed) {node : NodeId} {scope : ScopeId} {id : ClosureId}
    (hfound : cs.bySite.place? (node, scope) = some id) :
    ∃ c, cs.table[id]? = some c ∧ c.func.id = node ∧ c.scope = scope := by
  obtain ⟨c, hinside, hplace⟩ := (h _ _).mp hfound
  obtain ⟨hliteral, hplace'⟩ := Prod.mk.inj (Option.some.inj hplace)
  exact ⟨c, hinside, hliteral, hplace'⟩

/-- Capturing looks the literal up in the scope. -/
theorem captureId_answers (scope : ScopeId) (f : Func) (cs : Closures) :
    ∃ cs', captureId scope f cs =
      .ok ((cs.bySite.place? (f.id, scope)).getD cs.table.size) cs' := by
  rw [captureId_apply]
  cases cs.bySite.place? (f.id, scope) with
  | some id => exact ⟨cs, rfl⟩
  | none => exact ⟨_, rfl⟩

/-- A write keeps index and table inverse to each other. -/
theorem Write.indexed (w : Write) (h : cs.Indexed) : (w.apply cs).Indexed := by
  let read : Closure.entry.Key → Option (NodeId × ScopeId) := fun k => some (k.1.id, k.2)
  cases w with
  | capture scope f =>
    change (after (captureId scope f) cs).Indexed
    rcases after_captureId cs scope f with hsame | ⟨habsent, heq⟩
    · rw [hsame]
      exact h
    · rw [heq]
      exact h.note rfl habsent
  | record id args ret =>
    change Indexes _ ((Write.record id args ret).apply cs).bySite _
    rw [((Write.record id args ret).index cs).eq_of_nil]
    exact Indexes.edit read h ((Write.record id args ret).edit cs)
  | mark id =>
    change Indexes _ ((Write.mark id).apply cs).bySite _
    rw [((Write.mark id).index cs).eq_of_nil]
    exact Indexes.edit read h ((Write.mark id).edit cs)

end Closures

/-! ### Cells -/

namespace Heap

variable {h h' : Heap}

/-- The index of the cells is inverse to their table. -/
def Indexed (h : Heap) : Prop :=
  Indexes (fun c : Cell => some c.site) h.bySite h.cells

/-- The cell that the index leads to is one of the site. -/
theorem Indexed.found (hindexed : h.Indexed) {site : AllocSite} {id : CellId}
    (hfound : h.bySite.place? site = some id) : ∃ c, h.cells[id]? = some c ∧ c.site = site := by
  obtain ⟨c, hinside, heq⟩ := (hindexed _ _).mp hfound
  exact ⟨c, hinside, Option.some.inj heq⟩

theorem cellFor_answers (site : AllocSite) (h : Heap) :
    ∃ h', cellFor site h = .ok ((h.bySite.place? site).getD h.cells.size) h' := by
  rw [cellFor_apply]
  cases h.bySite.place? site with
  | some id => exact ⟨h, rfl⟩
  | none => exact ⟨_, rfl⟩

/-- A write keeps index and table inverse to each other. -/
theorem Write.indexed (w : Write) (hindexed : h.Indexed) : (w.apply h).Indexed := by
  let read : Cell.entry.Key → Option AllocSite := some
  cases w with
  | alloc site =>
    change (after (cellFor site) h).Indexed
    rcases after_cellFor h site with hsame | ⟨habsent, heq⟩
    · rw [hsame]
      exact hindexed
    · rw [heq]
      exact Indexes.note hindexed rfl habsent
  | field id name t =>
    change Indexes _ ((Write.field id name t).apply h).bySite _
    rw [((Write.field id name t).index h).eq_of_nil]
    exact Indexes.edit read hindexed ((Write.field id name t).edit h)

/-- Writing fields of a cell that exists keeps the cells at their sites. -/
theorem writeAll_answers {id : CellId} (hinside : id < h.cells.size) (fields : List (String × Ty)) :
    ∃ h', writeAll id fields h = .ok () h' ∧ h.bySite.Extends h'.bySite := by
  induction fields generalizing h with
  | nil => exact ⟨h, rfl, Index.Extends.refl _⟩
  | cons e rest ih =>
    obtain ⟨c, hfound, -⟩ := cell_total hinside
    obtain ⟨changed, hran⟩ : ∃ changed,
        writeCell id e.1 e.2 h = .ok changed ((Write.field id e.1 e.2).apply h) := by
      rw [Write.apply, after, writeCell_apply, hfound]
      dsimp only
      split <;> exact ⟨_, rfl⟩
    have hgrown := ((Write.field id e.1 e.2).edit h).keeps.size_le
    obtain ⟨h', hlater, hkept⟩ := ih (Nat.lt_of_lt_of_le hinside hgrown)
    refine ⟨h', ?_, ((Write.field id e.1 e.2).index h).keeps.trans hkept⟩
    change EStateM.bind (writeCell id e.1 e.2) (fun _ => writeAll id rest) h = _
    rw [EStateM.bind, hran]
    exact hlater

/-- Creating a cell looks its site up, with whatever fields it is created, and leads to the cell
from then on. -/
theorem create_answers (hindexed : h.Indexed) (site : AllocSite) (fields : List (String × Ty)) :
    ∃ h', create site fields h = .ok ((h.bySite.place? site).getD h.cells.size) h' ∧
      h'.bySite.place? site = some ((h.bySite.place? site).getD h.cells.size) := by
  obtain ⟨h₁, hran⟩ := cellFor_answers site h
  have hleads := cellFor_spec hran
  have indexed₁ : h₁.Indexed := by
    have := (Write.alloc site).indexed hindexed
    rwa [Write.apply, after, hran] at this
  obtain ⟨h', hwrote, hkept⟩ := writeAll_answers (indexed₁.injects.inside hleads) fields
  refine ⟨h', ?_, hkept _ _ hleads⟩
  change EStateM.bind (cellFor site) (fun id => writeAll id fields >>= fun _ => pure id) h = _
  rw [EStateM.bind, hran]
  change EStateM.bind (writeAll _ fields) (fun _ => pure _) h₁ = _
  rw [EStateM.bind, hwrote]
  rfl

end Heap

/-! ### Constructors -/

namespace Protos

variable {g : Protos}

/-- The index of the constructors is inverse to their table. -/
def Indexed (g : Protos) : Prop :=
  Indexes Ctor.closure g.byClosure g.ctors

/-- The constructor that the index leads to is that of the closure. -/
theorem Indexed.find?_eq_some_iff (h : g.Indexed) {closure : ClosureId} {id : CtorId} :
    g.find? closure = some id ↔ ∃ c, g.ctors[id]? = some c ∧ c.closure = some closure :=
  h closure id

theorem ctorFor_answers (closure : ClosureId) (name : Option String) (g : Protos) :
    ∃ g', ctorFor closure name g = .ok ((g.find? closure).getD g.ctors.size) g' := by
  rw [ctorFor_apply]
  cases g.find? closure with
  | some id => exact ⟨g, rfl⟩
  | none => exact ⟨_, rfl⟩

/-- A write keeps index and table inverse to each other. -/
theorem Write.indexed (w : Write) (h : g.Indexed) : (w.apply g).Indexed := by
  have haltered {w : Write} (hkeys : w.keys = []) (hplaces : w.places = []) :
      (w.apply g).Indexed := by
    have hsame : (w.apply g).byClosure = g.byClosure := (hplaces ▸ w.index g).eq_of_nil
    change Indexes _ (w.apply g).byClosure _
    rw [hsame]
    exact Indexes.edit (fun k : Ctor.entry.Key => k.2) h (hkeys ▸ w.edit g)
  cases w with
  | ctor closure name =>
    change (after (ctorFor closure name) g).Indexed
    rcases after_ctorFor g closure name with hsame | ⟨habsent, heq⟩
    · rw [hsame]
      exact h
    · rw [heq]
      exact Indexes.note h rfl habsent
  | _ => exact haltered rfl rfl

end Protos

end TypeFlow
