import Mathlib
import TypeFlow.Proofs.Store.Changes

/-!
# Writes to the tables

The single writes that a run makes to its tables, as data: which types a write brings into the
table, which handles it stores, and that a write keeps what identifies the entries.

## Main Definitions

* `Entry` - what an entry of a table stores, and what identifies it
* `Entry.Edit` - a table in which at most one entry was altered or added
* `Index.Extends`, `Index.Edit` - an index that leads on, and one with at most one new note
* `Env.Write`, `Closures.Write`, `Heap.Write`, `Protos.Write` - the writes
* `Env.handles`, `Closures.handles`, `Heap.handles`, `Protos.handles` - the handles in a table and
  in its index

## Main Statements

* `Entry.Edit.types`, `Entry.Edit.handles` - what is in a table after an edit
* `Entry.Edit.keeps` - the entries keep their places and their identity
* `Env.Write.edit`, `Closures.Write.edit`, `Heap.Write.edit`, `Protos.Write.edit` - every write is
  an edit of its table
* `Env.Write.index`, `Closures.Write.index`, `Heap.Write.index`, `Protos.Write.index` - and of its
  index: what is noted is the place of the entry that the write adds
* `Env.Write.handles_cases`, ... - what is stored in table and index after a write

## Design Notes

The handle that a write is addressed to is not among those that it stores: when it has no entry the
write fails and changes nothing.
-/

namespace TypeFlow

/-- The types that are stored after a write: those stored before, those that it brings, and the
joins of one with the other. -/
def Brought (stored news : List Ty) (t : Ty) : Prop :=
  t ∈ stored ∨ t ∈ news ∨ ∃ old ∈ stored, ∃ new ∈ news, t = old.join new

theorem Brought.mono {stored stored' news : List Ty} {t : Ty} (h : Brought stored news t)
    (hsub : stored ⊆ stored') : Brought stored' news t :=
  h.imp (@hsub t) (Or.imp_right fun ⟨old, hinside, hjoined⟩ => ⟨old, hsub hinside, hjoined⟩)

/-! ### Entries of tables -/

/-- What an entry of a table stores, and what identifies it. -/
structure Entry (α : Type) where
  /-- What identifies an entry, as long as it exists. -/
  Key : Type
  key : α → Key
  /-- The types in an entry. -/
  types : α → List Ty
  /-- The handles in an entry, outside of types. -/
  handles : α → List Dangling

namespace Entry

variable {α : Type} (K : Entry α)

/-- The types in a table. -/
def typesIn (xs : Array α) : List Ty :=
  xs.toList.flatMap K.types

/-- The handles in a table, outside of types. -/
def handlesIn (xs : Array α) : List Dangling :=
  xs.toList.flatMap K.handles

/-- Every entry of a table is still at its place in another one, with the same identity. -/
def Extends (xs ys : Array α) : Prop :=
  Grows (fun x y => K.key y = K.key x) xs ys

/-- A table in which at most one entry was altered or added: an entry that is altered keeps its
identity, and one that is added has an identity among `keys`. -/
inductive Edit (keys : List K.Key) (news : List Ty) (held : List Dangling) (xs : Array α) :
    Array α → Prop where
  | same : Edit keys news held xs xs
  | push (a : α) : K.key a ∈ keys → K.types a ⊆ news → K.handles a ⊆ held →
    Edit keys news held xs (xs.push a)
  | modify (i : Nat) (f : α → α) :
    (∀ x, xs[i]? = some x →
      K.key (f x) = K.key x ∧ (∀ t ∈ K.types (f x), Brought (K.types x) news t) ∧
        K.handles (f x) ⊆ K.handles x ++ held) →
    Edit keys news held xs (xs.modify i f)

variable {K} {xs ys zs : Array α} {keys : List K.Key} {news : List Ty} {held : List Dangling}

/-- The types of an entry are types of the table. -/
theorem types_subset {i : Nat} {x : α} (hfound : xs[i]? = some x) : K.types x ⊆ K.typesIn xs :=
  fun _ hmem =>
    List.mem_flatMap.mpr ⟨x, Array.mem_toList_iff.mpr (Array.mem_of_getElem? hfound), hmem⟩

theorem handles_subset {i : Nat} {x : α} (hfound : xs[i]? = some x) :
    K.handles x ⊆ K.handlesIn xs :=
  fun _ hmem =>
    List.mem_flatMap.mpr ⟨x, Array.mem_toList_iff.mpr (Array.mem_of_getElem? hfound), hmem⟩

/-- A type of the table is a type of some entry. -/
theorem mem_typesIn {t : Ty} (h : t ∈ K.typesIn xs) :
    ∃ (i : Nat) (x : α), xs[i]? = some x ∧ t ∈ K.types x := by
  obtain ⟨x, hinside, hmem⟩ := List.mem_flatMap.mp h
  obtain ⟨i, hfound⟩ := Array.mem_iff_getElem?.mp (Array.mem_toList_iff.mp hinside)
  exact ⟨i, x, hfound, hmem⟩

theorem mem_handlesIn {d : Dangling} (h : d ∈ K.handlesIn xs) :
    ∃ (i : Nat) (x : α), xs[i]? = some x ∧ d ∈ K.handles x := by
  obtain ⟨x, hinside, hmem⟩ := List.mem_flatMap.mp h
  obtain ⟨i, hfound⟩ := Array.mem_iff_getElem?.mp (Array.mem_toList_iff.mp hinside)
  exact ⟨i, x, hfound, hmem⟩

theorem Extends.refl (xs : Array α) : K.Extends xs xs :=
  fun _ x hfound => ⟨x, hfound, rfl⟩

theorem Extends.trans (h : K.Extends xs ys) (h' : K.Extends ys zs) : K.Extends xs zs :=
  Grows.trans (fun _ _ _ hxy hyz => hyz.trans hxy) h h'

namespace Edit

/-- Only the types that an edit brings are stored, and their joins with those stored before. -/
theorem types (h : K.Edit keys news held xs ys) {t : Ty} (hmem : t ∈ K.typesIn ys) :
    Brought (K.typesIn xs) news t := by
  obtain ⟨i, y, hfound, hinside⟩ := mem_typesIn hmem
  cases h with
  | same => exact Or.inl (types_subset hfound hinside)
  | push a _ hnew _ =>
    rcases getElem?_push_cases hfound with hstays | ⟨-, rfl⟩
    · exact Or.inl (types_subset hstays hinside)
    · exact Or.inr (Or.inl (hnew hinside))
  | modify j f halters =>
    rcases getElem?_modify_cases hfound with hstays | ⟨-, x, haltered, rfl⟩
    · exact Or.inl (types_subset hstays hinside)
    · exact ((halters x haltered).2.1 t hinside).mono (types_subset haltered)

/-- Only the handles that an edit brings are stored, beside those stored before. -/
theorem handles (h : K.Edit keys news held xs ys) {d : Dangling} (hmem : d ∈ K.handlesIn ys) :
    d ∈ K.handlesIn xs ∨ d ∈ held := by
  obtain ⟨i, y, hfound, hinside⟩ := mem_handlesIn hmem
  cases h with
  | same => exact Or.inl (handles_subset hfound hinside)
  | push a _ _ hnew =>
    rcases getElem?_push_cases hfound with hstays | ⟨-, rfl⟩
    · exact Or.inl (handles_subset hstays hinside)
    · exact Or.inr (hnew hinside)
  | modify j f halters =>
    rcases getElem?_modify_cases hfound with hstays | ⟨-, x, haltered, rfl⟩
    · exact Or.inl (handles_subset hstays hinside)
    · refine (List.mem_append.mp ((halters x haltered).2.2 hinside)).imp_left fun hmem' => ?_
      exact handles_subset haltered hmem'

/-- The entries keep their places and their identity. -/
theorem keeps (h : K.Edit keys news held xs ys) : K.Extends xs ys := by
  cases h with
  | same => exact Extends.refl xs
  | push a _ _ _ =>
    have hsame : ∀ x, K.key x = K.key x := fun _ => rfl
    exact Grows.push hsame xs a
  | modify j f halters =>
    have hsame : ∀ x, K.key x = K.key x := fun _ => rfl
    exact Grows.modify hsame fun x hfound => (halters x hfound).1

/-- Every entry has the identity of the entry before at its place, or was added. -/
theorem keys_cases (h : K.Edit keys news held xs ys) {i : Nat} {y : α} (hfound : ys[i]? = some y) :
    (∃ x, xs[i]? = some x ∧ K.key y = K.key x) ∨ K.key y ∈ keys := by
  cases h with
  | same => exact Or.inl ⟨y, hfound, rfl⟩
  | push a hnew _ _ =>
    rcases getElem?_push_cases hfound with hstays | ⟨-, rfl⟩
    · exact Or.inl ⟨y, hstays, rfl⟩
    · exact Or.inr hnew
  | modify j f halters =>
    rcases getElem?_modify_cases hfound with hstays | ⟨rfl, x, haltered, rfl⟩
    · exact Or.inl ⟨y, hstays, rfl⟩
    · exact Or.inl ⟨x, haltered, (halters x haltered).1⟩

end Edit

end Entry

/-! ### Indices -/

namespace Index

variable {κ : Type} [DecidableEq κ]

/-- Wherever an index leads from a key, another one leads as well. -/
def Extends (m m' : Index κ) : Prop :=
  ∀ k i, m.place? k = some i → m'.place? k = some i

/-- The handles in an index: those in the keys, and the places as handles. -/
def handles (m : Index κ) (inKey : κ → List Dangling) (place : Nat → Dangling) : List Dangling :=
  m.entries.flatMap fun e => place e.2 :: inKey e.1

/-- An index after a table of `n` entries has become one of `n'` entries: the same, or with a note
of the entry that was added, for a key among `keys` that led nowhere. -/
inductive Edit (keys : List κ) (n n' : Nat) (m : Index κ) : Index κ → Prop where
  | same : Edit keys n n' m m
  | note (k : κ) : k ∈ keys → m.place? k = none → n' = n + 1 → Edit keys n n' m (m.note k n)

variable {m m' m'' : Index κ} {keys : List κ} {n n' : Nat}

theorem Extends.refl (m : Index κ) : m.Extends m :=
  fun _ _ hfound => hfound

theorem Extends.trans (h : m.Extends m') (h' : m'.Extends m'') : m.Extends m'' :=
  fun k i hfound => h' k i (h k i hfound)

/-- A note for a key that led nowhere changes nothing for the others. -/
theorem extends_note {k : κ} (h : m.place? k = none) (i : Nat) : m.Extends (m.note k i) := by
  intro j place hfound
  have hne : j ≠ k := by
    rintro rfl
    cases h.symm.trans hfound
  rw [place?_note, if_neg hne, hfound]

/-- Where the index leads, there it still leads after an edit. -/
theorem Edit.keeps (h : Edit keys n n' m m') : m.Extends m' := by
  cases h with
  | same => exact Extends.refl m
  | note k _ habsent _ => exact extends_note habsent n

/-- Without a key to note, an edit changes nothing. -/
theorem Edit.eq_of_nil (h : Edit [] n n' m m') : m' = m := by
  cases h with
  | same => rfl
  | note k hlisted _ _ => cases hlisted

/-- Where an index leads after an edit, there it led before, or the key is new and so is the
entry. -/
theorem Edit.place_cases (h : Edit keys n n' m m') {k : κ} {i : Nat}
    (hfound : m'.place? k = some i) :
    m.place? k = some i ∨ k ∈ keys ∧ m.place? k = none ∧ i = n ∧ n' = n + 1 := by
  cases h with
  | same => exact .inl hfound
  | note j hlisted habsent hgrown =>
    rw [place?_note] at hfound
    split at hfound
    · next heq =>
      subst heq
      exact .inr ⟨hlisted, habsent, (Option.some.inj hfound).symm, hgrown⟩
    · exact .inl hfound

/-- Only the handles of the new key are stored, beside those stored before and the new place. -/
theorem Edit.handles (h : Edit keys n n' m m') {inKey : κ → List Dangling} {place : Nat → Dangling}
    {d : Dangling} (hmem : d ∈ m'.handles inKey place) :
    d ∈ m.handles inKey place ∨ d ∈ keys.flatMap inKey ∨ d = place n ∧ n < n' := by
  cases h with
  | same => exact .inl hmem
  | note k hlisted _ hgrown =>
    rcases List.mem_append.mp hmem with hfirst | hlater
    · rcases List.mem_cons.mp hfirst with rfl | hinside
      · exact .inr (.inr ⟨rfl, hgrown ▸ Nat.lt_succ_self n⟩)
      · exact .inr (.inl (List.mem_flatMap.mpr ⟨k, hlisted, hinside⟩))
    · exact .inl hlater

/-- The place that an index leads to is among its handles. -/
theorem mem_handles {inKey : κ → List Dangling} {place : Nat → Dangling} {k : κ} {i : Nat}
    (hfound : m.place? k = some i) : place i ∈ m.handles inKey place :=
  List.mem_flatMap.mpr ⟨(k, i), mem_entries_of_place? hfound, List.mem_cons_self⟩

end Index

/-! ### Named slots -/

/-- The types in a map. -/
def Fields.types (m : Fields) : List Ty :=
  m.map (·.2)

theorem Fields.mem_types {m : Fields} {name : String} {t : Ty} (h : (name, t) ∈ m) : t ∈ m.types :=
  List.mem_map.mpr ⟨(name, t), h, rfl⟩

/-- A widened map has the types that it had, the new one, or the join of the new one with an old
one. -/
theorem Fields.types_widen {m : Fields} {name : String} {t u : Ty}
    (h : u ∈ (Fields.widen m name t).types) : Brought m.types [t] u := by
  obtain ⟨e, hmem, rfl⟩ := List.mem_map.mp h
  rcases Fields.mem_widen hmem with hmem | heq | ⟨old, hmem, heq⟩
  · exact Or.inl (Fields.mem_types hmem)
  · exact Or.inr (Or.inl (List.mem_singleton.mpr heq))
  · exact Or.inr (Or.inr ⟨old, Fields.mem_types hmem, t, List.mem_singleton_self t, heq⟩)

/-! ### The environment -/

/-- A scope stores the types of its bindings.  It is identified by its place in the tree of scopes
and by the literal that it is an activation of. -/
def Scope.entry : Entry Scope where
  Key := Option ScopeId × Option NodeId
  key s := (s.parent, s.owner)
  types s := s.bindings.types
  handles s := s.parent.toList.map .scope

/-- The handles in the key of an activation. -/
def ActivationKey.handles (key : ActivationKey) : List Dangling :=
  [.closure key.closure, .scope key.caller]

namespace Env

/-- The handles in the table of scopes and in its index. -/
def handles (e : Env) : List Dangling :=
  Scope.entry.handlesIn e.scopes ++ e.activations.handles ActivationKey.handles .scope

/-- A write to the environment. -/
inductive Write where
  | bind (id : ScopeId) (name : String) (t : Ty)
  | enter (key : ActivationKey) (parent : ScopeId) (owner : Option NodeId)

namespace Write

/-- The environment after a write. -/
def apply : Write → Env → Env
  | bind id name t => after (Env.bind id name t)
  | enter key parent owner => after (Env.enter key parent owner)

/-- The types that a write brings. -/
def types : Write → List Ty
  | bind _ _ t => [t]
  | enter _ _ _ => []

/-- The handles that a write stores. -/
def handles : Write → List Dangling
  | bind _ _ _ => []
  | enter key parent _ => .scope parent :: key.handles

/-- The identity of the scope that a write adds. -/
def keys : Write → List Scope.entry.Key
  | bind _ _ _ => []
  | enter _ parent owner => [(some parent, owner)]

/-- The activation whose scope a write adds. -/
def places : Write → List ActivationKey
  | bind _ _ _ => []
  | enter key _ _ => [key]

end Write

/-- A binding leaves the environment alone, unless it widens a slot of an existing scope. -/
theorem after_bind (e : Env) (id : ScopeId) (name : String) (t : Ty) :
    after (bind id name t) e = e ∨
      ∃ s, e.scopes[id]? = some s ∧ Fields.widens s.bindings name t = true ∧
        after (bind id name t) e = e.setBindings id (Fields.widen s.bindings name t) := by
  rw [after, bind_apply]
  cases e.scopes[id]? with
  | none => exact Or.inl rfl
  | some s =>
    dsimp only
    cases hwidens : Fields.widens s.bindings name t with
    | false => exact Or.inl rfl
    | true => exact Or.inr ⟨s, rfl, hwidens, rfl⟩

/-- An activation scope is added only when the key led nowhere. -/
theorem after_enter (e : Env) (key : ActivationKey) (parent : ScopeId) (owner : Option NodeId) :
    after (enter key parent owner) e = e ∨
      e.activations.place? key = none ∧ after (enter key parent owner) e =
        { e with
          scopes := e.scopes.push ⟨some parent, owner, []⟩
          activations := e.activations.note key e.scopes.size } := by
  rw [after, enter_apply]
  cases e.activations.place? key with
  | none => exact Or.inr ⟨rfl, rfl⟩
  | some id => exact Or.inl rfl

/-- Every write to the environment is an edit of the scopes. -/
theorem Write.edit (w : Write) (e : Env) :
    Scope.entry.Edit w.keys w.types w.handles e.scopes (w.apply e).scopes := by
  cases w with
  | bind id name t =>
    rcases after_bind e id name t with hsame | ⟨s, hfound, -, heq⟩
    · rw [apply, hsame]
      exact .same
    · rw [apply, heq]
      refine .modify id (fun s' : Scope => { s' with bindings := Fields.widen s.bindings name t })
        fun x hfoundX => ⟨rfl, fun u hmem => ?_, List.subset_append_left _ _⟩
      rw [hfound] at hfoundX
      cases hfoundX
      exact Fields.types_widen hmem
  | enter key parent owner =>
    rcases after_enter e key parent owner with hsame | ⟨-, heq⟩
    · rw [apply, hsame]
      exact .same
    · rw [apply, heq]
      exact .push _ (List.mem_singleton_self _) (List.nil_subset _)
        (List.cons_subset_cons _ (List.nil_subset _))

/-- A write notes the scope that it adds. -/
theorem Write.index (w : Write) (e : Env) :
    Index.Edit w.places e.scopes.size (w.apply e).scopes.size e.activations
      (w.apply e).activations := by
  cases w with
  | bind id name t =>
    rcases after_bind e id name t with hsame | ⟨s, -, -, heq⟩
    · rw [apply, hsame]
      exact .same
    · rw [apply, heq]
      exact .same
  | enter key parent owner =>
    rcases after_enter e key parent owner with hsame | ⟨habsent, heq⟩
    · rw [apply, hsame]
      exact .same
    · rw [apply, heq]
      exact .note key (List.mem_singleton_self key) habsent (Array.size_push _)

/-- A write stores only the handles that it brings, beside those stored before and that of the scope
that it adds. -/
theorem Write.handles_cases (w : Write) (e : Env) {d : Dangling} (h : d ∈ (w.apply e).handles) :
    d ∈ e.handles ∨ d ∈ w.handles ∨ ∃ id < (w.apply e).scopes.size, d = .scope id := by
  rcases List.mem_append.mp h with hmem | hmem
  · rcases (w.edit e).handles hmem with hstored | hbrought
    · exact .inl (List.mem_append_left _ hstored)
    · exact .inr (.inl hbrought)
  · rcases (w.index e).handles hmem with hstored | hbrought | ⟨rfl, hgrown⟩
    · exact .inl (List.mem_append_right _ hstored)
    · refine .inr (.inl ?_)
      cases w with
      | bind id name t => cases hbrought
      | enter key parent owner =>
        have hinKey : d ∈ key.handles := by simpa [places] using hbrought
        exact List.mem_cons_of_mem _ hinKey
    · exact .inr (.inr ⟨_, hgrown, rfl⟩)

end Env

/-! ### The closure table -/

/-- A closure stores the types of its declared signature.  It is identified by its literal and its
scope. -/
def Closure.entry : Entry Closure where
  Key := Func × ScopeId
  key c := (c.func, c.scope)
  types c := c.ret :: c.params
  handles c := [.scope c.scope]

namespace Closures

/-- The handles in the table of closures and in its index. -/
def handles (cs : Closures) : List Dangling :=
  Closure.entry.handlesIn cs.table ++ cs.bySite.handles (fun k => [.scope k.2]) .closure

/-- A write to the table of closures. -/
inductive Write where
  | capture (scope : ScopeId) (f : Func)
  | record (id : ClosureId) (args : List Ty) (ret : Ty)
  | mark (id : ClosureId)

namespace Write

/-- The table after a write. -/
def apply : Write → Closures → Closures
  | capture scope f => after (captureId scope f)
  | record id args ret => after (recordCall id args ret)
  | mark id => after (markSelfReferential id)

/-- The types that a write brings. -/
def types : Write → List Ty
  | capture _ _ => [.never]
  | record _ args ret => .undefined :: ret :: args
  | mark _ => []

/-- The handles that a write stores. -/
def handles : Write → List Dangling
  | capture scope _ => [.scope scope]
  | record _ _ _ => []
  | mark _ => []

/-- The identity of the closure that a write adds. -/
def keys : Write → List Closure.entry.Key
  | capture scope f => [(f, scope)]
  | record _ _ _ => []
  | mark _ => []

/-- The literal and the scope whose closure a write adds. -/
def places : Write → List (NodeId × ScopeId)
  | capture scope f => [(f.id, scope)]
  | record _ _ _ => []
  | mark _ => []

end Write

/-- A closure is added only when literal and scope led nowhere. -/
theorem after_captureId (cs : Closures) (scope : ScopeId) (f : Func) :
    after (captureId scope f) cs = cs ∨
      cs.bySite.place? (f.id, scope) = none ∧ after (captureId scope f) cs =
        { table := cs.table.push
            ⟨f, scope, List.replicate f.params.length .never, .never, 0, false⟩
          bySite := cs.bySite.note (f.id, scope) cs.table.size } := by
  rw [after, captureId_apply]
  cases cs.bySite.place? (f.id, scope) with
  | none => exact Or.inr ⟨rfl, rfl⟩
  | some id => exact Or.inl rfl

/-- A recorded call widens the signature of its closure. -/
theorem after_recordCall (cs : Closures) (id : ClosureId) (args : List Ty) (ret : Ty) :
    after (recordCall id args ret) cs = cs ∨
      after (recordCall id args ret) cs =
        { cs with table := cs.table.modify id fun c =>
          { c with
            params := joinArgs c.params args
            ret := c.ret.join ret
            calls := c.calls + 1 } } := by
  rw [after, recordCall_apply]
  cases cs.table[id]? with
  | none => exact Or.inl rfl
  | some c => exact Or.inr rfl

theorem after_markSelfReferential (cs : Closures) (id : ClosureId) :
    after (markSelfReferential id) cs = cs ∨
      after (markSelfReferential id) cs =
        { cs with table := cs.table.modify id fun c => { c with selfReferential := true } } := by
  rw [after, markSelfReferential_apply]
  cases cs.table[id]? with
  | none => exact Or.inl rfl
  | some c => exact Or.inr rfl

namespace Write

/-- Every write to the table of closures is an edit of it. -/
theorem edit (w : Write) (cs : Closures) :
    Closure.entry.Edit w.keys w.types w.handles cs.table (w.apply cs).table := by
  cases w with
  | capture scope f =>
    rcases after_captureId cs scope f with hsame | ⟨-, heq⟩
    · rw [apply, hsame]
      exact .same
    · rw [apply, heq]
      refine .push _ (List.mem_singleton_self _) (fun t hmem => ?_) (List.Subset.refl _)
      rcases List.mem_cons.mp hmem with rfl | hmem
      · exact List.mem_singleton_self _
      · exact List.mem_singleton.mpr (List.eq_of_mem_replicate hmem)
  | record id args ret =>
    rcases after_recordCall cs id args ret with hsame | heq
    · rw [apply, hsame]
      exact .same
    · rw [apply, heq]
      dsimp only
      refine .modify id _ fun c _ => ⟨rfl, fun t hmem => ?_, List.subset_append_left _ _⟩
      -- the new types are joins of declared types with the given ones, or with `undefined`
      right
      right
      rcases List.mem_cons.mp hmem with rfl | hmem
      · exact ⟨c.ret, List.mem_cons_self, ret, List.mem_cons_of_mem _ List.mem_cons_self, rfl⟩
      · obtain ⟨p, hinside, a, hgiven, rfl⟩ := mem_joinArgs hmem
        refine ⟨p, List.mem_cons_of_mem _ hinside, a, ?_, rfl⟩
        rcases hgiven with hmem | rfl
        · exact List.mem_cons_of_mem _ (List.mem_cons_of_mem _ hmem)
        · exact List.mem_cons_self
  | mark id =>
    rcases after_markSelfReferential cs id with hsame | heq
    · rw [apply, hsame]
      exact .same
    · rw [apply, heq]
      dsimp only
      exact .modify id _ fun c _ => ⟨rfl, fun t hmem => Or.inl hmem, List.subset_append_left _ _⟩

/-- A write notes the closure that it adds. -/
theorem index (w : Write) (cs : Closures) :
    Index.Edit w.places cs.table.size (w.apply cs).table.size cs.bySite (w.apply cs).bySite := by
  cases w with
  | capture scope f =>
    rcases after_captureId cs scope f with hsame | ⟨habsent, heq⟩
    · rw [apply, hsame]
      exact .same
    · rw [apply, heq]
      exact .note _ (List.mem_singleton_self _) habsent (Array.size_push _)
  | record id args ret =>
    rcases after_recordCall cs id args ret with hsame | heq
    · rw [apply, hsame]
      exact .same
    · rw [apply, heq]
      exact .same
  | mark id =>
    rcases after_markSelfReferential cs id with hsame | heq
    · rw [apply, hsame]
      exact .same
    · rw [apply, heq]
      exact .same

/-- A write stores only the handles that it brings, beside those stored before and that of the
closure that it adds. -/
theorem handles_cases (w : Write) (cs : Closures) {d : Dangling} (h : d ∈ (w.apply cs).handles) :
    d ∈ cs.handles ∨ d ∈ w.handles ∨ ∃ id < (w.apply cs).table.size, d = .closure id := by
  rcases List.mem_append.mp h with hmem | hmem
  · rcases (w.edit cs).handles hmem with hstored | hbrought
    · exact .inl (List.mem_append_left _ hstored)
    · exact .inr (.inl hbrought)
  · rcases (w.index cs).handles hmem with hstored | hbrought | ⟨rfl, hgrown⟩
    · exact .inl (List.mem_append_right _ hstored)
    · refine .inr (.inl ?_)
      cases w with
      | capture scope f => simpa [places, handles] using hbrought
      | record id args ret => cases hbrought
      | mark id => cases hbrought
    · exact .inr (.inr ⟨_, hgrown, rfl⟩)

end Write

end Closures

/-! ### The heap -/

/-- The handles in an allocation site. -/
def AllocSite.handles (site : AllocSite) : List Dangling :=
  .scope site.scope :: site.ctor.toList.map .ctor

/-- A cell stores the types of its fields.  It is identified by its allocation site. -/
def Cell.entry : Entry Cell where
  Key := AllocSite
  key c := c.site
  types c := c.fields.types
  handles c := c.site.handles

namespace Heap

/-- The handles in the table of cells and in its index. -/
def handles (h : Heap) : List Dangling :=
  Cell.entry.handlesIn h.cells ++ h.bySite.handles AllocSite.handles .cell

/-- A write to the heap. -/
inductive Write where
  | alloc (site : AllocSite)
  | field (id : CellId) (name : String) (t : Ty)

namespace Write

/-- The heap after a write. -/
def apply : Write → Heap → Heap
  | alloc site => after (cellFor site)
  | field id name t => after (writeCell id name t)

/-- The types that a write brings. -/
def types : Write → List Ty
  | alloc _ => []
  | field _ _ t => [t]

/-- The handles that a write stores. -/
def handles : Write → List Dangling
  | alloc site => site.handles
  | field _ _ _ => []

/-- The identity of the cell that a write adds. -/
def keys : Write → List Cell.entry.Key
  | alloc site => [site]
  | field _ _ _ => []

/-- The allocation site whose cell a write adds. -/
def places : Write → List AllocSite
  | alloc site => [site]
  | field _ _ _ => []

end Write

/-- A cell is added only when the site led nowhere. -/
theorem after_cellFor (h : Heap) (site : AllocSite) :
    after (cellFor site) h = h ∨
      h.bySite.place? site = none ∧ after (cellFor site) h =
        { cells := h.cells.push ⟨site, []⟩
          bySite := h.bySite.note site h.cells.size
          changes := h.changes + 1 } := by
  rw [after, cellFor_apply]
  cases h.bySite.place? site with
  | none => exact Or.inr ⟨rfl, rfl⟩
  | some id => exact Or.inl rfl

/-- A write to a cell leaves the heap alone, unless it widens a slot of an existing cell. -/
theorem after_writeCell (h : Heap) (id : CellId) (name : String) (t : Ty) :
    after (writeCell id name t) h = h ∨
      ∃ c, h.cells[id]? = some c ∧ Fields.widens c.fields name t = true ∧
        after (writeCell id name t) h =
          { h with
            cells := h.cells.modify id fun c => { c with fields := Fields.widen c.fields name t }
            changes := h.changes + 1 } := by
  rw [after, writeCell_apply]
  cases h.cells[id]? with
  | none => exact Or.inl rfl
  | some c =>
    dsimp only
    cases hwidens : Fields.widens c.fields name t with
    | false => exact Or.inl rfl
    | true => exact Or.inr ⟨c, rfl, hwidens, rfl⟩

/-- Every write to the heap is an edit of the cells. -/
theorem Write.edit (w : Write) (h : Heap) :
    Cell.entry.Edit w.keys w.types w.handles h.cells (w.apply h).cells := by
  cases w with
  | alloc site =>
    rcases after_cellFor h site with hsame | ⟨-, heq⟩
    · rw [apply, hsame]
      exact .same
    · rw [apply, heq]
      exact .push _ (List.mem_singleton_self _) (List.nil_subset _) (List.Subset.refl _)
  | field id name t =>
    rcases after_writeCell h id name t with hsame | ⟨c, -, -, heq⟩
    · rw [apply, hsame]
      exact .same
    · rw [apply, heq]
      dsimp only
      apply Entry.Edit.modify
      intro x _
      exact ⟨rfl, fun u hmem => Fields.types_widen hmem, List.subset_append_left _ _⟩

/-- A write notes the cell that it adds. -/
theorem Write.index (w : Write) (h : Heap) :
    Index.Edit w.places h.cells.size (w.apply h).cells.size h.bySite (w.apply h).bySite := by
  cases w with
  | alloc site =>
    rcases after_cellFor h site with hsame | ⟨habsent, heq⟩
    · rw [apply, hsame]
      exact .same
    · rw [apply, heq]
      exact .note _ (List.mem_singleton_self _) habsent (Array.size_push _)
  | field id name t =>
    rcases after_writeCell h id name t with hsame | ⟨c, -, -, heq⟩
    · rw [apply, hsame]
      exact .same
    · rw [apply, heq]
      exact .same

/-- A write stores only the handles that it brings, beside those stored before and that of the cell
that it adds. -/
theorem Write.handles_cases (w : Write) (h : Heap) {d : Dangling}
    (hmem : d ∈ (w.apply h).handles) :
    d ∈ h.handles ∨ d ∈ w.handles ∨ ∃ id < (w.apply h).cells.size, d = .cell id := by
  rcases List.mem_append.mp hmem with hmem | hmem
  · rcases (w.edit h).handles hmem with hstored | hbrought
    · exact .inl (List.mem_append_left _ hstored)
    · exact .inr (.inl hbrought)
  · rcases (w.index h).handles hmem with hstored | hbrought | ⟨rfl, hgrown⟩
    · exact .inl (List.mem_append_right _ hstored)
    · refine .inr (.inl ?_)
      cases w with
      | alloc site => simpa [places, handles] using hbrought
      | field id name t => cases hbrought
    · exact .inr (.inr ⟨_, hgrown, rfl⟩)

end Heap

/-! ### The prototype graph -/

/-- A constructor stores the types of its methods and of its own fields.  It is identified by its
name and its closure. -/
def Ctor.entry : Entry Ctor where
  Key := Option String × Option ClosureId
  key c := (c.name, c.closure)
  types c := c.methods.types ++ c.ownFields.types
  handles c := c.closure.toList.map .closure ++ (c.parents ++ c.shares).map .ctor

namespace Protos

/-- The handles in the table of constructors and in its index. -/
def handles (g : Protos) : List Dangling :=
  Ctor.entry.handlesIn g.ctors ++ g.byClosure.handles (fun k => [.closure k]) .ctor

/-- A write to the prototype graph. -/
inductive Write where
  | ctor (closure : ClosureId) (name : Option String)
  | method (id : CtorId) (name : String) (t : Ty)
  | ownField (id : CtorId) (name : String) (t : Ty)
  | parent (id parent : CtorId)
  | share (id other : CtorId)
  | analysed (id : CtorId)

namespace Write

/-- The graph after a write. -/
def apply : Write → Protos → Protos
  | ctor closure name => after (ctorFor closure name)
  | method id name t => after (defineMethod id name t)
  | ownField id name t => after (recordOwnField id name t)
  | parent id p => after (addParent id p)
  | share id other => after (Protos.share id other)
  | analysed id => after (markAnalysed id)

/-- The types that a write brings. -/
def types : Write → List Ty
  | method _ _ t => [t]
  | ownField _ _ t => [t]
  | _ => []

/-- The handles that a write stores. -/
def handles : Write → List Dangling
  | ctor closure _ => [.closure closure]
  | parent _ p => [.ctor p]
  | share _ other => [.ctor other]
  | _ => []

/-- The identity of the constructor that a write adds. -/
def keys : Write → List Ctor.entry.Key
  | ctor closure name => [(name, some closure)]
  | _ => []

/-- The closure whose constructor a write adds. -/
def places : Write → List ClosureId
  | ctor closure _ => [closure]
  | _ => []

end Write

/-- A constructor is added only when the closure led nowhere. -/
theorem after_ctorFor (g : Protos) (closure : ClosureId) (name : Option String) :
    after (ctorFor closure name) g = g ∨
      g.find? closure = none ∧ after (ctorFor closure name) g =
        { ctors := g.ctors.push ⟨name, some closure, [], [], [], [], false⟩
          byClosure := g.byClosure.note closure g.ctors.size
          changes := g.changes + 1 } := by
  rw [after, ctorFor_apply]
  cases g.find? closure with
  | none => exact Or.inr ⟨rfl, rfl⟩
  | some id => exact Or.inl rfl

/-- A constructor is altered, and the change counted, only when it is there and changes. -/
theorem after_alter (g : Protos) (id : CtorId) (changed : Ctor → Bool) (f : Ctor → Ctor) :
    after (alter id changed f) g = g ∨
      ∃ c, g.ctors[id]? = some c ∧ changed c = true ∧
        after (alter id changed f) g =
          { g with ctors := g.ctors.modify id f, changes := g.changes + 1 } := by
  rw [after, alter_apply]
  cases g.ctors[id]? with
  | none => exact Or.inl rfl
  | some c =>
    dsimp only
    cases hchanges : changed c with
    | false => exact Or.inl rfl
    | true => exact Or.inr ⟨c, rfl, hchanges, rfl⟩

/-- Sharing a table leaves the graph alone, or alters the constructor by one more share. -/
theorem after_share (g : Protos) (id other : CtorId) :
    after (share id other) g = g ∨
      after (share id other) g =
        after (alter id (fun c => !c.shares.contains other)
          fun c => { c with shares := OrdSet.insert other c.shares }) g := by
  unfold after
  rw [share_apply]
  by_cases hsame : id = other
  · rw [if_pos hsame]
    exact Or.inl rfl
  · rw [if_neg hsame]
    exact Or.inr rfl

theorem after_markAnalysed (g : Protos) (id : CtorId) :
    after (markAnalysed id) g = g ∨
      after (markAnalysed id) g =
        { g with ctors := g.ctors.modify id fun c => { c with analysed := true } } := by
  rw [after, markAnalysed_apply]
  cases g.ctors[id]? with
  | none => exact Or.inl rfl
  | some c => exact Or.inr rfl

/-- Altering a constructor is an edit when what is put in its place differs by what is brought. -/
theorem edit_alter (g : Protos) {id : CtorId} {changed : Ctor → Bool} {f : Ctor → Ctor}
    {keys : List Ctor.entry.Key} {news : List Ty} {held : List Dangling}
    (halters : ∀ c, Ctor.entry.key (f c) = Ctor.entry.key c ∧
      (∀ t ∈ Ctor.entry.types (f c), Brought (Ctor.entry.types c) news t) ∧
        Ctor.entry.handles (f c) ⊆ Ctor.entry.handles c ++ held) :
    Ctor.entry.Edit keys news held g.ctors (after (alter id changed f) g).ctors := by
  rcases after_alter g id changed f with hsame | ⟨c, -, -, heq⟩
  · rw [hsame]
    exact .same
  · rw [heq]
    exact .modify id f fun c _ => halters c

/-- Every write to the prototype graph is an edit of the constructors. -/
theorem Write.edit (w : Write) (g : Protos) :
    Ctor.entry.Edit w.keys w.types w.handles g.ctors (w.apply g).ctors := by
  cases w with
  | ctor closure name =>
    rcases after_ctorFor g closure name with hsame | ⟨-, heq⟩
    · rw [apply, hsame]
      exact .same
    · rw [apply, heq]
      exact .push _ (List.mem_singleton_self _) (List.nil_subset _) (List.Subset.refl _)
  | method id name t =>
    refine edit_alter g fun c => ⟨rfl, fun u hmem => ?_, List.subset_append_left _ _⟩
    rcases List.mem_append.mp hmem with hmem | hmem
    · exact (Fields.types_widen hmem).mono (List.subset_append_left _ _)
    · exact Or.inl (List.mem_append_right _ hmem)
  | ownField id name t =>
    refine edit_alter g fun c => ⟨rfl, fun u hmem => ?_, List.subset_append_left _ _⟩
    rcases List.mem_append.mp hmem with hmem | hmem
    · exact Or.inl (List.mem_append_left _ hmem)
    · exact (Fields.types_widen hmem).mono (List.subset_append_right _ _)
  | parent id p =>
    refine edit_alter g fun c => ⟨rfl, fun u hmem => Or.inl hmem, fun d hmem => ?_⟩
    simp only [Ctor.entry, handles, List.mem_append, List.mem_map, OrdSet.mem_insert,
      List.mem_singleton] at hmem ⊢
    grind
  | share id other =>
    rw [apply]
    rcases after_share g id other with hsame | heq
    · rw [hsame]
      exact .same
    · rw [heq]
      refine edit_alter g fun c => ⟨rfl, fun u hmem => Or.inl hmem, fun d hmem => ?_⟩
      simp only [Ctor.entry, handles, List.mem_append, List.mem_map, OrdSet.mem_insert,
        List.mem_singleton] at hmem ⊢
      grind
  | analysed id =>
    rcases after_markAnalysed g id with hsame | heq
    · rw [apply, hsame]
      exact .same
    · rw [apply, heq]
      dsimp only
      apply Entry.Edit.modify
      intro c _
      exact ⟨rfl, fun u hmem => Or.inl hmem, List.subset_append_left _ _⟩

/-- Altering a constructor leaves the index as it is. -/
theorem byClosure_alter (g : Protos) (id : CtorId) (changed : Ctor → Bool) (f : Ctor → Ctor) :
    (after (alter id changed f) g).byClosure = g.byClosure := by
  rcases after_alter g id changed f with hsame | ⟨c, -, -, heq⟩
  · rw [hsame]
  · rw [heq]

/-- A write notes the constructor that it adds. -/
theorem Write.index (w : Write) (g : Protos) :
    Index.Edit w.places g.ctors.size (w.apply g).ctors.size g.byClosure (w.apply g).byClosure := by
  have hunnoted {keys : List ClosureId} {n n' : Nat} {m : Index ClosureId} (h : m = g.byClosure) :
      Index.Edit keys n n' g.byClosure m := h ▸ .same
  cases w with
  | ctor closure name =>
    rcases after_ctorFor g closure name with hsame | ⟨habsent, heq⟩
    · rw [apply, hsame]
      exact .same
    · rw [apply, heq]
      exact .note _ (List.mem_singleton_self _) habsent (Array.size_push _)
  | method id name t => exact hunnoted (byClosure_alter g id _ _)
  | ownField id name t => exact hunnoted (byClosure_alter g id _ _)
  | parent id p => exact hunnoted (byClosure_alter g id _ _)
  | share id other =>
    rcases after_share g id other with hsame | heq
    · exact hunnoted (by rw [apply, hsame])
    · exact hunnoted (by rw [apply, heq, byClosure_alter])
  | analysed id =>
    rcases after_markAnalysed g id with hsame | heq
    · exact hunnoted (by rw [apply, hsame])
    · exact hunnoted (by rw [apply, heq])

/-- A write stores only the handles that it brings, beside those stored before and that of the
constructor that it adds. -/
theorem Write.handles_cases (w : Write) (g : Protos) {d : Dangling}
    (h : d ∈ (w.apply g).handles) :
    d ∈ g.handles ∨ d ∈ w.handles ∨ ∃ id < (w.apply g).ctors.size, d = .ctor id := by
  rcases List.mem_append.mp h with hmem | hmem
  · rcases (w.edit g).handles hmem with hstored | hbrought
    · exact .inl (List.mem_append_left _ hstored)
    · exact .inr (.inl hbrought)
  · rcases (w.index g).handles hmem with hstored | hbrought | ⟨rfl, hgrown⟩
    · exact .inl (List.mem_append_right _ hstored)
    · refine .inr (.inl ?_)
      cases w with
      | ctor closure name => simpa [places, handles] using hbrought
      | _ => cases hbrought
    · exact .inr (.inr ⟨_, hgrown, rfl⟩)

end Protos

end TypeFlow
