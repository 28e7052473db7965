import Mathlib
import TypeFlow.Proofs.Store.Writes

/-!
# What lookups in the tables find

Every lookup along the scopes, through the cells of a value or along the prototype chain finds types
that are in the tables, or joins of them; and it succeeds as soon as every link leads to an entry.

## Main Definitions

* `Env.Linked`, `Protos.Linked` - all links inside a table lead to entries of it

## Main Statements

* `Env.get?_mem`, `Env.get?_total` - looking up a variable
* `Heap.lookupField_good`, `Heap.lookupField_total` - looking up a field
* `Protos.findMethod_good`, `Protos.findMethod_total` - looking up a method
* `Protos.ancestors_total`, `Protos.instanceFields_total` - collecting along the prototype chain
-/

namespace TypeFlow

/-! ### Variables -/

namespace Env

/-- The parent of every scope is a scope. -/
def Linked (e : Env) : Prop :=
  ∀ (i : Nat) s p, e.scopes[i]? = some s → s.parent = some p → p < e.scopes.size

variable {e : Env}

/-- A scope that is read is an entry of the table. -/
theorem scope_eq_ok {id : ScopeId} {s : Scope} (h : e.scope id = .ok s) :
    e.scopes[id]? = some s := by
  unfold scope at h
  split at h
  · next hfound =>
    cases h
    exact hfound
  · cases h

/-- Every scope of the table can be read. -/
theorem scope_total {id : ScopeId} (h : id < e.scopes.size) :
    ∃ s, e.scopes[id]? = some s ∧ e.scope id = .ok s := by
  have hfound := Array.getElem?_eq_getElem h
  exact ⟨e.scopes[id], hfound, by rw [scope, hfound]⟩

/-- As parents are scopes, the walk along them meets no missing scope, however many steps it
takes. -/
theorem resolveIn_total (hlinked : e.Linked) (name : String) (steps : Nat) {id : ScopeId}
    (h : id < e.scopes.size) :
    ∃ r, e.resolveIn name steps id = .ok r ∧ ∀ owner, r = some owner → owner < e.scopes.size := by
  induction steps generalizing id with
  | zero => exact ⟨none, rfl, nofun⟩
  | succ steps ih =>
    obtain ⟨s, hfound, heq⟩ := scope_total h
    unfold resolveIn
    rw [heq]
    dsimp only
    split
    · exact ⟨some id, rfl, fun owner hsame => Option.some.inj hsame ▸ h⟩
    · cases hlink : s.parent with
      | none => exact ⟨none, rfl, nofun⟩
      | some p => exact ih (hlinked id s p hfound hlink)

/-- A name can be looked for from every scope, and where it is found there is a scope. -/
theorem resolve_total (hlinked : e.Linked) (name : String) {id : ScopeId}
    (h : id < e.scopes.size) :
    ∃ r, e.resolve id name = .ok r ∧ ∀ owner, r = some owner → owner < e.scopes.size :=
  resolveIn_total hlinked name _ h

/-- The scope that a name resolves to binds it. -/
theorem resolveIn_binds {name : String} {steps : Nat} {id owner : ScopeId}
    (h : e.resolveIn name steps id = .ok (some owner)) :
    ∃ x, e.scopes[owner]? = some x ∧ OrdMap.contains x.bindings name = true := by
  induction steps generalizing id with
  | zero => cases h
  | succ steps ih =>
    rw [resolveIn, scope] at h
    cases hfound : e.scopes[id]? with
    | none => rw [hfound] at h; cases h
    | some x =>
      rw [hfound] at h
      dsimp only at h
      split at h
      · next hbound =>
        cases h
        exact ⟨x, hfound, hbound⟩
      · split at h
        · cases h
        · exact ih h

/-- The scope that a name is resolved to has a binding of the name. -/
theorem resolve_binds {name : String} {id owner : ScopeId}
    (h : e.resolve id name = .ok (some owner)) :
    ∃ x, e.scopes[owner]? = some x ∧ OrdMap.contains x.bindings name = true :=
  resolveIn_binds h

/-- A variable is read in the scope that its name is resolved to. -/
theorem get?_eq (e : Env) (id : ScopeId) (name : String) :
    e.get? id name =
      match e.resolve id name with
      | .error d => .error d
      | .ok none => .ok none
      | .ok (some owner) =>
        match e.scope owner with
        | .error d => .error d
        | .ok s => .ok (OrdMap.get? s.bindings name) := by
  unfold get?
  rcases e.resolve id name with d | _ | owner
  · rfl
  · rfl
  · change (e.scope owner >>= fun s => pure (OrdMap.get? s.bindings name)) =
      match e.scope owner with
      | .error d => .error d
      | .ok s => .ok (OrdMap.get? s.bindings name)
    cases e.scope owner <;> rfl

/-- A variable can be read from every scope. -/
theorem get?_total (hlinked : e.Linked) (name : String) {id : ScopeId} (h : id < e.scopes.size) :
    ∃ r, e.get? id name = .ok r := by
  obtain ⟨r, heq, hinside⟩ := resolve_total hlinked name h
  rw [get?_eq, heq]
  cases r with
  | none => exact ⟨none, rfl⟩
  | some owner =>
    obtain ⟨s, -, hfound⟩ := scope_total (hinside owner rfl)
    exact ⟨OrdMap.get? s.bindings name, by simp only [hfound]⟩

/-- A type that is found for a variable is the type of a binding. -/
theorem get?_mem {id : ScopeId} {name : String} {t : Ty} (h : e.get? id name = .ok (some t)) :
    t ∈ Scope.entry.typesIn e.scopes := by
  rw [get?_eq] at h
  split at h
  · cases h
  · cases h
  · split at h
    · cases h
    · next s hfound =>
      have heq : OrdMap.get? s.bindings name = some t := Except.ok.inj h
      exact Entry.types_subset (scope_eq_ok hfound) (Fields.mem_types (OrdMap.mem_of_get? heq))

end Env

/-! ### Closures -/

theorem Closures.closure_eq_ok {cs : Closures} {id : ClosureId} {c : Closure}
    (h : cs.closure id = .ok c) : cs.table[id]? = some c := by
  unfold closure at h
  split at h
  · next hfound =>
    cases h
    exact hfound
  · cases h

/-- Every closure of the table can be read. -/
theorem Closures.closure_total {cs : Closures} {id : ClosureId} (h : id < cs.table.size) :
    ∃ c, cs.table[id]? = some c ∧ cs.closure id = .ok c := by
  have hfound := Array.getElem?_eq_getElem h
  exact ⟨cs.table[id], hfound, by rw [closure, hfound]⟩

/-! ### Fields -/

namespace Heap

variable {h : Heap} {G : Ty → Prop}

theorem cell_eq_ok {id : CellId} {c : Cell} (heq : h.cell id = .ok c) : h.cells[id]? = some c := by
  unfold cell at heq
  split at heq
  · next hfound =>
    cases heq
    exact hfound
  · cases heq

/-- Every cell of the table can be read. -/
theorem cell_total {id : CellId} (hinside : id < h.cells.size) :
    ∃ c, h.cells[id]? = some c ∧ h.cell id = .ok c := by
  have hfound := Array.getElem?_eq_getElem hinside
  exact ⟨h.cells[id], hfound, by rw [cell, hfound]⟩

/-- What holds of both types that were found, and of joins, holds of their join. -/
theorem joinFound_good (hjoin : ∀ a b, G a → G b → G (a.join b)) {found found' : Option Ty}
    (hgood : ∀ t, found = some t → G t) (hgood' : ∀ t, found' = some t → G t) (t : Ty)
    (heq : joinFound found found' = some t) : G t := by
  cases found with
  | none => exact hgood' t heq
  | some a =>
    cases found' with
    | none => exact hgood t heq
    | some b =>
      cases heq
      exact hjoin a b (hgood a rfl) (hgood' b rfl)

/-- What is found in cells is a join of their types, so it has every property that joins keep. -/
theorem lookupCells_good (hjoin : ∀ a b, G a → G b → G (a.join b))
    (hcells : ∀ t ∈ Cell.entry.typesIn h.cells, G t) {name : String} {ids : List CellId}
    {found : Option Ty} (hgood : ∀ t, found = some t → G t) {t : Ty}
    (heq : h.lookupCells name found ids = .ok (some t)) : G t := by
  induction ids generalizing found with
  | nil => exact hgood t (Except.ok.inj heq)
  | cons id rest ih =>
    rw [lookupCells] at heq
    split at heq
    · cases heq
    · next c hcell =>
      refine ih (joinFound_good hjoin hgood fun u hfield => ?_) heq
      exact hcells u (Entry.types_subset (cell_eq_ok hcell)
        (Fields.mem_types (OrdMap.mem_of_get? hfield)))

/-- A field can be looked for in all cells of the table. -/
theorem lookupCells_total (name : String) (found : Option Ty) {ids : List CellId}
    (hinside : ∀ id ∈ ids, id < h.cells.size) : ∃ r, h.lookupCells name found ids = .ok r := by
  induction ids generalizing found with
  | nil => exact ⟨found, rfl⟩
  | cons id rest ih =>
    obtain ⟨c, -, heq⟩ := cell_total (hinside id List.mem_cons_self)
    rw [lookupCells, heq]
    exact ih _ fun j hmem => hinside j (List.mem_cons_of_mem id hmem)

/-- What a field of an object is found to be is a join of its own type and of those in its cells. -/
theorem lookupField_good (hjoin : ∀ a b, G a → G b → G (a.join b))
    (hcells : ∀ t ∈ Cell.entry.typesIn h.cells, G t) {o : ObjTy}
    (hfields : ∀ e ∈ o.fields, G e.2) {name : String} {t : Ty}
    (heq : h.lookupField o name = .ok (some t)) : G t :=
  lookupCells_good hjoin hcells (fun u hown => hfields (name, u) (OrdMap.mem_of_get? hown)) heq

/-- A field can be looked for in every object whose cells are there. -/
theorem lookupField_total {o : ObjTy} (hinside : ∀ id ∈ o.cells, id < h.cells.size)
    (name : String) : ∃ r, h.lookupField o name = .ok r :=
  lookupCells_total name _ hinside

end Heap

/-! ### Methods -/

namespace Protos

/-- All links of the graph lead to constructors. -/
def Linked (g : Protos) : Prop :=
  ∀ (i : Nat) c l, g.ctors[i]? = some c → l ∈ c.shares ++ c.parents → l < g.ctors.size

variable {g : Protos} {G : Ty → Prop}

theorem ctor_eq_ok {id : CtorId} {c : Ctor} (heq : g.ctor id = .ok c) : g.ctors[id]? = some c := by
  unfold ctor at heq
  split at heq
  · next hfound =>
    cases heq
    exact hfound
  · cases heq

/-- Every constructor of the table can be read. -/
theorem ctor_total {id : CtorId} (hinside : id < g.ctors.size) :
    ∃ c, g.ctors[id]? = some c ∧ g.ctor id = .ok c := by
  have hfound := Array.getElem?_eq_getElem hinside
  exact ⟨g.ctors[id], hfound, by rw [ctor, hfound]⟩

/-- The type of a method is one of the types of the graph. -/
theorem method_mem {id : CtorId} {c : Ctor} (hfound : g.ctors[id]? = some c)
    {name : String} {t : Ty} (heq : OrdMap.get? c.methods name = some t) :
    t ∈ Ctor.entry.typesIn g.ctors :=
  Entry.types_subset hfound (List.mem_append_left _ (Fields.mem_types (OrdMap.mem_of_get? heq)))

/-- The type of an own field is one of the types of the graph. -/
theorem ownField_mem {id : CtorId} {c : Ctor} (hfound : g.ctors[id]? = some c) {name : String}
    {t : Ty} (heq : OrdMap.get? c.ownFields name = some t) : t ∈ Ctor.entry.typesIn g.ctors :=
  Entry.types_subset hfound (List.mem_append_right _ (Fields.mem_types (OrdMap.mem_of_get? heq)))

/-- What a search over links finds is found behind one of them. -/
theorem firstFound_mem {follow : List CtorId → Link → Except Dangling Search} {ts : List Ty}
    (heach : ∀ visited l t visited', follow visited l = .ok (some t, visited') → t ∈ ts)
    {visited visited' : List CtorId} {ls : List Link} {t : Ty}
    (heq : firstFound follow visited ls = .ok (some t, visited')) : t ∈ ts := by
  induction ls generalizing visited with
  | nil => cases heq
  | cons l ls ih =>
    rw [firstFound] at heq
    split at heq
    · cases heq
    · next hfound =>
      cases heq
      exact heach visited l t visited' hfound
    · exact ih heq

/-- If every link can be followed, the first one that leads to something can be found. -/
theorem firstFound_total {follow : List CtorId → Link → Except Dangling Search} {ls : List Link}
    (heach : ∀ visited, ∀ l ∈ ls, ∃ r, follow visited l = .ok r) (visited : List CtorId) :
    ∃ r, firstFound follow visited ls = .ok r := by
  induction ls generalizing visited with
  | nil => exact ⟨_, rfl⟩
  | cons l ls ih =>
    have hlater := ih fun seen k hmem => heach seen k (List.mem_cons_of_mem l hmem)
    obtain ⟨⟨found, seen⟩, heq⟩ := heach visited l List.mem_cons_self
    rw [firstFound, heq]
    cases found with
    | none => exact hlater seen
    | some t => exact ⟨_, rfl⟩

/-- What a lookup along the prototype chain finds is one of the types of the graph. -/
theorem lookupIn_mem {name : String} {depth : Nat} {visited visited' : List CtorId} {id : CtorId}
    {t : Ty} (heq : g.lookupIn name depth visited id = .ok (some t, visited')) :
    t ∈ Ctor.entry.typesIn g.ctors := by
  induction depth generalizing visited visited' id t with
  | zero => cases heq
  | succ depth ih =>
    rw [lookupIn] at heq
    split at heq
    · cases heq
    · split at heq
      · cases heq
      · next c hfound =>
        split at heq
        · next hown =>
          cases heq
          exact method_mem (ctor_eq_ok hfound) hown
        · refine firstFound_mem (fun seen l u seen' hbehind => ?_) heq
          cases l with
          | share other => exact ih hbehind
          | parent p =>
            dsimp only at hbehind
            split at hbehind
            · cases hbehind
            · next pc hfoundP =>
              split at hbehind
              · next hown =>
                cases hbehind
                exact ownField_mem (ctor_eq_ok hfoundP) hown
              · exact ih hbehind

/-- As all links lead to constructors, a lookup along the prototype chain meets no missing one. -/
theorem lookupIn_total (hlinked : g.Linked) (name : String) (depth : Nat) (visited : List CtorId)
    {id : CtorId} (hinside : id < g.ctors.size) :
    ∃ r, g.lookupIn name depth visited id = .ok r := by
  induction depth generalizing visited id with
  | zero => exact ⟨_, rfl⟩
  | succ depth ih =>
    rw [lookupIn]
    split
    · exact ⟨_, rfl⟩
    · obtain ⟨c, hfound, heq⟩ := ctor_total hinside
      rw [heq]
      dsimp only
      split
      · exact ⟨_, rfl⟩
      · refine firstFound_total (fun seen l hmem => ?_) _
        rcases List.mem_append.mp hmem with hmem | hmem
        · obtain ⟨other, hlisted, rfl⟩ := List.mem_map.mp hmem
          exact ih seen (hlinked id c other hfound (List.mem_append_left _ hlisted))
        · obtain ⟨p, hlisted, rfl⟩ := List.mem_map.mp hmem
          have hinsideP := hlinked id c p hfound (List.mem_append_right _ hlisted)
          obtain ⟨pc, -, heqP⟩ := ctor_total hinsideP
          dsimp only
          rw [heqP]
          dsimp only
          split
          · exact ⟨_, rfl⟩
          · exact ih seen hinsideP

/-- What the prototype chains of several constructors find is a join of types of the graph. -/
theorem lookupAll_good (hjoin : ∀ a b, G a → G b → G (a.join b))
    (hctors : ∀ t ∈ Ctor.entry.typesIn g.ctors, G t) {name : String} {ids : List CtorId}
    {found : Option Ty} (hgood : ∀ t, found = some t → G t) {t : Ty}
    (heq : g.lookupAll name found ids = .ok (some t)) : G t := by
  induction ids generalizing found with
  | nil => exact hgood t (Except.ok.inj heq)
  | cons id rest ih =>
    rw [lookupAll] at heq
    split at heq
    · cases heq
    · next here hlooked =>
      refine ih (Heap.joinFound_good hjoin hgood fun u hsame => ?_) heq
      subst hsame
      unfold lookupMethod at hlooked
      split at hlooked
      · cases hlooked
      · next found' _ hsearched =>
        cases hlooked
        exact hctors u (lookupIn_mem hsearched)

/-- The prototype chains of all constructors of the table can be searched. -/
theorem lookupAll_total (hlinked : g.Linked) (name : String) (found : Option Ty) {ids : List CtorId}
    (hinside : ∀ id ∈ ids, id < g.ctors.size) : ∃ r, g.lookupAll name found ids = .ok r := by
  induction ids generalizing found with
  | nil => exact ⟨found, rfl⟩
  | cons id rest ih =>
    obtain ⟨⟨here, seen⟩, heq⟩ :=
      lookupIn_total hlinked name (g.ctors.size + 1) [] (hinside id List.mem_cons_self)
    rw [lookupAll, lookupMethod, heq]
    exact ih _ fun j hmem => hinside j (List.mem_cons_of_mem id hmem)

/-- What a method of a receiver is found to be is a join of types of the graph. -/
theorem findMethod_good (hjoin : ∀ a b, G a → G b → G (a.join b))
    (hctors : ∀ t ∈ Ctor.entry.typesIn g.ctors, G t) {receiver : Ty} {name : String} {t : Ty}
    (heq : g.findMethod receiver name = .ok (some t)) : G t := by
  unfold findMethod at heq
  split at heq
  · cases heq
  · exact lookupAll_good hjoin hctors (fun _ habsent => by cases habsent) heq

/-- A method can be looked for in every receiver whose constructors are there. -/
theorem findMethod_total (hlinked : g.Linked) {receiver : Ty}
    (hinside : ∀ o, receiver.objPart? = some o → ∀ id ∈ o.ctors ++ o.protoOf, id < g.ctors.size)
    (name : String) : ∃ r, g.findMethod receiver name = .ok r := by
  unfold findMethod
  split
  · exact ⟨none, rfl⟩
  · next o hpart => exact lookupAll_total hlinked name none (hinside o hpart)

/-! ### Collecting along the prototype chain -/

/-- The next level has links of the level before only. -/
theorem mem_foldl_links {seen links found : List CtorId} {l : CtorId}
    (h : l ∈ links.foldl
      (fun acc l => if seen.contains l || acc.contains l then acc else acc ++ [l]) found) :
    l ∈ found ∨ l ∈ links := by
  induction links generalizing found with
  | nil => exact Or.inl h
  | cons k links ih =>
    rcases ih h with hmem | hmem
    · dsimp only at hmem
      split at hmem
      · exact Or.inl hmem
      · rcases List.mem_append.mp hmem with hmem | hmem
        · exact Or.inl hmem
        · exact Or.inr (List.mem_singleton.mp hmem ▸ List.mem_cons_self)
    · exact Or.inr (List.mem_cons_of_mem k hmem)

/-- From constructors of the table, the next level has constructors of the table. -/
theorem nextLevel_total (hlinked : g.Linked) (seen : List CtorId) {found level : List CtorId}
    (hinsideF : ∀ id ∈ found, id < g.ctors.size) (hinside : ∀ id ∈ level, id < g.ctors.size) :
    ∃ next, g.nextLevel seen found level = .ok next ∧ ∀ id ∈ next, id < g.ctors.size := by
  induction level generalizing found with
  | nil => exact ⟨found, rfl, hinsideF⟩
  | cons id rest ih =>
    obtain ⟨c, hget, heq⟩ := ctor_total (hinside id List.mem_cons_self)
    rw [nextLevel, heq]
    refine ih (fun l hmem => ?_) fun j hmem => hinside j (List.mem_cons_of_mem id hmem)
    rcases mem_foldl_links hmem with hmem' | hlink
    · exact hinsideF l hmem'
    · exact hlinked id c l hget hlink

/-- Level by level, only constructors of the table are reached. -/
theorem reachFrom_total (hlinked : g.Linked) (levels : Nat) (seen : List CtorId)
    {level : List CtorId} (hinside : ∀ id ∈ level, id < g.ctors.size) :
    ∃ reached, g.reachFrom levels seen level = .ok reached ∧
      ∀ id ∈ reached, id < g.ctors.size := by
  induction levels generalizing seen level with
  | zero => exact ⟨[], rfl, nofun⟩
  | succ levels ih =>
    cases level with
    | nil => exact ⟨[], rfl, nofun⟩
    | cons id rest =>
      have hnone : ∀ j ∈ ([] : List CtorId), j < g.ctors.size := nofun
      obtain ⟨next, heq, hinsideN⟩ := nextLevel_total hlinked seen hnone hinside
      obtain ⟨further, heqF, hinsideF⟩ := ih (seen ++ next) hinsideN
      rw [reachFrom, heq]
      dsimp only
      rw [heqF]
      refine ⟨next ++ further, rfl, fun j hmem => ?_⟩
      exact (List.mem_append.mp hmem).elim (hinsideN j) (hinsideF j)

/-- The ancestors of a constructor of the table can be listed, and are constructors of the table. -/
theorem ancestors_total (hlinked : g.Linked) {id : CtorId} (hinside : id < g.ctors.size) :
    ∃ reached, g.ancestors id = .ok reached ∧ ∀ a ∈ reached, a < g.ctors.size :=
  reachFrom_total hlinked _ [id] fun _ hmem => List.mem_singleton.mp hmem ▸ hinside

/-- A map to which missing entries are added has entries of the two maps only. -/
theorem mem_addMissing {m n : Fields} {e : String × Ty} (h : e ∈ OrdMap.addMissing m n) :
    e ∈ m ∨ e ∈ n := by
  unfold OrdMap.addMissing at h
  induction n generalizing m with
  | nil => exact Or.inl h
  | cons f n ih =>
    rcases ih h with hmem | hmem
    · dsimp only at hmem
      split at hmem
      · exact Or.inl hmem
      · rcases OrdMap.mem_insert_of_mem hmem with rfl | hmem
        · exact Or.inr List.mem_cons_self
        · exact Or.inl hmem
    · exact Or.inr (List.mem_cons_of_mem f hmem)

theorem mem_foldl_addMissing {acc : Fields} {maps : List Fields} {e : String × Ty}
    (h : e ∈ maps.foldl OrdMap.addMissing acc) : e ∈ acc ∨ ∃ m ∈ maps, e ∈ m := by
  induction maps generalizing acc with
  | nil => exact Or.inl h
  | cons n maps ih =>
    rcases ih h with hmem | ⟨m, hlisted, hmem⟩
    · refine (mem_addMissing hmem).imp_right fun hinside => ?_
      exact ⟨n, List.mem_cons_self, hinside⟩
    · exact Or.inr ⟨m, List.mem_cons_of_mem n hlisted, hmem⟩

/-- What is collected from constructors is what they show. -/
theorem addFrom_mem {shown : Ctor → List Fields}
    (hvisible : ∀ c, ∀ m ∈ shown c, m.types ⊆ Ctor.entry.types c) {acc fields : Fields}
    {ids : List CtorId} (heq : g.addFrom shown acc ids = .ok fields)
    (hstart : acc.types ⊆ Ctor.entry.typesIn g.ctors) :
    fields.types ⊆ Ctor.entry.typesIn g.ctors := by
  induction ids generalizing acc with
  | nil =>
    cases heq
    exact hstart
  | cons id rest ih =>
    rw [addFrom] at heq
    split at heq
    · cases heq
    · next c hfound =>
      refine ih heq fun t hmem => ?_
      obtain ⟨e, hinside, rfl⟩ := List.mem_map.mp hmem
      rcases mem_foldl_addMissing hinside with hmem' | ⟨m, hlisted, hmem⟩
      · exact hstart (Fields.mem_types hmem')
      · exact Entry.types_subset (ctor_eq_ok hfound) (hvisible c m hlisted (Fields.mem_types hmem))

/-- What constructors of the table show can be collected. -/
theorem addFrom_total (shown : Ctor → List Fields) (acc : Fields) {ids : List CtorId}
    (hinside : ∀ id ∈ ids, id < g.ctors.size) : ∃ fields, g.addFrom shown acc ids = .ok fields := by
  induction ids generalizing acc with
  | nil => exact ⟨acc, rfl⟩
  | cons id rest ih =>
    obtain ⟨c, -, heq⟩ := ctor_total (hinside id List.mem_cons_self)
    rw [addFrom, heq]
    exact ih _ fun j hmem => hinside j (List.mem_cons_of_mem id hmem)

/-- What is collected from a constructor and its ancestors: what the constructor shows itself, then
what its ancestors show. -/
theorem collect_eq (g : Protos) (shown : Ctor → List Fields) (own : Ctor → Fields) (id : CtorId) :
    (do let c ← g.ctor id; g.addFrom shown (own c) (← g.ancestors id)) =
      match g.ctor id with
      | .error d => .error d
      | .ok c =>
        match g.ancestors id with
        | .error d => .error d
        | .ok reached => g.addFrom shown (own c) reached := by
  cases g.ctor id with
  | error d => rfl
  | ok c =>
    change (g.ancestors id >>= fun reached => _) = _
    cases g.ancestors id <;> rfl

/-- What is collected along the ancestors are types of the graph, if what each of them shows are. -/
theorem collect_mem {shown : Ctor → List Fields} {own : Ctor → Fields} {id : CtorId}
    (hvisible : ∀ c, ∀ m ∈ own c :: shown c, m.types ⊆ Ctor.entry.types c) {fields : Fields}
    (heq : (do let c ← g.ctor id; g.addFrom shown (own c) (← g.ancestors id)) = .ok fields) :
    fields.types ⊆ Ctor.entry.typesIn g.ctors := by
  rw [collect_eq] at heq
  split at heq
  · cases heq
  · next c hfound =>
    split at heq
    · cases heq
    · refine addFrom_mem (fun a m hlisted => hvisible a m (List.mem_cons_of_mem _ hlisted)) heq
        fun t hmem => ?_
      exact Entry.types_subset (ctor_eq_ok hfound) (hvisible c _ List.mem_cons_self hmem)

/-- Along the ancestors of a constructor of the table, everything that they show can be
collected. -/
theorem collect_total (hlinked : g.Linked) (shown : Ctor → List Fields) (own : Ctor → Fields)
    {id : CtorId} (hinside : id < g.ctors.size) :
    ∃ fields, (do let c ← g.ctor id; g.addFrom shown (own c) (← g.ancestors id)) = .ok fields := by
  obtain ⟨c, -, heq⟩ := ctor_total hinside
  obtain ⟨reached, heqR, hinsideR⟩ := ancestors_total hlinked hinside
  rw [collect_eq, heq, heqR]
  exact addFrom_total _ _ hinsideR

theorem instanceFields_mem {id : CtorId} {fields : Fields}
    (heq : g.instanceFields id = .ok fields) :
    fields.types ⊆ Ctor.entry.typesIn g.ctors := by
  refine collect_mem (fun c m hlisted => ?_) heq
  rcases List.mem_pair.mp hlisted with rfl | rfl <;> exact List.subset_append_right _ _

theorem instanceFields_total (hlinked : g.Linked) {id : CtorId} (hinside : id < g.ctors.size) :
    ∃ fields, g.instanceFields id = .ok fields :=
  collect_total hlinked _ _ hinside

theorem prototypeMembers_mem {id : CtorId} {fields : Fields}
    (heq : g.prototypeMembers id = .ok fields) : fields.types ⊆ Ctor.entry.typesIn g.ctors := by
  refine collect_mem (fun c m hlisted => ?_) heq
  rcases List.mem_cons.mp hlisted with rfl | hlisted
  · exact List.subset_append_left _ _
  · rcases List.mem_pair.mp hlisted with rfl | rfl
    · exact List.subset_append_left _ _
    · exact List.subset_append_right _ _

theorem prototypeMembers_total (hlinked : g.Linked) {id : CtorId} (hinside : id < g.ctors.size) :
    ∃ fields, g.prototypeMembers id = .ok fields :=
  collect_total hlinked _ _ hinside

/-- The parent that counts can be found for every constructor of the table. -/
theorem effectiveParent_total (hlinked : g.Linked) {id : CtorId} (hinside : id < g.ctors.size) :
    ∃ r, g.effectiveParent id = .ok r := by
  obtain ⟨c, hget, heq⟩ := ctor_total hinside
  unfold effectiveParent
  rw [heq]
  cases hfirst : c.parents.head? with
  | none => exact ⟨none, by simp only [bind, Except.bind, hfirst]; rfl⟩
  | some parent =>
    have hlisted : parent ∈ c.parents := List.mem_of_mem_head? hfirst
    obtain ⟨p, -, heqP⟩ := ctor_total (hlinked id c parent hget (List.mem_append_right _ hlisted))
    simp only [bind, Except.bind, hfirst, heqP]
    split <;> exact ⟨_, rfl⟩

end Protos

end TypeFlow
