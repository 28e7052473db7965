import Mathlib
import TypeFlow.Proofs.Store.Links

/-!
# The search for a method

Looking a method up is a complete search of everything that lies behind a constructor, whatever
cycles the links form.

## Main Definitions

* `Protos.Pending`, `Protos.Scans` - the search as work through a list, without a bound on its depth
* `Protos.Offers` - what a constructor shows for a name, with the own fields of its parents
* `Protos.Accounts` - nothing was found so far, and whatever lies behind is visited or pending

## Main Statements

* `Protos.lookupIn_answers` - to a sufficient depth, the search is work through the list
* `Protos.Scans.offers` - what is found is shown by a constructor that is reached
* `Protos.Scans.closed` - when nothing is found, nothing that is reached shows anything

## Design Notes

The visited constructors are passed on from one link to the next, and a constructor is among them
before what lies behind it was looked at.  So no statement about one constructor alone carries the
search: whether all links of a visited constructor were followed depends on the work that is left.
As a list of work the search has no inner calls, and each of its properties is one induction.
-/

namespace TypeFlow

namespace Protos

/-! ### The search as a list of work -/

/-- What a search has still to look at: a constructor with all that lies behind it, or the own
fields of a parent. -/
inductive Pending where
  | chain (id : CtorId)
  | fields (id : CtorId)

/-- What is looked at when a link is followed. -/
def Link.pending : Link → List Pending
  | .share id => [.chain id]
  | .parent id => [.fields id, .chain id]

/-- Working through a list with some constructors visited, the search answers the given type, or
none. -/
inductive Scans (g : Protos) (name : String) : List CtorId → List Pending → Option Ty → Prop
  | done {visited : List CtorId} : Scans g name visited [] none
  | shown {visited : List CtorId} {p : CtorId} {work : List Pending} {t : Ty} :
    g.ownField? p name = some t → Scans g name visited (.fields p :: work) (some t)
  | lacking {visited : List CtorId} {p : CtorId} {work : List Pending} {r : Option Ty} :
    g.ownField? p name = none → Scans g name visited work r →
      Scans g name visited (.fields p :: work) r
  | again {visited : List CtorId} {id : CtorId} {work : List Pending} {r : Option Ty} :
    id ∈ visited → Scans g name visited work r → Scans g name visited (.chain id :: work) r
  | own {visited : List CtorId} {id : CtorId} {work : List Pending} {t : Ty} :
    id ∉ visited → g.method? id name = some t → Scans g name visited (.chain id :: work) (some t)
  | behind {visited : List CtorId} {id : CtorId} {k : Ctor} {work : List Pending} {r : Option Ty} :
    id ∉ visited → g.ctors[id]? = some k → g.method? id name = none →
      Scans g name (id :: visited) ((links k).flatMap Link.pending ++ work) r →
        Scans g name visited (.chain id :: work) r

variable {g : Protos} {name : String} {visited : List CtorId} {work : List Pending}

theorem chain_mem_pending {k : Ctor} {id : CtorId} :
    .chain id ∈ (links k).flatMap Link.pending ↔ id ∈ k.shares ++ k.parents := by
  simp [links, Link.pending, List.mem_flatMap]

theorem fields_mem_pending {k : Ctor} {p : CtorId} :
    .fields p ∈ (links k).flatMap Link.pending ↔ p ∈ k.parents := by
  simp [links, Link.pending, List.mem_flatMap]

/-- The search has one answer. -/
theorem Scans.unique {r r' : Option Ty} (h : g.Scans name visited work r)
    (h' : g.Scans name visited work r') : r = r' := by
  induction h generalizing r' with
  | done =>
    cases h'
    rfl
  | shown hown =>
    cases h' with
    | shown hown' => exact hown.symm.trans hown'
    | lacking hnone => exact absurd (hown.symm.trans hnone) nofun
  | lacking hnone _ ih =>
    cases h' with
    | shown hown => exact absurd (hown.symm.trans hnone) nofun
    | lacking _ hrest => exact ih hrest
  | again hseen _ ih =>
    cases h' with
    | again _ hrest => exact ih hrest
    | own hfresh _ => exact absurd hseen hfresh
    | behind hfresh _ _ _ => exact absurd hseen hfresh
  | own hfresh hown =>
    cases h' with
    | again hseen _ => exact absurd hseen hfresh
    | own _ hown' => exact hown.symm.trans hown'
    | behind _ _ hnone _ => exact absurd (hown.symm.trans hnone) nofun
  | behind hfresh hfound hnone _ ih =>
    cases h' with
    | again hseen _ => exact absurd hseen hfresh
    | own _ hown => exact absurd (hown.symm.trans hnone) nofun
    | behind _ hfound' _ hrest =>
      cases hfound.symm.trans hfound'
      exact ih hrest

/-- Working through the list first has the given outcome: something was found, or the search goes on
with more constructors visited. -/
def Answers (g : Protos) (name : String) (visited : List CtorId) (work : List Pending) :
    Search → Prop
  | (some t, _) => ∀ rest, g.Scans name visited (work ++ rest) (some t)
  | (none, visited') =>
    ∀ rest r, g.Scans name visited' rest r → g.Scans name visited (work ++ rest) r

/-- What was found is found whatever else is pending. -/
theorem Answers.found {t : Ty} {seen seen' : List CtorId}
    (h : g.Answers name visited work (some t, seen)) (more : List Pending) :
    g.Answers name visited (work ++ more) (some t, seen') := by
  intro rest
  rw [List.append_assoc]
  exact h (more ++ rest)

/-- When nothing is found in the first part of a list, the search goes on with the second part. -/
theorem Answers.append {seen : List CtorId} {more : List Pending} {r : Search}
    (h : g.Answers name visited work (none, seen)) (hnext : g.Answers name seen more r) :
    g.Answers name visited (work ++ more) r := by
  obtain ⟨_ | t, seen'⟩ := r
  · intro rest r hscans
    rw [List.append_assoc]
    exact h _ r (hnext rest r hscans)
  · intro rest
    rw [List.append_assoc]
    exact h _ _ (hnext rest)

/-- The visited constructors are distinct, and the depth that is left suffices for the others. -/
def Fits (g : Protos) (depth : Nat) (visited : List CtorId) : Prop :=
  g.Distinct visited ∧ g.ctors.size < depth + visited.length

theorem Fits.deeper {depth : Nat} (h : g.Fits depth visited) : g.Fits (depth + 1) visited :=
  ⟨h.1, by have := h.2; omega⟩

/-- Following links one after the other is work through what they lead to. -/
theorem firstFound_answers {follow : List CtorId → Link → Except Dangling Search} {depth : Nat}
    {ls : List Link} {r : Search}
    (heach : ∀ seen, g.Fits depth seen → ∀ l ∈ ls, ∀ r, follow seen l = .ok r →
      g.Answers name seen l.pending r ∧ g.Fits depth r.2)
    (hfits : g.Fits depth visited) (heq : firstFound follow visited ls = .ok r) :
    g.Answers name visited (ls.flatMap Link.pending) r ∧ g.Fits depth r.2 := by
  induction ls generalizing visited with
  | nil =>
    cases heq
    exact ⟨fun _ _ hscans => hscans, hfits⟩
  | cons l ls ih =>
    have hfirst := heach visited hfits l List.mem_cons_self
    rw [firstFound] at heq
    rw [List.flatMap_cons]
    split at heq
    · cases heq
    · next hfollowed =>
      cases heq
      obtain ⟨hanswers, hfits'⟩ := hfirst _ hfollowed
      exact ⟨hanswers.found _, hfits'⟩
    · next hfollowed =>
      obtain ⟨hanswers, hfits'⟩ := hfirst _ hfollowed
      obtain ⟨hlater, hfits''⟩ := ih (fun seen hfits k hmem => heach seen hfits k
        (List.mem_cons_of_mem l hmem)) hfits' heq
      exact ⟨hanswers.append hlater, hfits''⟩

/-- What following a link finds, given the search of a constructor. -/
def follow (g : Protos) (name : String) (search : List CtorId → CtorId → Except Dangling Search)
    (seen : List CtorId) : Link → Except Dangling Search
  | .share other => search seen other
  | .parent p =>
    match g.ctor p with
    | .error d => .error d
    | .ok k =>
      match OrdMap.get? k.ownFields name with
      | some t => .ok (some t, seen)
      | none => search seen p

/-- One level of the search. -/
theorem lookupIn_succ (g : Protos) (name : String) (depth : Nat) (visited : List CtorId)
    (id : CtorId) :
    g.lookupIn name (depth + 1) visited id =
      if visited.contains id then .ok (none, visited)
      else
        match g.ctor id with
        | .error d => .error d
        | .ok k =>
          match OrdMap.get? k.methods name with
          | some t => .ok (some t, id :: visited)
          | none =>
            firstFound (g.follow name (g.lookupIn name depth)) (id :: visited) (links k) := by
  have hsame : g.follow name (g.lookupIn name depth) = fun seen link =>
      match link with
      | .share other => g.lookupIn name depth seen other
      | .parent p =>
        match g.ctor p with
        | .error d => .error d
        | .ok k =>
          match OrdMap.get? k.ownFields name with
          | some t => .ok (some t, seen)
          | none => g.lookupIn name depth seen p := by
    funext seen link
    cases link <;> rfl
  rw [hsame]
  rfl

/-- Following a link is the work that the link leaves, when searching the constructor that it leads
to is. -/
theorem follow_answers {search : List CtorId → CtorId → Except Dangling Search} {depth : Nat}
    {seen : List CtorId} {l : Link} {r : Search} (hfits : g.Fits depth seen)
    (hinside : ∀ id, .chain id ∈ l.pending → id < g.ctors.size)
    (hsearches : ∀ id r, id < g.ctors.size → search seen id = .ok r →
      g.Answers name seen [.chain id] r ∧ g.Fits depth r.2)
    (heq : g.follow name search seen l = .ok r) :
    g.Answers name seen l.pending r ∧ g.Fits depth r.2 := by
  cases l with
  | share other => exact hsearches other r (hinside other List.mem_cons_self) heq
  | parent p =>
    have hinsideP := hinside p (List.mem_cons_of_mem _ List.mem_cons_self)
    obtain ⟨k, hfound, hctor⟩ := ctor_total hinsideP
    rw [follow, hctor] at heq
    dsimp only at heq
    split at heq
    · next hown =>
      cases heq
      exact ⟨fun _ => .shown ((ownField?_eq hfound).trans hown), hfits⟩
    · next hlacks =>
      obtain ⟨hanswers, hfits'⟩ := hsearches p r hinsideP heq
      have hfirst : g.Answers name seen [.fields p] (none, seen) :=
        fun _ _ hscans => .lacking ((ownField?_eq hfound).trans hlacks) hscans
      exact ⟨hfirst.append hanswers, hfits'⟩

/-- Searching a constructor to a sufficient depth is work through a list. -/
theorem lookupIn_answers (hlinked : g.Linked) {depth : Nat} {id : CtorId} {r : Search}
    (hfits : g.Fits depth visited) (hinside : id < g.ctors.size)
    (heq : g.lookupIn name depth visited id = .ok r) :
    g.Answers name visited [.chain id] r ∧ g.Fits depth r.2 := by
  induction depth generalizing visited id r with
  | zero =>
    -- More constructors would be visited than there are.
    have := hfits.1.length_le
    have := hfits.2
    omega
  | succ depth ih =>
    rw [lookupIn_succ] at heq
    split at heq
    · next hseen =>
      cases heq
      exact ⟨fun _ _ hscans => .again (List.contains_iff_mem.mp hseen) hscans, hfits⟩
    · next hunseen =>
      have hfresh : id ∉ visited := fun hmem => hunseen (List.contains_iff_mem.mpr hmem)
      -- One constructor more is visited, so one level less suffices.
      have hwithin : g.Fits depth (id :: visited) :=
        ⟨hfits.1.cons hinside hfresh, by have := hfits.2; rw [List.length_cons]; omega⟩
      obtain ⟨k, hfound, hctor⟩ := ctor_total hinside
      rw [hctor] at heq
      dsimp only at heq
      split at heq
      · next hown =>
        cases heq
        exact ⟨fun _ => .own hfresh ((method?_eq hfound).trans hown), hwithin.deeper⟩
      · next hlacks =>
        have heach : ∀ seen, g.Fits depth seen → ∀ l ∈ links k, ∀ r,
            g.follow name (g.lookupIn name depth) seen l = .ok r →
              g.Answers name seen l.pending r ∧ g.Fits depth r.2 := by
          intro seen hfits l hmem r heq
          refine follow_answers hfits (fun id' hleads => ?_) (fun _ _ hinside => ih hfits hinside)
            heq
          have hlisted := chain_mem_pending.mp (List.mem_flatMap.mpr ⟨l, hmem, hleads⟩)
          exact hlinked id k id' hfound hlisted
        obtain ⟨hanswers, hfits'⟩ := firstFound_answers heach hwithin heq
        refine ⟨?_, hfits'.deeper⟩
        have habsent : g.method? id name = none := (method?_eq hfound).trans hlacks
        obtain ⟨_ | t, seen⟩ := r
        · exact fun rest r hscans => .behind hfresh hfound habsent (hanswers rest r hscans)
        · exact fun rest => .behind hfresh hfound habsent (hanswers rest)

/-- Looking a method up is work through the list of the constructor alone, to every depth beyond the
number of constructors. -/
theorem lookupIn_scans (hlinked : g.Linked) {c : CtorId} (hinside : c < g.ctors.size) {depth : Nat}
    (hdeep : g.ctors.size < depth) :
    ∃ found seen, g.lookupIn name depth [] c = .ok (found, seen) ∧
      g.Scans name [] [.chain c] found := by
  obtain ⟨⟨found, seen⟩, heq⟩ := lookupIn_total hlinked name depth [] hinside
  obtain ⟨hanswers, -⟩ := lookupIn_answers hlinked ⟨.nil g, hdeep⟩ hinside heq
  refine ⟨found, seen, heq, ?_⟩
  cases found with
  | none => exact hanswers [] none .done
  | some t => exact hanswers []

/-- Looking up a method is work through the list that starts with its constructor. -/
theorem lookupMethod_scans (hlinked : g.Linked) {c : CtorId} (hinside : c < g.ctors.size)
    (name : String) :
    ∃ found, g.lookupMethod c name = .ok found ∧ g.Scans name [] [.chain c] found := by
  obtain ⟨found, seen, heq, hscans⟩ := lookupIn_scans hlinked hinside (Nat.lt_succ_self _)
  exact ⟨found, by rw [lookupMethod, heq], hscans⟩

/-! ### What the search finds -/

/-- The type is what a constructor shows for a name: its method, or an own field of a parent. -/
def Offers (g : Protos) (name : String) (a : CtorId) (t : Ty) : Prop :=
  g.method? a name = some t ∨ ∃ p, g.HasParent a p ∧ g.ownField? p name = some t

/-- What is found is shown by a constructor that is reached. -/
theorem Scans.offers {r : Option Ty} (h : g.Scans name visited work r) {c : CtorId}
    (hchains : ∀ id, .chain id ∈ work → g.Leads c id)
    (hfields : ∀ p, .fields p ∈ work → ∃ a, g.Leads c a ∧ g.HasParent a p) {t : Ty}
    (hfound : r = some t) : ∃ a, g.Leads c a ∧ g.Offers name a t := by
  induction h with
  | done => cases hfound
  | shown hown =>
    cases hfound
    obtain ⟨a, hleads, hparent⟩ := hfields _ List.mem_cons_self
    exact ⟨a, hleads, .inr ⟨_, hparent, hown⟩⟩
  | lacking _ _ ih =>
    exact ih (fun id hmem => hchains id (List.mem_cons_of_mem _ hmem))
      (fun p hmem => hfields p (List.mem_cons_of_mem _ hmem)) hfound
  | again _ _ ih =>
    exact ih (fun id hmem => hchains id (List.mem_cons_of_mem _ hmem))
      (fun p hmem => hfields p (List.mem_cons_of_mem _ hmem)) hfound
  | own _ hown =>
    cases hfound
    exact ⟨_, hchains _ List.mem_cons_self, .inl hown⟩
  | behind _ hget _ _ ih =>
    have hleads := hchains _ List.mem_cons_self
    refine ih (fun id hmem => ?_) (fun p hmem => ?_) hfound
    · rcases List.mem_append.mp hmem with hmem | hmem
      · exact hleads.tail ((linksTo_iff hget).mpr (chain_mem_pending.mp hmem))
      · exact hchains id (List.mem_cons_of_mem _ hmem)
    · rcases List.mem_append.mp hmem with hmem | hmem
      · exact ⟨_, hleads, _, hget, fields_mem_pending.mp hmem⟩
      · exact hfields p (List.mem_cons_of_mem _ hmem)

/-- What is found is shown by a constructor behind the first one. -/
theorem Scans.found_offers {c : CtorId} {t : Ty} (h : g.Scans name [] [.chain c] (some t)) :
    ∃ a, g.Leads c a ∧ g.Offers name a t := by
  refine h.offers (fun id hmem => ?_) (fun p hmem => ?_) rfl
  · cases List.mem_singleton.mp hmem
    exact .refl
  · cases List.mem_singleton.mp hmem

/-! ### When nothing is found -/

/-- No visited constructor has a method of the name; and where its links lead to, and the own fields
of its parents, is visited, or lacks the name, or is pending. -/
structure Accounts (g : Protos) (name : String) (visited : List CtorId) (work : List Pending) :
    Prop where
  own : ∀ a ∈ visited, g.method? a name = none
  links : ∀ a ∈ visited, ∀ b, g.LinksTo a b → b ∈ visited ∨ .chain b ∈ work
  fields : ∀ a ∈ visited, ∀ p, g.HasParent a p → g.ownField? p name = none ∨ .fields p ∈ work

theorem Accounts.nil (g : Protos) (name : String) (work : List Pending) :
    g.Accounts name [] work :=
  ⟨nofun, nofun, nofun⟩

section Step

variable {id p : CtorId}

/-- The own fields of a parent that lacks the name are done with. -/
theorem Accounts.lacking (h : g.Accounts name visited (.fields p :: work))
    (habsent : g.ownField? p name = none) : g.Accounts name visited work where
  own := h.own
  links a hmem b hlink := by
    refine (h.links a hmem b hlink).imp_right fun hmem => ?_
    exact (List.mem_cons.mp hmem).resolve_left nofun
  fields a hmem q hparent := by
    rcases h.fields a hmem q hparent with hlacks | hmem
    · exact .inl hlacks
    · rcases List.mem_cons.mp hmem with hsame | hmem
      · cases hsame
        exact .inl habsent
      · exact .inr hmem

/-- A constructor that was visited is done with. -/
theorem Accounts.again (h : g.Accounts name visited (.chain id :: work)) (hseen : id ∈ visited) :
    g.Accounts name visited work where
  own := h.own
  links a hmem b hlink := by
    rcases h.links a hmem b hlink with hmem | hmem
    · exact .inl hmem
    · rcases List.mem_cons.mp hmem with hsame | hmem
      · cases hsame
        exact .inl hseen
      · exact .inr hmem
  fields a hmem q hparent := by
    refine (h.fields a hmem q hparent).imp_right fun hmem => ?_
    exact (List.mem_cons.mp hmem).resolve_left nofun

/-- A constructor without a method of the name is visited, and what lies behind it is pending. -/
theorem Accounts.behind (h : g.Accounts name visited (.chain id :: work)) {k : Ctor}
    (hget : g.ctors[id]? = some k) (habsent : g.method? id name = none) :
    g.Accounts name (id :: visited) ((Protos.links k).flatMap Link.pending ++ work) where
  own := List.forall_mem_cons.mpr ⟨habsent, h.own⟩
  links := by
    refine List.forall_mem_cons.mpr ⟨fun b hlink => .inr ?_, fun a hmem b hlink => ?_⟩
    · exact List.mem_append_left _ (chain_mem_pending.mpr ((linksTo_iff hget).mp hlink))
    · rcases h.links a hmem b hlink with hmem | hmem
      · exact .inl (List.mem_cons_of_mem id hmem)
      · rcases List.mem_cons.mp hmem with hsame | hmem
        · cases hsame
          exact .inl List.mem_cons_self
        · exact .inr (List.mem_append_right _ hmem)
  fields := by
    refine List.forall_mem_cons.mpr ⟨fun q hparent => .inr ?_, fun a hmem q hparent => ?_⟩
    · obtain ⟨k', hget', hlisted⟩ := hparent
      cases hget.symm.trans hget'
      exact List.mem_append_left _ (fields_mem_pending.mpr hlisted)
    · refine (h.fields a hmem q hparent).imp_right fun hmem => List.mem_append_right _ ?_
      exact (List.mem_cons.mp hmem).resolve_left nofun

end Step

/-- When the search finds nothing, it ends with all work done, and what was pending visited. -/
theorem Scans.exhausts {r : Option Ty} (h : g.Scans name visited work r)
    (haccounts : g.Accounts name visited work) (hnothing : r = none) :
    ∃ final, visited ⊆ final ∧ (∀ id, .chain id ∈ work → id ∈ final) ∧
      g.Accounts name final [] := by
  induction h with
  | done => exact ⟨_, List.Subset.refl _, nofun, haccounts⟩
  | shown => cases hnothing
  | own => cases hnothing
  | lacking habsent _ ih =>
    obtain ⟨final, hsub, hchains, hclosed⟩ := ih (haccounts.lacking habsent) hnothing
    refine ⟨final, hsub, fun id hmem => hchains id ?_, hclosed⟩
    exact (List.mem_cons.mp hmem).resolve_left nofun
  | again hseen _ ih =>
    obtain ⟨final, hsub, hchains, hclosed⟩ := ih (haccounts.again hseen) hnothing
    refine ⟨final, hsub, fun id hmem => ?_, hclosed⟩
    rcases List.mem_cons.mp hmem with hsame | hmem
    · cases hsame
      exact hsub hseen
    · exact hchains id hmem
  | behind _ hget habsent _ ih =>
    -- The constructor becomes visited now, and all that it leads to becomes pending.
    obtain ⟨final, hsub, hchains, hclosed⟩ := ih (haccounts.behind hget habsent) hnothing
    obtain ⟨hfirst, hsub⟩ := List.cons_subset.mp hsub
    refine ⟨final, hsub, fun id hmem => ?_, hclosed⟩
    rcases List.mem_cons.mp hmem with hsame | hmem
    · cases hsame
      exact hfirst
    · exact hchains id (List.mem_append_right _ hmem)

/-- With no work left, everything that lies behind a visited constructor is visited. -/
theorem Accounts.leads (h : g.Accounts name visited []) {c a : CtorId} (hmem : c ∈ visited)
    (hleads : g.Leads c a) : a ∈ visited := by
  induction hleads with
  | refl => exact hmem
  | tail _ hlast ih => exact (h.links _ ih _ hlast).resolve_right nofun

/-- When the search finds nothing, nothing that is reached shows anything. -/
theorem Scans.closed {c : CtorId} (h : g.Scans name [] [.chain c] none) {a : CtorId} {t : Ty}
    (hleads : g.Leads c a) : ¬ g.Offers name a t := by
  obtain ⟨final, -, hchains, hclosed⟩ := h.exhausts (.nil g name _) rfl
  have hmem := hclosed.leads (hchains c List.mem_cons_self) hleads
  rintro (hown | ⟨p, hparent, hown⟩)
  · exact absurd (hown.symm.trans (hclosed.own a hmem)) nofun
  · have habsent := (hclosed.fields a hmem p hparent).resolve_right nofun
    exact absurd (hown.symm.trans habsent) nofun

/-- Something is found exactly when some constructor that is reached shows something. -/
theorem Scans.isSome_iff {c : CtorId} {r : Option Ty} (h : g.Scans name [] [.chain c] r) :
    r.isSome = true ↔ ∃ a t, g.Leads c a ∧ g.Offers name a t := by
  constructor
  · intro hsome
    obtain ⟨t, rfl⟩ := Option.isSome_iff_exists.mp hsome
    obtain ⟨a, hleads, hoffers⟩ := h.found_offers
    exact ⟨a, t, hleads, hoffers⟩
  · rintro ⟨a, t, hleads, hoffers⟩
    cases r with
    | none => exact absurd hoffers (h.closed hleads)
    | some u => rfl

end Protos

/-- Looking a method up succeeds whatever cycles the links form, and every depth beyond the number
of constructors gives the same answer.  Something is found exactly when a constructor that is
reached has a method of the name, or a parent with an own field of the name; what is found is one of
these, and it is the constructor's own method if it has one. -/
theorem dispatch_complete (g : Protos) (hlinked : g.Linked) (c : CtorId)
    (hinside : c < g.ctors.size) (name : String) :
    ∃ found, g.lookupMethod c name = .ok found ∧
      (∀ depth, g.ctors.size < depth →
        ∃ visited, g.lookupIn name depth [] c = .ok (found, visited)) ∧
      (found.isSome = true ↔
        (∃ a, g.Leads c a ∧ (g.method? a name).isSome = true) ∨
          ∃ a p, g.Leads c a ∧ g.HasParent a p ∧ (g.ownField? p name).isSome = true) ∧
      (∀ t, found = some t →
        (∃ a, g.Leads c a ∧ g.method? a name = some t) ∨
          ∃ a p, g.Leads c a ∧ g.HasParent a p ∧ g.ownField? p name = some t) ∧
      ∀ t, g.method? c name = some t → found = some t := by
  obtain ⟨found, heq, hscans⟩ := Protos.lookupMethod_scans hlinked hinside name
  refine ⟨found, heq, fun depth hdeep => ?_, ?_, fun t heq' => ?_, fun t hown => ?_⟩
  -- to every sufficient depth the search is the same work, which has one outcome
  · obtain ⟨found', visited, heq'', hscans'⟩ := Protos.lookupIn_scans hlinked hinside hdeep
    cases hscans.unique hscans'
    exact ⟨visited, heq''⟩
  · rw [hscans.isSome_iff]
    constructor
    · rintro ⟨a, t, hleads, hown | ⟨p, hparent, hown⟩⟩
      · exact .inl ⟨a, hleads, Option.isSome_iff_exists.mpr ⟨t, hown⟩⟩
      · exact .inr ⟨a, p, hleads, hparent, Option.isSome_iff_exists.mpr ⟨t, hown⟩⟩
    · rintro (⟨a, hleads, hown⟩ | ⟨a, p, hleads, hparent, hown⟩)
      · obtain ⟨t, hown⟩ := Option.isSome_iff_exists.mp hown
        exact ⟨a, t, hleads, .inl hown⟩
      · obtain ⟨t, hown⟩ := Option.isSome_iff_exists.mp hown
        exact ⟨a, t, hleads, .inr ⟨p, hparent, hown⟩⟩
  · subst heq'
    obtain ⟨a, hleads, hown | ⟨p, hparent, hown⟩⟩ := hscans.found_offers
    · exact .inl ⟨a, hleads, hown⟩
    · exact .inr ⟨a, p, hleads, hparent, hown⟩
  · exact hscans.unique (.own List.not_mem_nil hown)

/-- Three constructors: the first shares the table of the second and has the third as a parent, and
both lead back to the first. -/
def roundabout : Protos where
  ctors := #[⟨some "A", none, [2], [1], [], [], false⟩, ⟨some "B", none, [0], [], [], [], false⟩,
    ⟨some "C", none, [], [0], [], [("x", .number)], false⟩]
  byClosure := .empty
  changes := 7

/-- From the second constructor of the roundabout, the own field of the third is found: the first
has it as a parent. -/
theorem dispatch_complete_roundabout :
    roundabout.Linked ∧ 1 < roundabout.ctors.size ∧
      ∃ t, roundabout.lookupMethod 1 "x" = .ok (some t) ∧
        ((∃ a, roundabout.Leads 1 a ∧ roundabout.method? a "x" = some t) ∨
          ∃ a p, roundabout.Leads 1 a ∧ roundabout.HasParent a p ∧
            roundabout.ownField? p "x" = some t) := by
  have hlinked : roundabout.Linked := by decide
  have hinside : 1 < roundabout.ctors.size := by decide
  obtain ⟨found, heq, -, hiff, hshown, -⟩ := dispatch_complete roundabout hlinked 1 hinside "x"
  have hfirst : roundabout.Leads 1 0 := .single (.inr ⟨_, rfl, by decide⟩)
  obtain ⟨t, rfl⟩ := Option.isSome_iff_exists.mp
    (hiff.mpr (.inr ⟨0, 2, hfirst, ⟨_, rfl, by decide⟩, by decide⟩))
  exact ⟨hlinked, hinside, t, heq, hshown t rfl⟩

end TypeFlow
