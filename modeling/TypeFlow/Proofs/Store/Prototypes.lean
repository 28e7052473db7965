import Mathlib
import TypeFlow.Proofs.Store.Ancestry
import TypeFlow.Proofs.Store.Dispatch

/-!
# What a prototype object shows

The members that a prototype object is shown with are collected level by level, while a method is
looked up depth first.  The two treat own fields differently too: a lookup takes them from parents
only, and before the methods of the parent, while collecting takes them from every ancestor, and
after its methods.  So they may differ, and here is where they do not.

## Main Definitions

* `Protos.Before` - reached without passing a given constructor
* `Protos.Screens` - every way to another definition of a name leads past this one
* `Protos.Settled` - one definition screens all others, or there is none
* `Protos.Guarded` - whatever the search finds first is the given type

## Main Statements

* `Protos.Scans.guarded` - the search finds nothing but the screening definition
* `Protos.Screens.collected` - neither does collecting level by level
* `Protos.prototypeMembers_isSome_iff` - which names are shown
* `Protos.Settled.agree` - where the two give the same
-/

namespace TypeFlow

namespace Protos

variable {g : Protos} {name : String} {a b c n : CtorId} {t : Ty}

/-! ### One definition before all others -/

/-- The constructor is another one than `n`, and reached from `c` without passing `n`. -/
def Before (g : Protos) (n c a : CtorId) : Prop :=
  a ≠ n ∧ Relation.ReflTransGen (fun x y => x ≠ n ∧ g.LinksTo x y) c a

/-- The constructor `n` shows the type for a name in whichever way it is looked at, and nothing that
is reached before it shows the name. -/
structure Screens (g : Protos) (name : String) (c n : CtorId) (t : Ty) : Prop where
  reached : g.Leads c n
  own : n = c → g.method? n name = some t
  listed : n ≠ c → (g.method? n name).or (g.ownField? n name) = some t
  shared : ∀ a, g.Before n c a → g.Shares a n → g.method? n name = some t
  parent : ∀ a, g.Before n c a → g.HasParent a n →
    (g.ownField? n name).or (g.method? n name) = some t
  methods : ∀ a, g.Before n c a → g.method? a name = none
  fields : ∀ a, g.Before n c a → a ≠ c → g.ownField? a name = none
  /-- The own fields of the first constructor count only where it is a parent in turn. -/
  around : ∀ a, g.Before n c a → g.HasParent a c → g.ownField? c name = none

/-- One definition of the name screens all others, or none is reached. -/
def Settled (g : Protos) (name : String) (c : CtorId) : Prop :=
  (∃ n t, g.Screens name c n t) ∨
    ∀ a, g.Leads c a → g.method? a name = none ∧ (a ≠ c → g.ownField? a name = none) ∧
      (g.HasParent a c → g.ownField? c name = none)

theorem Before.step (hbefore : g.Before n c a) (hlink : g.LinksTo a b) (hne : b ≠ n) :
    g.Before n c b :=
  ⟨hne, hbefore.2.tail ⟨hbefore.1, hlink⟩⟩

theorem Before.start (hne : c ≠ n) : g.Before n c c :=
  ⟨hne, .refl⟩

theorem Before.leads (hbefore : g.Before n c a) : g.Leads c a :=
  Relation.ReflTransGen.mono (fun _ _ hlink => hlink.2) c a hbefore.2

/-- The first time that a constructor is reached, it is from one before it. -/
theorem Leads.exists_before (hleads : g.Leads c n) (hne : n ≠ c) :
    ∃ a, g.Before n c a ∧ g.LinksTo a n := by
  -- Follow the links for as long as they stay before `n`.
  have hreaches (b : CtorId) (hleads : g.Leads c b) :
      g.Before n c b ∨ ∃ a, g.Before n c a ∧ g.LinksTo a n := by
    induction hleads with
    | refl => exact .inl (.start hne.symm)
    | @tail a b _ hlast ih =>
      rcases ih with hbefore | hfound
      · by_cases hsame : b = n
        · exact .inr ⟨a, hbefore, hsame ▸ hlast⟩
        · exact .inl (hbefore.step hlast hsame)
      · exact .inr hfound
  exact (hreaches n hleads).resolve_left fun hbefore => hbefore.1 rfl

/-- What is no further away than a constructor is reached before it. -/
theorem Path.before {m : Nat} (hpath : g.Path c m a) (hnear : m ≤ g.distance c n) (hne : a ≠ n) :
    g.Before n c a := by
  induction hpath with
  | refl => exact .start hne
  | @tail m a b hpath' hlast ih =>
    -- A path through `n` would be longer than the distance of `n`.
    have hunlike : a ≠ n := by
      rintro rfl
      exact absurd (distance_le hpath') (Nat.not_le.mpr hnear)
    exact (ih (Nat.le_of_succ_le hnear) hunlike).step hlast hne

/-! ### Depth first -/

/-- Working through the list, whatever is found first is the given type: up to a place that shows
it, all constructors are reached before `n`. -/
def Guarded (g : Protos) (name : String) (c n : CtorId) (t : Ty) : List Pending → Prop
  | [] => True
  | .fields p :: work =>
    (∀ u, g.ownField? p name = some u → u = t) ∧
      (g.ownField? p name = none → Guarded g name c n t work)
  | .chain id :: work =>
    id = n ∧ g.method? n name = some t ∨ g.Before n c id ∧ Guarded g name c n t work

theorem Screens.guarded_shares (hscreens : g.Screens name c n t) (hbefore : g.Before n c a)
    {work : List Pending} (hrest : g.Guarded name c n t work) {ids : List CtorId}
    (heach : ∀ b ∈ ids, g.Shares a b) :
    g.Guarded name c n t ((ids.map Link.share).flatMap Link.pending ++ work) := by
  induction ids with
  | nil => exact hrest
  | cons b ids ih =>
    obtain ⟨hshares, heach⟩ := List.forall_mem_cons.mp heach
    by_cases hsame : b = n
    · exact .inl ⟨hsame, hscreens.shared a hbefore (hsame ▸ hshares)⟩
    · exact .inr ⟨hbefore.step (.inl hshares) hsame, ih heach⟩

theorem Screens.guarded_parents (hscreens : g.Screens name c n t) (hbefore : g.Before n c a)
    {work : List Pending} (hrest : g.Guarded name c n t work) {ids : List CtorId}
    (heach : ∀ p ∈ ids, g.HasParent a p) :
    g.Guarded name c n t ((ids.map Link.parent).flatMap Link.pending ++ work) := by
  induction ids with
  | nil => exact hrest
  | cons p ids ih =>
    obtain ⟨hparent, heach⟩ := List.forall_mem_cons.mp heach
    by_cases hsame : p = n
    · -- Its own fields are looked at first, so its methods count only when they lack the name.
      subst hsame
      have hshows := hscreens.parent a hbefore hparent
      refine ⟨fun u hown => ?_, fun habsent => .inl ⟨rfl, ?_⟩⟩
      · rw [hown, Option.some_or] at hshows
        exact Option.some.inj hshows
      · rwa [habsent, Option.none_or] at hshows
    · have hbefore' := hbefore.step (.inr hparent) hsame
      have habsent : g.ownField? p name = none := by
        by_cases hfirst : p = c
        · subst hfirst
          exact hscreens.around a hbefore hparent
        · exact hscreens.fields p hbefore' hfirst
      exact ⟨fun u hown => absurd (hown.symm.trans habsent) nofun,
        fun _ => .inr ⟨hbefore', ih heach⟩⟩

/-- The links of a constructor before `n` keep the search guarded. -/
theorem Screens.guarded_links (hscreens : g.Screens name c n t) (hbefore : g.Before n c a)
    {k : Ctor} (hget : g.ctors[a]? = some k) {work : List Pending}
    (hrest : g.Guarded name c n t work) :
    g.Guarded name c n t ((links k).flatMap Link.pending ++ work) := by
  rw [links, List.flatMap_append, List.append_assoc]
  have hparents := hscreens.guarded_parents hbefore hrest fun p hmem => ⟨k, hget, hmem⟩
  exact hscreens.guarded_shares hbefore hparents fun b hmem => ⟨k, hget, hmem⟩

/-- A guarded search finds nothing but the given type. -/
theorem Scans.guarded {visited : List CtorId} {work : List Pending} {r : Option Ty}
    (h : g.Scans name visited work r) (hscreens : g.Screens name c n t) (hunseen : n ∉ visited)
    (hguarded : g.Guarded name c n t work) {u : Ty} (hfound : r = some u) : u = t := by
  induction h with
  | done => cases hfound
  | shown hown =>
    cases hfound
    exact hguarded.1 u hown
  | lacking habsent _ ih => exact ih hunseen (hguarded.2 habsent) hfound
  | again hseen _ ih =>
    rcases hguarded with ⟨rfl, -⟩ | ⟨-, hrest⟩
    · exact absurd hseen hunseen
    · exact ih hunseen hrest hfound
  | own _ hown =>
    cases hfound
    rcases hguarded with ⟨rfl, hshows⟩ | ⟨hbefore, -⟩
    · exact Option.some.inj (hown.symm.trans hshows)
    · exact absurd (hown.symm.trans (hscreens.methods _ hbefore)) nofun
  | behind _ hget habsent _ ih =>
    rcases hguarded with ⟨rfl, hshows⟩ | ⟨hbefore, hrest⟩
    · exact absurd (hshows.symm.trans habsent) nofun
    · have hunseen' := List.not_mem_cons_of_ne_of_not_mem hbefore.1.symm hunseen
      exact ih hunseen' (hscreens.guarded_links hbefore hget hrest) hfound

/-- The screening definition is among what the search looks at. -/
theorem Screens.offers (hscreens : g.Screens name c n t) :
    ∃ a, g.Leads c a ∧ g.Offers name a t := by
  by_cases hsame : n = c
  · exact ⟨n, hscreens.reached, .inl (hscreens.own hsame)⟩
  · obtain ⟨a, hbefore, hshares | hparent⟩ := hscreens.reached.exists_before hsame
    · exact ⟨n, hscreens.reached, .inl (hscreens.shared a hbefore hshares)⟩
    · rcases Option.or_eq_some_iff.mp (hscreens.parent a hbefore hparent) with hown | ⟨-, hown⟩
      · exact ⟨a, hbefore.leads, .inr ⟨n, hparent, hown⟩⟩
      · exact ⟨n, hscreens.reached, .inl hown⟩

/-- The search finds the definition that screens all others. -/
theorem Screens.dispatched (hscreens : g.Screens name c n t) {found : Option Ty}
    (hscans : g.Scans name [] [.chain c] found) : found = some t := by
  have hstart : g.Guarded name c n t [.chain c] := by
    by_cases hsame : n = c
    · exact .inl ⟨hsame.symm, hscreens.own hsame⟩
    · exact .inr ⟨.start (Ne.symm hsame), trivial⟩
  obtain ⟨a, hleads, hoffers⟩ := hscreens.offers
  obtain ⟨u, rfl⟩ := Option.isSome_iff_exists.mp (hscans.isSome_iff.mpr ⟨a, t, hleads, hoffers⟩)
  rw [hscans.guarded hscreens List.not_mem_nil hstart rfl]

/-! ### Level by level -/

/-- The member shown under a name is the method of the constructor, and else what the first ancestor
has, a method before an own field. -/
theorem prototypeMembers_get? {reached : List CtorId} {members : Fields}
    (hlisted : g.ancestors c = .ok reached) (heq : g.prototypeMembers c = .ok members)
    (name : String) :
    OrdMap.get? members name = (g.method? c name).or
      (reached.findSome? fun a => (g.method? a name).or (g.ownField? a name)) := by
  have hshows (a : CtorId) : (g.ctors[a]?.bind fun k =>
      [k.methods, k.ownFields].findSome? fun m => OrdMap.get? m name) =
        (g.method? a name).or (g.ownField? a name) := by
    rw [method?, ownField?]
    cases g.ctors[a]? with
    | none => rfl
    | some k =>
      simp only [Option.bind_some, List.findSome?_cons, List.findSome?_nil]
      cases OrdMap.get? k.methods name <;> cases OrdMap.get? k.ownFields name <;> rfl
  rw [collect_get? hlisted heq, ← method?]
  simp only [hshows]

/-- A name is shown exactly when the constructor has a method of the name, or an ancestor a method
or an own field. -/
theorem prototypeMembers_isSome_iff {reached : List CtorId} {members : Fields}
    (hbeyond : g.Beyond c 0 reached) (hlisted : g.ancestors c = .ok reached)
    (heq : g.prototypeMembers c = .ok members) (name : String) :
    (OrdMap.get? members name).isSome = true ↔
      (∃ a, g.Leads c a ∧ (g.method? a name).isSome = true) ∨
        ∃ a, a ≠ c ∧ g.Leads c a ∧ (g.ownField? a name).isSome = true := by
  rw [prototypeMembers_get? hlisted heq, Option.isSome_or, Bool.or_eq_true,
    List.findSome?_isSome_iff]
  simp only [Option.isSome_or, Bool.or_eq_true, hbeyond.mem_iff_leads]
  constructor
  · rintro (hown | ⟨a, ⟨hne, hleads⟩, hown | hown⟩)
    · exact .inl ⟨c, .refl, hown⟩
    · exact .inl ⟨a, hleads, hown⟩
    · exact .inr ⟨a, hne, hleads, hown⟩
  · rintro (⟨a, hleads, hown⟩ | ⟨a, hne, hleads, hown⟩)
    · by_cases hsame : a = c
      · exact .inl (hsame ▸ hown)
      · exact .inr ⟨a, ⟨hsame, hleads⟩, .inl hown⟩
    · exact .inr ⟨a, ⟨hne, hleads⟩, .inr hown⟩

/-- Collecting level by level shows the definition that screens all others. -/
theorem Screens.collected (hscreens : g.Screens name c n t) {reached : List CtorId}
    {members : Fields} (hbeyond : g.Beyond c 0 reached) (hlisted : g.ancestors c = .ok reached)
    (heq : g.prototypeMembers c = .ok members) : OrdMap.get? members name = some t := by
  rw [prototypeMembers_get? hlisted heq]
  by_cases hsame : n = c
  · subst hsame
    rw [hscreens.own rfl, Option.some_or]
  · rw [hscreens.methods c (.start (Ne.symm hsame)), Option.none_or]
    obtain ⟨nearer, after, hcut⟩ :=
      List.append_of_mem (hbeyond.mem_iff_leads.mpr ⟨hsame, hscreens.reached⟩)
    have hnodup := hbeyond.nodup
    have hsorted := hbeyond.sorted
    rw [hcut] at hnodup hsorted
    refine List.findSome?_eq_some_iff.mpr ⟨nearer, n, after, hcut, hscreens.listed hsame, ?_⟩
    -- What is listed before `n` is no further away.
    intro b hmem
    obtain ⟨hne, hleads⟩ := hbeyond.mem_iff_leads.mp (hcut ▸ List.mem_append_left _ hmem)
    have hnear : g.distance c b ≤ g.distance c n :=
      (List.pairwise_append.mp hsorted).2.2 b hmem n List.mem_cons_self
    have hunlike : b ≠ n := (List.nodup_append.mp hnodup).2.2 b hmem n List.mem_cons_self
    have hbefore := hleads.path_distance.before hnear hunlike
    rw [hscreens.methods b hbefore, hscreens.fields b hbefore hne, Option.none_or]

/-! ### Both together -/

section Compared

variable {reached : List CtorId} {members : Fields} {found : Option Ty}

/-- What is found without being shown is an own field of the constructor itself. -/
theorem Scans.unshown (hscans : g.Scans name [] [.chain c] found) (hbeyond : g.Beyond c 0 reached)
    (hlisted : g.ancestors c = .ok reached) (heq : g.prototypeMembers c = .ok members)
    (hdispatched : found.isSome = true) (hunshown : OrdMap.get? members name = none) :
    (g.ownField? c name).isSome = true ∧ ∃ a, g.Leads c a ∧ g.HasParent a c := by
  have hmissing := (prototypeMembers_isSome_iff hbeyond hlisted heq name).not.mp
    (by simp [hunshown])
  obtain ⟨a, t, hleads, hown | ⟨p, hparent, hown⟩⟩ := hscans.isSome_iff.mp hdispatched
  · exact absurd (.inl ⟨a, hleads, by simp [hown]⟩) hmissing
  · have hsame : p = c := by
      by_contra hne
      exact hmissing (.inr ⟨p, hne, hleads.tail (.inr hparent), by simp [hown]⟩)
    subst hsame
    exact ⟨by simp [hown], a, hleads, hparent⟩

/-- What is shown without being found is an own field of an ancestor that is no parent. -/
theorem Scans.unfound (hscans : g.Scans name [] [.chain c] none) (hbeyond : g.Beyond c 0 reached)
    (hlisted : g.ancestors c = .ok reached) (heq : g.prototypeMembers c = .ok members)
    (hshown : (OrdMap.get? members name).isSome = true) :
    ∃ a, a ≠ c ∧ g.Leads c a ∧ (g.ownField? a name).isSome = true ∧
      ∀ b, g.Leads c b → ¬ g.HasParent b a := by
  rcases (prototypeMembers_isSome_iff hbeyond hlisted heq name).mp hshown with
    ⟨a, hleads, hown⟩ | ⟨a, hne, hleads, hown⟩
  · obtain ⟨t, hown⟩ := Option.isSome_iff_exists.mp hown
    exact absurd (.inl hown) (hscans.closed hleads)
  · refine ⟨a, hne, hleads, hown, fun b hleads' hparent => ?_⟩
    obtain ⟨t, hown⟩ := Option.isSome_iff_exists.mp hown
    exact hscans.closed hleads' (.inr ⟨a, hparent, hown⟩)

/-- Where one definition screens all others, or none is reached, both give the same. -/
theorem Settled.agree (hsettled : g.Settled name c) (hscans : g.Scans name [] [.chain c] found)
    (hbeyond : g.Beyond c 0 reached) (hlisted : g.ancestors c = .ok reached)
    (heq : g.prototypeMembers c = .ok members) : OrdMap.get? members name = found := by
  rcases hsettled with ⟨n, t, hscreens⟩ | hnothing
  · rw [hscreens.dispatched hscans, hscreens.collected hbeyond hlisted heq]
  · have hunshown : ¬ (OrdMap.get? members name).isSome = true := by
      rw [prototypeMembers_isSome_iff hbeyond hlisted heq]
      rintro (⟨a, hleads, hown⟩ | ⟨a, hne, hleads, hown⟩)
      · simp [(hnothing a hleads).1] at hown
      · simp [(hnothing a hleads).2.1 hne] at hown
    have hunfound : ¬ found.isSome = true := by
      rw [hscans.isSome_iff]
      rintro ⟨a, t, hleads, hown | ⟨p, hparent, hown⟩⟩
      · simp [(hnothing a hleads).1] at hown
      · by_cases hsame : p = c
        · subst hsame
          simp [(hnothing a hleads).2.2 hparent] at hown
        · simp [(hnothing p (hleads.tail (.inr hparent))).2.1 hsame] at hown
    rw [Option.not_isSome_iff_eq_none.mp hunshown, Option.not_isSome_iff_eq_none.mp hunfound]

end Compared

end Protos

/-- What a prototype object is shown with, against what looking a method up finds.  Both succeed
whatever cycles the links form, and they agree for every name of which one definition screens all
others, or none is reached.  A name that is found without being shown is an own field of the
constructor itself, which is in turn a parent of what it leads to; a name that is shown without
being found is an own field of an ancestor that is the parent of none. -/
theorem prototype_shown_as_dispatched (g : Protos) (hlinked : g.Linked) (c : CtorId)
    (hinside : c < g.ctors.size) :
    ∃ members, g.prototypeMembers c = .ok members ∧
      ∀ name, ∃ found, g.lookupMethod c name = .ok found ∧
        (g.Settled name c → OrdMap.get? members name = found) ∧
        (found.isSome = true → OrdMap.get? members name = none →
          (g.ownField? c name).isSome = true ∧ ∃ a, g.Leads c a ∧ g.HasParent a c) ∧
        ((OrdMap.get? members name).isSome = true → found = none →
          ∃ a, a ≠ c ∧ g.Leads c a ∧ (g.ownField? a name).isSome = true ∧
            ∀ b, g.Leads c b → ¬ g.HasParent b a) := by
  obtain ⟨reached, hlisted, -, hbeyond⟩ := Protos.ancestors_beyond hlinked hinside
  obtain ⟨members, heq⟩ := Protos.prototypeMembers_total hlinked hinside
  refine ⟨members, heq, fun name => ?_⟩
  obtain ⟨found, hfound_eq, hscans⟩ := Protos.lookupMethod_scans hlinked hinside name
  refine ⟨found, hfound_eq, fun hsettled => hsettled.agree hscans hbeyond hlisted heq,
    hscans.unshown hbeyond hlisted heq, fun hshown hunfound => ?_⟩
  subst hunfound
  exact hscans.unfound hbeyond hlisted heq hshown

/-- A class that extends another through a constructor in between, which shares the table of the
other: an instance of the one in between is the prototype. -/
def extension : Protos where
  ctors := #[⟨some "Snake", none, [1], [], [], [], true⟩,
    ⟨none, none, [], [2], [], [], false⟩,
    ⟨some "Animal", none, [], [], [("legs", .number)], [("name", .string)], true⟩]
  byClosure := .empty
  changes := 7

/-- A parent with a method and an own field of the same name. -/
def namesake : Protos where
  ctors := #[⟨some "B", none, [1], [], [], [], true⟩,
    ⟨some "A", none, [], [], [("x", .string)], [("x", .number)], true⟩]
  byClosure := .empty
  changes := 5

/-- The method of the other class is shown and found. -/
theorem prototype_shown_as_dispatched_extension :
    extension.Linked ∧ extension.Screens "legs" 0 2 .number ∧
      ∃ members, extension.prototypeMembers 0 = .ok members ∧
        extension.lookupMethod 0 "legs" = .ok (OrdMap.get? members "legs") := by
  have hlinked : extension.Linked := by decide
  have hfirst (b : CtorId) : extension.LinksTo 0 b ↔ b = 1 :=
    (Protos.linksTo_iff (a := 0) rfl).trans List.mem_singleton
  have hsecond (b : CtorId) : extension.LinksTo 1 b ↔ b = 2 :=
    (Protos.linksTo_iff (a := 1) rfl).trans List.mem_singleton
  have hbefore (a : CtorId) (h : extension.Before 2 0 a) : a = 0 ∨ a = 1 := by
    obtain ⟨hne, hsteps⟩ := h
    induction hsteps with
    | refl => exact .inl rfl
    | @tail x y _ hlast ih =>
      rcases ih hlast.1 with rfl | rfl
      · exact .inr ((hfirst y).mp hlast.2)
      · exact absurd ((hsecond y).mp hlast.2) hne
  have hscreens : extension.Screens "legs" 0 2 .number := {
    reached := .tail (.single ((hfirst 1).mpr rfl)) ((hsecond 2).mpr rfl)
    own := nofun
    listed := fun _ => rfl
    shared := fun _ _ _ => rfl
    parent := fun _ _ _ => rfl
    methods := fun a h => by rcases hbefore a h with rfl | rfl <;> rfl
    fields := fun a h _ => by rcases hbefore a h with rfl | rfl <;> rfl
    around := fun _ _ _ => rfl }
  obtain ⟨members, heq, heach⟩ := prototype_shown_as_dispatched extension hlinked 0 (by decide)
  obtain ⟨found, hfound_eq, hagree, -⟩ := heach "legs"
  exact ⟨hlinked, hscreens, members, heq, hagree (.inl ⟨2, _, hscreens⟩) ▸ hfound_eq⟩

/-- An own field of the class that is extended is shown on the prototype object, although a lookup
does not find it there; and what is shown may have another type than what is found. -/
theorem shown_unlike_dispatched :
    (∃ members, extension.prototypeMembers 0 = .ok members ∧
      extension.lookupMethod 0 "name" = .ok none ∧
        OrdMap.get? members "name" = some .string) ∧
    ∃ members, namesake.prototypeMembers 0 = .ok members ∧
      namesake.lookupMethod 0 "x" = .ok (some .number) ∧
        OrdMap.get? members "x" = some .string :=
  ⟨⟨_, rfl, rfl, rfl⟩, _, rfl, rfl, rfl⟩

end TypeFlow
