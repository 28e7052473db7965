import Mathlib
import TypeFlow.Proofs.Store.Links

/-!
# The ancestors of a constructor

Collecting what lies behind a constructor level by level lists every constructor that is reached,
each once and the nearest first.  Where several of them have a field, the instance gets that of the
nearest.

## Main Definitions

* `Protos.Frontier` - what is seen after so many levels, and the last of these levels
* `Protos.Beyond` - the constructors at a greater distance, nearest first

## Main Statements

* `Protos.Frontier.next` - one level leads to the next one
* `Protos.reachFrom_beyond` - all further levels, when there are enough of them
* `Protos.addFrom_get?` - what is collected under a name is what the first constructor shows
-/

namespace TypeFlow

namespace Protos

variable {g : Protos} {c a : CtorId} {n : Nat} {seen level ahead : List CtorId}

/-! ### One level -/

/-- A constructor at some distance is linked from one at the distance before. -/
theorem AtDistance.pred (h : g.AtDistance c (n + 1) a) :
    ∃ b, g.AtDistance c n b ∧ g.LinksTo b a := by
  obtain ⟨hpath, hshortest⟩ := h
  cases hpath with
  | @tail _ b _ hpath' hlast =>
    refine ⟨b, ⟨hpath', fun m hfewer hshorter => ?_⟩, hlast⟩
    exact hshortest (m + 1) (Nat.succ_lt_succ hfewer) (hshorter.tail hlast)

/-- Where a level is empty, there is nothing further away. -/
theorem AtDistance.nonempty {m : Nat} (h : g.AtDistance c m a) (hwithin : n ≤ m) :
    ∃ b, g.AtDistance c n b := by
  induction m generalizing a with
  | zero => exact ⟨a, Nat.le_zero.mp hwithin ▸ h⟩
  | succ m ih =>
    rcases Nat.eq_or_lt_of_le hwithin with rfl | hfewer
    · exact ⟨a, h⟩
    · obtain ⟨b, hatDistance, -⟩ := h.pred
      exact ih hatDistance (Nat.lt_succ_iff.mp hfewer)

theorem mem_foldl_links_iff {links found : List CtorId} {l : CtorId} :
    l ∈ links.foldl
        (fun acc l => if seen.contains l || acc.contains l then acc else acc ++ [l]) found ↔
      l ∈ found ∨ l ∉ seen ∧ l ∈ links := by
  induction links generalizing found with
  | nil => simp
  | cons k links ih =>
    rw [List.foldl_cons, ih]
    by_cases hsame : l = k
    · subst hsame
      split
      · next hheld =>
        simp only [Bool.or_eq_true, List.contains_iff_mem] at hheld
        simp only [List.mem_cons_self, and_true]
        tauto
      · next hfresh =>
        simp only [Bool.or_eq_true, List.contains_iff_mem, not_or] at hfresh
        simp [hfresh.1]
    · split <;> simp [hsame]

theorem nodup_foldl_links {links found : List CtorId} (hnodup : found.Nodup) :
    (links.foldl (fun acc l => if seen.contains l || acc.contains l then acc else acc ++ [l])
      found).Nodup := by
  induction links generalizing found with
  | nil => exact hnodup
  | cons k links ih =>
    refine ih ?_
    dsimp only
    split
    · exact hnodup
    · next hfresh =>
      simp only [Bool.or_eq_true, List.contains_iff_mem, not_or] at hfresh
      exact List.nodup_append.mpr ⟨hnodup, List.nodup_singleton k, fun x hmem y hsingle hsame =>
        hfresh.2 (List.mem_singleton.mp hsingle ▸ hsame ▸ hmem)⟩

/-- What the next level adds: every constructor that is linked from this one and not seen yet,
once. -/
theorem nextLevel_spec {found : List CtorId} (heq : g.nextLevel seen found level = .ok ahead)
    (hnodup : found.Nodup) :
    ahead.Nodup ∧ ∀ a, a ∈ ahead ↔ a ∈ found ∨ a ∉ seen ∧ ∃ l ∈ level, g.LinksTo l a := by
  induction level generalizing found with
  | nil =>
    cases heq
    simp [hnodup]
  | cons id rest ih =>
    rw [nextLevel] at heq
    split at heq
    · cases heq
    · next k hctor =>
      obtain ⟨hnodup', hmem_iff⟩ := ih heq (nodup_foldl_links hnodup)
      refine ⟨hnodup', fun a => ?_⟩
      rw [hmem_iff, mem_foldl_links_iff, ← linksTo_iff (ctor_eq_ok hctor)]
      simp only [List.mem_cons, exists_eq_or_imp]
      tauto

/-- The constructors seen are those within so many links, and the level holds those at just that
distance. -/
structure Frontier (g : Protos) (c : CtorId) (n : Nat) (seen level : List CtorId) : Prop where
  seen_iff : ∀ a, a ∈ seen ↔ ∃ m ≤ n, g.Path c m a
  level_iff : ∀ a, a ∈ level ↔ g.AtDistance c n a
  distinct : g.Distinct seen

theorem Frontier.start (hinside : c < g.ctors.size) : g.Frontier c 0 [c] [c] where
  seen_iff a := by
    simp [path_zero_iff]
  level_iff a := by
    simp [AtDistance, path_zero_iff]
  distinct := (Distinct.nil g).cons hinside List.not_mem_nil

theorem Frontier.next (hlinked : g.Linked) (h : g.Frontier c n seen level)
    (heq : g.nextLevel seen [] level = .ok ahead) :
    ahead.Nodup ∧ g.Frontier c (n + 1) (seen ++ ahead) ahead := by
  obtain ⟨hnodup, hmem_iff⟩ := nextLevel_spec heq List.nodup_nil
  have hfresh (a : CtorId) : a ∈ ahead ↔ a ∉ seen ∧ ∃ l ∈ level, g.LinksTo l a := by
    simpa using hmem_iff a
  -- What is one link further is at just that distance unless it was seen, which is to be nearer.
  have hlevel_iff (a : CtorId) : a ∈ ahead ↔ g.AtDistance c (n + 1) a := by
    rw [hfresh, h.seen_iff]
    constructor
    · rintro ⟨hunseen, l, hmem, hlink⟩
      refine ⟨((h.level_iff l).mp hmem).1.tail hlink, fun m hfewer hpath => hunseen ⟨m, ?_, hpath⟩⟩
      exact Nat.lt_succ_iff.mp hfewer
    · intro hdistance
      obtain ⟨b, hatDistance, hlink⟩ := hdistance.pred
      refine ⟨?_, b, (h.level_iff b).mpr hatDistance, hlink⟩
      rintro ⟨m, hwithin, hpath⟩
      exact hdistance.2 m (Nat.lt_succ_of_le hwithin) hpath
  refine ⟨hnodup, ⟨fun a => ?_, hlevel_iff, ⟨?_, fun a hmem => ?_⟩⟩⟩
  · rw [List.mem_append, h.seen_iff, hlevel_iff]
    constructor
    · rintro (⟨m, hwithin, hpath⟩ | hdistance)
      · exact ⟨m, Nat.le_succ_of_le hwithin, hpath⟩
      · exact ⟨n + 1, le_rfl, hdistance.1⟩
    · rintro ⟨m, hwithin, hpath⟩
      by_cases hatDistance : ∃ m ≤ n, g.Path c m a
      · exact .inl hatDistance
      · have hlast : m = n + 1 := by
          by_contra hne
          exact hatDistance ⟨m, by omega, hpath⟩
        exact .inr ⟨hlast ▸ hpath, fun k hfewer hshorter => hatDistance ⟨k, by omega, hshorter⟩⟩
  · exact List.nodup_append.mpr ⟨h.distinct.nodup, hnodup, fun a hmem b hmem' hsame =>
      ((hfresh b).mp hmem').1 (hsame ▸ hmem)⟩
  · rcases List.mem_append.mp hmem with hmem | hmem
    · exact h.distinct.inside a hmem
    · obtain ⟨-, l, -, hlink⟩ := (hfresh a).mp hmem
      exact hlink.inside hlinked

/-! ### All levels -/

/-- The constructors at a greater distance, each once and the nearest first. -/
structure Beyond (g : Protos) (c : CtorId) (n : Nat) (ids : List CtorId) : Prop where
  mem_iff : ∀ a, a ∈ ids ↔ ∃ m, n < m ∧ g.AtDistance c m a
  nodup : ids.Nodup
  sorted : ids.Pairwise fun a b => g.distance c a ≤ g.distance c b

theorem Beyond.nil (hempty : ∀ a, ¬ g.AtDistance c n a) : g.Beyond c n [] where
  mem_iff a := by
    refine ⟨nofun, ?_⟩
    rintro ⟨m, hlt, hdistance⟩
    obtain ⟨b, hdistance'⟩ := hdistance.nonempty hlt.le
    exact absurd hdistance' (hempty b)
  nodup := List.nodup_nil
  sorted := List.Pairwise.nil

/-- The constructors at the next distance come before those further away. -/
theorem Beyond.append {further : List CtorId} (h : g.Beyond c (n + 1) further)
    (hlevel_iff : ∀ a, a ∈ ahead ↔ g.AtDistance c (n + 1) a) (hnodup : ahead.Nodup) :
    g.Beyond c n (ahead ++ further) where
  mem_iff a := by
    rw [List.mem_append, hlevel_iff, h.mem_iff]
    constructor
    · rintro (hdistance | ⟨m, hbeyond, hdistance⟩)
      · exact ⟨n + 1, Nat.lt_succ_self n, hdistance⟩
      · exact ⟨m, Nat.lt_of_succ_lt hbeyond, hdistance⟩
    · rintro ⟨m, hbeyond, hdistance⟩
      rcases Nat.eq_or_lt_of_le (Nat.succ_le_of_lt hbeyond) with rfl | hbeyond
      · exact .inl hdistance
      · exact .inr ⟨m, hbeyond, hdistance⟩
  nodup := by
    refine List.nodup_append.mpr ⟨hnodup, h.nodup, fun a hmem b hmem' hsame => ?_⟩
    subst hsame
    obtain ⟨m, hbeyond, hdistance⟩ := (h.mem_iff a).mp hmem'
    have := ((hlevel_iff a).mp hmem).distance_eq.symm.trans hdistance.distance_eq
    omega
  sorted := by
    have hnear (a : CtorId) (hmem : a ∈ ahead) : g.distance c a = n + 1 :=
      ((hlevel_iff a).mp hmem).distance_eq
    refine List.pairwise_append.mpr ⟨?_, h.sorted, fun a hmem b hmem' => ?_⟩
    · exact List.pairwise_of_forall_mem_list fun a hmem b hmem' => by
        rw [hnear a hmem, hnear b hmem']
    · obtain ⟨m, hbeyond, hdistance⟩ := (h.mem_iff b).mp hmem'
      rw [hnear a hmem, hdistance.distance_eq]
      exact hbeyond.le

theorem reachFrom_nil (g : Protos) (levels : Nat) (seen : List CtorId) :
    g.reachFrom levels seen [] = .ok [] := by
  cases levels <;> rfl

/-- Going on from a level lists everything further away, when there are enough levels left for the
constructors not seen yet; more levels change nothing. -/
theorem reachFrom_beyond (hlinked : g.Linked) {levels : Nat} {reached : List CtorId}
    (h : g.Frontier c n seen level) (henough : level = [] ∨ g.ctors.size < levels + seen.length)
    (heq : g.reachFrom levels seen level = .ok reached) :
    (∀ more, g.reachFrom (levels + more) seen level = .ok reached) ∧ g.Beyond c n reached := by
  induction levels generalizing n seen level reached with
  | zero =>
    cases level with
    | nil =>
      cases heq
      refine ⟨fun more => reachFrom_nil g _ seen, .nil fun a hdistance => ?_⟩
      exact absurd ((h.level_iff a).mpr hdistance) List.not_mem_nil
    | cons id rest =>
      -- More constructors would be seen than there are.
      have := h.distinct.length_le
      have := henough.resolve_left nofun
      omega
  | succ levels ih =>
    cases level with
    | nil =>
      rw [reachFrom_nil] at heq
      cases heq
      refine ⟨fun more => reachFrom_nil g _ seen, .nil fun a hdistance => ?_⟩
      exact absurd ((h.level_iff a).mpr hdistance) List.not_mem_nil
    | cons id rest =>
      rw [reachFrom] at heq
      split at heq
      · cases heq
      · next ahead hstepped =>
        split at heq
        · cases heq
        · next further hlater =>
          cases heq
          obtain ⟨hnodup, hfrontier⟩ := h.next hlinked hstepped
          -- each further level adds a constructor at least, so the levels that are left suffice
          have henough' : ahead = [] ∨ g.ctors.size < levels + (seen ++ ahead).length := by
            cases ahead with
            | nil => exact .inl rfl
            | cons l ls =>
              have := henough.resolve_left nofun
              right
              rw [List.length_append, List.length_cons]
              omega
          obtain ⟨hstable, hbeyond⟩ := ih hfrontier henough' hlater
          refine ⟨fun more => ?_, hbeyond.append hfrontier.level_iff hnodup⟩
          rw [Nat.add_right_comm, reachFrom, hstepped]
          dsimp only
          rw [hstable more]

/-- The ancestors of a constructor are those beyond no link, and more levels change nothing. -/
theorem ancestors_beyond (hlinked : g.Linked) (hinside : c < g.ctors.size) :
    ∃ reached, g.ancestors c = .ok reached ∧
      (∀ levels, g.ctors.size < levels → g.reachFrom levels [c] [c] = .ok reached) ∧
      g.Beyond c 0 reached := by
  obtain ⟨reached, heq, -⟩ := ancestors_total hlinked hinside
  have henough : [c] = [] ∨ g.ctors.size < g.ctors.size + 1 + [c].length := by
    right
    simp
  obtain ⟨hstable, hbeyond⟩ := reachFrom_beyond hlinked (.start hinside) henough heq
  refine ⟨reached, heq, fun levels hmore => ?_, hbeyond⟩
  obtain ⟨extra, rfl⟩ := Nat.exists_eq_add_of_lt hmore
  rw [Nat.add_right_comm]
  exact hstable extra

/-- The ancestors are the other constructors that are reached. -/
theorem Beyond.mem_iff_leads {reached : List CtorId} (h : g.Beyond c 0 reached) :
    a ∈ reached ↔ a ≠ c ∧ g.Leads c a := by
  rw [h.mem_iff]
  constructor
  · rintro ⟨m, hbeyond, hdistance⟩
    refine ⟨?_, leads_iff_path.mpr ⟨m, hdistance.1⟩⟩
    rintro rfl
    exact hdistance.2 0 hbeyond .refl
  · rintro ⟨hne, hleads⟩
    refine ⟨g.distance c a, Nat.pos_of_ne_zero fun hzero => ?_, hleads.atDistance⟩
    exact hne (path_zero_iff.mp (hzero ▸ hleads.path_distance))

/-- The constructor itself comes before its ancestors. -/
theorem Beyond.sorted_cons {reached : List CtorId} (h : g.Beyond c 0 reached) :
    (c :: reached).Pairwise fun a b => g.distance c a ≤ g.distance c b := by
  refine List.pairwise_cons.mpr ⟨fun a _ => ?_, h.sorted⟩
  rw [distance_self]
  exact Nat.zero_le _

/-! ### Collecting -/

theorem get?_foldl_addMissing (acc : Fields) (maps : List Fields) (name : String) :
    OrdMap.get? (maps.foldl OrdMap.addMissing acc) name =
      (OrdMap.get? acc name).or (maps.findSome? fun m => OrdMap.get? m name) := by
  induction maps generalizing acc with
  | nil => simp
  | cons m maps ih =>
    rw [List.foldl_cons, ih, OrdMap.get?_addMissing, Option.or_assoc, List.findSome?_cons]
    cases OrdMap.get? m name <;> simp

/-- What is collected under a name: what was there before, and else what the first constructor that
shows the name shows. -/
theorem addFrom_get? {shown : Ctor → List Fields} {acc fields : Fields} {ids : List CtorId}
    (heq : g.addFrom shown acc ids = .ok fields) (name : String) :
    OrdMap.get? fields name =
      (OrdMap.get? acc name).or (ids.findSome? fun a =>
        g.ctors[a]?.bind fun k => (shown k).findSome? fun m => OrdMap.get? m name) := by
  induction ids generalizing acc with
  | nil =>
    cases heq
    simp
  | cons id rest ih =>
    rw [addFrom] at heq
    split at heq
    · cases heq
    · next k hctor =>
      rw [ih heq, get?_foldl_addMissing, Option.or_assoc, List.findSome?_cons, ctor_eq_ok hctor,
        Option.bind_some]
      cases (shown k).findSome? fun m => OrdMap.get? m name <;> simp

theorem collect_get? {shown : Ctor → List Fields} {own : Ctor → Fields} {reached : List CtorId}
    {fields : Fields} (hlisted : g.ancestors c = .ok reached)
    (heq : (do let k ← g.ctor c; g.addFrom shown (own k) (← g.ancestors c)) = .ok fields)
    (name : String) :
    OrdMap.get? fields name =
      (g.ctors[c]?.bind fun k => OrdMap.get? (own k) name).or (reached.findSome? fun a =>
        g.ctors[a]?.bind fun k => (shown k).findSome? fun m => OrdMap.get? m name) := by
  rw [collect_eq, hlisted] at heq
  split at heq
  · cases heq
  · next k hctor => rw [addFrom_get? heq, ctor_eq_ok hctor, Option.bind_some]

/-- The field of an instance under a name is that of the first constructor that has one. -/
theorem instanceFields_get? {reached : List CtorId} {fields : Fields}
    (hlisted : g.ancestors c = .ok reached) (heq : g.instanceFields c = .ok fields)
    (name : String) :
    OrdMap.get? fields name = (c :: reached).findSome? fun a => g.ownField? a name := by
  have hown (a : CtorId) : (g.ctors[a]?.bind fun k =>
      [k.ownFields].findSome? fun m => OrdMap.get? m name) = g.ownField? a name := by
    simp only [ownField?, List.findSome?_singleton]
  rw [collect_get? hlisted heq, List.findSome?_cons, ← ownField?]
  simp only [hown]
  cases g.ownField? c name <;> rfl

/-- The first constructor in the list that has a field is as near as any that is reached. -/
theorem Beyond.first_nearest {reached before after : List CtorId} (h : g.Beyond c 0 reached)
    {P : CtorId → Prop} (hcut : c :: reached = before ++ a :: after) (hlack : ∀ b ∈ before, ¬ P b)
    {b : CtorId} (hleads : g.Leads c b) (hhas : P b) : g.distance c a ≤ g.distance c b := by
  have hlisted : b ∈ c :: reached := by
    by_cases hsame : b = c
    · exact hsame ▸ List.mem_cons_self
    · exact List.mem_cons_of_mem c (h.mem_iff_leads.mpr ⟨hsame, hleads⟩)
  have hsorted := h.sorted_cons
  rw [hcut] at hlisted hsorted
  obtain ⟨-, hsorted, -⟩ := List.pairwise_append.mp hsorted
  rcases List.mem_append.mp hlisted with hmem | hmem
  · exact absurd hhas (hlack b hmem)
  · rcases List.mem_cons.mp hmem with rfl | hmem
    · exact le_rfl
    · exact (List.pairwise_cons.mp hsorted).1 b hmem

end Protos

/-- The ancestors of a constructor are the other constructors that its links lead to, each listed
once, and a nearer one before one further away; this holds whatever cycles the links form, and any
number of levels beyond the number of constructors gives the same list.  An instance has the fields
that the constructor or an ancestor writes.  It takes the type from the constructor, if that has the
field, and otherwise from the first listed ancestor that has it, which is as near as any. -/
theorem ancestors_nearest_first (g : Protos) (hlinked : g.Linked) (c : CtorId)
    (hinside : c < g.ctors.size) :
    ∃ reached fields, g.ancestors c = .ok reached ∧ g.instanceFields c = .ok fields ∧
      (∀ levels, g.ctors.size < levels → g.reachFrom levels [c] [c] = .ok reached) ∧
      reached.Nodup ∧ (∀ a, a ∈ reached ↔ a ≠ c ∧ g.Leads c a) ∧
      reached.Pairwise (fun a b => g.distance c a ≤ g.distance c b) ∧
      ∀ x : String,
        ((OrdMap.get? fields x).isSome = true ↔
          ∃ a ∈ c :: reached, (g.ownField? a x).isSome = true) ∧
        (∀ t, g.ownField? c x = some t → OrdMap.get? fields x = some t) ∧
        ∀ t, g.ownField? c x = none → OrdMap.get? fields x = some t →
          ∃ before a after, reached = before ++ a :: after ∧
            (∀ b ∈ before, g.ownField? b x = none) ∧ g.ownField? a x = some t ∧
            ∀ b, g.Leads c b → (g.ownField? b x).isSome = true →
              g.distance c a ≤ g.distance c b := by
  obtain ⟨reached, hlisted, hstable, hbeyond⟩ := Protos.ancestors_beyond hlinked hinside
  obtain ⟨fields, hcollected⟩ := Protos.instanceFields_total hlinked hinside
  refine ⟨reached, fields, hlisted, hcollected, hstable, hbeyond.nodup,
    fun a => hbeyond.mem_iff_leads, hbeyond.sorted, fun x => ?_⟩
  have hfirst := Protos.instanceFields_get? hlisted hcollected x
  refine ⟨?_, fun t hown => ?_, fun t habsent hfound => ?_⟩
  · rw [hfirst, List.findSome?_isSome_iff]
  · rw [hfirst, List.findSome?_cons, hown]
  -- the first in the list that has the field is a nearest one, as the list is sorted by distance
  · rw [hfirst, List.findSome?_cons, habsent] at hfound
    obtain ⟨before, a, after, hcut, hown, hlack⟩ := List.findSome?_eq_some_iff.mp hfound
    have hcut' : c :: reached = c :: before ++ a :: after := by rw [hcut, List.cons_append]
    have hlack' : ∀ b ∈ c :: before, ¬ (g.ownField? b x).isSome = true :=
      List.forall_mem_cons.mpr ⟨by simp [habsent], fun b hmem => by simp [hlack b hmem]⟩
    exact ⟨before, a, after, hcut, hlack, hown, fun b => hbeyond.first_nearest hcut' hlack'⟩

/-- Five constructors: the first leads to the second and the third, both of which lead to the
fourth, and that to the last one and back to the first. -/
def crossroads : Protos where
  ctors := #[⟨some "A", none, [2], [1], [], [], false⟩,
    ⟨some "B", none, [3], [], [], [], false⟩,
    ⟨some "C", none, [3], [4], [], [], false⟩,
    ⟨some "D", none, [0, 4], [], [], [("x", .number)], false⟩,
    ⟨some "E", none, [], [], [], [("x", .string)], false⟩]
  byClosure := .empty
  changes := 11

/-- From the first constructor, the last one is as near as the fourth, but listed after it; from the
third it is listed first, since shared tables come before parents. -/
theorem ancestors_nearest_first_crossroads :
    crossroads.Linked ∧ crossroads.ancestors 0 = .ok [1, 2, 3, 4] ∧
      crossroads.ancestors 2 = .ok [4, 3, 0, 1] ∧
      ∃ fields, crossroads.instanceFields 0 = .ok fields ∧
        (OrdMap.get? fields "x").isSome = true := by
  have hlinked : crossroads.Linked := by decide
  obtain ⟨reached, fields, hlisted, hcollected, -, -, -, -, heach⟩ :=
    ancestors_nearest_first crossroads hlinked 0 (by decide)
  have hsame : crossroads.ancestors 0 = .ok [1, 2, 3, 4] := rfl
  refine ⟨hlinked, hsame, rfl, fields, hcollected, (heach "x").1.mpr ?_⟩
  cases hlisted.symm.trans hsame
  exact ⟨3, by decide, by decide⟩

end TypeFlow
