import Mathlib
import TypeFlow.Proofs.Script.Captures

/-!
# Repeated identities

A statement of a program is flagged exactly when one of its nodes repeats an identity, of a
statement before it or of a node before it in the same statement.  A program without its flagged
statements has no flagged statements.

## Main Definitions

* `RepeatsAt` - a node repeats the identity of one before it
* `FirstRepeat` - the first node that does
* `Program.flags` - for each statement what it is flagged with
* `Program.unflagged` - a program without its flagged statements

## Main Statements

* `Program.duplicates_eq_numbered` - the positions of the flagged statements, and their flags
* `Program.mem_duplicates_iff`, `Program.not_mem_duplicates_iff` - what is flagged
* `Program.duplicates_eq_nil_iff` - no statement is flagged when all identities are different
* `Program.zip_flags_unflagged`, `Program.tidy_unflagged` - the statements that are left are not
  flagged, and repeat no identity
-/

namespace TypeFlow

/-- The node at place `k` carries an identity that is among `seen`, or that a node before it
carries. -/
def RepeatsAt (seen : List NodeId) (ns : List Node) (k : Nat) : Prop :=
  ∃ n, ns[k]? = some n ∧ (n.id ∈ seen ∨ n.id ∈ (ns.take k).map Node.id)

/-- The first node that repeats an identity. -/
def FirstRepeat (seen : List NodeId) (ns : List Node) (n : Node) : Prop :=
  ∃ k, ns[k]? = some n ∧ RepeatsAt seen ns k ∧ ∀ j < k, ¬ RepeatsAt seen ns j

section Repeats

variable {seen seen' : List NodeId} {ns : List Node} {n : Node} {k : Nat}

theorem repeatsAt_zero : RepeatsAt seen (n :: ns) 0 ↔ n.id ∈ seen := by
  constructor
  · rintro ⟨m, hfound, hprev | hearlier⟩
    · cases hfound
      exact hprev
    · cases hearlier
  · exact fun hprev => ⟨n, rfl, Or.inl hprev⟩

theorem repeatsAt_succ : RepeatsAt seen (n :: ns) (k + 1) ↔ RepeatsAt (n.id :: seen) ns k := by
  simp only [RepeatsAt, List.getElem?_cons_succ, List.take_succ_cons, List.map_cons, List.mem_cons]
  refine exists_congr fun m => and_congr_right fun _ => ?_
  rw [or_left_comm, or_assoc]

/-- With more identities seen before, more nodes repeat one. -/
theorem RepeatsAt.mono (h : RepeatsAt seen ns k) (hsub : seen ⊆ seen') : RepeatsAt seen' ns k := by
  obtain ⟨n, hfound, hbefore⟩ := h
  exact ⟨n, hfound, hbefore.imp_left fun hprev => hsub hprev⟩

/-- Only the set of identities that were seen matters. -/
theorem firstRepeated?_congr (hsame : ∀ id, id ∈ seen ↔ id ∈ seen') :
    firstRepeated? seen ns = firstRepeated? seen' ns := by
  induction ns generalizing seen seen' with
  | nil => rfl
  | cons n rest ih =>
    have hlater : firstRepeated? (n.id :: seen) rest = firstRepeated? (n.id :: seen') rest :=
      ih fun id => by rw [List.mem_cons, List.mem_cons, hsame]
    simp only [firstRepeated?, List.contains_iff_mem, hsame, hlater]

/-- No node repeats an identity. -/
theorem firstRepeated?_eq_none_iff :
    firstRepeated? seen ns = none ↔ ∀ k, ¬ RepeatsAt seen ns k := by
  induction ns generalizing seen with
  | nil =>
    refine ⟨fun _ k => ?_, fun _ => rfl⟩
    rintro ⟨n, hfound, -⟩
    cases hfound
  | cons n rest ih =>
    rw [firstRepeated?]
    by_cases hprev : n.id ∈ seen
    · rw [if_pos (List.contains_iff_mem.mpr hprev)]
      refine ⟨fun heq => ?_, fun hnone => absurd (repeatsAt_zero.mpr hprev) (hnone 0)⟩
      cases heq
    · rw [if_neg fun hcontains => hprev (List.contains_iff_mem.mp hcontains), ih]
      constructor
      · intro hlater k
        cases k with
        | zero => exact fun hcontains => hprev (repeatsAt_zero.mp hcontains)
        | succ k => exact fun hcontains => hlater k (repeatsAt_succ.mp hcontains)
      · exact fun hnone k hcontains => hnone (k + 1) (repeatsAt_succ.mpr hcontains)

/-- The first node that is found to repeat an identity is the first that does. -/
theorem firstRepeated?_eq_some_iff : firstRepeated? seen ns = some n ↔ FirstRepeat seen ns n := by
  induction ns generalizing seen with
  | nil =>
    constructor
    · intro heq
      cases heq
    · rintro ⟨k, hfound, -⟩
      cases hfound
  | cons m rest ih =>
    rw [firstRepeated?]
    by_cases hprev : m.id ∈ seen
    · rw [if_pos (List.contains_iff_mem.mpr hprev)]
      constructor
      · rintro ⟨⟩
        exact ⟨0, rfl, repeatsAt_zero.mpr hprev, fun j hless => absurd hless (Nat.not_lt_zero j)⟩
      · rintro ⟨k, hfound, -, hnone⟩
        cases k with
        | zero => exact hfound
        | succ k => exact absurd (repeatsAt_zero.mpr hprev) (hnone 0 k.succ_pos)
    · rw [if_neg fun hcontains => hprev (List.contains_iff_mem.mp hcontains), ih]
      constructor
      · rintro ⟨k, hfound, hrepeatsAt, hnone⟩
        refine ⟨k + 1, hfound, repeatsAt_succ.mpr hrepeatsAt, fun j hless => ?_⟩
        cases j with
        | zero => exact fun hcontains => hprev (repeatsAt_zero.mp hcontains)
        | succ j =>
          exact fun hcontains => hnone j (Nat.lt_of_succ_lt_succ hless)
            (repeatsAt_succ.mp hcontains)
      · rintro ⟨k, hfound, hrepeatsAt, hnone⟩
        cases k with
        | zero => exact absurd (repeatsAt_zero.mp hrepeatsAt) hprev
        | succ k =>
          refine ⟨k, hfound, repeatsAt_succ.mp hrepeatsAt, fun j hless hcontains => ?_⟩
          exact hnone (j + 1) (Nat.succ_lt_succ hless) (repeatsAt_succ.mpr hcontains)

/-- Where nothing repeats, nothing does with less seen before. -/
theorem firstRepeated?_eq_none_mono (hnew : firstRepeated? seen' ns = none) (hsub : seen ⊆ seen') :
    firstRepeated? seen ns = none :=
  firstRepeated?_eq_none_iff.mpr fun k hrepeatsAt => firstRepeated?_eq_none_iff.mp hnew k
    (hrepeatsAt.mono hsub)

end Repeats

/-! ### Flagged statements -/

/-- For each statement in turn, the malformation when it repeats an identity. -/
def flagsFrom (seen : List NodeId) : List Stmt → List (Option Malformed)
  | [] => []
  | s :: rest => s.repeated? seen :: flagsFrom ((s.nodes true).map Node.id ++ seen) rest

/-- What is present in a list, with its position, counted from `i`. -/
def numbered {α : Type} (i : Nat) : List (Option α) → List (Nat × α)
  | [] => []
  | o :: os => o.toList.map (i, ·) ++ numbered (i + 1) os

section Numbered

variable {α : Type} {os : List (Option α)} {i : Nat}

/-- What is numbered stands at its number. -/
theorem mem_numbered {e : Nat × α} :
    e ∈ numbered i os ↔ ∃ j, e.1 = i + j ∧ os[j]? = some (some e.2) := by
  induction os generalizing i with
  | nil => simp [numbered]
  | cons o os ih =>
    rw [numbered, List.mem_append, ih, List.mem_map]
    constructor
    · rintro (⟨a, hmem, rfl⟩ | ⟨j, hat, hfound⟩)
      · exact ⟨0, rfl, congrArg some (Option.mem_toList.mp hmem)⟩
      · exact ⟨j + 1, by omega, hfound⟩
    · rintro ⟨j, hat, hfound⟩
      cases j with
      | zero =>
        refine .inl ⟨e.2, Option.mem_toList.mpr (Option.some.inj hfound), ?_⟩
        exact Prod.ext hat.symm rfl
      | succ j => exact .inr ⟨j, by omega, hfound⟩

/-- The positions ascend. -/
theorem numbered_ascending (i : Nat) (os : List (Option α)) :
    (numbered i os).Pairwise fun a b => a.1 < b.1 := by
  induction os generalizing i with
  | nil => exact .nil
  | cons o os ih =>
    refine List.pairwise_append.mpr ⟨?_, ih (i + 1), fun a hmem b hlater => ?_⟩
    · cases o with
      | none => exact .nil
      | some a => exact List.pairwise_singleton _ _
    · obtain ⟨v, -, rfl⟩ := List.mem_map.mp hmem
      obtain ⟨j, hat, -⟩ := mem_numbered.mp hlater
      exact hat ▸ by omega

/-- What is looked up at a position is what stands there. -/
theorem lookup_numbered (i : Nat) (os : List (Option α)) (j : Nat) :
    (numbered i os).lookup (i + j) = os[j]?.join := by
  induction os generalizing i j with
  | nil => rfl
  | cons o os ih =>
    have hlater (k : Nat) : (numbered (i + 1) os).lookup (i + (k + 1)) = os[k]?.join := by
      rw [show i + (k + 1) = i + 1 + k by omega, ih]
    cases o with
    | none =>
      rw [numbered, Option.toList_none, List.map_nil, List.nil_append]
      cases j with
      | zero =>
        refine List.lookup_eq_none_iff.mpr fun e hmem => ?_
        obtain ⟨k, hat, -⟩ := mem_numbered.mp hmem
        exact bne_iff_ne.mpr (by omega)
      | succ k => exact hlater k
    | some a =>
      rw [numbered, Option.toList_some, List.map_singleton, List.singleton_append, List.lookup_cons]
      cases j with
      | zero => rw [Nat.add_zero, beq_self_eq_true, List.getElem?_cons_zero, Option.join_some]
      | succ k =>
        have hbeq : (i + (k + 1) == i) = false := beq_eq_false_iff_ne.mpr (by omega)
        rw [hbeq, hlater]
        rfl

end Numbered

/-- The flagged statements are listed with their positions. -/
theorem duplicatesFrom_eq_numbered (seen : List NodeId) (i : Nat) (p : List Stmt) :
    duplicatesFrom seen i p = numbered i (flagsFrom seen p) := by
  induction p generalizing seen i with
  | nil => rfl
  | cons s rest ih => rw [duplicatesFrom, flagsFrom, numbered, ih]

theorem length_flagsFrom (seen : List NodeId) (p : List Stmt) :
    (flagsFrom seen p).length = p.length := by
  induction p generalizing seen with
  | nil => rfl
  | cons x rest ih => rw [flagsFrom, List.length_cons, List.length_cons, ih]

namespace Program

/-- For each statement of a program, what it is flagged with. -/
def flags (p : Program) : List (Option Malformed) :=
  (List.range p.length).map fun i => p.duplicates.lookup i

/-- The identities in the statements before the one at place `i`. -/
def idsBefore (p : Program) (i : Nat) : List NodeId :=
  (nodes (p.take i)).map Node.id

variable {p : Program} {i : Nat} {x : Stmt}

/-- The flagged statements are those with a flag, with their positions. -/
theorem duplicates_eq_numbered_flagsFrom (p : Program) :
    p.duplicates = numbered 0 (flagsFrom [] p) :=
  duplicatesFrom_eq_numbered [] 0 p

/-- The flags of a program come from a walk over its statements that collects identities. -/
theorem flags_eq_flagsFrom (p : Program) : p.flags = flagsFrom [] p := by
  have hlength := length_flagsFrom [] p
  refine List.ext_getElem? fun i => ?_
  rw [flags, List.getElem?_map, duplicates_eq_numbered_flagsFrom]
  by_cases hinside : i < p.length
  · have hfound : (flagsFrom [] p)[i]? = some (flagsFrom [] p)[i] := List.getElem?_eq_getElem _
    have hat := lookup_numbered 0 (flagsFrom [] p) i
    rw [Nat.zero_add, hfound, Option.join_some] at hat
    rw [List.getElem?_range hinside, Option.map_some, hat, hfound]
  · have houtside : p.length ≤ i := Nat.le_of_not_lt hinside
    rw [List.getElem?_eq_none (by rwa [List.length_range]),
      List.getElem?_eq_none (hlength ▸ houtside), Option.map_none]

theorem length_flags (p : Program) : p.flags.length = p.length := by
  rw [flags, List.length_map, List.length_range]

/-- The flagged statements are listed with their positions. -/
theorem duplicates_eq_numbered (p : Program) : p.duplicates = numbered 0 p.flags := by
  rw [flags_eq_flagsFrom, duplicates_eq_numbered_flagsFrom]

/-- A statement is flagged with the first of its nodes that repeats an identity. -/
theorem flagsFrom_getElem? {p : List Stmt} (hfound : p[i]? = some x) (seen : List NodeId) :
    (flagsFrom seen p)[i]? = some (x.repeated? (idsBefore p i ++ seen)) := by
  induction p generalizing i seen with
  | nil => cases hfound
  | cons y rest ih =>
    cases i with
    | zero =>
      cases hfound
      rfl
    | succ i =>
      have hsplit : idsBefore (y :: rest) (i + 1) =
          (y.nodes true).map Node.id ++ idsBefore rest i :=
        List.map_append
      refine (ih hfound ((y.nodes true).map Node.id ++ seen)).trans ?_
      rw [hsplit, Stmt.repeated?, Stmt.repeated?, firstRepeated?_congr fun id => ?_]
      simp only [List.mem_append]
      tauto

/-- What is listed for a statement is its malformation, when it repeats an identity. -/
theorem mem_duplicates_iff_repeated? (hfound : p[i]? = some x) {m : Malformed} :
    (i, m) ∈ p.duplicates ↔ x.repeated? (p.idsBefore i) = some m := by
  have hget := flagsFrom_getElem? hfound []
  rw [List.append_nil] at hget
  rw [duplicates_eq_numbered_flagsFrom, mem_numbered]
  constructor
  · rintro ⟨j, hat, hlisted⟩
    have hat : i = j := by simpa using hat
    subst hat
    exact Option.some.inj (hget.symm.trans hlisted)
  · exact fun hrepeated => ⟨i, (Nat.zero_add i).symm, hget.trans (congrArg some hrepeated)⟩

/-- A statement is flagged with the first of its nodes whose identity occurs before, in an earlier
statement or earlier in the same one. -/
theorem mem_duplicates_iff (hfound : p[i]? = some x) {m : Malformed} :
    (i, m) ∈ p.duplicates ↔
      ∃ n, FirstRepeat (p.idsBefore i) (x.nodes true) n ∧ m = ⟨.duplicateNodeId, n.id, n.span⟩ := by
  rw [mem_duplicates_iff_repeated? hfound, Stmt.repeated?, Option.map_eq_some_iff]
  refine exists_congr fun n => ?_
  rw [firstRepeated?_eq_some_iff]
  exact and_congr_right fun _ => eq_comm

/-- A statement is not flagged when no identity in it occurs before. -/
theorem not_mem_duplicates_iff (hfound : p[i]? = some x) :
    (∀ m, (i, m) ∉ p.duplicates) ↔ ∀ k, ¬ RepeatsAt (p.idsBefore i) (x.nodes true) k := by
  rw [← firstRepeated?_eq_none_iff, ← Option.map_eq_none_iff, Option.eq_none_iff_forall_ne_some]
  exact forall_congr' fun m => not_congr (mem_duplicates_iff_repeated? hfound)

/-- The flagged statements are listed by ascending positions, which are positions of the program. -/
theorem duplicates_positions (p : Program) :
    p.duplicates.Pairwise (fun a b => a.1 < b.1) ∧ ∀ e ∈ p.duplicates, e.1 < p.length := by
  rw [duplicates_eq_numbered]
  refine ⟨numbered_ascending 0 _, fun e hmem => ?_⟩
  obtain ⟨j, hat, hfound⟩ := mem_numbered.mp hmem
  have hinside := (List.getElem?_eq_some_iff.mp hfound).1
  rw [length_flags] at hinside
  omega

end Program

/-! ### Programs without flagged statements -/

/-- No node repeats an identity. -/
theorem firstRepeated?_eq_none_iff_tidy {seen : List NodeId} {ns : List Node} :
    firstRepeated? seen ns = none ↔ Tidy ns ∧ ∀ n ∈ ns, n.id ∉ seen := by
  induction ns generalizing seen with
  | nil => exact ⟨fun _ => ⟨List.nodup_nil, nofun⟩, fun _ => rfl⟩
  | cons n rest ih =>
    rw [firstRepeated?, Tidy, List.map_cons, List.nodup_cons, List.forall_mem_cons]
    by_cases hprev : n.id ∈ seen
    · rw [if_pos (List.contains_iff_mem.mpr hprev)]
      exact ⟨nofun, fun hboth => absurd hprev hboth.2.1⟩
    · rw [if_neg fun hcontains => hprev (List.contains_iff_mem.mp hcontains), ih]
      constructor
      · rintro ⟨htidy, hunseen⟩
        refine ⟨⟨fun hmem => ?_, htidy⟩, hprev, fun m hmem hseen => ?_⟩
        · obtain ⟨m, hinside, hsame⟩ := List.mem_map.mp hmem
          exact hunseen m hinside (hsame ▸ List.mem_cons_self)
        · exact hunseen m hmem (List.mem_cons_of_mem _ hseen)
      · rintro ⟨⟨hnew, htidy⟩, -, hunseen⟩
        refine ⟨htidy, fun m hmem hseen => ?_⟩
        rcases List.mem_cons.mp hseen with hsame | hseen
        · exact hnew (hsame ▸ List.mem_map_of_mem hmem)
        · exact hunseen m hmem hseen

/-- No statement is flagged exactly when all nodes have different identities. -/
theorem flagsFrom_none_iff {seen : List NodeId} {p : List Stmt} :
    (∀ flag ∈ flagsFrom seen p, flag = none) ↔
      Tidy (Stmt.nodesAll true p) ∧ ∀ n ∈ Stmt.nodesAll true p, n.id ∉ seen := by
  induction p generalizing seen with
  | nil => exact ⟨fun _ => ⟨List.nodup_nil, nofun⟩, fun _ => nofun⟩
  | cons x rest ih =>
    rw [flagsFrom, List.forall_mem_cons, ih, Stmt.repeated?, Option.map_eq_none_iff,
      firstRepeated?_eq_none_iff_tidy, Stmt.nodesAll, Tidy, Tidy, Tidy, List.map_append,
      List.nodup_append', List.forall_mem_append]
    have hapart : (∀ n ∈ Stmt.nodesAll true rest, n.id ∉ (x.nodes true).map Node.id ++ seen) ↔
        ((x.nodes true).map Node.id).Disjoint ((Stmt.nodesAll true rest).map Node.id) ∧
          ∀ n ∈ Stmt.nodesAll true rest, n.id ∉ seen := by
      simp only [List.mem_append, not_or, imp_and, forall_and, List.disjoint_right,
        List.forall_mem_map]
    rw [hapart]
    tauto

/-- No statement has a flag when all identities are different. -/
theorem Program.flags_none_iff {p : Program} : (∀ flag ∈ p.flags, flag = none) ↔ Tidy p.nodes := by
  rw [flags_eq_flagsFrom]
  exact flagsFrom_none_iff.trans (and_iff_left fun _ _ => List.not_mem_nil)

/-- No statement is listed exactly when all nodes have different identities. -/
theorem Program.duplicates_eq_nil_iff {p : Program} : p.duplicates = [] ↔ Tidy p.nodes := by
  rw [← flags_none_iff, duplicates_eq_numbered, List.eq_nil_iff_forall_not_mem]
  constructor
  · intro hnone flag hmem
    obtain ⟨i, hfound⟩ := List.mem_iff_getElem?.mp hmem
    cases flag with
    | none => rfl
    | some m => exact absurd (mem_numbered.mpr ⟨i, rfl, hfound⟩) (hnone (0 + i, m))
  · intro hnone e hmem
    obtain ⟨i, -, hfound⟩ := mem_numbered.mp hmem
    cases hnone _ (List.mem_of_getElem? hfound)

theorem Program.zip_flags_of_tidy {p : Program} (htidy : Tidy p.nodes) :
    p.zip p.flags = p.map (·, none) := by
  have hnone : p.flags = p.map fun _ => none := by
    rw [List.map_const', List.eq_replicate_iff]
    exact ⟨length_flags p, flags_none_iff.mpr htidy⟩
  rw [hnone, List.map_prod_left_eq_zip]

/-- A statement of a program that is not flagged has nodes with different identities. -/
theorem tidy_of_not_flagged {p : Program} {s : Stmt} (hmem : (s, none) ∈ p.zip p.flags) :
    Tidy (s.nodes true) := by
  have hflagged (seen : List NodeId) (p : List Stmt)
      (hmem : (s, none) ∈ p.zip (flagsFrom seen p)) : Tidy (s.nodes true) := by
    induction p generalizing seen with
    | nil => cases hmem
    | cons x rest ih =>
      rw [flagsFrom, List.zip_cons_cons] at hmem
      rcases List.mem_cons.mp hmem with hsame | hlater
      · obtain ⟨rfl, hfree⟩ := Prod.mk.inj hsame
        exact (firstRepeated?_eq_none_iff_tidy.mp (Option.map_eq_none_iff.mp hfree.symm)).1
      · exact ih _ hlater
  rw [Program.flags_eq_flagsFrom] at hmem
  exact hflagged [] p hmem

/-! ### Without the flagged statements -/

/-- What stands at the places that are not flagged. -/
def keptBy {α : Type} (flags : List (Option Malformed)) (xs : List α) : List α :=
  ((xs.zip flags).filter (·.2.isNone)).map (·.1)

section Kept

variable {α : Type} {flags : List (Option Malformed)} {x : α} {xs : List α}

theorem keptBy_none : keptBy (none :: flags) (x :: xs) = x :: keptBy flags xs := rfl

end Kept

/-- The statements of a program that are not flagged. -/
def Program.unflagged (p : Program) : Program :=
  keptBy p.flags p

/-- The statements that are kept are not flagged when they are looked at on their own: less was seen
before them. -/
theorem zip_flagsFrom_keptBy {seen seen' : List NodeId} (hsub : seen' ⊆ seen) (p : List Stmt) :
    let q := keptBy (flagsFrom seen p) p
    q.zip (flagsFrom seen' q) = (p.zip (flagsFrom seen p)).filter (·.2.isNone) := by
  induction p generalizing seen seen' with
  | nil => rfl
  | cons x rest ih =>
    rw [flagsFrom, List.zip_cons_cons, Stmt.repeated?]
    cases hflag : firstRepeated? seen (x.nodes true) with
    | some n => exact ih fun id hprev => List.mem_append_right _ (hsub hprev)
    | none =>
      have hnone := firstRepeated?_eq_none_mono hflag hsub
      have hsub' : (x.nodes true).map Node.id ++ seen' ⊆ (x.nodes true).map Node.id ++ seen :=
        List.append_subset.mpr
          ⟨List.subset_append_left _ _, List.subset_append_of_subset_right _ hsub⟩
      have hrest := ih hsub'
      rw [Option.map_none, keptBy_none, List.filter_cons_of_pos rfl, ← hrest]
      change List.zip _ (Option.map _ (firstRepeated? seen' (x.nodes true)) :: _) = _
      rw [hnone]
      rfl

/-- The statements that are left are not flagged. -/
theorem Program.zip_flags_unflagged (p : Program) :
    p.unflagged.zip p.unflagged.flags = (p.zip p.flags).filter (·.2.isNone) := by
  rw [flags_eq_flagsFrom, unflagged, flags_eq_flagsFrom]
  exact zip_flagsFrom_keptBy (List.Subset.refl []) p

/-- A statement without a flag is kept. -/
theorem Program.mem_unflagged {p : Program} {x : Stmt}
    (hkept : (x, none) ∈ p.zip p.flags) : x ∈ p.unflagged :=
  List.mem_map.mpr ⟨(x, none), List.mem_filter.mpr ⟨hkept, rfl⟩, rfl⟩

theorem Program.unflagged_subset (p : Program) : p.unflagged ⊆ p := by
  intro x hmem
  obtain ⟨e, hkept, rfl⟩ := List.mem_map.mp hmem
  exact (List.of_mem_zip (List.mem_filter.mp hkept).1).1

theorem Stmt.nodesAll_mono {deep : Bool} {body body' : List Stmt} (h : body ⊆ body') :
    Stmt.nodesAll deep body ⊆ Stmt.nodesAll deep body' := by
  induction body with
  | nil => exact List.nil_subset _
  | cons x rest ih =>
    obtain ⟨hmem, hlater⟩ := List.cons_subset.mp h
    rw [Stmt.nodesAll]
    exact List.append_subset.mpr ⟨Stmt.nodes_subset_nodesAll hmem, ih hlater⟩

/-- The statements that are not flagged repeat no identity. -/
theorem Program.tidy_unflagged (p : Program) : Tidy p.unflagged.nodes := by
  refine Program.flags_none_iff.mp fun flag hmem => ?_
  have hlength : p.unflagged.flags.length = p.unflagged.length := p.unflagged.length_flags
  rw [← List.map_snd_zip hlength.le] at hmem
  obtain ⟨e, hpair, rfl⟩ := List.mem_map.mp hmem
  rw [Program.zip_flags_unflagged] at hpair
  exact Option.isNone_iff_eq_none.mp (List.mem_filter.mp hpair).2

end TypeFlow
