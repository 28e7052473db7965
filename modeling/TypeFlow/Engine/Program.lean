import TypeFlow.Engine.Invoke

/-!
# Running programs

## Main Definitions

* `takeFlag` - takes the malformation of a statement off those that are pending
* `inferProgramBy`, `inferProgram` - runs a program: its declarations are bound first, then its
  statements run
* `sweepThen`, `sweepsUpTo` - one sweep and what follows it, and sweeps unfolded a number of times
* `analyseUncalled` - runs the functions that nothing called

## Design Notes

A malformed statement is given up where the malformation shows, and the rest of the program still
runs.  A statement that repeats an identity is not run at all, and its declarations are not bound:
such statements are found before the first one runs, and the malformation of each is *pending*, by
the position of the statement, until the statement is passed over.

Looking at a function that nothing called may capture closures of further literals, which the next
sweep looks at.  Every sweep looks at a literal that no earlier sweep did, and all literals lie
inside those captured before the first, so the loop over sweeps is unfolded once more than there are
literals.
-/

namespace TypeFlow

open Walk

/-! ### Programs -/

/-- Reports an error. -/
def report (m : Malformed) : Walk Unit :=
  modify fun s => { s with errors := s.errors ++ [m] }

/-- Runs a computation; a malformation that stops it goes to `handle`. -/
def recovering (m : Walk Unit) (handle : Malformed → Walk Unit) : Walk Unit := fun s =>
  match m s with
  | .ok _ s' => .ok () s'
  | .error (.malformed e) s' => handle e s'
  | .error (.dangling d) s' => .error (.dangling d) s'

/-- Binds the declarations of statements, the first of which has the position `i`, unless a
malformation of theirs is pending. -/
def hoistProgram (pending : List (Nat × Malformed)) (i : Nat) : List Stmt → Walk Unit
  | [] => return ()
  | s :: rest =>
    if pending.any (·.1 == i) then
      hoistProgram pending (i + 1) rest
    else do
      hoist Env.global [s]
      hoistProgram pending (i + 1) rest

/-- Takes the element at a place out of a list; the last element moves there. -/
def swapRemove {α : Type} (xs : List α) (place : Nat) : List α :=
  match xs.getLast? with
  | none => []
  | some last => (xs.set place last).dropLast

/-- The pending malformation of the statement at a position, and those that stay pending. -/
def takeFlag (pending : List (Nat × Malformed)) (i : Nat) :
    Option (Malformed × List (Nat × Malformed)) := do
  let place ← pending.findIdx? (·.1 == i)
  let entry ← pending[place]?
  return (entry.2, swapRemove pending place)

/-- Passes over a statement of the program. -/
def skipTop (s : Stmt) (m : Malformed) : Walk Unit := do
  emit (.skipped s.id m)
  report m

/-- Runs a statement of the program. -/
def inferTop (invoke : Invoke) (s : Stmt) : Walk Unit :=
  recovering (inferStmt invoke Env.global s) fun m => do
    emit (.abandoned s.id m)
    report m

/-- Runs statements of the program from first to last, the first of which has the position `i`.
One with a pending malformation is passed over, and the malformation is reported. -/
def inferTops (invoke : Invoke) (pending : List (Nat × Malformed)) (i : Nat) :
    List Stmt → Walk Unit
  | [] => return ()
  | s :: rest =>
    match takeFlag pending i with
    | some (m, others) => do
      skipTop s m
      inferTops invoke others (i + 1) rest
    | none => do
      inferTop invoke s
      inferTops invoke pending (i + 1) rest

/-- Runs a program, given what answers calls. -/
def inferProgramBy (invoke : Invoke) (p : Program) : Walk Unit := do
  emit (.enterProgram p.length)
  let pending := p.duplicates
  hoistProgram pending 0 p
  inferTops invoke pending 0 p
  emit .exitProgram

/-- Runs a program. -/
def inferProgram (p : Program) : Walk Unit :=
  inferProgramBy invoke p

/-! ### Functions that nothing called -/

/-- Reports an error that was not reported before. -/
def reportOnce (m : Malformed) : Walk Unit := do
  if (← get).errors.contains m then
    return ()
  else
    report m

/-- Runs a closure with arguments of which nothing is known; as a constructor when it is one. -/
def callBlindly (invoke : Invoke) (id : ClosureId) (f : Func) : Walk Unit := do
  let args := List.replicate f.params.length Ty.any
  match (← get).protos.find? id with
  | some _ =>
    let _ ← instantiate invoke id args f.id Env.global
    return ()
  | none =>
    let _ ← invoke ⟨id, .any, args, f.id, Env.global, none⟩
    return ()

/-- The closures that were never called and whose literals are not among those `visited`. -/
def pendingClosures (cs : Closures) (visited : List NodeId) : List ClosureId :=
  (List.range cs.table.size).filter fun i =>
    match cs.table[i]? with
    | some c => c.calls == 0 && !visited.contains c.func.id
    | none => false

/-- Runs closures, one of each literal that is not among those `visited`, and answers the literals
visited then. -/
def sweep (invoke : Invoke) (visited : List NodeId) : List ClosureId → Walk (List NodeId)
  | [] => return visited
  | id :: rest => do
    let c ← ask fun s => s.closures.closure id
    if visited.contains c.func.id then
      sweep invoke visited rest
    else
      emit (.uncalled c.func.id)
      recovering (callBlindly invoke id c.func) reportOnce
      sweep invoke (c.func.id :: visited) rest

/-- One sweep, and then `again`, if there is something to look at. -/
def sweepThen (invoke : Invoke) (again : List NodeId → Walk Unit) (visited : List NodeId) :
    Walk Unit := do
  match pendingClosures (← get).closures visited with
  | [] => return ()
  | id :: rest =>
    let visited' ← sweep invoke visited (id :: rest)
    again visited'

/-- The loop over sweeps, unfolded a given number of times.  Sweeps after those are left to
`beyond`. -/
def sweepsUpTo (invoke : Invoke) (beyond : List NodeId → Walk Unit) :
    Nat → List NodeId → Walk Unit
  | 0 => beyond
  | n + 1 => sweepThen invoke (sweepsUpTo invoke beyond n)

/-- The number of function literals inside the captured ones. -/
def literalCount (cs : Closures) : Nat :=
  (cs.table.toList.flatMap fun c => c.func.funcs).length

/-- Runs the functions that nothing called. -/
def analyseUncalled : Walk Unit := do
  sweepsUpTo invoke (fun _ => return ()) (literalCount (← get).closures + 1) []

end TypeFlow
