import TypeFlow.Script.Malformed
import TypeFlow.Ty.Print

/-!
# The log of a run

A run keeps a log of what it does: which phases it enters and leaves, which statements it gives up,
how the results of recursive functions develop.

## Main Definitions

* `Event` - what can happen
* `LogLine`, `Event.line` - an event as text
-/

namespace TypeFlow

/-- Something that happens during a run. -/
inductive Event where
  | enterProgram (statements : Nat)
  | exitProgram
  | enterSolve (func : NodeId)
  | exitSolve
  | enterFinish (closures : Nat)
  | exitFinish
  /-- A statement that repeats an identity is not looked at. -/
  | skipped (stmt : NodeId) (error : Malformed)
  /-- A statement turned out to be malformed. -/
  | abandoned (stmt : NodeId) (error : Malformed)
  /-- A function that returns only itself was called. -/
  | selfReferential (func : NodeId)
  /-- A call was not followed, since too many activations are nested. -/
  | depthReached (func : NodeId) (depth : Nat)
  /-- A body that calls itself was run once more. -/
  | round (iteration : Nat) (seed : Ty) (ret : Ty) (unchanged : Bool)
  /-- The result of a recursive function was given up. -/
  | frozen (func : NodeId) (iterations : Nat)
  /-- A function that was never called is looked at. -/
  | uncalled (func : NodeId)

/-- The kinds of lines in a log. -/
inductive LogKind where
  | enter
  | exit
  | debug
  | trace
deriving DecidableEq, Repr

/-- A line of the log: its kind, its text, and named values. -/
structure LogLine where
  kind : LogKind
  text : String
  fields : List (String × String)
deriving DecidableEq, Repr

/-- A truth value in a log line. -/
def showBool (b : Bool) : String :=
  if b then "true" else "false"

/-- An event as a line of the log. -/
def Event.line : Event → LogLine
  | .enterProgram n => ⟨.enter, "infer_program", [("statements", toString n)]⟩
  | .exitProgram => ⟨.exit, "infer_program", []⟩
  | .enterSolve f => ⟨.enter, "solve", [("function", showNode f)]⟩
  | .exitSolve => ⟨.exit, "solve", []⟩
  | .enterFinish n => ⟨.enter, "finish", [("closures", toString n)]⟩
  | .exitFinish => ⟨.exit, "finish", []⟩
  | .skipped s e =>
    ⟨.debug, "skipping top-level statement", [("statement", showNode s), ("error", e.text)]⟩
  | .abandoned s e =>
    ⟨.debug, "abandoning top-level statement", [("statement", showNode s), ("error", e.message)]⟩
  | .selfReferential f =>
    ⟨.debug, "self-referential function answered with Unknown", [("function", showNode f)]⟩
  | .depthReached f d =>
    ⟨.debug, "call depth bound reached", [("function", showNode f), ("depth", toString d)]⟩
  | .round i seed ret unchanged =>
    ⟨.trace, "fixed-point round",
      [("iteration", toString i), ("seed", seed.format), ("ret", ret.format),
        ("unchanged", showBool unchanged)]⟩
  | .frozen f n =>
    ⟨.debug, "no fixed point within bound; return type frozen at Unknown",
      [("function", showNode f), ("iterations", toString n)]⟩
  | .uncalled f => ⟨.debug, "analysing uncalled function", [("function", showNode f)]⟩

end TypeFlow
