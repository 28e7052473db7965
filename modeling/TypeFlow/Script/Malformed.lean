import TypeFlow.Script.Nodes

/-!
# Malformed trees

Inference never fails for lack of knowledge; the only errors are trees that no program text has.

## Main Definitions

* `Malformation` - the ways in which a tree can be malformed
* `Malformed` - a malformation at a node, and its texts
* `Program.duplicates` - the statements that repeat the identity of a node, by their positions

## Design Notes

A top-level statement repeats an identity when one of its nodes carries an identity that an earlier
node carries, in the same statement or in any statement before it.  The first such node of the
statement is reported.
-/

namespace TypeFlow

/-- The ways in which a tree can be malformed. -/
inductive Malformation where
  | missingCallee
  | invalidAssignmentTarget
  | emptyPropertyName
  | returnOutsideFunction
  | duplicateNodeId
deriving DecidableEq, Repr

/-- A malformation and the node where it stands. -/
structure Malformed where
  kind : Malformation
  node : NodeId
  span : Span
deriving DecidableEq, Repr

/-- A node identity as printed. -/
def showNode (id : NodeId) : String :=
  "#" ++ toString id

/-- What is wrong with the tree. -/
def Malformed.text (m : Malformed) : String :=
  match m.kind with
  | .missingCallee => "call expression " ++ showNode m.node ++ " has no callee"
  | .invalidAssignmentTarget => "invalid assignment target at " ++ showNode m.node
  | .emptyPropertyName => "member access " ++ showNode m.node ++ " has an empty property name"
  | .returnOutsideFunction => "'return' outside of function"
  | .duplicateNodeId => "node id " ++ showNode m.node ++ " appears more than once"

/-- The error as reported. -/
def Malformed.message (m : Malformed) : String :=
  "Malformed AST: " ++ m.text

/-! ### Repeated identities -/

/-- The first node whose identity is among `seen` or repeats that of a node before it. -/
def firstRepeated? (seen : List NodeId) : List Node → Option Node
  | [] => none
  | n :: rest => if seen.contains n.id then some n else firstRepeated? (n.id :: seen) rest

/-- The malformation of a statement that repeats an identity. -/
def Stmt.repeated? (seen : List NodeId) (s : Stmt) : Option Malformed :=
  (firstRepeated? seen (s.nodes true)).map fun n => ⟨.duplicateNodeId, n.id, n.span⟩

/-- The statements that repeat an identity, the first statement of the list having the position
`i`. -/
def duplicatesFrom (seen : List NodeId) (i : Nat) : List Stmt → List (Nat × Malformed)
  | [] => []
  | s :: rest =>
    (s.repeated? seen).toList.map (i, ·) ++
      duplicatesFrom ((s.nodes true).map Node.id ++ seen) (i + 1) rest

/-- The positions of the statements of a program that repeat an identity, with the malformation of
each. -/
def Program.duplicates (p : Program) : List (Nat × Malformed) :=
  duplicatesFrom [] 0 p

end TypeFlow
