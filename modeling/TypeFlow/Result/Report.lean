import TypeFlow.Script.Malformed

/-!
# Reports

What the report of an error says.  Drawing a report beside the source text is left to a renderer,
which may fail.

## Main Definitions

* `Malformed.title`, `Malformed.label`, `Malformed.note` - the texts of an error
* `Report`, `Malformed.report` - the report of an error
* `Malformed.render` - an error as shown to the user
-/

namespace TypeFlow

/-- The heading of a report. -/
def Malformed.title (m : Malformed) : String :=
  match m.kind with
  | .missingCallee => "Call expression " ++ showNode m.node ++ " has no callee"
  | .invalidAssignmentTarget => "Invalid assignment target"
  | .emptyPropertyName => "Member access with an empty property name"
  | .returnOutsideFunction => "'return' outside of function"
  | .duplicateNodeId => "Node id " ++ showNode m.node ++ " appears more than once"

/-- What stands at the marked range. -/
def Malformed.label (m : Malformed) : String :=
  match m.kind with
  | .missingCallee => "this call"
  | .invalidAssignmentTarget => "cannot assign to this expression"
  | .emptyPropertyName => "property name missing here"
  | .returnOutsideFunction => "not inside a function body"
  | .duplicateNodeId => "second occurrence"

/-- A rule that the tree breaks. -/
def Malformed.note (m : Malformed) : Option String :=
  match m.kind with
  | .invalidAssignmentTarget => some "only identifiers and member expressions can be assigned to"
  | .duplicateNodeId => some "every AST node must carry a distinct id"
  | _ => none

/-- A report: its texts, and the range of a file that it marks. -/
structure Report where
  file : String
  span : Span
  title : String
  /-- What stands at the marked range. -/
  label : String
  note : Option String
  /-- What happened because of the error. -/
  help : String
deriving DecidableEq, Repr

/-- The report of an error in a file. -/
def Malformed.report (m : Malformed) (file : String) : Report :=
  ⟨file, m.span, m.title, m.label, m.note, "the statement containing this node was skipped"⟩

/-- An error as shown to the user: its report as `draw` draws it beside the source text, or its
message when the report cannot be drawn. -/
def Malformed.render (draw : Report → String → Option String) (m : Malformed)
    (file source : String) : String :=
  (draw (m.report file) source).getD m.message

end TypeFlow
