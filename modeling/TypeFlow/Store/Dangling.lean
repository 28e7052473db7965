import TypeFlow.Ty.Basic

/-!
# Dangling handles

A handle names an entry of a table by its index.  The tables of a run are consulted only through
handles, and a handle whose index is not below the length of its table is an error of its own kind,
apart from the errors of malformed trees.
-/

namespace TypeFlow

/-- A handle without an entry in its table. -/
inductive Dangling where
  | scope (id : ScopeId)
  | closure (id : ClosureId)
  | cell (id : CellId)
  | ctor (id : CtorId)
deriving DecidableEq, Repr

end TypeFlow
