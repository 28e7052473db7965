import TypeFlow.Ty.Order

/-!
# Global bindings

The types of names that are bound before a program runs.

## Main Definitions

* `Globals.builtins` - the library objects and functions that are bound unless the options say not
-/

namespace TypeFlow

/-- The types of global names, ascending by name. -/
abbrev Globals := Fields

namespace Globals

/-- The library that every run starts with by default.  Its functions belong to no closure, so a
call to one of them has the declared result. -/
def builtins : Globals :=
  let output := Ty.signature [.any] .undefined
  let unary := Ty.signature [.number] .number
  let binary := Ty.signature [.number, .number] .number
  OrdMap.ofList
    [("console", .record (OrdMap.ofList [("log", output), ("error", output), ("warn", output)])),
      ("Math", .record (OrdMap.ofList
        [("PI", .number), ("E", .number), ("abs", unary), ("floor", unary), ("ceil", unary),
          ("round", unary), ("sqrt", unary), ("pow", binary), ("min", binary), ("max", binary),
          ("random", .signature [] .number)])),
      ("JSON", .record (OrdMap.ofList
        [("parse", .signature [.string] .any), ("stringify", .signature [.any] .string)])),
      ("parseInt", .signature [.string] .number),
      ("parseFloat", .signature [.string] .number),
      ("isNaN", .signature [.any] .boolean),
      ("String", .signature [.any] .string),
      ("Number", .signature [.any] .number),
      ("undefined", .undefined),
      ("NaN", .number),
      ("Infinity", .number)]

end Globals

end TypeFlow
