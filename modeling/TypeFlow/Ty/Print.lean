import TypeFlow.Text.Quoted
import TypeFlow.Ty.Basic

/-!
# Printing types

Types as text in the notation of type declarations: `(p0: number) => string`,
`{ x: number }`, `null | undefined`.

## Main Definitions

* `Ty.write` - prints a type, with parameter names for the first signature printed
* `Ty.format` - prints a type, parameters named `p0`, `p1`, …
* `Ty.formatNamed` - prints a type with given parameter names
* `Ty.formatParams` - prints a parameter list

## Design Notes

Parameter names belong to one signature.  The printer carries them along as pending names, the
first parameter list it prints uses them up, and what is left is part of the answer.
-/

namespace TypeFlow

/-- The name of a primitive type. -/
def Prim.name : Prim → String
  | .boolean => "boolean"
  | .string => "string"
  | .number => "number"
  | .null => "null"
  | .undefined => "undefined"

/-- Parameter names that the next signature printed will use. -/
abbrev PendingNames := Option (List String)

/-- The name that stands before the parameter at a position. -/
def paramName (names : PendingNames) (i : Nat) : String :=
  match names.bind (·[i]?) with
  | some name => name
  | none => "p" ++ toString i

mutual

/-- Prints a type; a function that is a union member stands in parentheses. -/
def Ty.write (inUnion : Bool) (pending : PendingNames) : Ty → String × PendingNames
  | .never => ("never", pending)
  | .any => ("any", pending)
  | .prim p => (p.name, pending)
  | .func ⟨params, ret, _⟩ =>
    let (args, afterArgs) := Ty.writeParams pending 0 none params
    let (result, rest) := ret.write false afterArgs
    let text := "(" ++ args ++ ") => " ++ result
    (if inUnion then "(" ++ text ++ ")" else text, rest)
  | .obj ⟨fields, _, _, _⟩ =>
    match fields with
    | [] => ("\x7b\x7d", pending)
    | f :: fs =>
      let (text, rest) := Ty.writeFields pending (f :: fs)
      ("\x7b " ++ text ++ " \x7d", rest)
  | .union ms => Ty.writeMembers pending ms
termination_by structural t => t

/-- Prints the parameters from position `i` on, separated by commas.  `names` are the names of this
parameter list, `pending` those left for signatures inside it. -/
def Ty.writeParams (names : PendingNames) (i : Nat) (pending : PendingNames) :
    List Ty → String × PendingNames
  | [] => ("", pending)
  | t :: ts =>
    let (text, afterHead) := t.write false pending
    let (more, rest) := Ty.writeParams names (i + 1) afterHead ts
    ((if i = 0 then "" else ", ") ++ paramName names i ++ ": " ++ text ++ more, rest)
termination_by structural ts => ts

/-- Prints fields, separated by semicolons. -/
def Ty.writeFields (pending : PendingNames) : List (String × Ty) → String × PendingNames
  | [] => ("", pending)
  | (name, t) :: fs =>
    let (text, afterHead) := t.write false pending
    let (more, rest) := Ty.writeFields afterHead fs
    (Text.propertyName name ++ ": " ++ text ++ (if fs.isEmpty then "" else "; ") ++ more, rest)
termination_by structural fs => fs

/-- Prints the members of a union, separated by bars. -/
def Ty.writeMembers (pending : PendingNames) : List Ty → String × PendingNames
  | [] => ("", pending)
  | t :: ts =>
    let (text, afterHead) := t.write true pending
    let (more, rest) := Ty.writeMembers afterHead ts
    (text ++ (if ts.isEmpty then "" else " | ") ++ more, rest)
termination_by structural ts => ts

end

/-- A type as text. -/
def Ty.format (t : Ty) : String :=
  (t.write false none).1

/-- A type as text, with names for the parameters of the first signature in it. -/
def Ty.formatNamed (names : List String) (t : Ty) : String :=
  (t.write false (some names)).1

/-- A parameter list with its parentheses. -/
def Ty.formatParams (names : PendingNames) (params : List Ty) : String :=
  "(" ++ (Ty.writeParams names 0 none params).1 ++ ")"

instance : ToString Ty := ⟨Ty.format⟩

end TypeFlow
