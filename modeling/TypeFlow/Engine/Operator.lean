import TypeFlow.Script.Basic
import TypeFlow.Ty.Join

/-!
# Types of literals and operators

## Main Definitions

* `Literal.ty` - the type of a literal
* `UnaryOp.result`, `BinaryOp.result` - the types of operator applications
-/

namespace TypeFlow

/-- The type of a literal. -/
def Literal.ty : Literal → Ty
  | .null => .null
  | .undefined => .undefined
  | .boolean => .boolean
  | .number => .number
  | .string => .string

/-- The type of a unary operator applied to any operand. -/
def UnaryOp.result : UnaryOp → Ty
  | .not => .boolean
  | .delete => .boolean
  | .typeOf => .string
  | .void => .undefined
  | .neg => .number
  | .pos => .number
  | .bitNot => .number

/-- Whether `+` converts all values of a type to numbers: all are primitives other than strings. -/
def Ty.isNumericLike (t : Ty) : Bool :=
  t.members.all fun m => m.isPrim && m.prim? != some .string

/-- The type of a sum.  A definite string makes a string; otherwise nothing is known while an
operand is unknown, or has no value yet. -/
def addResult (left right : Ty) : Ty :=
  if left.definitelyString || right.definitelyString then .string
  else if left.isAny || right.isAny then .any
  else if left.isNever || right.isNever then .never
  else if left.isNumericLike && right.isNumericLike then .number
  else .unionOf [.number, .string]

/-- The type of a binary operator applied to operands of given types. -/
def BinaryOp.result (op : BinaryOp) (left right : Ty) : Ty :=
  match op with
  | .add => addResult left right
  | .and =>
    if left.definitelyFalsy then left
    else if left.definitelyTruthy then right
    else left.join right
  | .or =>
    if left.definitelyTruthy then left
    else if left.definitelyFalsy then right
    else left.join right
  | _ => if op.isNumeric then .number else .boolean

end TypeFlow
