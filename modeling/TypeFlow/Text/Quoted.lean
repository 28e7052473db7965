import TypeFlow.Text.Printable

/-!
# Names as printed text

A property name that is a plain identifier is printed bare, and any other name in double quotes
with escapes.

## Main Definitions

* `Text.isPlainIdentifier` - the name can be written bare
* `Text.quote` - the name in double quotes
* `Text.propertyName` - the name as it stands in a printed type
-/

namespace TypeFlow.Text

/-- The words that cannot be written bare as a name. -/
def reservedWords : List String :=
  ["abstract", "arguments", "boolean", "break", "byte", "case", "catch", "char", "class",
    "const", "continue", "debugger", "default", "delete", "do", "double", "else", "enum", "eval",
    "export", "extends", "false", "final", "finally", "float", "for", "function", "get", "goto",
    "if", "implements", "import", "in", "instanceof", "int", "interface", "let", "long", "native",
    "new", "null", "package", "private", "protected", "public", "return", "set", "short",
    "static", "super", "switch", "synchronized", "this", "throw", "throws", "transient", "true",
    "try", "typeof", "var", "void", "volatile", "while", "with", "yield"]

/-- Whether a character can begin an identifier: an ASCII letter, `_` or `$`. -/
def isIdentifierStart (c : Char) : Bool :=
  c.isAlpha || c == '_' || c == '$'

/-- Whether a character can continue an identifier: also an ASCII digit. -/
def isIdentifierRest (c : Char) : Bool :=
  c.isAlphanum || c == '_' || c == '$'

/-- Whether a name can be written bare as a property or binding name. -/
def isPlainIdentifier (name : String) : Bool :=
  match name.toList with
  | [] => false
  | c :: rest =>
    isIdentifierStart c && rest.all isIdentifierRest && !reservedWords.contains name

/-- A character inside double quotes.  The quote and the backslash take a backslash, four controls
have a letter, and a character that does not show as itself is given by its code point. -/
def escape (c : Char) : List Char :=
  if c = '\x00' then ['\\', '0']
  else if c = '\t' then ['\\', 't']
  else if c = '\r' then ['\\', 'r']
  else if c = '\n' then ['\\', 'n']
  else if c = '"' then ['\\', '"']
  else if c = '\\' then ['\\', '\\']
  else if isPrintable c then [c]
  else ['\\', 'u', '\x7b'] ++ Nat.toDigits 16 c.toNat ++ ['\x7d']

/-- A text in double quotes. -/
def quote (s : String) : String :=
  String.ofList ('"' :: s.toList.flatMap escape ++ ['"'])

/-- A property name as printed: bare when it is a plain identifier, else quoted. -/
def propertyName (name : String) : String :=
  if isPlainIdentifier name then name else quote name

end TypeFlow.Text
