/-!
Tokens of source text and the places where they stand.
-/
namespace TypedL5

/-- A place in a text. Lines and columns count from one, and a column is one code point. -/
structure Position where
  line : Nat := 1
  column : Nat := 1
deriving DecidableEq, Repr

/-- The place right after a character. Only a line feed starts a line. -/
def Position.next (p : Position) (c : Char) : Position :=
  if c = '\n' then ⟨p.line + 1, 1⟩ else ⟨p.line, p.column + 1⟩

/-- A token that is a datum by itself, with its text as written. -/
inductive Leaf where
  | number (text : String)
  | boolean (text : String)
  | string (text : String)
  | symbol (text : String)
deriving DecidableEq, Repr

inductive Bracket where
  | round
  | square
deriving DecidableEq, Repr

inductive Token where
  | opening (b : Bracket)
  | closing (b : Bracket)
  | quote
  | dot
  | leaf (l : Leaf)
deriving DecidableEq, Repr

def Leaf.text : Leaf → String
  | .number text | .boolean text | .string text | .symbol text => text

/-- A token as written. -/
def Token.text : Token → String
  | .opening .round => "("
  | .opening .square => "["
  | .closing .round => ")"
  | .closing .square => "]"
  | .quote => "'"
  | .dot => "."
  | .leaf l => l.text

/-- A token and the place of its first character. -/
structure Located where
  token : Token
  position : Position
deriving DecidableEq, Repr

end TypedL5
