/-!
The words of the language: keywords, each with a form of its own, and the names of primitive
operators.
-/
namespace TypedL5

inductive Keyword where
  | ite
  | lambda
  | letIn
  | letrec
  | define
  | assign
  | quote
  | program
deriving DecidableEq, Repr

namespace Keyword

def text : Keyword → String
  | .ite => "if"
  | .lambda => "lambda"
  | .letIn => "let"
  | .letrec => "letrec"
  | .define => "define"
  | .assign => "set!"
  | .quote => "quote"
  | .program => "L5"

def all : List Keyword := [.ite, .lambda, .letIn, .letrec, .define, .assign, .quote, .program]

def ofName? (name : String) : Option Keyword :=
  all.find? (·.text == name)

end Keyword

/-- The names of the primitive operators. -/
def primitiveNames : List String :=
  ["+", "-", "*", "/", ">", "<", "=", "not", "and", "or", "eq?", "string=?", "cons", "car",
    "cdr", "list",
    "pair?", "list?", "number?", "boolean?", "symbol?", "string?", "display", "newline"]

def isPrimitive (name : String) : Bool :=
  primitiveNames.contains name

/-- Whether a name has a meaning of its own and so cannot be declared. -/
def isReserved (name : String) : Bool :=
  (Keyword.ofName? name).isSome || isPrimitive name || name == ":"

end TypedL5
