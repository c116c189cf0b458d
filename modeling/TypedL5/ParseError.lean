import TypedL5.Datum.Reader

/-!
What can be wrong with source text, from its characters to its forms, and how each fault is
reported.
-/
namespace TypedL5

namespace ReadError

/-- The report of a fault, without its place. -/
def reason : ReadError → String
  | .unexpectedToken text _ => "Unexpected '" ++ text ++ "'"
  | .unexpectedCharacter _ => "Unexpected character"
  | .endOfInput => "Unexpected end of input"
  | .headless => "Dotted pair without a head: ( . x)"
  | .wrongCount found => "Expected exactly one expression, found " ++ toString found
  | .numeralTooLong => "Too many digits in a number"

def place? : ReadError → Option Position
  | .unexpectedToken _ place | .unexpectedCharacter place => some place
  | _ => none

end ReadError

/-- A fault in source text. Forms at fault are kept as they are written. -/
inductive ParseError where
  | unreadable (e : ReadError)
  /-- A word with a meaning of its own stands where a type is expected. -/
  | wordAsType (word : String)
  | badType (form : String)
  | arrowPlace (form : String)
  | separators (form : String)
  | notProgram (form : String)
  | notForm (form : String)
  | keywordAsVariable (word : String)
  | emptyCombination
  | innerDefine (form : String)
  | innerProgram
  | badIf (form : String)
  | badLambda (form : String)
  | missingResult (form : String)
  | badLet (keyword : String) (form : String)
  | badBinding (keyword : String) (form : String)
  | badAssignment (form : String)
  | badQuote (form : String)
  | badDefine (form : String)
  | emptyBody (form : String)
  | badDeclaration (form : String)
  | reservedName (name : String)
deriving DecidableEq, Repr

namespace ParseError

/-- The report of a fault, without its place. -/
def reason : ParseError → String
  | .unreadable e => e.reason
  | .wordAsType word => "Unexpected '" ++ word ++ "' in type expression"
  | .badType form => "Bad type expression: " ++ form
  | .arrowPlace form => "Procedure type must end with '-> type': " ++ form
  | .separators form => "Parameter types must be separated by '*': " ++ form
  | .notProgram form => "Program must be of the form (L5 <form> ...): " ++ form
  | .notForm form => "Unexpected syntax: " ++ form
  | .keywordAsVariable word => "Keyword '" ++ word ++ "' used as a variable"
  | .emptyCombination => "Empty combination: ()"
  | .innerDefine form => "define is only allowed at the top level of a program: " ++ form
  | .innerProgram => "Nested program"
  | .badIf form => "Expected (if <test> <then> <else>): " ++ form
  | .badLambda form => "Expected (lambda (<params>) <body> ...): " ++ form
  | .missingResult form => "Missing return type after ':': " ++ form
  | .badLet keyword form => "Expected (" ++ keyword ++ " (<bindings>) <body> ...): " ++ form
  | .badBinding keyword form => "Bad " ++ keyword ++ " binding: " ++ form
  | .badAssignment form => "Expected (set! <var> <value>): " ++ form
  | .badQuote form => "Expected (quote <datum>): " ++ form
  | .badDefine form => "Expected (define <var> <value>): " ++ form
  | .emptyBody form => "Empty body: " ++ form
  | .badDeclaration form => "Bad declaration: " ++ form
  | .reservedName name => "Cannot bind reserved name '" ++ name ++ "'"

/-- Where the fault is. Only faults of characters and tokens have a place. -/
def place? : ParseError → Option Position
  | .unreadable e => e.place?
  | _ => none

/-- The report of a fault, with its place if it has one. -/
def message (e : ParseError) : String :=
  match e.place? with
  | some p =>
    "Parse error at " ++ toString p.line ++ ":" ++ toString p.column ++ ": " ++ e.reason
  | none => e.reason

/-- Whether the text merely stops early, so that more text may make it whole. -/
def isIncomplete : ParseError → Bool
  | .unreadable .endOfInput => true
  | _ => false

/-- Whether the fault ends the run and is not reported like the others. -/
def isFatal : ParseError → Bool
  | .unreadable .numeralTooLong => true
  | _ => false

end ParseError

end TypedL5
