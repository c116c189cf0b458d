import TypedL5.Check.Failure
import TypedL5.Check.Trace

/-!
Hints for common mistakes, and the full report of a failure.
-/
namespace TypedL5

/-- Whether one text is written somewhere in another. -/
def Text.occursIn (needle : List Char) : List Char → Bool
  | [] => needle.isEmpty
  | c :: cs => needle.isPrefixOf (c :: cs) || occursIn needle cs

namespace Failure

/-- Advice on a failure, by its kind. Where numbers of arguments are at fault the message tells
a recursive binding from a call. -/
def hints (f : Failure) : List String :=
  match f.kind with
  | .unboundVariable =>
    let define := "Top-level names must be defined with 'define' before they are used"
    if f.similar.isEmpty then [define] else
      ["Did you mean: " ++ ", ".intercalate (f.similar.map fun name => "'" ++ name ++ "'") ++
        "?", define]
  | .arityMismatch =>
    if Text.occursIn "letrec".toList f.message.toList then
      ["letrec can only bind lambda expressions; use let for other values"]
    else ["Check the number of arguments against the procedure's declared type"]
  | .occursCheck =>
    ["A type cannot contain itself; check the annotations involving this variable"]
  | .unknownPrimitive => ["This primitive has no type signature in the checker"]
  | .emptyProgram =>
    ["A program needs at least one form that is not a define: (L5 <define> ... <exp>)"]
  | .parseError | .typeMismatch | .unsupportedForm => []

/-- The report of a failure with its hints and the steps that led to it. -/
def report (f : Failure) (trace : Trace) : String :=
  "Error: " ++ f.message ++ String.join (f.hints.map ("\nHint: " ++ ·)) ++ trace.text

end Failure

end TypedL5
