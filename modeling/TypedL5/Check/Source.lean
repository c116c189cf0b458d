import TypedL5.Check.Rules
import TypedL5.Exp.Parser

/-!
Checking source text.
-/
namespace TypedL5

/-- What ends a run before it has an answer. -/
inductive Abort where
  /-- A whole number with more digits than the limit. -/
  | numeralTooLong
  /-- A command without a word. -/
  | blankCommand
  /-- A file that does not hold text. -/
  | notText
deriving DecidableEq, Repr

/-- The written type of a text, or the failure to find one, and the trace of the check. -/
structure Checked where
  result : Except Failure String
  trace : Trace

namespace Checked

/-- Checks what has been read. A fault of the text is a failure like any other. -/
def ofRead (read : ParseM Exp) (typeOf : Exp → CheckM Ty) (trace : Trace) :
    Except Abort Checked :=
  match read {} with
  | .error e _ =>
    if e.isFatal then .error .numeralTooLong else .ok ⟨.error (.ofParseError e), trace⟩
  | .ok e supply =>
    match typeOf e { supply := supply, trace := trace } with
    | .ok t st => .ok ⟨.ok (st.store.text t), st.trace⟩
    | .error c st => .ok ⟨.error (c.failure st.store), st.trace⟩

/-- Checks a text that holds one expression. -/
def ofExp (source : String) (trace : Trace := {}) : Except Abort Checked :=
  ofRead (Exp.read source) (Exp.typeOf {}) trace

/-- Checks a text that holds one program. -/
def ofProgram (source : String) (trace : Trace := {}) : Except Abort Checked :=
  ofRead (Exp.readProgram source) (Exp.typeOfProgram {}) trace

end Checked

end TypedL5
