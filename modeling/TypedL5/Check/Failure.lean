import TypedL5.Exp.Printer
import TypedL5.ParseError
import TypedL5.Ty.Unify

/-!
Failures of a check: what went wrong, and how it is reported.
-/
namespace TypedL5

/-- What sort of thing went wrong. -/
inductive Kind where
  | parseError
  | unboundVariable
  | unknownPrimitive
  | arityMismatch
  | typeMismatch
  | occursCheck
  | unsupportedForm
  | emptyProgram
deriving DecidableEq, Repr

/-- The report of a failure. An unbound variable comes with its name and names like it. -/
structure Failure where
  kind : Kind
  message : String
  name? : Option String := none
  similar : List String := []
deriving DecidableEq, Repr

/-- Why a check failed. -/
inductive Cause where
  | unbound (name : String) (similar : List String)
  | unknownPrimitive (op : String)
  | notProcedure (t : Ty) (e : Exp)
  | wrongArity (e : Exp)
  /-- A recursive binding of something that is not a procedure. -/
  | notLambda (e : Exp)
  | clash (c : Clash) (e : Exp)
  | unsupported (e : Exp)
  | emptyBody
  | emptyProgram
deriving Repr

namespace Failure

def ofParseError (e : ParseError) : Failure :=
  ⟨.parseError, e.message, none, []⟩

/-- The report of two types that cannot be made equal while checking `e`. -/
def ofClash (s : Store) (e : Exp) : Clash → Failure
  | .mismatch t u =>
    { kind := .typeMismatch
      message := "Incompatible types: " ++ s.text t ++ " and " ++ s.text u ++
        " in " ++ e.text s }
  | .cycle v t =>
    { kind := .occursCheck, message := "Occurs check failed: " ++ v.name ++
      " in " ++ s.text t }
  | .endless t u =>
    { kind := .occursCheck, message := "Occurs check failed: " ++ s.text t ++
      " in " ++ s.text u }

end Failure

namespace Cause

/-- The report of a failure, with types and expressions as they stand in the store. -/
def failure (s : Store) : Cause → Failure
  | .unbound name similar =>
    ⟨.unboundVariable, "Unbound variable: " ++ name, some name, similar⟩
  | .unknownPrimitive op =>
    { kind := .unknownPrimitive, message := "Primitive not yet implemented: " ++ op }
  | .notProcedure t e =>
    { kind := .typeMismatch, message := "Application of non-procedure: " ++ s.text t ++
      " in " ++ e.text s }
  | .wrongArity e =>
    { kind := .arityMismatch, message :=
      "Wrong parameter numbers passed to proc: " ++ e.text s }
  | .notLambda e =>
    { kind := .arityMismatch, message :=
      "letrec - only support binding of procedures - " ++ e.text s }
  | .clash c e => .ofClash s e c
  | .unsupported e => { kind := .unsupportedForm, message := "Unsupported form: " ++ e.text s }
  | .emptyBody =>
    { kind := .unsupportedForm, message := "Unexpected empty list of expressions" }
  | .emptyProgram => { kind := .emptyProgram, message := "No expressions in program" }

end Cause

end TypedL5
