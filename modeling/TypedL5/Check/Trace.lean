/-!
The derivation trace: what a check found out, step by step.
-/
namespace TypedL5

structure Step where
  description : String
  result? : Option String := none
deriving DecidableEq, Repr

/-- A trace takes steps only while it is enabled. -/
structure Trace where
  enabled : Bool := false
  steps : List Step := []
deriving DecidableEq, Repr

namespace Trace

def add (t : Trace) (steps : List Step) : Trace :=
  if t.enabled then { t with steps := t.steps ++ steps } else t

def enable (t : Trace) : Trace :=
  { t with enabled := true }

def disable (t : Trace) : Trace :=
  { t with enabled := false }

def clear (t : Trace) : Trace :=
  { t with steps := [] }

/-- The trace as text. A step without a result, or with an empty one, has no result line. -/
def text (t : Trace) : String :=
  if t.steps.isEmpty then "" else
    let lines := t.steps.zipIdx.map fun (step, i) =>
      "\nStep " ++ toString (i + 1) ++ ": " ++ step.description ++
        match step.result? with
        | none | some "" => ""
        | some result => "\n  result: " ++ result
    "\nType Derivation Trace:" ++ String.join lines

end Trace

end TypedL5
