import TypedL5.Ty.Basic

/-!
The store of type variables: which variable has been bound to which type.

A store is the history of its bindings. A variable is bound once, to a type that may mention
variables bound before it and variables bound after it. Following bindings ends in a store
without cycles, and a path without repetition takes no more steps than there are bindings; each
function below follows a path for that many steps.
-/
namespace TypedL5

/-- The bindings made so far, latest first. -/
structure Store where
  bindings : List (TyVar × Ty) := []
deriving Repr, DecidableEq

namespace Store

/-- What a variable is bound to, as it was bound. -/
def contents? (s : Store) (v : TyVar) : Option Ty :=
  s.bindings.lookup v

def bind (s : Store) (v : TyVar) (t : Ty) : Store :=
  ⟨(v, t) :: s.bindings⟩

theorem contents?_bind (s : Store) (v w : TyVar) (t : Ty) :
    (s.bind v t).contents? w = if w = v then some t else s.contents? w := by
  by_cases h : w = v
  · simp [contents?, bind, h]
  · have hb : (w == v) = false := by simpa using h
    simp [contents?, bind, List.lookup_cons, hb, h]

/-- The report of an attempt to bind a variable once more. -/
def rebound (v : TyVar) : String :=
  "Type variable " ++ v.name ++ " is already bound"

/-- Binds a variable that is not bound yet. -/
def assign? (s : Store) (v : TyVar) (t : Ty) : Option Store :=
  if (s.contents? v).isSome then none else some (s.bind v t)

/-- The number of bindings. -/
def length (s : Store) : Nat :=
  s.bindings.length

/-- Whether a type is a variable that has been bound. -/
def isBound (s : Store) : Ty → Bool
  | .var v => (s.contents? v).isSome
  | _ => false

/-- Follows a chain of bound variables for at most `n` steps. -/
def derefUpTo (s : Store) : Nat → Ty → Ty
  | n + 1, .var v =>
    match s.contents? v with
    | some t => s.derefUpTo n t
    | none => .var v
  | _, t => t

/-- Follows bound variables to a variable that is not bound or a type that is none. -/
def deref (s : Store) (t : Ty) : Ty :=
  s.derefUpTo s.length t

/-- Replaces bound variables by what they are bound to, down to `n` bindings deep. -/
def resolveUpTo (s : Store) : Nat → Ty → Ty
  | 0, t => t
  | n + 1, t => t.subst fun v =>
    match s.contents? v with
    | some u => s.resolveUpTo n u
    | none => .var v

/-- A type with all its bound variables replaced, through and through. -/
def resolve (s : Store) (t : Ty) : Ty :=
  s.resolveUpTo s.length t

/-- Whether a variable is written in a type or in what its bound variables stand for, `n`
bindings deep. -/
def occursUpTo (s : Store) (v : TyVar) : Nat → Ty → Bool
  | 0, t => t.vars.contains v
  | n + 1, t => t.vars.any fun w =>
    w == v ||
      match s.contents? w with
      | some u => s.occursUpTo v n u
      | none => false

/-- Whether a variable is reachable from a type, also through bound variables. -/
def occurs (s : Store) (v : TyVar) (t : Ty) : Bool :=
  s.occursUpTo v s.length t

/-- The number of constructors in all the bindings. -/
def weight (s : Store) : Nat :=
  s.bindings.foldr (fun b n => b.2.size + 1 + n) 0

end Store

end TypedL5
