import TypedL5.Ty.Store

/-!
Unification: making two types equal by binding variables.

Components are made equal from left to right, and the first clash is reported. A variable is
never made equal to itself: that is a cycle like any other.
-/
namespace TypedL5

/-- Why two types cannot be made equal. -/
inductive Clash where
  | mismatch (t u : Ty)
  /-- The variable occurs in the type that it was to be bound to. -/
  | cycle (v : TyVar) (t : Ty)
  /-- The comparison does not end. The store itself has a cycle. -/
  | endless (t u : Ty)
deriving DecidableEq, Repr

/-- Computations that bind variables. The bindings made before a clash remain. -/
abbrev UnifyM := EStateM Clash Store

namespace Store

/-- Binds a variable that is not bound yet, unless that would close a cycle. -/
def bindVar (v : TyVar) (t : Ty) : UnifyM Unit := do
  let s ← get
  if s.occurs v t then throw (.cycle v t) else set (s.bind v t)

/-- Makes types equal pairwise, from left to right. -/
def unifyAll (unify : Ty → Ty → UnifyM Unit) : List Ty → List Ty → UnifyM Unit
  | t :: ts, u :: us => do
    unify t u
    unifyAll unify ts us
  | _, _ => pure ()

/-- Makes two types equal, looking at most `n` levels deep. -/
def unifyUpTo : Nat → Ty → Ty → UnifyM Unit
  | 0, t, u => throw (.endless t u)
  | n + 1, t, u => do
    let s ← get
    match s.deref t, s.deref u with
    | .var v, u => bindVar v u
    | t, .var v => bindVar v t
    | .base a, .base b => if a = b then pure () else throw (.mismatch (.base a) (.base b))
    | .pair l r, .pair l' r' => do
      unifyUpTo n l l'
      unifyUpTo n r r'
    | .proc ps r, .proc qs q =>
      if ps.length = qs.length then do
        unifyAll (unifyUpTo n) ps qs
        unifyUpTo n r q
      else throw (.mismatch (.proc ps r) (.proc qs q))
    | t, u => throw (.mismatch t u)

/-- A bound on the levels of a comparison. The types met on the way down one side lie strictly
inside each other, so none is met twice, and each of them is a part of the two types or of a
binding. -/
def levels (s : Store) (t u : Ty) : Nat :=
  s.weight + t.size + u.size + 1

/-- Makes two types equal. -/
def unify (t u : Ty) : UnifyM Unit := do
  unifyUpTo ((← get).levels t u) t u

/-- The latest `n` bindings of a history, earliest first, each with the store right after
it. -/
def latest : Nat → List (TyVar × Ty) → List (TyVar × Ty × Store)
  | n + 1, (v, t) :: older => latest n older ++ [(v, t, ⟨(v, t) :: older⟩)]
  | _, _ => []

/-- The bindings that lead from an earlier store to this one. -/
def since (s earlier : Store) : List (TyVar × Ty × Store) :=
  latest (s.length - earlier.length) s.bindings

end Store

end TypedL5
