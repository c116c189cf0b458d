/-!
Types: five base types, pairs, procedures, and variables that stand for a type still to be
found. Every variable taken from a supply of new ones has an identity of its own.
-/
namespace TypedL5

inductive BaseTy where
  | number
  | boolean
  | string
  | void
  /-- The type of quoted data whose structure is not looked into. -/
  | literal
deriving DecidableEq, Repr

/-- A type variable. Variables of one name and different identity are different variables. -/
structure TyVar where
  id : Nat
  name : String
deriving DecidableEq, Repr

inductive Ty where
  | base (b : BaseTy)
  | var (v : TyVar)
  | pair (left right : Ty)
  | proc (params : List Ty) (result : Ty)
deriving Repr

/-- The name of a base type. -/
def BaseTy.name : BaseTy → String
  | .number => "number"
  | .boolean => "boolean"
  | .string => "string"
  | .void => "void"
  | .literal => "literal"

def BaseTy.all : List BaseTy := [.number, .boolean, .string, .void, .literal]

def BaseTy.ofName? (name : String) : Option BaseTy :=
  BaseTy.all.find? (·.name == name)

namespace Ty

abbrev number : Ty := .base .number
abbrev boolean : Ty := .base .boolean
abbrev string : Ty := .base .string
abbrev void : Ty := .base .void
abbrev literal : Ty := .base .literal

mutual

/-- The variables written in a type, from left to right, as often as they are written. -/
def vars : Ty → List TyVar
  | .base _ => []
  | .var v => [v]
  | .pair l r => l.vars ++ r.vars
  | .proc ps r => varsAll ps ++ r.vars

def varsAll : List Ty → List TyVar
  | [] => []
  | t :: ts => t.vars ++ varsAll ts

end

mutual

/-- The number of constructors of a type. -/
def size : Ty → Nat
  | .base _ => 1
  | .var _ => 1
  | .pair l r => l.size + r.size + 1
  | .proc ps r => sizeAll ps + r.size + 1

def sizeAll : List Ty → Nat
  | [] => 0
  | t :: ts => t.size + sizeAll ts

end

mutual

/-- Puts a type in the place of every variable. -/
def subst (f : TyVar → Ty) : Ty → Ty
  | .base b => .base b
  | .var v => f v
  | .pair l r => .pair (l.subst f) (r.subst f)
  | .proc ps r => .proc (substAll f ps) (r.subst f)

def substAll (f : TyVar → Ty) : List Ty → List Ty
  | [] => []
  | t :: ts => t.subst f :: substAll f ts

end

theorem varsAll_eq_flatMap (ts : List Ty) : varsAll ts = ts.flatMap vars := by
  induction ts with
  | nil => rfl
  | cons t ts ih => simp [varsAll, ih]

theorem substAll_eq_map (f : TyVar → Ty) (ts : List Ty) :
    substAll f ts = ts.map (subst f) := by
  induction ts with
  | nil => rfl
  | cons t ts ih => simp [substAll, ih]

mutual

/-- Decides equality of types. Variables are equal only to themselves. -/
def decEq : (t u : Ty) → Decidable (t = u)
  | .base a, .base b =>
    if h : a = b then isTrue (h ▸ rfl) else isFalse (fun e => h (Ty.base.inj e))
  | .var v, .var w =>
    if h : v = w then isTrue (h ▸ rfl) else isFalse (fun e => h (Ty.var.inj e))
  | .pair l r, .pair l' r' =>
    match decEq l l', decEq r r' with
    | isTrue hl, isTrue hr => isTrue (hl ▸ hr ▸ rfl)
    | isFalse h, _ => isFalse (fun e => h (Ty.pair.inj e).1)
    | _, isFalse h => isFalse (fun e => h (Ty.pair.inj e).2)
  | .proc ps r, .proc qs q =>
    match decEqAll ps qs, decEq r q with
    | isTrue hp, isTrue hr => isTrue (hp ▸ hr ▸ rfl)
    | isFalse h, _ => isFalse (fun e => h (Ty.proc.inj e).1)
    | _, isFalse h => isFalse (fun e => h (Ty.proc.inj e).2)
  | .base _, .var _ | .base _, .pair _ _ | .base _, .proc _ _ => isFalse nofun
  | .var _, .base _ | .var _, .pair _ _ | .var _, .proc _ _ => isFalse nofun
  | .pair _ _, .base _ | .pair _ _, .var _ | .pair _ _, .proc _ _ => isFalse nofun
  | .proc _ _, .base _ | .proc _ _, .var _ | .proc _ _, .pair _ _ => isFalse nofun

def decEqAll : (ts us : List Ty) → Decidable (ts = us)
  | [], [] => isTrue rfl
  | t :: ts, u :: us =>
    match decEq t u, decEqAll ts us with
    | isTrue h, isTrue hs => isTrue (h ▸ hs ▸ rfl)
    | isFalse h, _ => isFalse (fun e => h (List.cons.inj e).1)
    | _, isFalse h => isFalse (fun e => h (List.cons.inj e).2)
  | [], _ :: _ | _ :: _, [] => isFalse nofun

end

instance : DecidableEq Ty := decEq

/-- How many of the types differ from each other. -/
def countDistinct (ts : List Ty) : Nat :=
  ts.eraseDups.length

def isBase : Ty → Bool
  | .base _ => true
  | _ => false

end Ty

/-- A name declared with its type. -/
structure Decl where
  name : String
  ty : Ty
deriving Repr, DecidableEq

/-- Numbered variables are named `T_1`, `T_2` and so on, after the `stem`. -/
structure Supply where
  /-- The identity of the next variable. -/
  next : Nat := 0
  stem : String := "T"
  /-- How many numbered variables have been taken. -/
  count : Nat := 0
deriving DecidableEq, Repr

namespace Supply

/-- A new variable with a name of its own. -/
def named (s : Supply) (name : String) : TyVar × Supply :=
  (⟨s.next, name⟩, { s with next := s.next + 1 })

/-- A new numbered variable. -/
def numbered (s : Supply) : TyVar × Supply :=
  let n := s.count + 1
  (⟨s.next, s.stem ++ "_" ++ toString n⟩, { s with next := s.next + 1, count := n })

end Supply

end TypedL5
