import TypedL5.Ty.Basic

/-!
The types of the primitive operators. A type that mentions variables is made anew for every
use, so that no two uses constrain each other.
-/
namespace TypedL5

/-- A type in which `vars` stand for any types. -/
structure Scheme where
  vars : List TyVar
  body : Ty
deriving Repr, DecidableEq

namespace Supply

/-- So many new numbered variables. -/
def takeNumbered (s : Supply) : Nat → List TyVar × Supply
  | 0 => ([], s)
  | n + 1 =>
    let (v, s) := s.numbered
    let (vs, s) := s.takeNumbered n
    (v :: vs, s)

end Supply

namespace Scheme

/-- The scheme with other variables for its own. -/
def rename (σ : Scheme) (vs : List TyVar) : Ty :=
  σ.body.subst fun v => .var (((σ.vars.zip vs).lookup v).getD v)

/-- The scheme with new variables for its own. -/
def instantiate (σ : Scheme) (s : Supply) : Ty × Supply :=
  let (vs, s) := s.takeNumbered σ.vars.length
  (σ.rename vs, s)

end Scheme

namespace Primitive

def a : TyVar := ⟨0, "a"⟩

def b : TyVar := ⟨1, "b"⟩

def arithmetic : Scheme := ⟨[], .proc [.number, .number] .number⟩

def comparison : Scheme := ⟨[], .proc [.number, .number] .boolean⟩

def connective : Scheme := ⟨[], .proc [.boolean, .boolean] .boolean⟩

def negation : Scheme := ⟨[], .proc [.boolean] .boolean⟩

def test : Scheme := ⟨[a], .proc [.var a] .boolean⟩

def equality : Scheme := ⟨[a, b], .proc [.var a, .var b] .boolean⟩

def output : Scheme := ⟨[a], .proc [.var a] .void⟩

def lineBreak : Scheme := ⟨[], .proc [] .void⟩

def pairing : Scheme := ⟨[a, b], .proc [.var a, .var b] (.pair (.var a) (.var b))⟩

def first : Scheme := ⟨[a, b], .proc [.pair (.var a) (.var b)] (.var a)⟩

def second : Scheme := ⟨[a, b], .proc [.pair (.var a) (.var b)] (.var b)⟩

/-- The operators that have a type. -/
def signatures : List (String × Scheme) :=
  [("+", arithmetic), ("-", arithmetic), ("*", arithmetic), ("/", arithmetic),
    (">", comparison), ("<", comparison), ("=", comparison),
    ("and", connective), ("or", connective), ("not", negation),
    ("number?", test), ("boolean?", test), ("string?", test), ("list?", test), ("pair?", test),
      ("symbol?", test),
    ("eq?", equality), ("string=?", equality), ("display", output), ("newline", lineBreak),
    ("cons", pairing), ("car", first), ("cdr", second)]

def signature? (op : String) : Option Scheme :=
  signatures.lookup op

end Primitive

end TypedL5
