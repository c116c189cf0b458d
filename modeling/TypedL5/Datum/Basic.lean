import TypedL5.Number.Numeral
import TypedL5.Text.Written

/-!
Data: what source text is made of before it means anything. Every datum has a written form.
-/
namespace TypedL5

/-- A datum without structure that is not a symbol. -/
inductive Atom where
  | num (n : Number)
  | bool (b : Bool)
  | str (s : String)
deriving DecidableEq, Repr

inductive Datum where
  | atom (a : Atom)
  | sym (name : String)
  | list (items : List Datum)
  /-- The improper list `(a b . c)`. -/
  | dotted (items : List Datum) (tail : Datum)
deriving Repr, Inhabited

def Atom.write : Atom → String
  | .num n => n.text
  | .bool b => if b then "#t" else "#f"
  | .str s => Text.quote s

namespace Datum

mutual

/-- The written form of a datum. -/
def write : Datum → String
  | .atom a => a.write
  | .sym name => name
  | .list items => Text.parens (Text.spaced (writeAll items))
  | .dotted items tail => Text.parens (Text.spaced (writeAll items) ++ " . " ++ tail.write)

def writeAll : List Datum → List String
  | [] => []
  | d :: ds => d.write :: writeAll ds

end

theorem writeAll_eq_map (ds : List Datum) : writeAll ds = ds.map write := by
  induction ds with
  | nil => rfl
  | cons d ds ih => simp [writeAll, ih]

end Datum

end TypedL5
