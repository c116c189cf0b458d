import TypedL5.Text.Written
import TypedL5.Ty.Store

/-!
Written types. A bound variable is written as what it is bound to.
-/
namespace TypedL5

/-- The parameters of a procedure type, from their texts. -/
def Ty.paramsText (params : List String) : String :=
  if params.isEmpty then "Empty" else " * ".intercalate params

namespace Ty

mutual

/-- The written form of a type, its variables by their names. -/
def text : Ty → String
  | .base b => b.name
  | .var v => v.name
  | .pair l r => Text.parens (Text.spaced ["Pair", l.text, r.text])
  | .proc ps r => Text.parens (Text.spaced [paramsText (texts ps), "->", r.text])

def texts : List Ty → List String
  | [] => []
  | t :: ts => t.text :: texts ts

end

theorem texts_eq_map (ts : List Ty) : texts ts = ts.map text := by
  induction ts with
  | nil => rfl
  | cons t ts ih => simp [texts, ih]

end Ty

/-- The written form of a type as it stands in a store. -/
def Store.text (s : Store) (t : Ty) : String :=
  (s.resolve t).text

/-- A declaration as it stands in a store. -/
def Store.declText (s : Store) (d : Decl) : String :=
  Text.parens (Text.spaced [d.name, ":", s.text d.ty])

end TypedL5
