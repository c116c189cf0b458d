import TypedL5.Ty.Store

/-!
A type spelled out constructor by constructor. Bound variables are shown with what they are
bound to, step by step, and so are not taken out of the way as in a written type.
-/
namespace TypedL5

/-- Each base type by its constructor. -/
def BaseTy.inspect : BaseTy → String
  | .number => "NumTExp()"
  | .boolean => "BoolTExp()"
  | .string => "StrTExp()"
  | .void => "VoidTExp()"
  | .literal => "LiteralTExp()"

/-- A row of parts in brackets. A row of one part keeps a comma. -/
def Ty.tupleText : List String → String
  | [] => "()"
  | [part] => "(" ++ part ++ ",)"
  | parts => "(" ++ ", ".intercalate parts ++ ")"

namespace Ty

mutual

def inspect (var : TyVar → String) : Ty → String
  | .base b => b.inspect
  | .var v => var v
  | .pair l r => "PairTExp(left=" ++ l.inspect var ++ ", right=" ++ r.inspect var ++ ")"
  | .proc ps r =>
    "ProcTExp(param_tes=" ++ tupleText (inspectAll var ps) ++ ", return_te=" ++
      r.inspect var ++ ")"

def inspectAll (var : TyVar → String) : List Ty → List String
  | [] => []
  | t :: ts => t.inspect var :: inspectAll var ts

end

end Ty

namespace Store

/-- A type spelled out, down to `n` bindings deep. -/
def inspectUpTo (s : Store) : Nat → Ty → String
  | 0, t => t.inspect fun v => "TVar(" ++ v.name ++ ")"
  | n + 1, t => t.inspect fun v =>
    match s.contents? v with
    | some u => "TVar(" ++ v.name ++ " := " ++ s.inspectUpTo n u ++ ")"
    | none => "TVar(" ++ v.name ++ ")"

def inspect (s : Store) (t : Ty) : String :=
  s.inspectUpTo s.length t

end Store

end TypedL5
