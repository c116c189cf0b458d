import TypedL5.Exp.Quoted

/-!
Expressions and the forms of a program.
-/
namespace TypedL5

inductive Exp where
  | const (a : Atom)
  | prim (op : String)
  | var (x : String)
  | ite (test thenBranch elseBranch : Exp)
  | lambda (params : List Decl) (result : Ty) (body : List Exp)
  | app (rator : Exp) (rands : List Exp)
  | letIn (bindings : List (Decl × Exp)) (body : List Exp)
  | letrec (bindings : List (Decl × Exp)) (body : List Exp)
  | assign (x : String) (value : Exp)
  | quote (value : Quoted)
  | define (decl : Decl) (value : Exp)
  | program (forms : List Exp)
deriving Repr, Inhabited

namespace Exp

/-- The name of a form in a derivation. -/
def formName : Exp → String
  | .const (.num _) => "NumExp"
  | .const (.bool _) => "BoolExp"
  | .const (.str _) => "StrExp"
  | .prim _ => "PrimOp"
  | .var _ => "VarRef"
  | .ite _ _ _ => "IfExp"
  | .lambda _ _ _ => "ProcExp"
  | .app _ _ => "AppExp"
  | .letIn _ _ => "LetExp"
  | .letrec _ _ => "LetrecExp"
  | .assign _ _ => "SetExp"
  | .quote _ => "LitExp"
  | .define _ _ => "DefineExp"
  | .program _ => "Program"

def isLambda : Exp → Bool
  | .lambda _ _ _ => true
  | _ => false

end Exp

end TypedL5
