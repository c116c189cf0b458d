import TypedL5.Check.Rules
import TypedL5.Proofs.Computation

/-! The uses of operators that a check comes to, each with the state in which variables are
taken for it. -/
namespace TypedL5

open CheckM (unify)

/-- A use of an operator. -/
structure Draw where
  /-- The state before variables are taken. -/
  state : CheckState
  scheme : Scheme

/-- The variables taken for a use. -/
def Draw.vars (d : Draw) : List TyVar :=
  (d.state.supply.takeNumbered d.scheme.vars.length).1

/-- What happens after a computation that has an answer. -/
def after {ε σ α β : Type} (r : EStateM.Result ε σ α) (next : α → σ → List β) : List β :=
  match r with
  | .ok a s => next a s
  | .error _ _ => []

namespace Exp

mutual

/-- The uses of operators while an expression is checked, as far as the check gets. -/
@[simp] def draws (env : Env) : Exp → CheckState → List Draw
  | .const _, _ | .var _, _ | .quote _, _ | .assign _ _, _ => []
  | .prim op, st => (Primitive.signature? op).toList.map fun σ => ⟨st, σ⟩
  | .ite c t e, st =>
    draws env c st ++ after (typeOf env c st) fun _ st =>
      draws env t st ++ after (typeOf env t st) fun _ st => draws env e st
  | .lambda ps _ body, st => drawsBody (env.extend ps) body st
  | .app f es, st =>
    draws env f st ++ after (typeOf env f st) fun tf st =>
      match st.store.deref tf with
      | .proc ps _ => if es.length = ps.length then drawsArgs env (.app f es) es ps st else []
      | _ => []
  | .letIn bs body, st =>
    drawsBindings env (.letIn bs body) bs st ++
      after (checkBindings env (.letIn bs body) bs st) fun _ st =>
        drawsBody (env.extend (bs.map Prod.fst)) body st
  | .letrec bs body, st =>
    if bs.all (·.2.isLambda) then
      let inner := env.extend (bs.map procDecl)
      drawsProcs inner (.letrec bs body) bs st ++
        after (checkProcs inner (.letrec bs body) bs st) fun _ st => drawsBody inner body st
    else []
  | .define _ e, st => draws env e st
  | .program es, st => drawsForms env es st

def drawsBody (env : Env) : List Exp → CheckState → List Draw
  | [], _ => []
  | e :: es, st => draws env e st ++ after (typeOf env e st) fun _ st => drawsBody env es st

def drawsArgs (env : Env) (whole : Exp) : List Exp → List Ty → CheckState → List Draw
  | e :: es, p :: ps, st =>
    draws env e st ++ after (typeOf env e st) fun t st =>
      after (unify t p whole st) fun _ st => drawsArgs env whole es ps st
  | _, _, _ => []

def drawsBindings (env : Env) (whole : Exp) : List (Decl × Exp) → CheckState → List Draw
  | [], _ => []
  | (d, e) :: bs, st =>
    draws env e st ++ after (typeOf env e st) fun t st =>
      after (unify d.ty t whole st) fun _ st => drawsBindings env whole bs st

def drawsProcs (env : Env) (whole : Exp) : List (Decl × Exp) → CheckState → List Draw
  | [], _ => []
  | (_, .lambda ps r body) :: bs, st =>
    drawsBody (env.extend ps) body st ++ after (typeOfBody (env.extend ps) body st) fun t st =>
      after (unify t r whole st) fun _ st => drawsProcs env whole bs st
  | _ :: bs, st => drawsProcs env whole bs st

def drawsForms (env : Env) : List Exp → CheckState → List Draw
  | [], _ => []
  | .define d e :: es, st =>
    draws env e st ++ after (typeOf env e st) fun t st =>
      after (unify d.ty t (.define d e) st) fun _ st => drawsForms (env.extend [d]) es st
  | e :: es, st => draws env e st ++ after (typeOf env e st) fun _ st => drawsForms env es st

end

theorem drawsForms_cons {env : Env} {e : Exp} {es : List Exp} {st : CheckState}
    (h : ∀ d e', e = .define d e' → False) : drawsForms env (e :: es) st =
      draws env e st ++ after (typeOf env e st) fun _ st => drawsForms env es st :=
  drawsForms.eq_3 env st e es h

theorem drawsProcs_cons {env : Env} {whole : Exp} {b : Decl × Exp} {bs : List (Decl × Exp)}
    {st : CheckState} (h : ∀ d ps r body, b = (d, .lambda ps r body) → False) :
    drawsProcs env whole (b :: bs) st = drawsProcs env whole bs st :=
  drawsProcs.eq_3 env whole st b bs h

theorem drawsArgs_end {env : Env} {whole : Exp} {es : List Exp} {ps : List Ty}
    {st : CheckState} (h : ∀ e es' p ps', es = e :: es' → ps = p :: ps' → False) :
    drawsArgs env whole es ps st = [] :=
  drawsArgs.eq_2 env whole es ps st h

end Exp

end TypedL5
