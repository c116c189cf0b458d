import TypedL5.Check.Monad
import TypedL5.Check.Primitive
import TypedL5.Env
import TypedL5.Name

/-!
The typing rules, one for each form. A check ends with its first failure.
-/
namespace TypedL5

open CheckM (unify derived)

/-- The type of a constant. -/
def Atom.ty : Atom → Ty
  | .num _ => .number
  | .bool _ => .boolean
  | .str _ => .string

/-- The type of a name. -/
def Env.typeOf (env : Env) (x : String) : CheckM Ty :=
  match env.lookup? x with
  | some t => return t
  | none => throw (.unbound x (Name.similar x env.names))

/-- The type of one use of a primitive operator. -/
def Primitive.typeOf (op : String) : CheckM Ty :=
  match signature? op with
  | some σ => modifyGet fun st =>
    let (t, supply) := σ.instantiate st.supply
    (t, { st with supply := supply })
  | none => throw (.unknownPrimitive op)

namespace Exp

/-- A binding with the type of the procedure that it binds. -/
def procDecl : Decl × Exp → Decl
  | (d, .lambda ps r _) => ⟨d.name, .proc (ps.map Decl.ty) r⟩
  | (d, _) => d

mutual

/-- The type of an expression. -/
def typeOf (env : Env) : Exp → CheckM Ty
  | .const a => derived (.const a) a.ty
  | .prim op => do derived (.prim op) (← Primitive.typeOf op)
  | .var x => do derived (.var x) (← env.typeOf x)
  | .ite c t e => do
    let tc ← typeOf env c
    let tt ← typeOf env t
    let te ← typeOf env e
    unify tc .boolean (.ite c t e)
    unify tt te (.ite c t e)
    derived (.ite c t e) tt
  | .lambda ps r body => do
    let t ← typeOfBody (env.extend ps) body
    unify t r (.lambda ps r body)
    derived (.lambda ps r body) (.proc (ps.map Decl.ty) r)
  | .app f es => do
    let tf ← typeOf env f
    match (← get).store.deref tf with
    | .proc ps r =>
      if es.length ≠ ps.length then throw (.wrongArity (.app f es))
      checkArgs env (.app f es) es ps
      derived (.app f es) r
    | t => throw (.notProcedure t (.app f es))
  | .letIn bs body => do
    checkBindings env (.letIn bs body) bs
    let t ← typeOfBody (env.extend (bs.map Prod.fst)) body
    derived (.letIn bs body) t
  | .letrec bs body => do
    unless bs.all (·.2.isLambda) do throw (.notLambda (.letrec bs body))
    let inner := env.extend (bs.map procDecl)
    checkProcs inner (.letrec bs body) bs
    let t ← typeOfBody inner body
    derived (.letrec bs body) t
  | .assign x e => throw (.unsupported (.assign x e))
  | .quote v => derived (.quote v) (v.ty false)
  | .define d e => do
    let t ← typeOf env e
    unify d.ty t (.define d e)
    derived (.define d e) .void
  | .program es => do
    let t ← typeOfForms env none es
    derived (.program es) t

/-- The type of the last expression of a body. -/
def typeOfBody (env : Env) : List Exp → CheckM Ty
  | [] => throw .emptyBody
  | [e] => typeOf env e
  | e :: es => do
    let _ ← typeOf env e
    typeOfBody env es

/-- Checks the arguments of `whole` against the types of its parameters. -/
def checkArgs (env : Env) (whole : Exp) : List Exp → List Ty → CheckM Unit
  | e :: es, p :: ps => do
    let t ← typeOf env e
    unify t p whole
    checkArgs env whole es ps
  | _, _ => return ()

/-- Checks the values that `whole` binds against the types of their names. -/
def checkBindings (env : Env) (whole : Exp) : List (Decl × Exp) → CheckM Unit
  | [] => return ()
  | (d, e) :: bs => do
    let t ← typeOf env e
    unify d.ty t whole
    checkBindings env whole bs

/-- Checks the procedures that `whole` binds, each against the type of its result. -/
def checkProcs (env : Env) (whole : Exp) : List (Decl × Exp) → CheckM Unit
  | [] => return ()
  | (_, .lambda ps r body) :: bs => do
    let t ← typeOfBody (env.extend ps) body
    unify t r whole
    checkProcs env whole bs
  | _ :: bs => checkProcs env whole bs

/-- Checks forms in order, each definition being seen by the forms after it. The type is that
of the last form that is no definition, or `last` if all are. -/
def typeOfForms (env : Env) (last : Option Ty) : List Exp → CheckM Ty
  | [] =>
    match last with
    | some t => return t
    | none => throw .emptyProgram
  | .define d e :: es => do
    let t ← typeOf env e
    unify d.ty t (.define d e)
    typeOfForms (env.extend [d]) last es
  | e :: es => do
    let t ← typeOf env e
    typeOfForms env (some t) es

end

/-- Checks one form of a program. The answer is the environment for the forms after it, and the
type of the form unless it is a definition. -/
def checkForm (env : Env) : Exp → CheckM (Env × Option Ty)
  | .define d e => do
    let t ← typeOf env e
    unify d.ty t (.define d e)
    return (env.extend [d], none)
  | e => do
    let t ← typeOf env e
    return (env, some t)

/-- The type of a program. What is no program is checked as an expression. -/
def typeOfProgram (env : Env) : Exp → CheckM Ty
  | .program es => typeOfForms env none es
  | e => typeOf env e

end Exp

end TypedL5
