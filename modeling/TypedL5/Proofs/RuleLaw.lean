import TypedL5.Check.Rules

/-!
Induction over the typing rules, done once.

A law says something of an expression in an environment, and of the rows that the rules go
through: forms, bodies, arguments, bindings and procedures. If every rule hands it on from the
parts to the whole, it holds of all of them.
-/
namespace TypedL5

/-- What it takes for a statement to hold of all that is checked. The field of a rule has the
name of its form, or of its row. -/
structure RuleLaw where
  OfExp : Env → Exp → Prop
  /-- The type is that of the last form so far that is no definition. -/
  OfForms : Env → Option Ty → List Exp → Prop
  OfBody : Env → List Exp → Prop
  OfArgs : Env → Exp → List Exp → List Ty → Prop
  OfBindings : Env → Exp → List (Decl × Exp) → Prop
  OfProcs : Env → Exp → List (Decl × Exp) → Prop
  const {env : Env} (a : Atom) : OfExp env (.const a)
  prim {env : Env} (op : String) : OfExp env (.prim op)
  var {env : Env} (x : String) : OfExp env (.var x)
  ite {env : Env} {c t e : Exp} :
    OfExp env c → OfExp env t → OfExp env e → OfExp env (.ite c t e)
  lambda {env : Env} {ps : List Decl} {r : Ty} {body : List Exp} :
    OfBody (env.extend ps) body → OfExp env (.lambda ps r body)
  app {env : Env} {f : Exp} {es : List Exp} :
    OfExp env f → (∀ ps, OfArgs env (.app f es) es ps) → OfExp env (.app f es)
  letIn {env : Env} {bs : List (Decl × Exp)} {body : List Exp} :
    OfBindings env (.letIn bs body) bs →
    OfBody (env.extend (bs.map Prod.fst)) body → OfExp env (.letIn bs body)
  letrec {env : Env} {bs : List (Decl × Exp)} {body : List Exp} :
    OfProcs (env.extend (bs.map Exp.procDecl)) (.letrec bs body) bs →
      OfBody (env.extend (bs.map Exp.procDecl)) body →
    OfExp env (.letrec bs body)
  assign {env : Env} (x : String) (e : Exp) : OfExp env (.assign x e)
  quote {env : Env} (v : Quoted) : OfExp env (.quote v)
  define {env : Env} {d : Decl} {e : Exp} : OfExp env e → OfExp env (.define d e)
  program {env : Env} {es : List Exp} : OfForms env none es → OfExp env (.program es)
  forms_nil {env : Env} (last : Option Ty) : OfForms env last []
  forms_define {env : Env} {last : Option Ty} {d : Decl} {e : Exp} {es : List Exp} :
    OfExp env e → OfForms (env.extend [d]) last es → OfForms env last (.define d e :: es)
  forms_cons {env : Env} {last : Option Ty} {e : Exp} {es : List Exp} :
    (∀ d e', e = .define d e' → False) →
    OfExp env e → (∀ t, OfForms env (some t) es) → OfForms env last (e :: es)
  body_nil (env : Env) : OfBody env []
  body_last {env : Env} {e : Exp} : OfExp env e → OfBody env [e]
  body_cons {env : Env} {e : Exp} {es : List Exp} :
    (es = [] → False) → OfExp env e → OfBody env es → OfBody env (e :: es)
  args_cons {env : Env} {whole e : Exp} {es : List Exp} {p : Ty} {ps : List Ty} : OfExp env e →
    OfArgs env whole es ps → OfArgs env whole (e :: es) (p :: ps)
  /-- The arguments or the parameters have run out. -/
  args_end {env : Env} {whole : Exp} {es : List Exp} {ps : List Ty} :
    (∀ e es' p ps', es = e :: es' → ps = p :: ps' → False) → OfArgs env whole es ps
  bindings_nil (env : Env) (whole : Exp) : OfBindings env whole []
  bindings_cons {env : Env} {whole : Exp} {d : Decl} {e : Exp} {bs : List (Decl × Exp)} :
    OfExp env e → OfBindings env whole bs → OfBindings env whole ((d, e) :: bs)
  procs_nil (env : Env) (whole : Exp) : OfProcs env whole []
  procs_cons {env : Env} {whole : Exp} {d : Decl} {ps : List Decl} {r : Ty} {body : List Exp}
    {bs : List (Decl × Exp)} : OfBody (env.extend ps) body → OfProcs env whole bs →
    OfProcs env whole ((d, .lambda ps r body) :: bs)
  /-- A binding of something else is passed over. -/
  procs_other {env : Env} {whole : Exp} {b : Decl × Exp} {bs : List (Decl × Exp)} :
    (∀ d ps r body, b = (d, .lambda ps r body) → False) → OfProcs env whole bs →
      OfProcs env whole (b :: bs)

namespace RuleLaw

variable (L : RuleLaw)

theorem holds :
    (∀ env e, L.OfExp env e) ∧ (∀ env last es, L.OfForms env last es) ∧
      (∀ env whole bs, L.OfProcs env whole bs) ∧
    (∀ env es, L.OfBody env es) ∧ (∀ env whole bs, L.OfBindings env whole bs) ∧
    (∀ env whole es ps, L.OfArgs env whole es ps) := by
  apply Exp.typeOf.mutual_induct
  · exact fun _ => L.const
  · exact fun _ => L.prim
  · exact fun _ => L.var
  · exact fun _ _ _ _ => L.ite
  · exact fun _ _ _ _ => L.lambda
  · exact fun _ _ _ => L.app
  · exact fun _ _ _ => L.letIn
  -- The rule for `letrec` comes twice: whether all its values are procedures or not.
  · exact fun _ _ _ _ => L.letrec
  · exact fun _ _ _ _ => L.letrec
  · exact fun _ => L.assign
  · exact fun _ => L.quote
  · exact fun _ _ _ => L.define
  · exact fun _ _ => L.program
  -- So does the end of the forms, with or without a type to answer.
  · exact fun _ _ => L.forms_nil _
  · exact fun _ => L.forms_nil _
  · exact fun _ _ _ _ _ => L.forms_define
  · exact fun _ _ _ _ => L.forms_cons
  · exact L.body_nil
  · exact fun _ _ => L.body_last
  · exact fun _ _ _ => L.body_cons
  · exact fun _ _ _ _ _ _ => L.args_cons
  · exact fun _ _ _ _ => L.args_end
  · exact L.procs_nil
  · exact fun _ _ _ _ _ _ _ => L.procs_cons
  · exact fun _ _ _ _ => L.procs_other
  · exact L.bindings_nil
  · exact fun _ _ _ _ _ => L.bindings_cons

theorem exp (env : Env) (e : Exp) : L.OfExp env e := L.holds.1 env e

theorem forms (env : Env) (last : Option Ty) (es : List Exp) : L.OfForms env last es :=
  L.holds.2.1 env last es

theorem procs (env : Env) (whole : Exp) (bs : List (Decl × Exp)) : L.OfProcs env whole bs :=
  L.holds.2.2.1 env whole bs

theorem body (env : Env) (es : List Exp) : L.OfBody env es := L.holds.2.2.2.1 env es

theorem bindings (env : Env) (whole : Exp) (bs : List (Decl × Exp)) :
    L.OfBindings env whole bs :=
  L.holds.2.2.2.2.1 env whole bs

theorem args (env : Env) (whole : Exp) (es : List Exp) (ps : List Ty) :
    L.OfArgs env whole es ps :=
  L.holds.2.2.2.2.2 env whole es ps

end RuleLaw

end TypedL5
