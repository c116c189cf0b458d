import TypedL5.Proofs.CheckStep

/-!
The calls of a check. To check an expression is to check parts of it, each at its moment and in
its environment. Which parts these are, and in which order, can be read off the expression as
long as nothing fails.
-/
namespace TypedL5

open EStateM (Result)

/-- The check of one expression within a check. The value of a name comes with the declaration
of the name. -/
structure Call where
  declared? : Option Decl
  env : Env
  exp : Exp
  start : CheckState

namespace Call

/-- How the call ends. -/
def result (c : Call) : Result Cause CheckState Ty := c.exp.typeOf c.env c.start

/-- Whether the call has an answer. -/
def returned (c : Call) : Bool := okWith (fun _ _ => true) c.result

def visit (c : Call) : Option Decl × Exp := (c.declared?, c.exp)

end Call

/-- The calls of a computation, in the order in which they end. They depend on the state at
first. -/
abbrev Calls := CheckState → List Call

namespace Calls

def nothing : Calls := fun _ => []

/-- The calls of `x`, and those of what comes after its answer. -/
def andThen {α : Type} (cs : Calls) (x : CheckM α) (next : α → Calls) : Calls := fun st =>
  cs st ++ match x st with
    | .ok a m => next a m
    | .error _ _ => []

/-- The calls for the parts of an expression, and then the call that they are made for. -/
def closing (cs : Calls) (d? : Option Decl) (env : Env) (e : Exp) : Calls :=
  fun st => cs st ++ [⟨d?, env, e, st⟩]

theorem andThen_nothing {α : Type} (cs : Calls) (x : CheckM α) :
    (cs.andThen x fun _ => nothing) = cs := by
  funext st
  cases h : x st <;> simp [andThen, nothing, h]

end Calls

namespace Exp

/-- The type of an operator, followed to what its variable is bound to. -/
def operatorTy (env : Env) (f : Exp) : CheckM Ty := do
  let t ← typeOf env f
  return (← get).store.deref t

/-- The type of an application whose operator has type `t`. -/
def resultTy (env : Env) (f : Exp) (es : List Exp) : Ty → CheckM Ty
  | .proc ps r =>
    if es.length = ps.length then do
      checkArgs env (.app f es) es ps
      return r
    else throw (.wrongArity (.app f es))
  | t => throw (.notProcedure t (.app f es))

/-- What is done to find the type of an expression, before it is noted. -/
def rule (env : Env) : Exp → CheckM Ty
  | .const a => return a.ty
  | .prim op => Primitive.typeOf op
  | .var x => env.typeOf x
  | .ite c t e => do
    let tc ← typeOf env c
    let tt ← typeOf env t
    let te ← typeOf env e
    CheckM.unify tc .boolean (.ite c t e)
    CheckM.unify tt te (.ite c t e)
    return tt
  | .lambda ps r body => do
    CheckM.unify (← typeOfBody (env.extend ps) body) r (.lambda ps r body)
    return .proc (ps.map Decl.ty) r
  | .app f es => do resultTy env f es (← operatorTy env f)
  | .letIn bs body => do
    checkBindings env (.letIn bs body) bs
    typeOfBody (env.extend (bs.map Prod.fst)) body
  | .letrec bs body =>
    let inner := env.extend (bs.map procDecl)
    if bs.all (·.2.isLambda) then do
      checkProcs inner (.letrec bs body) bs
      typeOfBody inner body
    else throw (.notLambda (.letrec bs body))
  | .assign x e => throw (.unsupported (.assign x e))
  | .quote v => return v.ty false
  | .define d e => do
    CheckM.unify d.ty (← typeOf env e) (.define d e)
    return .void
  | .program es => typeOfForms env none es

/-- The result of an application is found first and recorded afterwards. -/
theorem applied_eq_resultTy (env : Env) (f : Exp) (es : List Exp) (t : Ty) :
    applied env f es t = resultTy env f es t >>= CheckM.derived (.app f es) := by
  cases t with
  | proc ps r =>
    rw [applied, resultTy]
    split
    · rw [bind_assoc, pure_bind]
    · rfl
  | _ => rfl

/-- Each check is its rule, followed by one record of the type found. -/
theorem typeOf_eq_rule (env : Env) (e : Exp) :
    e.typeOf env = e.rule env >>= CheckM.derived e := by
  cases e with
  | app f es =>
    rw [typeOf_app, rule, operatorTy]
    simp only [bind_assoc, pure_bind, applied_eq_resultTy]
  | letrec bs body =>
    rw [typeOf_letrec, rule]
    split
    · rw [bind_assoc]
    · rfl
  | _ => simp only [typeOf, rule, bind_assoc, pure_bind, throw_bind]

theorem typeOf_of_rule_ok {env : Env} {e : Exp} {st m : CheckState} {t : Ty}
    (h : e.rule env st = .ok t m) :
    e.typeOf env st = .ok t (m.noteType e t) := by
  rw [typeOf_eq_rule, bind_apply, h]
  rfl

theorem typeOf_of_rule_error {env : Env} {e : Exp} {st m : CheckState} {c : Cause}
    (h : e.rule env st = .error c m) : e.typeOf env st = .error c m := by
  rw [typeOf_eq_rule, bind_apply, h]

mutual

/-- The calls for the parts of an expression. -/
def partCalls (env : Env) : Exp → Calls
  | .const _ | .prim _ | .var _ | .assign _ _ | .quote _ => .nothing
  | .ite c t e =>
    ((partCalls env c).closing none env c).andThen (typeOf env c) fun _ =>
      ((partCalls env t).closing none env t).andThen (typeOf env t) fun _ =>
        (partCalls env e).closing none env e
  | .lambda ps _ body => bodyCalls (env.extend ps) body
  | .app f es =>
    ((partCalls env f).closing none env f).andThen (operatorTy env f) fun t =>
      match t with
      | .proc ps _ =>
        if es.length = ps.length then argCalls env (.app f es) es ps else .nothing
      | _ => .nothing
  | .letIn bs body =>
    (bindingCalls env (.letIn bs body) bs).andThen
      (checkBindings env (.letIn bs body) bs) fun _ =>
      bodyCalls (env.extend (bs.map Prod.fst)) body
  | .letrec bs body =>
    let inner := env.extend (bs.map procDecl)
    if bs.all (·.2.isLambda) then
      (procCalls inner (.letrec bs body) bs).andThen (checkProcs inner (.letrec bs body) bs)
        fun _ => bodyCalls inner body
    else .nothing
  | .define d e => (partCalls env e).closing (some d) env e
  | .program es => formCalls env es

def bodyCalls (env : Env) : List Exp → Calls
  | [] => .nothing
  | e :: es =>
    ((partCalls env e).closing none env e).andThen (typeOf env e) fun _ => bodyCalls env es

def argCalls (env : Env) (whole : Exp) : List Exp → List Ty → Calls
  | e :: es, p :: ps =>
    ((partCalls env e).closing none env e).andThen
      (do CheckM.unify (← typeOf env e) p whole) fun _ =>
      argCalls env whole es ps
  | _, _ => .nothing

def bindingCalls (env : Env) (whole : Exp) : List (Decl × Exp) → Calls
  | [] => .nothing
  | (d, e) :: bs =>
    ((partCalls env e).closing (some d) env e).andThen
      (do CheckM.unify d.ty (← typeOf env e) whole) fun _ =>
      bindingCalls env whole bs

/-- A procedure that is bound recursively is not checked as an expression, only its body is. -/
def procCalls (env : Env) (whole : Exp) : List (Decl × Exp) → Calls
  | [] => .nothing
  | (_, .lambda ps r body) :: bs =>
    (bodyCalls (env.extend ps) body).andThen
      (do CheckM.unify (← typeOfBody (env.extend ps) body) r whole) fun _ =>
      procCalls env whole bs
  | _ :: bs => procCalls env whole bs

/-- A definition among the forms of a program is not checked as an expression, only its value
is. -/
def formCalls (env : Env) : List Exp → Calls
  | [] => .nothing
  | .define d e :: es =>
    ((partCalls env e).closing (some d) env e).andThen
      (do CheckM.unify d.ty (← typeOf env e) (.define d e)) fun _ =>
      formCalls (env.extend [d]) es
  | e :: es =>
    ((partCalls env e).closing none env e).andThen (typeOf env e) fun _ => formCalls env es

end

/-- The calls of the check of an expression, which is the value of a name if there is a
declaration. -/
def calls (d? : Option Decl) (env : Env) (e : Exp) : Calls :=
  (partCalls env e).closing d? env e

/-- The check of an expression is one of its own calls. -/
theorem self_mem_calls (d? : Option Decl) (env : Env) (e : Exp) (st : CheckState) :
    ⟨d?, env, e, st⟩ ∈ e.calls d? env st := by
  simp [calls, Calls.closing]

mutual

/-- What the calls for the parts of an expression are for if nothing fails. -/
def partVisits : Exp → List (Option Decl × Exp)
  | .const _ | .prim _ | .var _ | .assign _ _ | .quote _ => []
  | .ite c t e =>
    (partVisits c ++ [(none, c)]) ++
      ((partVisits t ++ [(none, t)]) ++ (partVisits e ++ [(none, e)]))
  | .lambda _ _ body => visitedAll body
  | .app f es => (partVisits f ++ [(none, f)]) ++ visitedAll es
  | .letIn bs body => visitedBound bs ++ visitedAll body
  | .letrec bs body => visitedProcs bs ++ visitedAll body
  | .define d e => partVisits e ++ [(some d, e)]
  | .program es => visitedForms es

def visitedAll : List Exp → List (Option Decl × Exp)
  | [] => []
  | e :: es => (partVisits e ++ [(none, e)]) ++ visitedAll es

def visitedBound : List (Decl × Exp) → List (Option Decl × Exp)
  | [] => []
  | (d, e) :: bs => (partVisits e ++ [(some d, e)]) ++ visitedBound bs

def visitedProcs : List (Decl × Exp) → List (Option Decl × Exp)
  | [] => []
  | (_, .lambda _ _ body) :: bs => visitedAll body ++ visitedProcs bs
  | _ :: bs => visitedProcs bs

def visitedForms : List Exp → List (Option Decl × Exp)
  | [] => []
  | .define d e :: es => (partVisits e ++ [(some d, e)]) ++ visitedForms es
  | e :: es => (partVisits e ++ [(none, e)]) ++ visitedForms es

end

/-- What the calls of a check are for if nothing fails, the parts of an expression before the
expression. -/
def visited (d? : Option Decl) (e : Exp) : List (Option Decl × Exp) :=
  e.partVisits ++ [(d?, e)]

/-- The calls of the check of a program. -/
def programCalls (env : Env) : Exp → Calls
  | .program es => formCalls env es
  | e => calls none env e

def visitedProgram : Exp → List (Option Decl × Exp)
  | .program es => visitedForms es
  | e => visited none e

end Exp

/-- What may be said of a computation, of its calls, and of what they are for if nothing fails.
It must be so of single steps, and of expressions whose rule it is said of. -/
structure CallLaw where
  Holds {α : Type} : CheckM α → Calls → List (Option Decl × Exp) → Prop
  pure {α : Type} (a : α) : Holds (Pure.pure a) .nothing []
  throw {α : Type} (c : Cause) (vs : List (Option Decl × Exp)) :
    Holds (throw c : CheckM α) .nothing vs
  get : Holds get .nothing []
  primitive (op : String) : Holds (Primitive.typeOf op) .nothing []
  unify (t u : Ty) (e : Exp) : Holds (CheckM.unify t u e) .nothing []
  bind {α β : Type} {x : CheckM α} {f : α → CheckM β} {cs : Calls} {next : α → Calls}
    {vs ws : List (Option Decl × Exp)} :
    Holds x cs vs → (∀ a, Holds (f a) (next a) ws) →
      Holds (x >>= f) (cs.andThen x next) (vs ++ ws)
  /-- The call of an expression comes after what its rule does. -/
  note {env : Env} {e : Exp} {cs : Calls} {vs : List (Option Decl × Exp)} :
    Holds (e.rule env) cs vs →
    Holds (e.typeOf env) (cs.closing none env e) (vs ++ [(none, e)])
  /-- The type of a value is made equal to the type of its name. -/
  value {env : Env} {e : Exp} {cs : Calls} {vs : List (Option Decl × Exp)} (d : Decl)
      (whole : Exp) :
    Holds (e.rule env) cs vs →
    Holds (do CheckM.unify d.ty (← e.typeOf env) whole) (cs.closing (some d) env e)
      (vs ++ [(some d, e)])

namespace CallLaw

variable {K : CallLaw} {α β : Type} {x : CheckM α} {f : α → CheckM β} {cs : Calls}
  {vs ws : List (Option Decl × Exp)}

theorem lookup (K : CallLaw) (env : Env) (x : String) :
    K.Holds (env.typeOf x) .nothing [] := by
  unfold Env.typeOf
  split
  · exact K.pure _
  · exact K.throw _ _

/-- The rest of a computation makes no calls. -/
theorem quietly (hx : K.Holds x cs vs) (hf : ∀ a, K.Holds (f a) .nothing []) :
    K.Holds (x >>= f) cs vs := by
  have h := K.bind hx hf
  rwa [Calls.andThen_nothing, List.append_nil] at h

/-- Of an expression, and of the same expression as the value of a name. -/
structure Obeyed (K : CallLaw) (env : Env) (e : Exp) : Prop where
  exp : K.Holds (e.typeOf env) (e.calls none env) (e.visited none)
  value :
    ∀ d whole, K.Holds (do CheckM.unify d.ty (← e.typeOf env) whole) (e.calls (some d) env)
      (e.visited (some d))

theorem obeyed {env : Env} {e : Exp}
    (h : K.Holds (e.rule env) (e.partCalls env) e.partVisits) : K.Obeyed env e where
  exp := K.note h
  value d whole := K.value d whole h

namespace Obeyed

variable {env : Env}

theorem ite {c t e : Exp} (hc : K.Obeyed env c) (ht : K.Obeyed env t) (he : K.Obeyed env e) :
    K.Obeyed env (.ite c t e) := by
  refine obeyed ?_
  exact K.bind hc.exp fun _ => K.bind ht.exp fun _ => quietly he.exp fun _ =>
    quietly (K.unify _ _ _) fun _ => quietly (K.unify _ _ _) fun _ => K.pure _

theorem lambda {ps : List Decl} {r : Ty} {body : List Exp}
    (hbody : K.Holds (Exp.typeOfBody (env.extend ps) body) (Exp.bodyCalls (env.extend ps) body)
      (Exp.visitedAll body)) :
    K.Obeyed env (.lambda ps r body) := by
  refine obeyed ?_
  exact quietly hbody fun _ => quietly (K.unify _ _ _) fun _ => K.pure _

/-- Arguments are called only after the operator has returned a procedure type of their number.
-/
theorem app {f : Exp} {es : List Exp} (hf : K.Obeyed env f)
    (hes : ∀ ps, es.length = ps.length →
      K.Holds (Exp.checkArgs env (.app f es) es ps) (Exp.argCalls env (.app f es) es ps)
        (Exp.visitedAll es)) :
    K.Obeyed env (.app f es) := by
  refine obeyed (K.bind (quietly hf.exp fun _ => quietly K.get fun _ => K.pure _) fun t => ?_)
  cases t with
  | proc ps r =>
    rw [Exp.resultTy]
    dsimp only
    split
    · rename_i hlen
      exact quietly (hes ps hlen) fun _ => K.pure _
    · exact K.throw _ _
  | _ => exact K.throw _ _

theorem letIn {bs : List (Decl × Exp)} {body : List Exp}
    (hbs : K.Holds (Exp.checkBindings env (.letIn bs body) bs)
      (Exp.bindingCalls env (.letIn bs body) bs) (Exp.visitedBound bs))
    (hbody : K.Holds (Exp.typeOfBody (env.extend (bs.map Prod.fst)) body)
      (Exp.bodyCalls (env.extend (bs.map Prod.fst)) body) (Exp.visitedAll body)) :
    K.Obeyed env (.letIn bs body) :=
  obeyed (K.bind hbs fun _ => hbody)

theorem letrec {bs : List (Decl × Exp)} {body : List Exp}
    (hbs : K.Holds (Exp.checkProcs (env.extend (bs.map Exp.procDecl)) (.letrec bs body) bs)
      (Exp.procCalls (env.extend (bs.map Exp.procDecl)) (.letrec bs body) bs)
        (Exp.visitedProcs bs))
    (hbody : K.Holds (Exp.typeOfBody (env.extend (bs.map Exp.procDecl)) body)
      (Exp.bodyCalls (env.extend (bs.map Exp.procDecl)) body) (Exp.visitedAll body)) :
    K.Obeyed env (.letrec bs body) := by
  refine obeyed ?_
  by_cases hl : bs.all (·.2.isLambda) = true
  · rw [Exp.rule, if_pos hl, Exp.partCalls, if_pos hl]
    exact K.bind hbs fun _ => hbody
  · rw [Exp.rule, if_neg hl, Exp.partCalls, if_neg hl]
    exact K.throw _ _

theorem define {d : Decl} {e : Exp} (he : K.Obeyed env e) : K.Obeyed env (.define d e) := by
  have h := quietly (he.value d (.define d e)) fun _ => K.pure Ty.void
  rw [bind_assoc] at h
  exact obeyed h

end Obeyed

/-- Each rule obeys a law of calls. -/
def rules (K : CallLaw) : RuleLaw where
  OfExp := K.Obeyed
  OfForms env last es :=
    K.Holds (Exp.typeOfForms env last es) (Exp.formCalls env es) (Exp.visitedForms es)
  OfBody env es := K.Holds (Exp.typeOfBody env es) (Exp.bodyCalls env es) (Exp.visitedAll es)
  OfArgs env whole es ps := es.length = ps.length →
    K.Holds (Exp.checkArgs env whole es ps) (Exp.argCalls env whole es ps) (Exp.visitedAll es)
  OfBindings env whole bs :=
    K.Holds (Exp.checkBindings env whole bs) (Exp.bindingCalls env whole bs)
      (Exp.visitedBound bs)
  OfProcs env whole bs :=
    K.Holds (Exp.checkProcs env whole bs) (Exp.procCalls env whole bs) (Exp.visitedProcs bs)
  const a := obeyed (K.pure a.ty)
  prim op := obeyed (K.primitive op)
  var x := obeyed (K.lookup _ x)
  ite hc ht he := .ite hc ht he
  lambda hbody := .lambda hbody
  app hf hes := .app hf hes
  letIn hbs hbody := .letIn hbs hbody
  letrec hbs hbody := .letrec hbs hbody
  assign x e := obeyed (K.throw _ _)
  quote v := obeyed (K.pure _)
  define he := .define he
  program hes := obeyed hes
  forms_nil last := by
    cases last with
    | none =>
      rw [Exp.typeOfForms, Exp.formCalls, Exp.visitedForms]
      exact K.throw _ _
    | some t =>
      rw [Exp.typeOfForms, Exp.formCalls, Exp.visitedForms]
      exact K.pure _
  forms_define {_ _ d e _} he hes := by
    rw [Exp.typeOfForms, Exp.formCalls, Exp.visitedForms]
    have h := K.bind (he.value d (.define d e)) fun _ => hes
    rwa [bind_assoc] at h
  forms_cons hd he hes := by
    rw [Exp.typeOfForms_cons hd, Exp.formCalls.eq_3 _ _ _ hd, Exp.visitedForms.eq_3 _ _ hd]
    exact K.bind he.exp hes
  body_nil env := by
    rw [Exp.typeOfBody, Exp.bodyCalls, Exp.visitedAll]
    exact K.throw _ _
  body_last he := by
    rw [Exp.typeOfBody, Exp.bodyCalls, Exp.bodyCalls, Exp.visitedAll, Exp.visitedAll,
      Calls.andThen_nothing, List.append_nil]
    exact he.exp
  body_cons hn he hes := by
    rw [Exp.typeOfBody_cons hn, Exp.bodyCalls, Exp.visitedAll]
    exact K.bind he.exp fun _ => hes
  args_cons {_ whole _ _ p _} he hes hlen := by
    rw [Exp.checkArgs, Exp.argCalls, Exp.visitedAll]
    have h := K.bind (quietly he.exp fun t => K.unify t p whole) fun _ =>
      hes (Nat.succ.inj hlen)
    rwa [bind_assoc] at h
  args_end hn hlen := by
    obtain ⟨rfl, rfl⟩ := Exp.args_eq_nil hn hlen
    rw [Exp.checkArgs_end hn, Exp.argCalls.eq_2 _ _ _ _ hn, Exp.visitedAll]
    exact K.pure _
  bindings_nil env whole := by
    rw [Exp.checkBindings, Exp.bindingCalls, Exp.visitedBound]
    exact K.pure _
  bindings_cons {_ whole d _ _} he hbs := by
    rw [Exp.checkBindings, Exp.bindingCalls, Exp.visitedBound]
    have h := K.bind (he.value d whole) fun _ => hbs
    rwa [bind_assoc] at h
  procs_nil env whole := by
    rw [Exp.checkProcs, Exp.procCalls, Exp.visitedProcs]
    exact K.pure _
  procs_cons {_ whole _ _ r _ _} hbody hbs := by
    rw [Exp.checkProcs, Exp.procCalls, Exp.visitedProcs]
    have h := K.bind (quietly hbody fun t => K.unify t r whole) fun _ => hbs
    rwa [bind_assoc] at h
  procs_other hn hbs := by
    rw [Exp.checkProcs_cons hn, Exp.procCalls.eq_3 _ _ _ _ hn, Exp.visitedProcs.eq_3 _ _ hn]
    exact hbs

theorem typeOf (K : CallLaw) (env : Env) (e : Exp) :
    K.Holds (e.typeOf env) (e.calls none env) (e.visited none) :=
  (K.rules.exp env e).exp

theorem typeOfProgram (K : CallLaw) (env : Env) (e : Exp) :
    K.Holds (e.typeOfProgram env) (e.programCalls env) e.visitedProgram := by
  cases e with
  | program es => exact K.rules.forms env none es
  | _ => exact K.typeOf env _

end CallLaw

/-- Without a failure the calls are those for all that is to be visited, and all have an
answer. With a failure, those that have an answer are the first of them. -/
def Visits {α : Type} (vs : List (Option Decl × Exp)) (cs : List Call) :
    Result Cause CheckState α → Prop
  | .ok _ _ => (∀ c ∈ cs, c.returned = true) ∧ cs.map Call.visit = vs
  | .error _ _ => (cs.filter Call.returned).map Call.visit <+: vs

namespace Visits

variable {α β : Type} {vs ws : List (Option Decl × Exp)} {cs : Calls} {st : CheckState}

theorem nothing (r : Result Cause CheckState α) : Visits [] [] r := by
  cases r with
  | ok a m => exact ⟨by simp, rfl⟩
  | error c m => exact List.nil_prefix

/-- A check that stops early has visited a first part of what it would have visited. -/
theorem isPrefix {r : Result Cause CheckState α} {cs : List Call} (h : Visits vs cs r) :
    (cs.filter Call.returned).map Call.visit <+: vs := by
  cases r with
  | ok a m => rw [List.filter_eq_self.mpr h.1, h.2]
  | error c m => exact h

/-- The calls of a sequence are those of its first part and, if that returns, those of the
rest. -/
theorem bind {x : CheckM α} {f : α → CheckM β} {next : α → Calls}
    (hx : Visits vs (cs st) (x st)) (hf : ∀ a m, Visits ws (next a m) (f a m)) :
    Visits (vs ++ ws) (cs.andThen x next st) ((x >>= f) st) := by
  rw [bind_apply, Calls.andThen]
  cases h : x st with
  | error c m =>
    rw [h] at hx
    rw [List.append_nil]
    exact List.IsPrefix.trans hx (List.prefix_append vs ws)
  | ok a m =>
    rw [h] at hx
    have hf := hf a m
    dsimp only
    cases h' : f a m with
    | ok b n =>
      rw [h'] at hf
      exact ⟨List.forall_mem_append.mpr ⟨hx.1, hf.1⟩, by rw [List.map_append, hx.2, hf.2]⟩
    | error c n =>
      rw [h'] at hf
      rw [Visits, List.filter_append, List.map_append, List.filter_eq_self.mpr hx.1, hx.2]
      exact (List.prefix_append_right_inj vs).mpr hf

/-- What comes after makes no calls. -/
theorem quietly {x : CheckM α} (hx : Visits vs (cs st) (x st)) (f : α → CheckM β) :
    Visits vs (cs st) ((x >>= f) st) := by
  rw [bind_apply]
  cases h : x st with
  | error c m =>
    rw [h] at hx
    exact hx
  | ok a m =>
    rw [h] at hx
    dsimp only
    cases f a m with
    | ok b n => exact hx
    | error c n => exact isPrefix hx

/-- The call of an expression has an answer if its rule has one. -/
theorem closing {env : Env} {e : Exp} (d? : Option Decl)
    (h : Visits vs (cs st) (e.rule env st)) :
    Visits (vs ++ [(d?, e)]) (cs.closing d? env e st) (e.typeOf env st) := by
  unfold Calls.closing
  cases hr : e.rule env st with
  | ok t m =>
    rw [hr] at h
    have hself := Exp.typeOf_of_rule_ok hr
    rw [hself]
    refine ⟨List.forall_mem_append.mpr ⟨h.1, ?_⟩, by rw [List.map_append, h.2]; rfl⟩
    simp [Call.returned, Call.result, hself, okWith]
  | error c m =>
    rw [hr] at h
    have hself := Exp.typeOf_of_rule_error hr
    rw [hself, Visits, List.filter_append, List.map_append]
    simpa [Call.returned, Call.result, hself, okWith] using h.trans (List.prefix_append vs _)

end Visits

/-- The order of the calls is that of the parts of an expression. -/
def CallLaw.visits : CallLaw where
  Holds x cs vs := ∀ st, Visits vs (cs st) (x st)
  pure _ _ := .nothing _
  throw _ _ _ := List.nil_prefix
  get _ := .nothing _
  primitive _ _ := .nothing _
  unify _ _ _ _ := .nothing _
  bind hx hf st := (hx st).bind fun a m => hf a m
  note h st := (h st).closing none
  value d whole h st := ((h st).closing (some d)).quietly fun t => CheckM.unify d.ty t whole

end TypedL5
