import TypedL5.Proofs.RuleLaw
import TypedL5.Proofs.Termination

/-! What every step of a check keeps is kept by whole checks, whether they succeed or fail. -/
namespace TypedL5

namespace CheckState

@[simp] theorem noteType_store (st : CheckState) (e : Exp) (t : Ty) :
    (st.noteType e t).store = st.store := by
  unfold noteType
  split <;> rfl

@[simp] theorem noteType_supply (st : CheckState) (e : Exp) (t : Ty) :
    (st.noteType e t).supply = st.supply := by
  unfold noteType
  split <;> rfl

/-- New variables are not bound. -/
structure Valid (st : CheckState) : Prop where
  acyclic : st.store.Acyclic
  old : ∀ v t, st.store.contents? v = some t → v.id < st.supply.next

theorem Valid.unbound {st : CheckState} (h : st.Valid) {v : TyVar}
    (hv : st.supply.next ≤ v.id) :
    st.store.contents? v = none := by
  cases hc : st.store.contents? v with
  | none => rfl
  | some t => exact absurd (h.old v t hc) (Nat.not_lt.mpr hv)

end CheckState

theorem Primitive.typeOf_apply {op : String} {σ : Scheme} (h : signature? op = some σ)
    (st : CheckState) : Primitive.typeOf op st =
      .ok (σ.instantiate st.supply).1 { st with supply := (σ.instantiate st.supply).2 } := by
  rw [Primitive.typeOf, h]
  rfl

namespace Exp

/-- What becomes of an application when the type of its operator is `t`. -/
def applied (env : Env) (f : Exp) (es : List Exp) : Ty → CheckM Ty
  | .proc ps r =>
    if es.length = ps.length then do
      checkArgs env (.app f es) es ps
      CheckM.derived (.app f es) r
    else throw (.wrongArity (.app f es))
  | t => throw (.notProcedure t (.app f es))

/-- A type that is not a procedure's is refused before any argument is checked. -/
theorem applied_of_not_proc {env : Env} {f : Exp} {es : List Exp} {t : Ty}
    (h : ¬ ∃ ps r, t = .proc ps r) :
    applied env f es t = throw (.notProcedure t (.app f es)) := by
  unfold applied
  split
  · exact (h ⟨_, _, rfl⟩).elim
  · rfl

theorem typeOf_app (env : Env) (f : Exp) (es : List Exp) :
    (Exp.app f es).typeOf env = (do
      let tf ← f.typeOf env
      let st ← get
      applied env f es (st.store.deref tf)) := by
  rw [Exp.typeOf]
  refine bind_congr fun tf => bind_congr fun st => ?_
  unfold applied
  cases st.store.deref tf <;> simp only [ne_eq, ite_not]
  split <;> rfl

theorem typeOf_letrec (env : Env) (bs : List (Decl × Exp)) (body : List Exp) :
    (Exp.letrec bs body).typeOf env =
      if bs.all (·.2.isLambda) then (do
        checkProcs (env.extend (bs.map procDecl)) (.letrec bs body) bs
        let t ← typeOfBody (env.extend (bs.map procDecl)) body
        CheckM.derived (.letrec bs body) t)
      else throw (.notLambda (.letrec bs body)) := by
  rw [Exp.typeOf]
  split <;> rfl

theorem typeOfForms_cons {env : Env} {last : Option Ty} {e : Exp} {es : List Exp}
    (h : ∀ d e', e = .define d e' → False) : typeOfForms env last (e :: es) = (do
      let t ← e.typeOf env
      typeOfForms env (some t) es) :=
  typeOfForms.eq_4 env last e es h

theorem typeOfBody_cons {env : Env} {e : Exp} {es : List Exp} (h : es = [] → False) :
    typeOfBody env (e :: es) = (do
      let _ ← e.typeOf env
      typeOfBody env es) :=
  typeOfBody.eq_3 env e es h

theorem checkProcs_cons {env : Env} {whole : Exp} {b : Decl × Exp} {bs : List (Decl × Exp)}
    (h : ∀ d ps r body, b = (d, .lambda ps r body) → False) :
    checkProcs env whole (b :: bs) = checkProcs env whole bs :=
  checkProcs.eq_3 env whole b bs h

/-- A binding that is passed over is none of a procedure. -/
theorem mem_procs_of_cons {b : Decl × Exp} {bs : List (Decl × Exp)}
    (h : ∀ d ps r body, b = (d, .lambda ps r body) → False) {d : Decl}
      {ps : List Decl} {r : Ty}
    {body : List Exp} (hm : (d, .lambda ps r body) ∈ b :: bs) :
      (d, .lambda ps r body) ∈ bs := by
  rcases List.mem_cons.mp hm with he | hm
  · exact (h d ps r body he.symm).elim
  · exact hm

theorem checkArgs_end {env : Env} {whole : Exp} {es : List Exp} {ps : List Ty}
    (h : ∀ e es' p ps', es = e :: es' → ps = p :: ps' → False) :
    checkArgs env whole es ps = pure () :=
  checkArgs.eq_2 env whole es ps h

/-- Equally many arguments and parameters run out together. -/
theorem args_eq_nil {es : List Exp} {ps : List Ty}
    (h : ∀ e es' p ps', es = e :: es' → ps = p :: ps' → False) (hl : es.length = ps.length) :
    es = [] ∧ ps = [] := by
  cases es with
  | nil => exact ⟨rfl, List.eq_nil_of_length_eq_zero hl.symm⟩
  | cons e es =>
    obtain ⟨p, ps', rfl⟩ := List.exists_cons_of_length_eq_add_one hl.symm
    exact (h e es p ps' rfl rfl).elim

end Exp

namespace CheckM

variable {t u : Ty} {e : Exp} {st st' : CheckState} {a : Unit} {c : Cause}

/-- A unification that succeeds in a check is one that succeeds on the store. -/
theorem unify_eq_ok (h : unify t u e st = .ok a st') :
    Store.unify t u st.store = .ok () st'.store ∧ st'.supply = st.supply := by
  unfold unify at h
  split at h
  · rename_i s hs
    cases h
    exact ⟨hs, rfl⟩
  · cases h

/-- A unification that fails in a check is a clash on the store, blamed on the expression. -/
theorem unify_eq_error (h : unify t u e st = .error c st') :
    ∃ k, c = .clash k e ∧ Store.unify t u st.store = .error k st'.store ∧
      st'.supply = st.supply := by
  unfold unify at h
  split at h
  · cases h
  · rename_i k s hs
    cases h
    exact ⟨k, rfl, hs, rfl⟩

end CheckM

/-- A relation that holds across each thing a check does to its state. -/
structure CheckStep (R : CheckState → CheckState → Prop) : Prop where
  refl : ∀ st, R st st
  trans : ∀ {st st' st''}, R st st' → R st' st'' → R st st''
  note : ∀ st e t, R st (st.noteType e t)
  draw : ∀ st (σ : Scheme), R st { st with supply := (σ.instantiate st.supply).2 }
  unify : ∀ t u e, Keeps R (CheckM.unify t u e)

namespace CheckStep

variable {R : CheckState → CheckState → Prop} {α β : Type} {x : CheckM α} {f : α → CheckM β}

theorem pure (h : CheckStep R) (a : α) : Keeps R (Pure.pure a : CheckM α) := h.refl

theorem throw (h : CheckStep R) (c : Cause) : Keeps R (throw c : CheckM α) := h.refl

theorem bind (h : CheckStep R) (hx : Keeps R x) (hf : ∀ a, Keeps R (f a)) :
    Keeps R (x >>= f) :=
  keeps_bind h.trans hx hf

theorem derived (h : CheckStep R) (e : Exp) (t : Ty) : Keeps R (CheckM.derived e t) :=
  fun st => h.note st e t

theorem lookup (h : CheckStep R) (env : Env) (x : String) : Keeps R (env.typeOf x) := by
  unfold Env.typeOf
  split
  · exact h.pure _
  · exact h.throw _

theorem primitive (h : CheckStep R) (op : String) : Keeps R (Primitive.typeOf op) := by
  unfold Primitive.typeOf
  split
  · exact fun st => h.draw st _
  · exact h.throw _

/-- An application keeps what the checks of its arguments keep. -/
theorem applied (h : CheckStep R) {env : Env} {f : Exp} {es : List Exp}
    (ha : ∀ ps, Keeps R (Exp.checkArgs env (.app f es) es ps)) (t : Ty) :
    Keeps R (Exp.applied env f es t) := by
  unfold Exp.applied
  split
  · split
    · exact h.bind (ha _) fun _ => h.derived _ _
    · exact h.throw _
  · exact h.throw _

/-- What each step keeps is kept by each rule. -/
def rules (h : CheckStep R) : RuleLaw where
  OfExp env e := Keeps R (Exp.typeOf env e)
  OfForms env last es := Keeps R (Exp.typeOfForms env last es)
  OfBody env es := Keeps R (Exp.typeOfBody env es)
  OfArgs env whole es ps := Keeps R (Exp.checkArgs env whole es ps)
  OfBindings env whole bs := Keeps R (Exp.checkBindings env whole bs)
  OfProcs env whole bs := Keeps R (Exp.checkProcs env whole bs)
  const a := by
    rw [Exp.typeOf]
    exact h.derived _ _
  prim op := by
    rw [Exp.typeOf]
    exact h.bind (h.primitive op) fun _ => h.derived _ _
  var x := by
    rw [Exp.typeOf]
    exact h.bind (h.lookup _ x) fun _ => h.derived _ _
  ite hc ht he := by
    rw [Exp.typeOf]
    exact h.bind hc fun _ => h.bind ht fun _ => h.bind he fun _ =>
      h.bind (h.unify _ _ _) fun _ => h.bind (h.unify _ _ _) fun _ => h.derived _ _
  lambda hbody := by
    rw [Exp.typeOf]
    exact h.bind hbody fun _ => h.bind (h.unify _ _ _) fun _ => h.derived _ _
  app hf hes := by
    rw [Exp.typeOf_app]
    exact h.bind hf fun _ => h.bind h.refl fun _ => h.applied hes _
  letIn hbs hbody := by
    rw [Exp.typeOf]
    exact h.bind hbs fun _ => h.bind hbody fun _ => h.derived _ _
  letrec hbs hbody := by
    rw [Exp.typeOf_letrec]
    split
    · exact h.bind hbs fun _ => h.bind hbody fun _ => h.derived _ _
    · exact h.throw _
  assign x e := by
    rw [Exp.typeOf]
    exact h.throw _
  quote v := by
    rw [Exp.typeOf]
    exact h.derived _ _
  define he := by
    rw [Exp.typeOf]
    exact h.bind he fun _ => h.bind (h.unify _ _ _) fun _ => h.derived _ _
  program hes := by
    rw [Exp.typeOf]
    exact h.bind hes fun _ => h.derived _ _
  forms_nil last := by
    cases last with
    | none =>
      rw [Exp.typeOfForms]
      exact h.throw _
    | some t =>
      rw [Exp.typeOfForms]
      exact h.pure t
  forms_define he hes := by
    rw [Exp.typeOfForms]
    exact h.bind he fun _ => h.bind (h.unify _ _ _) fun _ => hes
  forms_cons hd he hes := by
    rw [Exp.typeOfForms_cons hd]
    exact h.bind he fun t => hes t
  body_nil env := by
    rw [Exp.typeOfBody]
    exact h.throw _
  body_last he := by
    rw [Exp.typeOfBody]
    exact he
  body_cons hn he hes := by
    rw [Exp.typeOfBody_cons hn]
    exact h.bind he fun _ => hes
  args_cons he hes := by
    rw [Exp.checkArgs]
    exact h.bind he fun _ => h.bind (h.unify _ _ _) fun _ => hes
  args_end hn := by
    rw [Exp.checkArgs_end hn]
    exact h.pure _
  bindings_nil env whole := by
    rw [Exp.checkBindings]
    exact h.pure _
  bindings_cons he hbs := by
    rw [Exp.checkBindings]
    exact h.bind he fun _ => h.bind (h.unify _ _ _) fun _ => hbs
  procs_nil env whole := by
    rw [Exp.checkProcs]
    exact h.pure _
  procs_cons hbody hbs := by
    rw [Exp.checkProcs]
    exact h.bind hbody fun _ => h.bind (h.unify _ _ _) fun _ => hbs
  procs_other hn hbs := by
    rw [Exp.checkProcs_cons hn]
    exact hbs

theorem checkForm (h : CheckStep R) (env : Env) (form : Exp) :
    Keeps R (form.checkForm env) := by
  unfold Exp.checkForm
  split
  · exact h.bind (h.rules.exp _ _) fun _ => h.bind (h.unify _ _ _) fun _ => h.pure _
  · exact h.bind (h.rules.exp _ _) fun _ => h.pure _

theorem typeOfProgram (h : CheckStep R) (env : Env) (e : Exp) :
    Keeps R (e.typeOfProgram env) := by
  unfold Exp.typeOfProgram
  split
  · exact h.rules.forms _ _ _
  · exact h.rules.exp _ _

/-- Checks only make the store grow. -/
theorem growth : CheckStep fun st st' => st.store.Acyclic → st.store.Grows st'.store where
  refl _ _ := .refl
  trans h h' hs := (h hs).trans (h' ((h hs).acyclic hs))
  note st e t _ := by simpa using Store.Grows.refl
  draw _ _ _ := .refl
  unify t u e st hs := by
    have hg := (Store.unify_solve hs t u).grows hs
    cases hr : CheckM.unify t u e st with
    | ok a st' =>
      rw [(CheckM.unify_eq_ok hr).1] at hg
      exact hg
    | error c st' =>
      obtain ⟨k, _, hk, _⟩ := CheckM.unify_eq_error hr
      rw [hk] at hg
      exact hg

end CheckStep

end TypedL5
