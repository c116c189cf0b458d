import TypedL5.Proofs.CheckStep
import TypedL5.Proofs.Typing

/-! What a check finds out can be derived by the typing rules. -/
namespace TypedL5

variable {α β : Type} {x : CheckM α} {f : α → CheckM β} {Q : α → Assignment → Prop}
  {P : β → Assignment → Prop} {env : Env}

/-- An answer has a property under all assignments that satisfy the store at the end. Later
bindings only leave fewer of them, so that nothing which holds of an answer is lost on the
way. -/
def Yields (x : CheckM α) (Q : α → Assignment → Prop) : Prop :=
  ∀ st a st', st.store.Acyclic → x st = .ok a st' →
    st'.store.Acyclic ∧ ∀ ρ : Assignment, ρ.Satisfies st'.store → ρ.Satisfies st.store ∧ Q a ρ

namespace Yields

theorem pure {a : α} (h : ∀ ρ, Q a ρ) : Yields (Pure.pure a) Q := by
  rintro st _ _ hs ⟨⟩
  exact ⟨hs, fun ρ hρ => ⟨hρ, h ρ⟩⟩

theorem throw (c : Cause) : Yields (throw c) Q := by
  rintro st a st' _ ⟨⟩

/-- What the first answer has under all assignments, it still has under the fewer that are
left. -/
theorem bind (hx : Yields x Q) (hf : ∀ a, Yields (f a) fun b ρ => Q a ρ → P b ρ) :
    Yields (x >>= f) P := by
  intro st b st' hs h
  obtain ⟨a, m, ha, hb⟩ := bind_eq_ok_iff.mp h
  obtain ⟨hm, hQ⟩ := hx st a m hs ha
  obtain ⟨hs', hP⟩ := hf a m b st' hm hb
  refine ⟨hs', fun ρ hρ => ?_⟩
  obtain ⟨hρm, hP⟩ := hP ρ hρ
  obtain ⟨hρs, hQ⟩ := hQ ρ hρm
  exact ⟨hρs, hP hQ⟩

theorem mono {P : α → Assignment → Prop} (hx : Yields x Q) (h : ∀ a ρ, Q a ρ → P a ρ) :
    Yields x P := by
  intro st a st' hs ha
  obtain ⟨hs', hQ⟩ := hx st a st' hs ha
  exact ⟨hs', fun ρ hρ => ⟨(hQ ρ hρ).1, h a ρ (hQ ρ hρ).2⟩⟩

theorem unify (t u : Ty) (e : Exp) :
    Yields (CheckM.unify t u e) fun _ ρ => t.eval ρ = u.eval ρ := by
  intro st a st' hs h
  have hsolve := Store.unify_solve hs t u
  rw [(CheckM.unify_eq_ok h).1] at hsolve
  refine ⟨(hsolve.grows hs).acyclic hs, fun ρ hρ => ?_⟩
  simpa using (hsolve.satisfies_iff hs).mp hρ

theorem derived {e : Exp} {t : Ty} {Q : Ty → Assignment → Prop} (h : ∀ ρ, Q t ρ) :
    Yields (CheckM.derived e t) Q := by
  rintro st _ _ hs ⟨⟩
  simp only [CheckState.noteType_store]
  exact ⟨hs, fun ρ hρ => ⟨hρ, h ρ⟩⟩

theorem get : Yields get fun st ρ => ∀ t, (st.store.deref t).eval ρ = t.eval ρ := by
  rintro st _ _ hs ⟨⟩
  exact ⟨hs, fun ρ hρ => ⟨hρ, Store.eval_deref hs hρ⟩⟩

theorem lookup (env : Env) (x : String) :
    Yields (env.typeOf x) fun t ρ => env.read ρ x = some (t.eval ρ) := by
  unfold Env.typeOf Env.read
  split
  · rename_i h
    exact pure fun ρ => by rw [h, Option.map_some]
  · exact throw _

/-- The type of a primitive is an instance of its signature under every assignment. -/
theorem primitive (op : String) :
    Yields (Primitive.typeOf op) fun t ρ => ∃ σ θ, Primitive.signature? op = some σ ∧
      t.eval ρ = σ.body.eval θ := by
  unfold Primitive.typeOf
  split
  · rename_i σ hσ
    rintro st _ _ hs ⟨⟩
    exact ⟨hs, fun ρ hρ => ⟨hρ, σ, _, hσ, Ty.eval_subst _ _ _⟩⟩
  · exact throw _

end Yields

def SoundExp (env : Env) (e : Exp) : Prop :=
  Yields (e.typeOf env) fun t ρ => HasType ρ (env.read ρ) e (t.eval ρ)

def SoundBody (env : Env) (es : List Exp) : Prop :=
  Yields (Exp.typeOfBody env es) fun t ρ => BodyHasType ρ (env.read ρ) es (t.eval ρ)

def SoundArgs (env : Env) (whole : Exp) (es : List Exp) (ps : List Ty) : Prop :=
  Yields (Exp.checkArgs env whole es ps) fun _ ρ =>
    es.length = ps.length → ArgsHaveTypes ρ (env.read ρ) es (ps.map (Ty.eval ρ))

def SoundBindings (env : Env) (whole : Exp) (bs : List (Decl × Exp)) : Prop :=
  Yields (Exp.checkBindings env whole bs) fun _ ρ =>
    ∀ b ∈ bs, HasType ρ (env.read ρ) b.2 (b.1.ty.eval ρ)

def SoundProcs (env : Env) (whole : Exp) (bs : List (Decl × Exp)) : Prop :=
  Yields (Exp.checkProcs env whole bs) fun _ ρ => ∀ d ps r body, (d, .lambda ps r body) ∈ bs →
    BodyHasType ρ ((env.read ρ).extend ρ ps) body (r.eval ρ)

/-- The type is that of the last form which is no definition, if there is one, and else the one
given before. -/
def SoundForms (env : Env) (last : Option Ty) (es : List Exp) : Prop :=
  Yields (Exp.typeOfForms env last es) fun t ρ => ∃ τ?,
    FormsHaveType ρ (env.read ρ) es τ? ∧ some (t.eval ρ) = τ?.or (last.map (Ty.eval ρ))

namespace SoundExp

theorem const (a : Atom) : SoundExp env (.const a) := by
  rw [SoundExp, Exp.typeOf]
  refine .derived fun ρ => ?_
  cases a with
  | num n => exact .num n
  | bool b => exact .bool b
  | str s => exact .str s

theorem prim (op : String) : SoundExp env (.prim op) := by
  rw [SoundExp, Exp.typeOf]
  refine (Yields.primitive op).bind fun t => .derived fun ρ => ?_
  rintro ⟨σ, θ, hσ, ht⟩
  rw [ht]
  exact .prim θ hσ

theorem var (x : String) : SoundExp env (.var x) := by
  rw [SoundExp, Exp.typeOf]
  exact (Yields.lookup env x).bind fun t => .derived fun ρ hx => .var hx

theorem ite {c t e : Exp} (hc : SoundExp env c) (ht : SoundExp env t) (he : SoundExp env e) :
    SoundExp env (.ite c t e) := by
  rw [SoundExp, Exp.typeOf]
  refine hc.bind fun tc => ht.bind fun tt => he.bind fun te =>
      (Yields.unify _ _ _).bind fun _ =>
    (Yields.unify _ _ _).bind fun _ => .derived fun ρ hbranch hbool he ht hc => ?_
  rw [hbool] at hc
  rw [← hbranch] at he
  exact .ite hc ht he

theorem lambda {ps : List Decl} {r : Ty} {body : List Exp}
    (h : SoundBody (env.extend ps) body) :
    SoundExp env (.lambda ps r body) := by
  rw [SoundExp, Exp.typeOf]
  refine h.bind fun t => (Yields.unify _ _ _).bind fun _ => .derived fun ρ hr hbody => ?_
  rw [Env.read_extend, hr] at hbody
  simpa [Function.comp_def] using HasType.lambda hbody

/-- The arguments have the types of the parameters under every assignment that is left in the
end. -/
theorem app {f : Exp} {es : List Exp} (hf : SoundExp env f)
    (hes : ∀ ps, SoundArgs env (.app f es) es ps) : SoundExp env (.app f es) := by
  rw [SoundExp, Exp.typeOf_app]
  refine hf.bind fun tf => Yields.get.bind fun st => ?_
  generalize htf : st.store.deref tf = t
  unfold Exp.applied
  split
  · rename_i ps r
    split
    · rename_i hlen
      refine (hes ps).bind fun _ => .derived fun ρ hargs hd hf => ?_
      rw [← hd tf, htf, Ty.eval_proc] at hf
      exact .app hf (hargs hlen)
    · exact .throw _
  · exact .throw _

theorem letIn {bs : List (Decl × Exp)} {body : List Exp}
    (hbs : SoundBindings env (.letIn bs body) bs)
    (hbody : SoundBody (env.extend (bs.map Prod.fst)) body) : SoundExp env
      (.letIn bs body) := by
  rw [SoundExp, Exp.typeOf]
  refine hbs.bind fun _ => hbody.bind fun t => .derived fun ρ hbody hbs => ?_
  rw [Env.read_extend] at hbody
  exact .letIn hbs hbody

/-- The procedures are checked with their declared types in scope, as the rule has it. -/
theorem letrec {bs : List (Decl × Exp)} {body : List Exp}
    (hbs : SoundProcs (env.extend (bs.map Exp.procDecl)) (.letrec bs body) bs)
    (hbody : SoundBody (env.extend (bs.map Exp.procDecl)) body) :
    SoundExp env (.letrec bs body) := by
  rw [SoundExp, Exp.typeOf_letrec]
  split
  · rename_i hl
    refine hbs.bind fun _ => hbody.bind fun t => .derived fun ρ hbody hbs => ?_
    simp only [Env.read_extend] at hbody hbs
    exact .letrec (List.all_eq_true.mp hl) hbs hbody
  · exact .throw _

theorem assign (x : String) (e : Exp) : SoundExp env (.assign x e) := by
  rw [SoundExp, Exp.typeOf]
  exact .throw _

theorem quote (v : Quoted) : SoundExp env (.quote v) := by
  rw [SoundExp, Exp.typeOf]
  exact .derived fun ρ => .quote ((Quoted.hasType_iff ρ).mpr rfl)

theorem define {d : Decl} {e : Exp} (he : SoundExp env e) : SoundExp env (.define d e) := by
  rw [SoundExp, Exp.typeOf]
  refine he.bind fun t => (Yields.unify _ _ _).bind fun _ => .derived fun ρ hd he => ?_
  rw [← hd] at he
  exact .define he

theorem program {es : List Exp} (hes : SoundForms env none es) :
    SoundExp env (.program es) := by
  rw [SoundExp, Exp.typeOf]
  refine hes.bind fun t => .derived fun ρ => ?_
  rintro ⟨τ?, hes, ht⟩
  rw [Option.map_none, Option.or_none] at ht
  exact .program (ht ▸ hes)

end SoundExp

namespace SoundForms

theorem nil (last : Option Ty) : SoundForms env last [] := by
  rw [SoundForms]
  cases last with
  | none =>
    rw [Exp.typeOfForms]
    exact .throw _
  | some t =>
    rw [Exp.typeOfForms]
    exact .pure fun ρ => ⟨none, .nil, rfl⟩

theorem define {last : Option Ty} {d : Decl} {e : Exp} {es : List Exp} (he : SoundExp env e)
    (hes : SoundForms (env.extend [d]) last es) : SoundForms env last (.define d e :: es) := by
  rw [SoundForms, Exp.typeOfForms]
  refine he.bind fun t => (Yields.unify _ _ _).bind fun _ => hes.mono fun u ρ => ?_
  rintro ⟨τ?, hes, hlast⟩ hd he
  rw [← hd] at he
  rw [Env.read_extend] at hes
  exact ⟨τ?, .define he hes, hlast⟩

/-- The type of a form is that of the program unless a later one has a type. -/
theorem cons {last : Option Ty}
    {e : Exp} {es : List Exp} (hd : ∀ d e', e = .define d e' → False) (he : SoundExp env e)
    (hes : ∀ t, SoundForms env (some t) es) :
    SoundForms env last (e :: es) := by
  rw [SoundForms, Exp.typeOfForms_cons hd]
  refine he.bind fun t => (hes t).mono fun u ρ => ?_
  rintro ⟨τ?, hes, hlast⟩ he
  refine ⟨_, .cons hd he hes, ?_⟩
  rw [hlast]
  cases τ? <;> rfl

end SoundForms

namespace SoundBody

theorem last {e : Exp} (he : SoundExp env e) : SoundBody env [e] := by
  rw [SoundBody, Exp.typeOfBody]
  exact he.mono fun t ρ he => .last he

theorem cons {e : Exp} {es : List Exp} (hn : es = [] → False) (he : SoundExp env e)
    (hes : SoundBody env es) : SoundBody env (e :: es) := by
  rw [SoundBody, Exp.typeOfBody_cons hn]
  exact he.bind fun _ => hes.mono fun t ρ hes he => .cons he hes

end SoundBody

theorem SoundArgs.cons {whole e : Exp} {es : List Exp} {p : Ty} {ps : List Ty}
    (he : SoundExp env e) (hes : SoundArgs env whole es ps) :
    SoundArgs env whole (e :: es) (p :: ps) := by
  rw [SoundArgs, Exp.checkArgs]
  refine he.bind fun t => (Yields.unify _ _ _).bind fun _ =>
    hes.mono fun _ ρ hes hp he hlen => ?_
  rw [hp] at he
  exact .cons he (hes (Nat.succ.inj hlen))

/-- A procedure is sound if its body has the declared result. -/
theorem SoundProcs.cons {whole : Exp} {d : Decl} {ps : List Decl} {r : Ty} {body : List Exp}
    {bs : List (Decl × Exp)} (hbody : SoundBody (env.extend ps) body)
    (hbs : SoundProcs env whole bs) : SoundProcs env whole ((d, .lambda ps r body) :: bs) := by
  rw [SoundProcs, Exp.checkProcs]
  refine hbody.bind fun t => (Yields.unify _ _ _).bind fun _ =>
    hbs.mono fun _ ρ hbs hr hbody => ?_
  intro d' ps' r' body' hmem
  rcases List.mem_cons.mp hmem with heq | hmem
  · cases heq
    rwa [Env.read_extend, hr] at hbody
  · exact hbs d' ps' r' body' hmem

theorem SoundBindings.cons {whole : Exp} {d : Decl} {e : Exp} {bs : List (Decl × Exp)}
    (he : SoundExp env e) (hbs : SoundBindings env whole bs) :
    SoundBindings env whole ((d, e) :: bs) := by
  rw [SoundBindings, Exp.checkBindings]
  refine he.bind fun t => (Yields.unify _ _ _).bind fun _ => hbs.mono fun _ ρ hbs hd he => ?_
  rw [← hd] at he
  exact List.forall_mem_cons.mpr ⟨he, hbs⟩

/-- Each rule is sound. -/
def RuleLaw.sound : RuleLaw where
  OfExp := SoundExp
  OfForms := SoundForms
  OfBody := SoundBody
  OfArgs := SoundArgs
  OfBindings := SoundBindings
  OfProcs := SoundProcs
  const a := .const a
  prim op := .prim op
  var x := .var x
  ite hc ht he := .ite hc ht he
  lambda hbody := .lambda hbody
  app hf hes := .app hf hes
  letIn hbs hbody := .letIn hbs hbody
  letrec hbs hbody := .letrec hbs hbody
  assign x e := .assign x e
  quote v := .quote v
  define he := .define he
  program hes := .program hes
  forms_nil last := .nil last
  forms_define he hes := .define he hes
  forms_cons hd he hes := .cons hd he hes
  body_nil env := by
    rw [SoundBody, Exp.typeOfBody]
    exact .throw _
  body_last he := .last he
  body_cons hn he hes := .cons hn he hes
  args_cons he hes := .cons he hes
  args_end hn := by
    rw [SoundArgs, Exp.checkArgs_end hn]
    refine .pure fun ρ hlen => ?_
    obtain ⟨rfl, rfl⟩ := Exp.args_eq_nil hn hlen
    exact .nil
  bindings_nil env whole := by
    rw [SoundBindings, Exp.checkBindings]
    exact .pure fun ρ => by simp
  bindings_cons he hbs := .cons he hbs
  procs_nil env whole := by
    rw [SoundProcs, Exp.checkProcs]
    exact .pure fun ρ => by simp
  procs_cons hbody hbs := .cons hbody hbs
  procs_other hn hbs := by
    rw [SoundProcs, Exp.checkProcs_cons hn]
    exact hbs.mono fun _ ρ hbs d ps r body hmem =>
      hbs d ps r body (Exp.mem_procs_of_cons hn hmem)

/-- Whatever the store holds at the end, each way to satisfy it makes the answer a type of the
expression. -/
theorem typeOf_sound {env : Env} {e : Exp} {st st' : CheckState} {t : Ty} {ρ : Assignment}
    (hs : st.store.Acyclic) (h : e.typeOf env st = .ok t st') (hρ : ρ.Satisfies st'.store) :
    HasType ρ (env.read ρ) e (t.eval ρ) :=
  ((RuleLaw.sound.exp env e st t st' hs h).2 ρ hρ).2

/-- The parameter and the result are bound long after they are looked at. -/
theorem typeOf_sound_branch :
    let a : TyVar := ⟨0, "A"⟩
    let b : TyVar := ⟨1, "B"⟩
    let v : TyVar := ⟨2, "T_1"⟩
    let w : TyVar := ⟨3, "T_2"⟩
    let e : Exp := .lambda [⟨"p", .var a⟩] (.var b)
      [.ite (.const (.bool true)) (.app (.prim "car") [.var "p"]) (.const (.str "none"))]
    let st : CheckState := { supply := { next := 2 } }
    let s' : Store := ⟨[(b, .string), (v, .string), (a, .pair (.var v) (.var w))]⟩
    let st' : CheckState := { supply := { next := 4, count := 2 }, store := s' }
    let ρ : Assignment := s'.solution fun _ => .base .number
    st.store.Acyclic ∧ e.typeOf {} st = .ok (.proc [.var a] (.var b)) st' ∧
      ρ.Satisfies st'.store ∧ HasType ρ (Env.read ρ {}) e
        (.proc [.pair (.base .string) (.base .number)] (.base .string)) := by
  intro a b v w e st s' st' ρ
  have hs : st.store.Acyclic := Store.acyclic_empty
  have h : e.typeOf {} st = .ok (.proc [.var a] (.var b)) st' := by
    subst a b v w e st s' st'
    rfl
  have hρ : ρ.Satisfies st'.store :=
    Store.solution_satisfies (RuleLaw.sound.exp {} e st _ st' hs h).1 _
  exact ⟨hs, h, hρ, typeOf_sound hs h hρ⟩

end TypedL5
