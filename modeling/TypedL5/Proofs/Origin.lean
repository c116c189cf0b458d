import TypedL5.Proofs.Calls
import TypedL5.Proofs.CheckReach
import TypedL5.Proofs.Entered

/-!
Where a failure comes from. A check fails because it has come, by way of parts and parts of
parts, upon an expression whose own rule fails.
-/
namespace TypedL5

open EStateM (Result)

namespace Exp

/-- What is checked for the forms of a program, each in its environment. A definition is seen
by the forms after it. -/
def formParts (env : Env) : List Exp → List (Env × Exp)
  | [] => []
  | .define d e :: es => (env, e) :: formParts (env.extend [d]) es
  | e :: es => (env, e) :: formParts env es

/-- What is checked for a procedure that is bound recursively. -/
def procParts (env : Env) : Decl × Exp → List (Env × Exp)
  | (_, .lambda ps _ body) => body.map (env.extend ps, ·)
  | _ => []

/-- What is checked for an expression, each part in its environment. -/
def parts (env : Env) : Exp → List (Env × Exp)
  | .const _ | .prim _ | .var _ | .assign _ _ | .quote _ => []
  | .ite c t e => [(env, c), (env, t), (env, e)]
  | .lambda ps _ body => body.map (env.extend ps, ·)
  | .app f es => (env, f) :: es.map (env, ·)
  | .letIn bs body => bs.map (env, ·.2) ++ body.map (env.extend (bs.map Prod.fst), ·)
  | .letrec bs body =>
    let inner := env.extend (bs.map procDecl)
    bs.flatMap (procParts inner) ++ body.map (inner, ·)
  | .define _ e => [(env, e)]
  | .program es => formParts env es

/-- A body without expressions. -/
inductive Bodiless : Exp → Prop
  | lambda {ps : List Decl} {r : Ty} : Bodiless (.lambda ps r [])
  | letIn {bs : List (Decl × Exp)} : Bodiless (.letIn bs [])
  | letrec {bs : List (Decl × Exp)} : Bodiless (.letrec bs [])
  | procedure {bs : List (Decl × Exp)} {body : List Exp} {d : Decl} {ps : List Decl} {r : Ty} :
    (d, .lambda ps r []) ∈ bs → Bodiless (.letrec bs body)

end Exp

/-- Two types could not be made equal for an expression. -/
def Clashing (e : Exp) (c : Cause) (m : CheckState) : Prop :=
  ∃ t u st, CheckM.unify t u e st = .error c m

/-- Types that cannot be made equal are blamed on the expression they were compared for. -/
theorem Clashing.eq_clash {e : Exp} {c : Cause} {m : CheckState} (h : Clashing e c m) :
    ∃ k, c = .clash k e := by
  obtain ⟨t, u, st, h⟩ := h
  obtain ⟨k, hc, _⟩ := CheckM.unify_eq_error h
  exact ⟨k, hc⟩

/-- The failures of the rule of an expression itself, with the state in which it fails. -/
inductive Thrown (env : Env) : Exp → Cause → CheckState → Prop
  | unbound {x : String} {m : CheckState} : env.lookup? x = none →
    Thrown env (.var x) (.unbound x (Name.similar x env.names)) m
  | unknownPrimitive {op : String} {m : CheckState} : Primitive.signature? op = none →
    Thrown env (.prim op) (.unknownPrimitive op) m
  | notProcedure {f : Exp} {es : List Exp} {t : Ty} {st m : CheckState} :
    f.operatorTy env st = .ok t m →
    (¬ ∃ ps r, t = .proc ps r) → Thrown env (.app f es) (.notProcedure t (.app f es)) m
  | wrongArity {f : Exp} {es : List Exp} {ps : List Ty} {r : Ty} {st m : CheckState} :
    f.operatorTy env st = .ok (.proc ps r) m → es.length ≠ ps.length →
    Thrown env (.app f es) (.wrongArity (.app f es)) m
  | notLambda {bs : List (Decl × Exp)} {body : List Exp} {m : CheckState} :
    ¬ bs.all (·.2.isLambda) = true →
    Thrown env (.letrec bs body) (.notLambda (.letrec bs body)) m
  | clash {e : Exp} {c : Cause} {m : CheckState} : Clashing e c m → Thrown env e c m
  /-- A definition among the forms of a program. -/
  | definition {es : List Exp} {d : Decl} {e : Exp} {c : Cause} {m : CheckState} :
    .define d e ∈ es → Clashing (.define d e) c m → Thrown env (.program es) c m
  | unsupported {x : String} {e : Exp} {m : CheckState} :
    Thrown env (.assign x e) (.unsupported (.assign x e)) m
  | emptyBody {e : Exp} {m : CheckState} : e.Bodiless → Thrown env e .emptyBody m
  | emptyProgram {es : List Exp} {m : CheckState} :
    (∀ e ∈ es, e.Defines) → Thrown env (.program es) .emptyProgram m

/-- The failure is that of the expression itself, or of a part of it. -/
inductive Origin : Env → Exp → Cause → CheckState → Prop
  | own {env : Env} {e : Exp} {c : Cause} {m : CheckState} :
    Thrown env e c m → Origin env e c m
  | part {env : Env} {e : Exp} {p : Env × Exp} {c : Cause} {m : CheckState} :
    p ∈ e.parts env → Origin p.1 p.2 c m → Origin env e c m

/-- The failure is that of one of several parts, or another one. -/
def Raised (ps : List (Env × Exp)) (Own : Cause → CheckState → Prop) (c : Cause)
    (m : CheckState) : Prop :=
  (∃ p ∈ ps, Origin p.1 p.2 c m) ∨ Own c m

/-- All failures of a computation have a property. -/
def Fails {α : Type} (x : CheckM α) (Q : Cause → CheckState → Prop) : Prop :=
  ∀ st c m, x st = .error c m → Q c m

namespace Fails

variable {α β : Type} {x : CheckM α} {f : α → CheckM β} {Q P : Cause → CheckState → Prop}

theorem pure (a : α) : Fails (Pure.pure a : CheckM α) Q := by
  rintro st c m ⟨⟩

theorem throw {c : Cause} (h : ∀ m, Q c m) : Fails (throw c : CheckM α) Q := by
  rintro st _ m ⟨⟩
  exact h st

theorem imp (h : Fails x Q) (hQ : ∀ c m, Q c m → P c m) : Fails x P :=
  fun st c m hx => hQ c m (h st c m hx)

/-- The second computation begins where the first one has given an answer. -/
theorem andThen (hx : Fails x Q)
    (hf : ∀ st a m, x st = .ok a m → ∀ c n, f a m = .error c n → Q c n) :
    Fails (x >>= f) Q := by
  intro st c n h
  rw [bind_apply] at h
  cases hr : x st with
  | ok a m =>
    rw [hr] at h
    exact hf st a m hr c n h
  | error c' m =>
    rw [hr] at h
    cases h
    exact hx st c n hr

theorem bind (hx : Fails x Q) (hf : ∀ a, Fails (f a) Q) : Fails (x >>= f) Q :=
  hx.andThen fun _ a m _ => hf a m

theorem unify {t u : Ty} {e : Exp} (h : ∀ c m, Clashing e c m → Q c m) :
    Fails (CheckM.unify t u e) Q :=
  fun st c m hu => h c m ⟨t, u, st, hu⟩

/-- Recording the type cannot fail, so that all failures are those of the rule. -/
theorem typeOf {env : Env} {e : Exp}
    (h : Fails (e.rule env) (Raised (e.parts env) (Thrown env e))) :
    Fails (e.typeOf env) (Origin env e) := by
  rw [Exp.typeOf_eq_rule]
  refine bind (h.imp ?_) fun t => ?_
  · rintro c m (⟨p, hp, ho⟩ | ho)
    · exact .part hp ho
    · exact .own ho
  · rintro st c m ⟨⟩

end Fails

namespace Exp

/-- What may go wrong with the forms of a program besides their expressions. -/
def FormsThrow (last : Option Ty) (es : List Exp) (c : Cause) (m : CheckState) : Prop :=
  (∃ d e, .define d e ∈ es ∧ Clashing (.define d e) c m) ∨ last = none ∧ c = .emptyProgram ∧
    ∀ e ∈ es, e.Defines

/-- What may go wrong with procedures that `whole` binds recursively besides their
expressions. -/
def ProcsThrow (whole : Exp) (bs : List (Decl × Exp)) (c : Cause) (m : CheckState) : Prop :=
  Clashing whole c m ∨ c = .emptyBody ∧ ∃ d ps r, (d, .lambda ps r []) ∈ bs

theorem ProcsThrow.cons {whole : Exp} {b : Decl × Exp} {bs : List (Decl × Exp)} {c : Cause}
    {m : CheckState} (h : ProcsThrow whole bs c m) : ProcsThrow whole (b :: bs) c m := by
  rcases h with h | ⟨hc, d, ps, r, hmem⟩
  · exact .inl h
  · exact .inr ⟨hc, d, ps, r, List.mem_cons_of_mem _ hmem⟩

def BodyThrows (es : List Exp) (c : Cause) (_ : CheckState) : Prop := c = .emptyBody ∧ es = []

theorem resultTy_of_not_proc {env : Env} {f : Exp} {es : List Exp} {t : Ty}
    (h : ¬ ∃ ps r, t = .proc ps r) :
    resultTy env f es t = throw (.notProcedure t (.app f es)) := by
  cases t with
  | proc ps r => exact (h ⟨ps, r, rfl⟩).elim
  | _ => rfl

end Exp

namespace Raised

variable {ps qs : List (Env × Exp)} {Own Own' : Cause → CheckState → Prop} {c : Cause}
  {m : CheckState}

theorem imp (h : Raised ps Own c m) (hps : ps ⊆ qs) (hown : Own c m → Own' c m) :
    Raised qs Own' c m := by
  rcases h with ⟨p, hp, ho⟩ | ho
  · exact .inl ⟨p, hps hp, ho⟩
  · exact .inr (hown ho)

end Raised

namespace Fails

variable {env : Env} {α : Type} {x : CheckM α} {ps qs : List (Env × Exp)}
  {Own Own' : Cause → CheckState → Prop}

/-- The failures of one part. -/
theorem inPart {p : Env × Exp} (h : Fails x (Origin p.1 p.2)) (hp : p ∈ ps) :
    Fails x (Raised ps Own) :=
  h.imp fun _ _ ho => .inl ⟨p, hp, ho⟩

theorem inParts (h : Fails x (Raised ps Own)) (hps : ps ⊆ qs)
    (hown : ∀ c m, Own c m → Own' c m) :
    Fails x (Raised qs Own') :=
  h.imp fun c m ho => ho.imp hps (hown c m)

theorem own (h : Fails x Own) : Fails x (Raised ps Own) := h.imp fun _ _ => .inr

theorem clash {t u : Ty} {e : Exp} : Fails (CheckM.unify t u e) (Raised ps (Thrown env e)) :=
  unify fun _ _ h => .inr (.clash h)

/-- A primitive fails only if it has no signature. -/
theorem primitive (op : String) : Fails (Primitive.typeOf op) (Thrown env (.prim op)) := by
  intro st c m h
  cases hop : Primitive.signature? op with
  | none =>
    rw [Primitive.typeOf, hop] at h
    cases h
    exact .unknownPrimitive hop
  | some σ =>
    rw [Primitive.typeOf_apply hop] at h
    cases h

theorem lookup (x : String) : Fails (env.typeOf x) (Thrown env (.var x)) := by
  unfold Env.typeOf
  split
  · exact .pure _
  · rename_i hx
    exact .throw fun m => .unbound hx

/-- An application fails with its operator, for its operator, or with its arguments. -/
theorem app {f : Exp} {es : List Exp} (hf : Fails (f.typeOf env) (Origin env f))
    (hes : ∀ ps, Fails (Exp.checkArgs env (.app f es) es ps)
      (Raised (es.map (env, ·)) (Clashing (.app f es)))) :
    Fails (Exp.rule env (.app f es))
      (Raised ((Exp.app f es).parts env) (Thrown env (.app f es))) := by
  have hoperator : Fails (f.operatorTy env) (Origin env f) := hf.bind fun t => by
    rintro st c m ⟨⟩
  refine andThen (hoperator.inPart (p := (env, f)) List.mem_cons_self)
    fun st t m ht c n h => ?_
  by_cases hproc : ∃ ps r, t = .proc ps r
  · obtain ⟨ps, r, rfl⟩ := hproc
    rw [Exp.resultTy] at h
    split at h
    · refine bind ((hes ps).inParts (List.subset_cons_self (env, f) _) ?_)
        (fun _ => .pure r) m c n h
      exact fun c m h => .clash h
    · rename_i hlen
      cases h
      exact .inr (.wrongArity ht hlen)
  · rw [Exp.resultTy_of_not_proc hproc] at h
    cases h
    exact .inr (.notProcedure ht hproc)

theorem letIn {bs : List (Decl × Exp)} {body : List Exp}
    (hbs : Fails (Exp.checkBindings env (.letIn bs body) bs)
      (Raised (bs.map (env, ·.2)) (Clashing (.letIn bs body))))
    (hbody : Fails (Exp.typeOfBody (env.extend (bs.map Prod.fst)) body)
      (Raised (body.map (env.extend (bs.map Prod.fst), ·)) (Exp.BodyThrows body))) :
    Fails (Exp.rule env (.letIn bs body))
      (Raised ((Exp.letIn bs body).parts env) (Thrown env (.letIn bs body))) := by
  refine bind (hbs.inParts (List.subset_append_left _ _) fun c m h => .clash h) fun _ => ?_
  refine hbody.inParts (List.subset_append_right _ _) ?_
  rintro c m ⟨rfl, rfl⟩
  exact .emptyBody .letIn

/-- A recursive binding may be refused as such before any part of it is checked. -/
theorem letrec {bs : List (Decl × Exp)} {body : List Exp}
    (hbs : Fails (Exp.checkProcs (env.extend (bs.map Exp.procDecl)) (.letrec bs body) bs)
      (Raised (bs.flatMap (Exp.procParts (env.extend (bs.map Exp.procDecl))))
        (Exp.ProcsThrow (.letrec bs body) bs)))
    (hbody : Fails (Exp.typeOfBody (env.extend (bs.map Exp.procDecl)) body)
      (Raised (body.map (env.extend (bs.map Exp.procDecl), ·)) (Exp.BodyThrows body))) :
    Fails (Exp.rule env (.letrec bs body))
      (Raised ((Exp.letrec bs body).parts env) (Thrown env (.letrec bs body))) := by
  rw [Exp.rule]
  split
  · refine bind (hbs.inParts (List.subset_append_left _ _) ?_) fun _ =>
      hbody.inParts (List.subset_append_right _ _) ?_
    · rintro c m (h | ⟨rfl, d, ps, r, hmem⟩)
      · exact .clash h
      · exact .emptyBody (.procedure hmem)
    · rintro c m ⟨rfl, rfl⟩
      exact .emptyBody .letrec
  · rename_i hl
    exact .throw fun m => .inr (.notLambda hl)

end Fails

/-- Each rule fails by itself or for one of its parts. -/
def RuleLaw.fails : RuleLaw where
  OfExp env e := Fails (e.typeOf env) (Origin env e)
  OfForms env last es := Fails (Exp.typeOfForms env last es)
    (Raised (Exp.formParts env es) (Exp.FormsThrow last es))
  OfBody env es := Fails (Exp.typeOfBody env es) (Raised (es.map (env, ·)) (Exp.BodyThrows es))
  OfArgs env whole es ps :=
    Fails (Exp.checkArgs env whole es ps) (Raised (es.map (env, ·)) (Clashing whole))
  OfBindings env whole bs :=
    Fails (Exp.checkBindings env whole bs) (Raised (bs.map (env, ·.2)) (Clashing whole))
  OfProcs env whole bs :=
    Fails (Exp.checkProcs env whole bs)
      (Raised (bs.flatMap (Exp.procParts env)) (Exp.ProcsThrow whole bs))
  const a := .typeOf (.pure a.ty)
  prim op := .typeOf (.own (.primitive op))
  var x := .typeOf (.own (.lookup x))
  ite {env c t e} hc ht he := by
    refine .typeOf (.bind (hc.inPart (p := (env, c)) (by simp [Exp.parts])) fun tc => ?_)
    refine .bind (ht.inPart (p := (env, t)) (by simp [Exp.parts])) fun tt => ?_
    refine .bind (he.inPart (p := (env, e)) (by simp [Exp.parts])) fun te => ?_
    exact .bind .clash fun _ => .bind .clash fun _ => .pure tt
  lambda hbody := by
    refine .typeOf
      (.bind (hbody.inParts (List.Subset.refl _) ?_) fun t => .bind .clash fun _ => .pure _)
    rintro c m ⟨rfl, rfl⟩
    exact .emptyBody .lambda
  app hf hes := .typeOf (.app hf hes)
  letIn hbs hbody := .typeOf (.letIn hbs hbody)
  letrec hbs hbody := .typeOf (.letrec hbs hbody)
  assign x e := .typeOf (.throw fun m => .inr .unsupported)
  quote v := .typeOf (.pure _)
  define {env _ e} he :=
    .typeOf (.bind (he.inPart (p := (env, e)) (by simp [Exp.parts])) fun t =>
      .bind .clash fun _ => .pure _)
  program hes := by
    refine .typeOf (hes.inParts (List.Subset.refl _) ?_)
    rintro c m (⟨d, e, hmem, h⟩ | ⟨_, rfl, hall⟩)
    · exact .definition hmem h
    · exact .emptyProgram hall
  forms_nil last := by
    cases last with
    | none => exact .throw fun m => .inr (.inr ⟨rfl, rfl, by simp⟩)
    | some t => exact .pure t
  forms_define {env _ d e _} he hes := by
    rw [Exp.typeOfForms, Exp.formParts]
    refine .bind (he.inPart (p := (env, e)) List.mem_cons_self) fun t => .bind ?_ fun _ => ?_
    · exact .unify fun c m h => .inr (.inl ⟨d, e, List.mem_cons_self, h⟩)
    · refine hes.inParts (List.subset_cons_self _ _) ?_
      rintro c m (⟨d', e', hmem, h⟩ | ⟨hlast, hc, hall⟩)
      · exact .inl ⟨d', e', List.mem_cons_of_mem _ hmem, h⟩
      · exact .inr ⟨hlast, hc, List.forall_mem_cons.mpr ⟨⟨d, e, rfl⟩, hall⟩⟩
  forms_cons {env _ e _} hd he hes := by
    rw [Exp.typeOfForms_cons hd, Exp.formParts.eq_3 _ _ _ hd]
    refine .bind (he.inPart (p := (env, e)) List.mem_cons_self) fun t => ?_
    refine (hes t).inParts (List.subset_cons_self _ _) ?_
    rintro c m (⟨d', e', hmem, h⟩ | ⟨hlast, _⟩)
    · exact .inl ⟨d', e', List.mem_cons_of_mem _ hmem, h⟩
    -- After an expression there is a type to answer.
    · cases hlast
  body_nil env := .throw fun m => .inr ⟨rfl, rfl⟩
  body_last {env e} he := he.inPart (p := (env, e)) (by simp)
  body_cons {env e _} hn he hes := by
    rw [Exp.typeOfBody_cons hn]
    refine .bind (he.inPart (p := (env, e)) (by simp)) fun _ =>
      hes.inParts (List.subset_cons_self _ _) ?_
    rintro c m ⟨_, h⟩
    exact (hn h).elim
  args_cons {env _ e _ _ _} he hes := by
    rw [Exp.checkArgs]
    refine .bind (he.inPart (p := (env, e)) (by simp)) fun t =>
      .bind (.own (.unify fun _ _ h => h)) fun _ => ?_
    exact hes.inParts (List.subset_cons_self _ _) fun _ _ h => h
  args_end hn := by
    rw [Exp.checkArgs_end hn]
    exact .pure ()
  bindings_nil env whole := .pure ()
  bindings_cons {env _ _ e _} he hbs := by
    rw [Exp.checkBindings]
    refine .bind (he.inPart (p := (env, e)) (by simp)) fun t =>
      .bind (.own (.unify fun _ _ h => h)) fun _ => ?_
    exact hbs.inParts (List.subset_cons_self _ _) fun _ _ h => h
  procs_nil env whole := .pure ()
  procs_cons {_ _ d ps r _ _} hbody hbs := by
    rw [Exp.checkProcs, List.flatMap_cons]
    refine .bind (hbody.inParts (List.subset_append_left _ _) ?_) fun t => .bind ?_ fun _ => ?_
    · rintro c m ⟨rfl, rfl⟩
      exact .inr ⟨rfl, d, ps, r, List.mem_cons_self⟩
    · exact .unify fun _ _ h => .inr (.inl h)
    · exact hbs.inParts (List.subset_append_right _ _) fun _ _ h => h.cons
  procs_other hn hbs := by
    rw [Exp.checkProcs_cons hn]
    exact hbs.inParts (List.subset_append_right _ _) fun _ _ h => h.cons

namespace Exp

theorem fails_program (env : Env) (e : Exp) : Fails (e.typeOfProgram env) (Origin env e) := by
  cases e with
  | program es =>
    refine (RuleLaw.fails.forms env none es).imp ?_
    rintro c m (⟨p, hp, h⟩ | ⟨d, e, hmem, h⟩ | ⟨_, rfl, hall⟩)
    · exact .part hp h
    · exact .own (.definition hmem h)
    · exact .own (.emptyProgram hall)
  | _ => exact RuleLaw.fails.exp env _

end Exp

/-- A name that is not there in an inner environment is left to the outer one, and is not there
either. -/
theorem Env.outer_of_lookup? {env : Env} {ds : List Decl} {xs : List String} {x : String}
    (hx : x ∈ xs) (h : (env.extend ds).lookup? x = none) :
    x ∈ Decl.outer ds xs ∧ env.lookup? x = none := by
  rcases lookup?_extend_cases env ds hx with ⟨d, _, hd⟩ | ⟨ho, he⟩
  · rw [hd] at h
    cases h
  · exact ⟨ho, he ▸ h⟩

namespace Exp

variable {env : Env} {p : Env × Exp} {x : String} {es : List Exp} {bs : List (Decl × Exp)}

theorem mem_freeAll {e : Exp} (he : e ∈ es) (hx : x ∈ e.free) : x ∈ freeAll es := by
  induction es with
  | nil => cases he
  | cons e' es ih =>
    rw [freeAll]
    rcases List.mem_cons.mp he with rfl | he
    · exact List.mem_append_left _ hx
    · exact List.mem_append_right _ (ih he)

theorem mem_freeBound {b : Decl × Exp} (hb : b ∈ bs) (hx : x ∈ b.2.free) :
    x ∈ freeBound bs := by
  induction bs with
  | nil => cases hb
  | cons b' bs ih =>
    rw [freeBound]
    rcases List.mem_cons.mp hb with rfl | hb
    · exact List.mem_append_left _ hx
    · exact List.mem_append_right _ (ih hb)

/-- A name that is free in a form and not declared by the forms before it is free in the
program. -/
theorem free_of_formParts (hp : p ∈ formParts env es) (hx : x ∈ p.2.free)
    (hn : p.1.lookup? x = none) :
    x ∈ freeForms es ∧ env.lookup? x = none := by
  fun_induction formParts env es with
  | case1 => cases hp
  | case2 env d e es ih =>
    rw [freeForms]
    rcases List.mem_cons.mp hp with rfl | hp
    · exact ⟨List.mem_append_left _ hx, hn⟩
    · obtain ⟨hx, hn⟩ := ih hp
      obtain ⟨hx, hn⟩ := Env.outer_of_lookup? hx hn
      exact ⟨List.mem_append_right _ hx, hn⟩
  | case3 env e es hd ih =>
    rw [freeForms_cons hd]
    rcases List.mem_cons.mp hp with rfl | hp
    · exact ⟨List.mem_append_left _ hx, hn⟩
    · obtain ⟨hx, hn⟩ := ih hp
      exact ⟨List.mem_append_right _ hx, hn⟩

/-- A name that is free in a body and no parameter is free in the procedure. -/
theorem free_of_procParts {b : Decl × Exp} (hp : p ∈ procParts env b) (hx : x ∈ p.2.free)
    (hn : p.1.lookup? x = none) :
    x ∈ b.2.free ∧ env.lookup? x = none := by
  obtain ⟨d, e⟩ := b
  cases e with
  | lambda ps r body =>
    obtain ⟨e, he, rfl⟩ := List.mem_map.mp hp
    exact Env.outer_of_lookup? (mem_freeAll he hx) hn
  | _ => cases hp

/-- The names that a part takes from outside are taken from outside by the whole. -/
theorem free_of_parts {e : Exp} (hp : p ∈ e.parts env) (hx : x ∈ p.2.free)
    (hn : p.1.lookup? x = none) :
    x ∈ e.free ∧ env.lookup? x = none := by
  cases e with
  | const | prim | var | assign | quote => cases hp
  | ite c t e =>
    simp only [parts, List.mem_cons, List.not_mem_nil, or_false] at hp
    rcases hp with rfl | rfl | rfl <;> exact ⟨by simp [hx], hn⟩
  | lambda ps r body =>
    obtain ⟨e, he, rfl⟩ := List.mem_map.mp hp
    exact Env.outer_of_lookup? (mem_freeAll he hx) hn
  | app f es =>
    rw [free]
    rcases List.mem_cons.mp hp with rfl | hp
    · exact ⟨List.mem_append_left _ hx, hn⟩
    · obtain ⟨e, he, rfl⟩ := List.mem_map.mp hp
      exact ⟨List.mem_append_right _ (mem_freeAll he hx), hn⟩
  | letIn bs body =>
    rw [free]
    rcases List.mem_append.mp hp with hp | hp
    · obtain ⟨b, hb, rfl⟩ := List.mem_map.mp hp
      exact ⟨List.mem_append_left _ (mem_freeBound hb hx), hn⟩
    · obtain ⟨e, he, rfl⟩ := List.mem_map.mp hp
      obtain ⟨ho, hn⟩ := Env.outer_of_lookup? (mem_freeAll he hx) hn
      exact ⟨List.mem_append_right _ ho, hn⟩
  | letrec bs body =>
    rw [free, ← outer_procDecl]
    rcases List.mem_append.mp hp with hp | hp
    · obtain ⟨b, hb, hp⟩ := List.mem_flatMap.mp hp
      obtain ⟨hx, hn⟩ := free_of_procParts hp hx hn
      exact Env.outer_of_lookup? (List.mem_append_left _ (mem_freeBound hb hx)) hn
    · obtain ⟨e, he, rfl⟩ := List.mem_map.mp hp
      exact Env.outer_of_lookup? (List.mem_append_right _ (mem_freeAll he hx)) hn
  | define d e =>
    obtain rfl := List.mem_singleton.mp hp
    exact ⟨hx, hn⟩
  | program es => exact free_of_formParts hp hx hn

end Exp

/-- Only a variable is ever found unbound, and only where it is not declared. -/
theorem Thrown.unbound_inv {env : Env} {e : Exp} {x : String} {similar : List String}
    {m : CheckState} (h : Thrown env e (.unbound x similar) m) :
    e = .var x ∧ env.lookup? x = none := by
  cases h with
  | unbound hx => exact ⟨rfl, hx⟩
  | clash h => obtain ⟨k, ⟨⟩⟩ := h.eq_clash
  | definition _ h => obtain ⟨k, ⟨⟩⟩ := h.eq_clash

/-- A name that is not found is one that the expression takes from outside, and is not
there. -/
theorem Origin.free {env : Env} {e : Exp} {c : Cause} {m : CheckState} (h : Origin env e c m)
    {x : String} {similar : List String} (hc : c = .unbound x similar) :
    x ∈ e.free ∧ env.lookup? x = none := by
  induction h with
  | own h =>
    subst hc
    obtain ⟨rfl, hx⟩ := h.unbound_inv
    exact ⟨List.mem_singleton_self x, hx⟩
  | part hp _ ih =>
    obtain ⟨hx, hn⟩ := ih hc
    exact Exp.free_of_parts hp hx hn

end TypedL5
