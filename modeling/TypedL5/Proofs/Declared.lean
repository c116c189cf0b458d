import TypedL5.Check.Source
import TypedL5.Proofs.Calls

/-!
Declared types of bound names. In an expression or a program that has a type, a value that
`let` or `define` binds has in the end the type that is declared for its name. For a name that
`letrec` binds, the declared type is not looked at.
-/
namespace TypedL5

open EStateM (Result)

/-- The value of a name has an answer, and its type agrees with that of the name. -/
def Store.Meets (s : Store) (c : Call) : Prop :=
  ∀ d, c.declared? = some d → ∃ u n, c.result = .ok u n ∧ s.resolve d.ty = s.resolve u

theorem Store.Meets.later {s s' : Store} {c : Call} (h : s.Meets c) (hext : s.ExtendedBy s')
    (hs' : s'.Acyclic) :
    s'.Meets c := by
  intro d hd
  obtain ⟨u, n, hu, heq⟩ := h d hd
  exact ⟨u, n, hu, hext.resolve_inj hs' heq⟩

/-- If a computation succeeds, the values that it has checked agree with their names in the
end. -/
def Agreeing {α : Type} (cs : Calls) (x : CheckM α) : Prop :=
  ∀ st a m, st.store.Acyclic → x st = .ok a m → st.store.Grows m.store ∧ ∀ c ∈ cs st,
    m.store.Meets c

namespace Agreeing

variable {α β : Type} {cs : Calls} {x : CheckM α} {f : α → CheckM β}

/-- A computation that makes no calls only has to let the store grow. -/
theorem quiet (h : Keeps (fun st st' => st.store.Acyclic → st.store.Grows st'.store) x) :
    Agreeing .nothing x := by
  intro st a m hs hx
  have hg := h st hs
  rw [hx] at hg
  exact ⟨hg, by simp [Calls.nothing]⟩

/-- What the first part has agreed on still holds after the second, since stores only grow. -/
theorem bind {next : α → Calls} (hx : Agreeing cs x) (hf : ∀ a, Agreeing (next a) (f a)) :
    Agreeing (cs.andThen x next) (x >>= f) := by
  intro st b n hs h
  obtain ⟨a, m, ha, hb⟩ := bind_eq_ok_iff.mp h
  obtain ⟨hg, hcs⟩ := hx st a m hs ha
  obtain ⟨hg', hnext⟩ := hf a m b n (hg.acyclic hs) hb
  refine ⟨hg.trans hg', fun c hc => ?_⟩
  rw [Calls.andThen, ha] at hc
  rcases List.mem_append.mp hc with hc | hc
  · exact (hcs c hc).later hg'.extends (hg'.acyclic (hg.acyclic hs))
  · exact hnext c hc

/-- The record made after a rule binds nothing. -/
theorem note {env : Env} {e : Exp} (h : Agreeing cs (e.rule env)) :
    Agreeing (cs.closing none env e) (e.typeOf env) := by
  intro st t m hs ht
  rw [Exp.typeOf_eq_rule] at ht
  obtain ⟨_, m', hr, ⟨⟩⟩ := bind_eq_ok_iff.mp ht
  obtain ⟨hg, hcs⟩ := h st t m' hs hr
  rw [CheckState.noteType_store]
  exact ⟨hg, List.forall_mem_append.mpr ⟨hcs, by simp [Store.Meets]⟩⟩

/-- The two types are made equal right after the type of the value is known. -/
theorem value {env : Env} {e : Exp} (d : Decl) (whole : Exp) (h : Agreeing cs (e.rule env)) :
    Agreeing (cs.closing (some d) env e) (do CheckM.unify d.ty (← e.typeOf env) whole) := by
  intro st a m hs hm
  obtain ⟨u, n, hu, hunify⟩ := bind_eq_ok_iff.mp hm
  obtain ⟨hg, hcs⟩ := h.note st u n hs hu
  obtain ⟨hok, _⟩ := CheckM.unify_eq_ok hunify
  have hsolve := Store.unify_solve (hg.acyclic hs) d.ty u
  rw [hok] at hsolve
  have hg' := hsolve.grows (hg.acyclic hs)
  have hacyclic := hg'.acyclic (hg.acyclic hs)
  refine ⟨hg.trans hg', List.forall_mem_append.mpr ⟨fun c hc => ?_, ?_⟩⟩
  · exact (hcs c (List.mem_append_left _ hc)).later hg'.extends hacyclic
  · rintro _ (_ | ⟨_, ⟨⟩⟩) _ ⟨⟩
    exact ⟨u, n, hu, hsolve.resolve_eq (hg.acyclic hs) (d.ty, u) (by simp)⟩

end Agreeing

def CallLaw.agreeing : CallLaw where
  Holds x cs _ := Agreeing cs x
  pure a := .quiet (CheckStep.growth.pure a)
  throw c _ := .quiet (CheckStep.growth.throw c)
  get := .quiet fun _ _ => .refl
  primitive op := .quiet (CheckStep.growth.primitive op)
  unify t u e := .quiet (CheckStep.growth.unify t u e)
  bind := .bind
  note := .note
  value := .value

namespace Exp

mutual

/-- The bindings inside an expression whose declared types count, those of `let` and
`define`. -/
def bound : Exp → List (Decl × Exp)
  | .const _ | .prim _ | .var _ | .quote _ => []
  | .ite c t e => c.bound ++ (t.bound ++ e.bound)
  | .lambda _ _ body => boundAll body
  | .app f es => f.bound ++ boundAll es
  | .letIn bs body => boundLet bs ++ boundAll body
  | .letrec bs body => boundProcs bs ++ boundAll body
  | .assign _ e => e.bound
  | .define d e => e.bound ++ [(d, e)]
  | .program es => boundAll es

def boundAll : List Exp → List (Decl × Exp)
  | [] => []
  | e :: es => e.bound ++ boundAll es

def boundLet : List (Decl × Exp) → List (Decl × Exp)
  | [] => []
  | (d, e) :: bs => e.bound ++ (d, e) :: boundLet bs

/-- The bindings inside procedures that are bound recursively, but not these procedures. -/
def boundProcs : List (Decl × Exp) → List (Decl × Exp)
  | [] => []
  | (_, e) :: bs => e.bound ++ boundProcs bs

end

/-- The bindings of a `letrec`, whose declared types do not count. -/
def recursive : Exp → List (Decl × Exp)
  | .letrec bs _ => bs
  | _ => []

/-- Some check of the expression has an answer. -/
def Answers (e : Exp) : Prop := ∃ env st t m, e.typeOf env st = .ok t m

theorem not_answers_assign (x : String) (e : Exp) : ¬ (assign x e).Answers := by
  rintro ⟨env, st, t, m, h⟩
  rw [typeOf] at h
  cases h

theorem Answers.isLambda {bs : List (Decl × Exp)} {body : List Exp}
    (h : (letrec bs body).Answers) :
    bs.all (·.2.isLambda) = true := by
  obtain ⟨env, st, t, m, h⟩ := h
  rw [typeOf_letrec] at h
  split at h
  · assumption
  · cases h

end Exp

/-- The binding whose value is visited. -/
def Exp.binding? (v : Option Decl × Exp) : Option (Decl × Exp) := v.1.map (·, v.2)

/-- If all that is visited has an answer, then the values of names in it are those of the
bindings inside the expression. -/
theorem Exp.bound_visited :
    (∀ e : Exp, e.Answers → (∀ v ∈ e.partVisits, v.2.Answers) →
      e.partVisits.filterMap binding? = e.bound) ∧
    (∀ es, (∀ v ∈ visitedForms es, v.2.Answers) → (visitedForms es).filterMap binding? =
      boundAll es) ∧
    (∀ bs, (∀ v ∈ visitedProcs bs, v.2.Answers) → bs.all (·.2.isLambda) = true →
      (visitedProcs bs).filterMap binding? = boundProcs bs) ∧
    (∀ es, (∀ v ∈ visitedAll es, v.2.Answers) → (visitedAll es).filterMap binding? =
      boundAll es) ∧
    (∀ bs, (∀ v ∈ visitedBound bs, v.2.Answers) → (visitedBound bs).filterMap binding? =
      boundLet bs) := by
  apply partVisits.mutual_induct
  · exact fun a _ _ => rfl
  · exact fun op _ _ => rfl
  · exact fun x _ _ => rfl
  · exact fun x e ha _ => absurd ha (not_answers_assign x e)
  · exact fun v _ _ => rfl
  · intro c t e hc ht he _ h
    simp only [partVisits, List.forall_mem_append, List.forall_mem_singleton] at h
    obtain ⟨⟨hc', hac⟩, ⟨ht', hat⟩, he', hae⟩ := h
    simp [partVisits, bound, binding?, List.filterMap_cons, hc hac hc', ht hat ht', he hae he']
  · exact fun ps r body hbody _ h => hbody h
  · intro f es hf hes _ h
    simp only [partVisits, List.forall_mem_append, List.forall_mem_singleton] at h
    obtain ⟨⟨hf', haf⟩, hes'⟩ := h
    simp [partVisits, bound, binding?, List.filterMap_cons, hf haf hf', hes hes']
  · intro bs body hbs hbody _ h
    obtain ⟨hbs', hbody'⟩ := List.forall_mem_append.mp h
    rw [partVisits, bound, List.filterMap_append, hbs hbs', hbody hbody']
  · intro bs body hbs hbody ha h
    obtain ⟨hbs', hbody'⟩ := List.forall_mem_append.mp h
    rw [partVisits, bound, List.filterMap_append, hbs hbs' ha.isLambda, hbody hbody']
  · intro d e he _ h
    simp only [partVisits, List.forall_mem_append, List.forall_mem_singleton] at h
    simp [partVisits, bound, binding?, he h.2 h.1]
  · exact fun es hes _ h => hes h
  · exact fun _ => rfl
  · intro d e es he hes h
    simp only [visitedForms, List.forall_mem_append, List.forall_mem_singleton] at h
    simp [visitedForms, boundAll, bound, binding?, he h.1.2 h.1.1, hes h.2]
  · intro e es hd he hes h
    rw [visitedForms.eq_3 _ _ hd] at h ⊢
    simp only [List.forall_mem_append, List.forall_mem_singleton] at h
    simp [boundAll, binding?, List.filterMap_cons, he h.1.2 h.1.1, hes h.2]
  · exact fun _ => rfl
  · intro e es he hes h
    simp only [visitedAll, List.forall_mem_append, List.forall_mem_singleton] at h
    simp [visitedAll, boundAll, binding?, List.filterMap_cons, he h.1.2 h.1.1, hes h.2]
  · exact fun _ _ => rfl
  · intro d ps r body bs hbody hbs h hl
    obtain ⟨hbody', hbs'⟩ := List.forall_mem_append.mp h
    rw [visitedProcs, boundProcs, bound, List.filterMap_append, hbody hbody',
      hbs hbs' (Bool.and_eq_true_iff.mp hl).2]
  · intro b bs hn hbs h hl
    obtain ⟨d, e⟩ := b
    -- An answer shows that all values are procedures, so none is passed over.
    cases e with
    | lambda ps r body => exact (hn d ps r body rfl).elim
    | _ => cases (Bool.and_eq_true_iff.mp hl).1
  · exact fun _ => rfl
  · intro d e bs he hbs h
    simp only [visitedBound, List.forall_mem_append, List.forall_mem_singleton] at h
    simp [visitedBound, boundLet, binding?, he h.1.2 h.1.1, hbs h.2]

namespace Exp

mutual

/-- The expression with `void` for the declared type of each name that `letrec` binds. -/
def undeclared : Exp → Exp
  | .const a => .const a
  | .prim op => .prim op
  | .var x => .var x
  | .ite c t e => .ite c.undeclared t.undeclared e.undeclared
  | .lambda ps r body => .lambda ps r (undeclaredAll body)
  | .app f es => .app f.undeclared (undeclaredAll es)
  | .letIn bs body => .letIn (undeclaredLet bs) (undeclaredAll body)
  | .letrec bs body => .letrec (undeclaredProcs bs) (undeclaredAll body)
  | .assign x e => .assign x e.undeclared
  | .quote v => .quote v
  | .define d e => .define d e.undeclared
  | .program es => .program (undeclaredAll es)

def undeclaredAll : List Exp → List Exp
  | [] => []
  | e :: es => e.undeclared :: undeclaredAll es

def undeclaredLet : List (Decl × Exp) → List (Decl × Exp)
  | [] => []
  | (d, e) :: bs => (d, e.undeclared) :: undeclaredLet bs

def undeclaredProcs : List (Decl × Exp) → List (Decl × Exp)
  | [] => []
  | (d, e) :: bs => (⟨d.name, .void⟩, e.undeclared) :: undeclaredProcs bs

end

theorem length_undeclaredAll (es : List Exp) : (undeclaredAll es).length = es.length := by
  induction es with
  | nil => rfl
  | cons e es ih => simp [undeclaredAll, ih]

theorem undeclaredAll_eq_nil {es : List Exp} (h : undeclaredAll es = []) : es = [] :=
  List.eq_nil_of_length_eq_zero (by rw [← length_undeclaredAll, h]; rfl)

theorem undeclared_ne_define {e : Exp} (h : ∀ d v, e = .define d v → False)
    (d : Decl) (v : Exp) :
    e.undeclared = .define d v → False := by
  intro he
  cases e with
  | define d v => exact h d v rfl
  | _ => cases he

theorem fst_undeclaredLet (bs : List (Decl × Exp)) :
    (undeclaredLet bs).map Prod.fst = bs.map Prod.fst := by
  induction bs with
  | nil => rfl
  | cons b bs ih => simp [undeclaredLet, ih]

theorem isLambda_undeclared (e : Exp) : e.undeclared.isLambda = e.isLambda := by
  cases e <;> rfl

theorem all_isLambda_undeclaredProcs (bs : List (Decl × Exp)) :
    (undeclaredProcs bs).all (·.2.isLambda) = bs.all (·.2.isLambda) := by
  induction bs with
  | nil => rfl
  | cons b bs ih => simp only [undeclaredProcs, List.all_cons, isLambda_undeclared, ih]

/-- Procedures that are bound recursively have the types that they are written with. -/
theorem procDecl_undeclaredProcs {bs : List (Decl × Exp)} (h : bs.all (·.2.isLambda) = true) :
    (undeclaredProcs bs).map procDecl = bs.map procDecl := by
  induction bs with
  | nil => rfl
  | cons b bs ih =>
    obtain ⟨d, e⟩ := b
    simp only [List.all_cons, Bool.and_eq_true] at h
    cases e with
    | lambda ps r body => simp [undeclaredProcs, undeclared, procDecl, ih h.2]
    | _ => cases h.1

end Exp

/-- Two computations both fail, or both give one answer, and end in states that differ in the
trace at most. -/
def SameAnswer {α : Type} : Result Cause CheckState α → Result Cause CheckState α → Prop
  | .ok a m, .ok a' m' => a = a' ∧ m.supply = m'.supply ∧ m.store = m'.store
  | .error _ _, .error _ _ => True
  | _, _ => False

theorem sameAnswer_iff {α : Type} {r r' : Result Cause CheckState α} : SameAnswer r r' ↔
    EndAlike (fun a a' m m' => a = a' ∧ m.supply = m'.supply ∧ m.store = m'.store)
      (fun _ _ _ _ => True) r r' := by
  cases r <;> cases r' <;> exact Iff.rfl

/-- Two computations end alike if they begin in states that differ in the trace at most. -/
def Alongside {α : Type} (x x' : CheckM α) : Prop :=
  ∀ st st', st.supply = st'.supply → st.store = st'.store → SameAnswer (x st) (x' st')

namespace Alongside

variable {α β : Type} {x x' : CheckM α} {f f' : α → CheckM β}

theorem pure (a : α) : Alongside (Pure.pure a : CheckM α) (Pure.pure a) :=
  fun _ _ hg hs => ⟨rfl, hg, hs⟩

theorem throw (c c' : Cause) : Alongside (throw c : CheckM α) (MonadExcept.throw c') :=
  fun _ _ _ _ => trivial

theorem bind (hx : Alongside x x') (hf : ∀ a, Alongside (f a) (f' a)) :
    Alongside (x >>= f) (x' >>= f') := by
  intro st st' hg hs
  refine sameAnswer_iff.mpr ((sameAnswer_iff.mp (hx st st' hg hs)).bind ?_)
  rintro a _ m m' ⟨rfl, hg, hs⟩
  exact sameAnswer_iff.mp (hf a m m' hg hs)

theorem unify (t u : Ty) (e e' : Exp) :
    Alongside (CheckM.unify t u e) (CheckM.unify t u e') := by
  intro st st' hg hs
  rw [CheckM.unify, CheckM.unify, hs]
  cases Store.unify t u st'.store with
  | ok _ s => exact ⟨rfl, hg, rfl⟩
  | error c s => trivial

theorem primitive (op : String) : Alongside (Primitive.typeOf op) (Primitive.typeOf op) := by
  intro st st' hg hs
  cases h : Primitive.signature? op with
  | none =>
    rw [Primitive.typeOf, h]
    trivial
  | some σ =>
    rw [Primitive.typeOf_apply h, Primitive.typeOf_apply h, hg]
    exact ⟨rfl, rfl, hs⟩

theorem lookup (env : Env) (x : String) : Alongside (env.typeOf x) (env.typeOf x) := by
  unfold Env.typeOf
  split
  · exact pure _
  · exact throw _ _

/-- Recording a type after a rule cannot part two checks. -/
theorem typeOf {env : Env} {e e' : Exp} (h : Alongside (e.rule env) (e'.rule env)) :
    Alongside (e.typeOf env) (e'.typeOf env) := by
  rw [Exp.typeOf_eq_rule, Exp.typeOf_eq_rule]
  refine h.bind fun t st st' hg hs => ⟨rfl, ?_, ?_⟩
  · rw [CheckState.noteType_supply, CheckState.noteType_supply, hg]
  · rw [CheckState.noteType_store, CheckState.noteType_store, hs]

theorem operatorTy {env : Env} {f f' : Exp} (h : Alongside (f.typeOf env) (f'.typeOf env)) :
    Alongside (f.operatorTy env) (f'.operatorTy env) := by
  refine h.bind fun t st st' hg hs => ⟨?_, hg, hs⟩
  rw [hs]

/-- Whether an application is refused depends on the operator's type and the number of
arguments only. -/
theorem resultTy {env : Env} {f f' : Exp} {es es' : List Exp} (hlen : es.length = es'.length)
    (h : ∀ ps, Alongside (Exp.checkArgs env (.app f es) es ps)
      (Exp.checkArgs env (.app f' es') es' ps)) (t : Ty) :
    Alongside (Exp.resultTy env f es t) (Exp.resultTy env f' es' t) := by
  cases t with
  | proc ps r =>
    rw [Exp.resultTy, Exp.resultTy, hlen]
    split
    · exact (h ps).bind fun _ => pure r
    · exact throw _ _
  | _ => exact throw _ _

end Alongside

namespace Exp

/-- Each rule goes alike with and without the types declared of procedures. Only the rule for
`letrec` meets names whose declared types have changed. -/
def undeclaredRules : RuleLaw where
  OfExp env e := Alongside (typeOf env e) (typeOf env e.undeclared)
  OfForms env last es :=
    Alongside (typeOfForms env last es) (typeOfForms env last (undeclaredAll es))
  OfBody env es := Alongside (typeOfBody env es) (typeOfBody env (undeclaredAll es))
  OfArgs env whole es ps :=
    ∀ whole',
      Alongside (checkArgs env whole es ps) (checkArgs env whole' (undeclaredAll es) ps)
  OfBindings env whole bs := ∀ whole',
    Alongside (checkBindings env whole bs) (checkBindings env whole' (undeclaredLet bs))
  OfProcs env whole bs :=
    ∀ whole', Alongside (checkProcs env whole bs) (checkProcs env whole' (undeclaredProcs bs))
  const a := .typeOf (.pure a.ty)
  prim op := .typeOf (.primitive op)
  var x := .typeOf (.lookup _ x)
  ite hc ht he := .typeOf (.bind hc fun tc => .bind ht fun tt => .bind he fun te =>
    .bind (.unify tc .boolean _ _) fun _ => .bind (.unify tt te _ _) fun _ => .pure tt)
  lambda {_ _ r _} hbody :=
    .typeOf (.bind hbody fun t => .bind (.unify t r _ _) fun _ => .pure _)
  app {_ _ es} hf hes :=
    .typeOf
      (.bind (.operatorTy hf) (.resultTy (length_undeclaredAll es).symm fun ps => hes ps _))
  letIn hbs hbody := by
    refine .typeOf ?_
    rw [undeclared, rule, rule, fst_undeclaredLet]
    exact .bind (hbs _) fun _ => hbody
  letrec {_ bs _} hbs hbody := by
    refine .typeOf ?_
    by_cases hl : bs.all (·.2.isLambda) = true
    · rw [undeclared, rule, rule, if_pos hl,
        if_pos ((all_isLambda_undeclaredProcs bs).trans hl), procDecl_undeclaredProcs hl]
      exact .bind (hbs _) fun _ => hbody
    · rw [undeclared, rule, rule, if_neg hl, if_neg (by rwa [all_isLambda_undeclaredProcs])]
      exact .throw _ _
  assign x e := .typeOf (.throw _ _)
  quote v := .typeOf (.pure _)
  define {_ d _} he := .typeOf (.bind he fun t => .bind (.unify d.ty t _ _) fun _ => .pure _)
  program hes := .typeOf hes
  forms_nil last := by
    cases last with
    | none => exact .throw _ _
    | some t => exact .pure t
  forms_define {_ _ d _ _} he hes := by
    simp only [undeclaredAll, undeclared, typeOfForms]
    exact .bind he fun t => .bind (.unify d.ty t _ _) fun _ => hes
  forms_cons hd he hes := by
    rw [undeclaredAll, typeOfForms_cons hd, typeOfForms_cons (undeclared_ne_define hd)]
    exact .bind he fun t => hes t
  body_nil env := .throw _ _
  body_last he := he
  body_cons hn he hes := by
    rw [undeclaredAll, typeOfBody_cons hn, typeOfBody_cons fun h =>
      hn (undeclaredAll_eq_nil h)]
    exact .bind he fun _ => hes
  args_cons {_ _ _ _ p _} he hes whole' := by
    rw [undeclaredAll, checkArgs, checkArgs]
    exact .bind he fun t => .bind (.unify t p _ _) fun _ => hes _
  args_end {_ _ es ps} hn whole' := by
    rw [checkArgs_end hn]
    cases es with
    | nil => exact .pure ()
    | cons e es =>
      cases ps with
      | nil => exact .pure ()
      | cons p ps => exact (hn e es p ps rfl rfl).elim
  bindings_nil env whole whole' := .pure ()
  bindings_cons {_ _ d _ _} he hbs whole' := by
    rw [undeclaredLet, checkBindings, checkBindings]
    exact .bind he fun t => .bind (.unify d.ty t _ _) fun _ => hbs _
  procs_nil env whole whole' := .pure ()
  procs_cons {_ _ _ _ r _ _} hbody hbs whole' := by
    rw [undeclaredProcs, undeclared, checkProcs, checkProcs]
    exact .bind hbody fun t => .bind (.unify t r _ _) fun _ => hbs _
  procs_other {_ _ b _} hn hbs whole' := by
    obtain ⟨d, e⟩ := b
    rw [undeclaredProcs, checkProcs_cons hn, checkProcs_cons]
    · exact hbs whole'
    · intro d' ps r body h
      cases e with
      | lambda ps r body => exact hn d ps r body rfl
      | _ => cases h

theorem undeclared_program_alongside (env : Env) (e : Exp) :
    Alongside (e.typeOfProgram env) (e.undeclared.typeOfProgram env) := by
  cases e with
  | program es => exact undeclaredRules.forms env none es
  | _ => exact undeclaredRules.exp env _

end Exp

theorem SameAnswer.exists_ok {α : Type} {r r' : Result Cause CheckState α} {a : α}
    {m : CheckState} (h : SameAnswer r r') (hr : r = .ok a m) :
    ∃ m', r' = .ok a m' ∧ m'.store = m.store := by
  subst hr
  cases r' with
  | ok a' m' =>
    obtain ⟨rfl, _, hs⟩ := h
    exact ⟨m', rfl, hs.symm⟩
  | error c' m' => exact h.elim

/-- The answer to one of two expressions that differ in declared types for `letrec` is the
answer to the other. -/
theorem Alongside.exists_ok {check : Exp → CheckM Ty}
    (h : ∀ e, Alongside (check e) (check e.undeclared)) {e e' : Exp} {st m : CheckState}
    {t : Ty} (he : e'.undeclared = e.undeclared) (hok : check e st = .ok t m) :
    ∃ m', check e' st = .ok t m' ∧ m'.store = m.store := by
  obtain ⟨n, hn, hstore⟩ := (h e st st rfl rfl).exists_ok hok
  have h' := h e' st st rfl rfl
  rw [he, hn] at h'
  cases hr : check e' st with
  | ok t' m' =>
    rw [hr] at h'
    obtain ⟨rfl, _, hs⟩ := h'
    exact ⟨m', rfl, hs.trans hstore⟩
  | error c' m' =>
    rw [hr] at h'
    exact h'.elim

/-- The calls for the values of names are those of the bindings inside an expression, in order,
and wherever the declared type of a name has no variables it is the type of the value. -/
structure Store.Upholds (s : Store) (e : Exp) (cs : List Call) : Prop where
  bound : (cs.map Call.visit).filterMap Exp.binding? = e.bound
  types :
    ∀ c ∈ cs, ∀ d, c.declared? = some d → d.ty.vars = [] → ∃ u n, c.result = .ok u n ∧
      s.resolve u = d.ty

/-- A check that returns has visited every binding, so it has met every declaration. -/
theorem Agreeing.upholds {e : Exp} {x : CheckM Ty} {cs : Calls} {vs : List (Option Decl × Exp)}
    {st m : CheckState} {t : Ty} (h : Agreeing cs x) (hvisits : Visits vs (cs st) (x st))
    (hbound : (∀ v ∈ vs, v.2.Answers) → vs.filterMap Exp.binding? = e.bound)
    (hs : st.store.Acyclic) (hok : x st = .ok t m) : m.store.Upholds e (cs st) := by
  rw [hok] at hvisits
  obtain ⟨hreturned, hvs⟩ := hvisits
  obtain ⟨hg, hmeets⟩ := h st t m hs hok
  refine ⟨?_, fun c hc d hd hclosed => ?_⟩
  · rw [hvs]
    refine hbound fun v hv => ?_
    rw [← hvs] at hv
    obtain ⟨c, hc, rfl⟩ := List.mem_map.mp hv
    obtain ⟨u, n, hu, _⟩ := exists_ok (hreturned c hc)
    exact ⟨c.env, c.start, u, n, hu⟩
  · obtain ⟨u, n, hu, heq⟩ := hmeets c hc d hd
    exact ⟨u, n, hu, by rw [← heq, Store.resolve_closed (hg.acyclic hs) hclosed]⟩

theorem Exp.bound_visited_none {e : Exp} (h : ∀ v ∈ e.visited none, v.2.Answers) :
    (e.visited none).filterMap binding? = e.bound := by
  obtain ⟨hparts, ha⟩ := List.forall_mem_append.mp h
  simp [visited, binding?, bound_visited.1 e (ha _ (List.mem_singleton_self _)) hparts]

theorem Exp.bound_visitedProgram {e : Exp} (h : ∀ v ∈ e.visitedProgram, v.2.Answers) :
    e.visitedProgram.filterMap binding? = e.bound := by
  cases e with
  | program es => exact bound_visited.2.1 es h
  | _ => exact bound_visited_none h

/-- In an expression or a program that has a type, each value that `let` or `define` binds at
any depth has in the final store the type that is declared for its name, if that has no
variables. The types that are declared for names of `letrec` have no part in the answer. -/
theorem declared_types_hold (env : Env) (e : Exp) {st m : CheckState} {t : Ty}
    (hs : st.store.Acyclic) :
    (e.typeOf env st = .ok t m → m.store.Upholds e (e.calls none env st) ∧
      ∀ e' : Exp, e'.undeclared = e.undeclared → ∃ m', e'.typeOf env st = .ok t m' ∧
        m'.store = m.store) ∧
    (e.typeOfProgram env st = .ok t m → m.store.Upholds e (e.programCalls env st) ∧
      ∀ e' : Exp, e'.undeclared = e.undeclared → ∃ m', e'.typeOfProgram env st = .ok t m' ∧
        m'.store = m.store) := by
  refine ⟨fun hok => ⟨?_, fun e' he => ?_⟩, fun hok => ⟨?_, fun e' he => ?_⟩⟩
  · exact Agreeing.upholds (CallLaw.agreeing.typeOf env e) (CallLaw.visits.typeOf env e st)
      Exp.bound_visited_none hs hok
  · exact Alongside.exists_ok (Exp.undeclaredRules.exp env) he hok
  · exact Agreeing.upholds (CallLaw.agreeing.typeOfProgram env e)
      (CallLaw.visits.typeOfProgram env e st) Exp.bound_visitedProgram hs hok
  · exact Alongside.exists_ok (Exp.undeclared_program_alongside env) he hok

/-- A definition, and a `let` within a procedure that `letrec` binds to a name with a type of
another kind. -/
theorem declared_types_hold_nested :
    let f : Decl := ⟨"f", .proc [.boolean] .boolean⟩
    let z : Decl := ⟨"z", .boolean⟩
    let identity : Exp := .lambda [⟨"x", .var ⟨0, "T_1"⟩⟩] (.var ⟨1, "T_2"⟩) [.var "x"]
    let value : Exp := .app (.var "f") [.var "y"]
    let e (t : Ty) : Exp := .program [.define f identity,
      .letrec [(⟨"g", t⟩,
        .lambda [⟨"y", .var ⟨2, "T_3"⟩⟩] .boolean [.letIn [(z, value)] [.var "z"]])]
        [.app (.var "g") [.const (.bool true)]]]
    ∃ m, (e .string).typeOfProgram {} {} = .ok .boolean m ∧
      (e .string).bound = [(f, identity), (z, value)] ∧
      m.store.Upholds (e .string) ((e .string).programCalls {} {}) ∧
      ∃ m', (e .number).typeOfProgram {} {} = .ok .boolean m' ∧ m'.store = m.store := by
  intro f z identity value e
  obtain ⟨t, m, hok, ht⟩ :=
    exists_ok (r := (e .string).typeOfProgram {} {}) (P := fun t _ => t == .boolean)
    (by decide +kernel)
  obtain rfl : t = .boolean := eq_of_beq ht
  obtain ⟨hupholds, hother⟩ := (declared_types_hold {} (e .string) Store.acyclic_empty).2 hok
  exact ⟨m, hok, rfl, hupholds, hother (e .number) rfl⟩

/-- A procedure that `letrec` binds to a name declared to be a number. It has a type, and is
called. -/
theorem letrec_declared_type_not_held :
    let source := "(letrec (((f : number) (lambda ((x : number)) : number x))) (f 1))"
    let value : Ty := .proc [.number] .number
    ∃ e g m, Exp.read source {} = .ok e g ∧
      e.recursive.map (fun b => (b.1, (Exp.procDecl b).ty)) = [(⟨"f", .number⟩, value)] ∧
      e.typeOf {} { supply := g } = .ok .number m ∧
      Checked.ofExp source = .ok ⟨.ok "number", m.trace⟩ ∧ m.store.resolve value ≠
        .number := by
  intro source value
  obtain ⟨e, g, hread, hfacts⟩ := exists_ok (r := Exp.read source {})
    (P := fun e g =>
      e.recursive.map (fun b => (b.1, (Exp.procDecl b).ty)) == [(⟨"f", .number⟩, value)] &&
        okWith (fun t m => t == .number && m.store.text t == "number" &&
          m.store.resolve value != .number) (e.typeOf {} { supply := g })) (by decide +kernel)
  obtain ⟨hbound, hfacts⟩ := Bool.and_eq_true_iff.mp hfacts
  obtain ⟨t, m, hok, hfacts⟩ := exists_ok hfacts
  simp only [Bool.and_eq_true, beq_iff_eq, bne_iff_ne] at hbound hfacts
  obtain ⟨⟨rfl, htext⟩, hne⟩ := hfacts
  exact ⟨e, g, m, hread, hbound, hok,
    by simp [Checked.ofExp, Checked.ofRead, hread, hok, htext], hne⟩

end TypedL5
