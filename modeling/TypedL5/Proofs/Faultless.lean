import TypedL5.Proofs.CheckStep
import TypedL5.Proofs.DigitLimit
import TypedL5.Proofs.Guarded
import TypedL5.Proofs.Halting
import TypedL5.Proofs.ProgramSession

/-!
Guarded checks never come upon a fault, and so they are the plain checks.

What a check relies on holds in a store without cycles, and every step of a check leaves the
store without cycles. The frames of an environment are made of declarations, each with its
type.
-/
namespace TypedL5

namespace Store

theorem latest_append (a older : List (TyVar × Ty)) (n : Nat) :
    latest (a.length + n) (a ++ older) = latest n older ++ latest a.length (a ++ older) := by
  induction a with
  | nil => simp [latest]
  | cons b a ih =>
    rw [List.length_cons, Nat.add_right_comm, List.cons_append, latest, latest, ih,
      List.append_assoc]

/-- What has been bound since a store is bound in the order of its stages. -/
theorem since_trans {m s s' : Store} (h : m.bindings <:+ s.bindings)
    (h' : s.bindings <:+ s'.bindings) :
    s'.since m = s.since m ++ s'.since s := by
  obtain ⟨a, ha⟩ := h
  obtain ⟨b, hb⟩ := h'
  have hlength : s.length = a.length + m.length := by simp [length, ← ha]
  have hlength' : s'.length = b.length + s.length := by simp [length, ← hb]
  have hm : s'.length - m.length = b.length + a.length := by omega
  have hsm : s.length - m.length = a.length := by omega
  have hs : s'.length - s.length = b.length := by omega
  rw [since, since, since, hm, hsm, hs, ← hb]
  exact latest_append b s.bindings a.length

end Store

namespace CheckState

variable {st : CheckState} {s s' : Store}

@[simp] theorem withStore_self (st : CheckState) : st.withStore st.store = st := by
  simp [withStore, Store.since, Store.latest, bindingSteps, Trace.add]

theorem withStore_bind (st : CheckState) (v : TyVar) (t : Ty) :
    st.withStore (st.store.bind v t) = { st with
      store := st.store.bind v t
      trace := st.trace.add [⟨"bind " ++ v.name, some ((st.store.bind v t).text t)⟩] } := by
  have hsince : (st.store.bind v t).since st.store = [(v, t, st.store.bind v t)] := by
    simp [Store.since, Store.length, Store.bind, Store.latest]
  cases he : st.trace.enabled <;> simp [withStore, hsince, bindingSteps, Trace.add, he]

/-- Bindings are noted alike, whether they are made in two rounds or in one. -/
theorem withStore_withStore (h : st.store.bindings <:+ s.bindings)
    (h' : s.bindings <:+ s'.bindings) :
    (st.withStore s).withStore s' = st.withStore s' := by
  cases he : st.trace.enabled with
  | false => simp [withStore, he]
  | true => simp [withStore, Trace.add, he, Store.since_trans h h', bindingSteps]

end CheckState

namespace Guarded

variable {α β : Type} {s : Store} {st : CheckState} {t u : Ty} {v : TyVar} {e : Exp}

theorem mapM_eq_ok {f : α → Except Fault β} {g : α → β} {as : List α}
    (h : ∀ a ∈ as, f a = .ok (g a)) :
    as.mapM f = .ok (as.map g) := by
  induction as with
  | nil => rfl
  | cons a as ih =>
    obtain ⟨ha, has⟩ := List.forall_mem_cons.mp h
    rw [List.mapM_cons, ha, ih has]
    rfl

/-- Fuel for the size of a type is enough to write it. -/
theorem textUpTo_eq (hs : s.Acyclic) (n : Nat) (t : Ty) (hn : (s.resolve t).size ≤ n) :
    textUpTo s n t = .ok (s.text t) := by
  induction n generalizing t with
  | zero => cases ht : s.resolve t <;> simp [ht, Ty.size] at hn
  | succ n ih =>
    have hpart : ∀ p, Ty.Part p (s.deref t) → textUpTo s n p = .ok (s.text p) := by
      intro p hp
      have hlt := Store.size_resolve_lt hs hp
      exact ih p (by omega)
    rw [Store.text_eq hs, textUpTo]
    cases hd : s.deref t with
    | base b => rfl
    | var v => rfl
    | pair l r =>
      rw [hd] at hpart
      have hleft := hpart l (.left l r)
      have hright := hpart r (.right l r)
      simp only [hleft, hright]
      rfl
    | proc ps r =>
      rw [hd] at hpart
      have hparams : ps.mapM (textUpTo s n) = .ok (ps.map s.text) := mapM_eq_ok fun p hp =>
        hpart p (.param r hp)
      have hresult := hpart r (.result ps r)
      simp only [hparams, hresult]
      rfl

theorem text_eq (hs : s.Acyclic) (t : Ty) : text s t = .ok (s.text t) :=
  textUpTo_eq hs _ t (Nat.le_refl _)

theorem declText_eq (hs : s.Acyclic) (d : Decl) : declText s d = .ok (s.declText d) := by
  rw [declText, text_eq hs]
  rfl

/-- The cases are those of the clauses for an expression, a row of them, and bindings. -/
theorem texts_eq (hs : s.Acyclic) :
    (∀ e : Exp, expText s e = .ok (e.text s)) ∧
    (∀ bs : List (Decl × Exp), bindingTexts s bs = .ok (Exp.bindingTexts s bs)) ∧
    (∀ es : List Exp, expTexts s es = .ok (Exp.texts s es)) := by
  apply Exp.text.mutual_induct
  · intro a
    rfl
  · intro op
    rfl
  · intro x
    rfl
  · intro c t e hc ht he
    rw [expText, Exp.text, hc, ht, he]
    rfl
  · intro ps r body hbody
    have hps : ps.mapM (declText s) = .ok (ps.map s.declText) := mapM_eq_ok fun d _ =>
      declText_eq hs d
    rw [expText, Exp.text, hps, text_eq hs, hbody]
    rfl
  · intro f es hf hes
    rw [expText, Exp.text, hf, hes]
    rfl
  · intro bs body hbs hbody
    rw [expText, Exp.text, hbs, hbody]
    rfl
  · intro bs body hbs hbody
    rw [expText, Exp.text, hbs, hbody]
    rfl
  · intro x e he
    rw [expText, Exp.text, he]
    rfl
  · intro v
    rfl
  · intro d e he
    rw [expText, Exp.text, declText_eq hs, he]
    rfl
  · intro es hes
    rw [expText, Exp.text, hes]
    rfl
  · rfl
  · intro e es he hes
    rw [expTexts, Exp.texts, he, hes]
    rfl
  · rfl
  · intro d e bs he hbs
    rw [bindingTexts, Exp.bindingTexts, declText_eq hs, he, hbs]
    rfl

/-- Reporting a cause raises no fault, and says what the unguarded report says. -/
theorem report_eq (hs : s.Acyclic) (c : Cause) : report s c = .ok (c.failure s) := by
  have hexp : ∀ e : Exp, expText s e = .ok (e.text s) := (texts_eq hs).1
  have htext : ∀ t, text s t = .ok (s.text t) := text_eq hs
  cases c with
  | clash c e =>
    cases c <;> rw [report, clashReport, htext]
    · rw [htext, hexp]
      rfl
    · rfl
    · rw [htext]
      rfl
  | notProcedure t e =>
    rw [report, htext, hexp]
    rfl
  | wrongArity e | notLambda e | unsupported e =>
    rw [report, hexp]
    rfl
  | _ => rfl

theorem fail_apply (hs : st.store.Acyclic) (c : Cause) :
    (fail c : GuardedM α) st = .error (.failure (c.failure st.store)) st := by
  change (ensure (report st.store c) >>= fun f => throw (.failure f) : GuardedM α) st = _
  rw [report_eq hs]
  rfl

/-- How unification goes on from a state, with clashes reported for `e`. -/
def settled (e : Exp) (st : CheckState) :
    EStateM.Result Clash Store Unit → EStateM.Result Stop CheckState Unit
  | .ok _ s => .ok () (st.withStore s)
  | .error c s => .error (.failure ((Cause.clash c e).failure s)) (st.withStore s)

/-- Going on from a store on the way records each binding once, as going on from the start
does. -/
theorem settled_withStore {r : EStateM.Result Clash Store Unit}
    (h : st.store.bindings <:+ s.bindings) (h' : s.bindings <:+ (endState r).bindings) :
    settled e (st.withStore s) r = settled e st r := by
  have hnoted := CheckState.withStore_withStore h h'
  cases r with
  | ok _ s' => exact congrArg (EStateM.Result.ok ()) hnoted
  | error c s' => exact congrArg (EStateM.Result.error _) hnoted

/-- Binding a free variable raises no fault, and it is refused only by the occurs check. -/
theorem bindVar_apply (hs : st.store.Acyclic) (hv : st.store.contents? v = none) :
    bindVar e v t st = settled e st (Store.bindVar v t st.store) := by
  rw [Store.bindVar_apply, bindVar]
  change (if st.store.occurs v t then _ else _ : GuardedM Unit) st = _
  by_cases ho : st.store.occurs v t = true
  · rw [if_pos ho, if_pos ho, fail_apply hs]
    simp [settled]
  · have hassign : st.store.assign? v t = some (st.store.bind v t) := by
      simp [Store.assign?, hv]
    have hacyclic : (st.store.bind v t).Acyclic :=
      Store.bind_acyclic hs hv (Store.not_reaches_of_occurs hs (by simpa using ho))
    rw [if_neg ho, if_neg ho, hassign]
    change (ensure (text (st.store.bind v t) t) >>= fun written => set { st with
      store := st.store.bind v t
      trace := st.trace.add [⟨"bind " ++ v.name, some written⟩] } : GuardedM Unit) st = _
    rw [text_eq hacyclic, settled, CheckState.withStore_bind]
    rfl

example (e : Exp) : let v : TyVar := ⟨0, "T"⟩
    let st : CheckState := { store := Store.bind {} v .number }
    bindVar e v .boolean st = .error (.fault (.rebound v)) st := rfl

/-- A guarded way of making types equal goes as a plain one that ends. -/
def Guards (e : Exp) (x : Ty → Ty → GuardedM Unit) (y : Ty → Ty → UnifyM Unit) : Prop :=
  ∀ t u (st : CheckState), st.store.Acyclic → Store.Ended (y t u st.store) →
    x t u st = settled e st (y t u st.store)

/-- Unifying equations one by one is guarded if unifying each of them is. -/
theorem forM_apply
    {x : Ty → Ty → GuardedM Unit} {y : Ty → Ty → UnifyM Unit} (hx : Guards e x y)
    (hy : ∀ t u s, Store.Ended (y t u s) → Store.Solve s [(t, u)] (y t u s))
    (eqs : List (Ty × Ty)) (hs : st.store.Acyclic)
    (hend : Store.Ended (Store.unifyEach y eqs st.store)) :
    (forM eqs fun eq => x eq.1 eq.2) st = settled e st (Store.unifyEach y eqs st.store) := by
  induction eqs generalizing st with
  | nil => simp [Store.unifyEach, settled, pure, EStateM.pure]
  | cons eq eqs ih =>
    obtain ⟨t, u⟩ := eq
    rw [List.forM_cons, bind_apply]
    rw [Store.unifyEach_cons] at hend ⊢
    cases hr : y t u st.store with
    | error c s =>
      rw [hr] at hend
      have hfirst := hx t u st hs (hr ▸ hend)
      rw [hfirst, hr]
      rfl
    | ok _ s =>
      rw [hr] at hend
      have hfirst := hx t u st hs (hr ▸ trivial)
      have hgrows := (hy t u st.store (hr ▸ trivial)).grows hs
      rw [hr] at hgrows
      have hacyclic : s.Acyclic := hgrows.acyclic hs
      have hrest := (Store.unifyEach_solve hy eqs s hend).grows hacyclic
      rw [hfirst, hr]
      -- The rest begins in the state that the first equation has left, where its bindings have
      -- been noted.
      exact (@ih (st.withStore s) hacyclic hend).trans
        (settled_withStore hgrows.suffix hrest.suffix)

theorem unifyUpTo_apply (e : Exp) (n : Nat) :
    Guards e (unifyUpTo e n) (Store.unifyUpTo n) := by
  induction n with
  | zero =>
    intro t u st _ hend
    exact hend.elim
  | succ n ih =>
    intro t u st hs hend
    rw [Store.unifyUpTo_succ] at hend ⊢
    change unifyMet e (unifyUpTo e n) (st.store.deref t) (st.store.deref u) st = _
    unfold unifyMet
    unfold Store.unifyMet at hend ⊢
    cases hm : (st.store.deref t).meet (st.store.deref u) with
    | bind v w => exact bindVar_apply hs (Store.unbound_of_meet hs hm)
    | parts eqs =>
      rw [hm] at hend
      exact forM_apply ih (Store.unifyUpTo_solve n) eqs hs hend
    | clash =>
      refine (fail_apply hs _).trans ?_
      change _ = EStateM.Result.error _ (st.withStore st.store)
      rw [CheckState.withStore_self]

/-- How a plain check ends, with its failure reported. -/
def reported : EStateM.Result Cause CheckState α → EStateM.Result Stop CheckState α
  | .ok a st => .ok a st
  | .error c st => .error (.failure (c.failure st.store)) st

/-- In a store without cycles a guarded computation ends as the plain one, and leaves such a
store. -/
def Agrees (x : GuardedM α) (y : CheckM α) : Prop :=
  ∀ st : CheckState, st.store.Acyclic → x st = reported (y st) ∧
    (endState (y st)).store.Acyclic

/-- The frames of an environment, with the names and the types apart. -/
def frames (env : Env) : List Frame :=
  env.frames.map fun ds => ⟨ds.map Decl.name, ds.map Decl.ty⟩

theorem extendBy_eq (env : Env) (ds : List Decl) :
    extendBy (frames env) ds = pure (frames (env.extend ds)) := by
  simp [extendBy, extend, Env.frame?, frames, Env.extend]

/-- The position of a name in its frame is the position of its type. -/
theorem types_idxOf (ds : List Decl) (x : String) :
    (ds.map Decl.ty)[(ds.map Decl.name).idxOf x]? = (ds.find? (·.name == x)).map Decl.ty := by
  induction ds with
  | nil => rfl
  | cons d ds ih =>
    by_cases hx : d.name = x
    · simp [hx]
    · simp [List.idxOf_cons_ne _ hx, hx, ih]

/-- Looking a name up frame by frame, with every index checked, finds its innermost type. -/
theorem lookup?_eq (env : Env) (x : String) :
    lookup? x (frames env) = .ok (env.lookup? x) := by
  obtain ⟨fs⟩ := env
  induction fs with
  | nil => rfl
  | cons ds fs ih =>
    have houter : Env.lookup? ⟨ds :: fs⟩ x = _ := Env.lookup?_extend ⟨fs⟩ ds x
    rw [houter]
    change lookup? x (⟨ds.map Decl.name, ds.map Decl.ty⟩ :: frames ⟨fs⟩) = _
    rw [lookup?, types_idxOf]
    cases hd : ds.find? (·.name == x) with
    | none =>
      have hx : x ∉ ds.map Decl.name := by simpa using hd
      rw [if_neg hx]
      exact ih
    | some d =>
      have hx : x ∈ ds.map Decl.name :=
        List.mem_map.mpr ⟨d, List.mem_of_find?_eq_some hd, by simpa using List.find?_some hd⟩
      rw [if_pos hx]
      rfl

example : lookup? "x" [⟨["x"], []⟩] = .error (.untyped "x") := rfl

/-- What becomes of an application when the type of its operator is `t`. -/
def applied (fs : List Frame) (f : Exp) (es : List Exp) : Ty → GuardedM Ty
  | .proc ps r =>
    if es.length = ps.length then do
      checkArgs fs (.app f es) es ps
      derived (.app f es) r
    else fail (.wrongArity (.app f es))
  | t => fail (.notProcedure t (.app f es))

theorem typeOf_app (fs : List Frame) (f : Exp) (es : List Exp) : typeOf fs (.app f es) = (do
    let tf ← typeOf fs f
    let st ← get
    applied fs f es (st.store.deref tf)) := by
  rw [typeOf]
  refine bind_congr fun tf => bind_congr fun st => ?_
  cases st.store.deref tf <;> rfl

namespace Agrees

variable {x : GuardedM α} {y : CheckM α}

theorem pure (a : α) : Agrees (Pure.pure a) (Pure.pure a) :=
  fun _ hs => ⟨rfl, hs⟩

theorem fail (c : Cause) : Agrees (Guarded.fail c : GuardedM α) (throw c) :=
  fun _ hs => ⟨fail_apply hs c, hs⟩

theorem bind {f : α → GuardedM β} {g : α → CheckM β} (hx : Agrees x y)
    (hf : ∀ a, Agrees (f a) (g a)) :
    Agrees (x >>= f) (y >>= g) := by
  intro st hs
  obtain ⟨hx, hacyclic⟩ := hx st hs
  rw [bind_apply, bind_apply, hx]
  cases hr : y st with
  | ok a st' =>
    rw [hr] at hacyclic
    exact hf a st' hacyclic
  | error c st' =>
    rw [hr] at hacyclic
    exact ⟨rfl, hacyclic⟩

theorem get {f : CheckState → GuardedM α} {g : CheckState → CheckM α}
    (h : ∀ st, Agrees (f st) (g st)) :
    Agrees (MonadState.get >>= f) (MonadState.get >>= g) :=
  fun st hs => h st st hs

/-- No guard of a unification fails when the store is acyclic, and it stays acyclic. -/
theorem unify (t u : Ty) (e : Exp) : Agrees (Guarded.unify t u e) (CheckM.unify t u e) := by
  intro st hs
  have hsettled : Guarded.unify t u e st = settled e st (Store.unify t u st.store) :=
    unifyUpTo_apply e (st.store.levels t u) t u st hs (Store.unify_ended hs t u)
  have hgrows := (Store.unify_solve hs t u).grows hs
  rw [hsettled, CheckM.unify]
  cases hr : Store.unify t u st.store with
  | ok _ s =>
    rw [hr] at hgrows
    exact ⟨rfl, hgrows.acyclic hs⟩
  | error c s =>
    rw [hr] at hgrows
    exact ⟨rfl, hgrows.acyclic hs⟩

theorem derived (e : Exp) (t : Ty) : Agrees (Guarded.derived e t) (CheckM.derived e t) := by
  intro st hs
  have hacyclic : (st.noteType e t).store.Acyclic := by simpa using hs
  refine ⟨?_, hacyclic⟩
  change (if st.trace.enabled then _ else _ : GuardedM Ty) st = .ok t (st.noteType e t)
  unfold CheckState.noteType
  split
  · rw [(texts_eq hs).1, text_eq hs]
    rfl
  · rfl

theorem primitive (op : String) : Agrees (Guarded.primitive op) (Primitive.typeOf op) := by
  unfold Guarded.primitive Primitive.typeOf
  cases Primitive.signature? op with
  | none => exact .fail _
  | some σ => exact fun st hs => ⟨rfl, hs⟩

/-- A name that is not found is refused with the same suggestions. -/
theorem lookup (env : Env) (x : String) :
    Agrees (Guarded.lookup (frames env) x) (env.typeOf x) := by
  have hnames : ((frames env).flatMap Frame.names).eraseDups = env.names := by
    simp [frames, Env.names, List.map_flatten, List.flatMap_def, Function.comp_def]
  unfold Guarded.lookup Env.typeOf
  rw [lookup?_eq, hnames, ensure, pure_bind]
  cases env.lookup? x with
  | none => exact .fail _
  | some t => exact .pure t

theorem applied {env : Env} {f : Exp} {es : List Exp}
    (hes : ∀ ps, Agrees (checkArgs (frames env) (.app f es) es ps)
      (Exp.checkArgs env (.app f es) es ps)) (t : Ty) :
    Agrees (Guarded.applied (frames env) f es t) (Exp.applied env f es t) := by
  unfold Guarded.applied Exp.applied
  cases t with
  | proc ps r =>
    dsimp only
    split_ifs
    · exact (hes ps).bind fun _ => .derived _ _
    · exact .fail _
  | base b => exact .fail _
  | var v => exact .fail _
  | pair l r => exact .fail _

/-- Each rule comes to the same with guards and without. -/
def rules : RuleLaw where
  OfExp env e := Agrees (typeOf (frames env) e) (Exp.typeOf env e)
  OfForms env last es :=
    Agrees (typeOfForms (frames env) last es) (Exp.typeOfForms env last es)
  OfBody env es := Agrees (typeOfBody (frames env) es) (Exp.typeOfBody env es)
  OfArgs env whole es ps :=
    Agrees (checkArgs (frames env) whole es ps) (Exp.checkArgs env whole es ps)
  OfBindings env whole bs :=
    Agrees (checkBindings (frames env) whole bs) (Exp.checkBindings env whole bs)
  OfProcs env whole bs :=
    Agrees (checkProcs (frames env) whole bs) (Exp.checkProcs env whole bs)
  const a := by
    rw [typeOf, Exp.typeOf]
    exact .derived _ _
  prim op := by
    rw [typeOf, Exp.typeOf]
    exact (primitive op).bind fun _ => .derived _ _
  var x := by
    rw [typeOf, Exp.typeOf]
    exact (lookup _ x).bind fun _ => .derived _ _
  ite hc ht he := by
    rw [typeOf, Exp.typeOf]
    exact hc.bind fun _ => ht.bind fun _ => he.bind fun _ =>
      (unify _ _ _).bind fun _ => (unify _ _ _).bind fun _ => .derived _ _
  lambda hbody := by
    rw [typeOf, Exp.typeOf, extendBy_eq, pure_bind]
    exact hbody.bind fun _ => (unify _ _ _).bind fun _ => .derived _ _
  app hf hes := by
    rw [typeOf_app, Exp.typeOf_app]
    exact hf.bind fun _ => .get fun _ => applied hes _
  letIn hbs hbody := by
    rw [typeOf, Exp.typeOf, extendBy_eq]
    exact hbs.bind fun _ => hbody.bind fun _ => .derived _ _
  letrec {_ bs _} hbs hbody := by
    by_cases hl : bs.all (·.2.isLambda) = true
    · rw [typeOf, Exp.typeOf_letrec, if_pos hl, if_pos hl, extendBy_eq, pure_bind]
      exact hbs.bind fun _ => hbody.bind fun _ => .derived _ _
    · rw [typeOf, Exp.typeOf_letrec, if_neg hl, if_neg hl]
      exact .fail _
  assign x e := by
    rw [typeOf, Exp.typeOf]
    exact .fail _
  quote v := by
    rw [typeOf, Exp.typeOf]
    exact .derived _ _
  define he := by
    rw [typeOf, Exp.typeOf]
    exact he.bind fun _ => (unify _ _ _).bind fun _ => .derived _ _
  program hes := by
    rw [typeOf, Exp.typeOf]
    exact hes.bind fun _ => .derived _ _
  forms_nil last := by
    cases last with
    | none =>
      rw [typeOfForms, Exp.typeOfForms]
      exact .fail _
    | some t =>
      rw [typeOfForms, Exp.typeOfForms]
      exact .pure t
  forms_define he hes := by
    rw [typeOfForms, Exp.typeOfForms, extendBy_eq]
    exact he.bind fun _ => (unify _ _ _).bind fun _ => hes
  forms_cons hd he hes := by
    rw [typeOfForms.eq_4 _ _ _ _ hd, Exp.typeOfForms_cons hd]
    exact he.bind hes
  body_nil env := by
    rw [typeOfBody, Exp.typeOfBody]
    exact .fail _
  body_last he := by
    rw [typeOfBody, Exp.typeOfBody]
    exact he
  body_cons hn he hes := by
    rw [typeOfBody.eq_3 _ _ _ hn, Exp.typeOfBody_cons hn]
    exact he.bind fun _ => hes
  args_cons he hes := by
    rw [checkArgs, Exp.checkArgs]
    exact he.bind fun _ => (unify _ _ _).bind fun _ => hes
  args_end hn := by
    rw [checkArgs.eq_2 _ _ _ _ hn, Exp.checkArgs_end hn]
    exact .pure ()
  bindings_nil env whole := by
    rw [checkBindings, Exp.checkBindings]
    exact .pure ()
  bindings_cons he hbs := by
    rw [checkBindings, Exp.checkBindings]
    exact he.bind fun _ => (unify _ _ _).bind fun _ => hbs
  procs_nil env whole := by
    rw [checkProcs, Exp.checkProcs]
    exact .pure ()
  procs_cons hbody hbs := by
    rw [checkProcs, Exp.checkProcs, extendBy_eq, pure_bind]
    exact hbody.bind fun _ => (unify _ _ _).bind fun _ => hbs
  procs_other hn hbs := by
    rw [checkProcs.eq_3 _ _ _ _ hn, Exp.checkProcs_cons hn]
    exact hbs

theorem typeOfProgram (env : Env) (e : Exp) :
    Agrees (Guarded.typeOfProgram (frames env) e) (Exp.typeOfProgram env e) := by
  cases e with
  | program es => exact rules.forms env none es
  | _ => exact rules.exp env _

end Agrees

/-- A guarded check of a text is the plain one, and gives up for a number that is too long at
most. -/
theorem ofRead_eq (read : ParseM Exp) {x : Exp → GuardedM Ty} {y : Exp → CheckM Ty}
    (h : ∀ e, Agrees (x e) (y e)) (trace : Trace) :
    ofRead read x trace = (Checked.ofRead read y trace).mapError .inl := by
  unfold ofRead Checked.ofRead
  cases read {} with
  | error e g =>
    dsimp only
    split <;> rfl
  | ok e g =>
    obtain ⟨hx, hacyclic⟩ := h e { supply := g, trace := trace } Store.acyclic_empty
    dsimp only
    rw [written, bind_apply, hx]
    cases hr : y e { supply := g, trace := trace } with
    | error c st => rfl
    | ok t st =>
      rw [hr] at hacyclic
      have hwritten : text st.store t = .ok (st.store.text t) := text_eq hacyclic t
      change answer ((ensure (text st.store t) : GuardedM String) st) = _
      rw [hwritten]
      rfl

end Guarded

/-- The checker itself never reports a parse error. -/
theorem Cause.kind_ne_parseError (s : Store) (c : Cause) :
    (c.failure s).kind ≠ .parseError := by
  cases c with
  | clash c e => cases c <;> simp [failure, Failure.ofClash]
  | _ => simp [failure]

namespace Checked

/-- The answer to a text that is read in one way and checked in another. It reports a fault of
the text exactly if the text cannot be read, and otherwise it is the outcome of the check. -/
structure Answers (read : ParseM Exp) (typeOf : Exp → CheckM Ty) (trace : Trace)
    (c : Checked) : Prop where
  kind : (∃ f, c.result = .error f ∧ f.kind = .parseError) ↔ ∃ e g, read {} = .error e g
  unread : ∀ e g, read {} = .error e g → c = ⟨.error (.ofParseError e), trace⟩
  checked : ∀ e g, read {} = .ok e g → c = ofResult (typeOf e { supply := g, trace := trace })

variable {read : ParseM Exp}

theorem kind_ofResult (r : EStateM.Result Cause CheckState Ty) {f : Failure}
    (h : (ofResult r).result = .error f) :
    f.kind ≠ .parseError := by
  cases r with
  | ok t st => cases h
  | error c st =>
    cases h
    exact c.kind_ne_parseError st.store

/-- A text whose reading is not fatal is answered, with a type or with a failure. -/
theorem exists_answer (h : ∀ e g, read {} = .error e g → e.isFatal = false)
    (typeOf : Exp → CheckM Ty) (trace : Trace) :
    ∃ c, ofRead read typeOf trace = .ok c ∧ c.Answers read typeOf trace := by
  cases hread : read {} with
  | error e g =>
    have hfatal : e.isFatal = false := h e g hread
    refine ⟨⟨.error (.ofParseError e), trace⟩, by simp [ofRead, hread, hfatal], ?_, ?_, ?_⟩
    all_goals rw [hread]
    · exact ⟨fun _ => ⟨e, g, rfl⟩, fun _ => ⟨_, rfl, rfl⟩⟩
    · rintro _ _ ⟨⟩
      rfl
    · rintro _ _ ⟨⟩
  | ok e g =>
    refine ⟨_, ofRead_of_ok hread typeOf trace, ?_, ?_, ?_⟩
    all_goals rw [hread]
    · constructor
      · rintro ⟨f, hf, hkind⟩
        exact (kind_ofResult _ hf hkind).elim
      · rintro ⟨_, _, ⟨⟩⟩
    · rintro _ _ ⟨⟩
    · rintro _ _ ⟨⟩
      rfl

/-- The answer is also what the guarded run comes to, with none of its guards failing. -/
theorem exists_guarded_answer (h : ∀ e g, read {} = .error e g → e.isFatal = false)
    {x : Exp → Guarded.GuardedM Ty} {y : Exp → CheckM Ty}
      (hxy : ∀ e, Guarded.Agrees (x e) (y e)) (trace : Trace) :
    ∃ c, ofRead read y trace = .ok c ∧ Guarded.ofRead read x trace = .ok c ∧
      c.Answers read y trace := by
  obtain ⟨c, hc, hanswers⟩ := exists_answer h y trace
  refine ⟨c, hc, ?_, hanswers⟩
  rw [Guarded.ofRead_eq read hxy, hc]
  rfl

/-- Every text with few enough digits is answered, as an expression and as a program. The
guarded checks give the same answers, so no variable is bound twice, no frame is uneven, every
name of a frame has its type, every type can be written and every comparison ends. -/
theorem text_answered (source : String) (trace : Trace)
    (hn : Text.digitCount source.toList ≤ Numeral.digitLimit) :
    (∃ c, ofExp source trace = .ok c ∧ Guarded.ofExp source trace = .ok c ∧
      c.Answers (Exp.read source) (Exp.typeOf {}) trace) ∧
    ∃ c, ofProgram source trace = .ok c ∧ Guarded.ofProgram source trace = .ok c ∧
      c.Answers (Exp.readProgram source) (Exp.typeOfProgram {}) trace := by
  constructor
  · exact exists_guarded_answer (fun _ _ => Exp.not_isFatal_of_read hn)
      (Guarded.Agrees.rules.exp {}) trace
  · exact exists_guarded_answer (fun _ _ => Exp.not_isFatal_of_readProgram hn)
      (Guarded.Agrees.typeOfProgram {}) trace

/-- One text that has a type as an expression and is at fault as a program. -/
theorem text_answered_both :
    let source := "(let (((f : \"(T1 -> T2)\") (lambda (x) 12))) (f \"34\"))"
    Text.digitCount source.toList ≤ Numeral.digitLimit ∧
      (∃ c, ofExp source = .ok c ∧ Guarded.ofExp source {} = .ok c ∧
        c.Answers (Exp.read source) (Exp.typeOf {}) {} ∧ c.result.toOption = some "number") ∧
      ∃ c, ofProgram source = .ok c ∧ Guarded.ofProgram source {} = .ok c ∧
        c.Answers (Exp.readProgram source) (Exp.typeOfProgram {}) {} ∧
        ∃ f, c.result = .error f ∧ f.kind = .parseError := by
  intro source
  have hn : Text.digitCount source.toList ≤ Numeral.digitLimit := by decide +kernel
  obtain ⟨⟨c, hc, hguarded, hanswers⟩, c', hc', hguarded', hanswers'⟩ :=
    text_answered source {} hn
  have hnumber : (ofExp source).toOption.all
      (fun c => c.result.toOption = some "number") = true := by
    decide +kernel
  rw [hc] at hnumber
  obtain ⟨e, g, he, _⟩ :=
    exists_error (r := Exp.readProgram source {}) (P := fun _ _ => true) (by decide +kernel)
  exact ⟨hn, ⟨c, hc, hguarded, hanswers, of_decide_eq_true hnumber⟩,
    c', hc', hguarded', hanswers', hanswers'.kind.mpr ⟨e, g, he⟩⟩

end Checked

end TypedL5
