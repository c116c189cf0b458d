import TypedL5.Proofs.Confinement
import TypedL5.Proofs.Typing

/-! What a check can reach: of the variables that there were, only those come to from its types
and its names. -/
namespace TypedL5

open CheckState

variable {F : Set TyVar} {env : Env} {st m : CheckState} {ts us : List Ty}
  {xs ys : List String}

/-- The types that a check is given, written or at names, are all within the set that it is to
stay in. -/
structure Given (F : Set TyVar) (env : Env) (ts : List Ty) (xs : List String)
    (st : CheckState) : Prop where
  confined : st.Confined F
  tys : ∀ t ∈ ts, t.Within (st.scope F)
  names : env.Gives xs (Ty.Within (st.scope F))

namespace Given

theorem later (h : Given F env ts xs st) (hm : Moves F st m) : Given F env ts xs m where
  confined := hm.confined
  tys t ht := hm.within (h.tys t ht)
  names := h.names.mono fun _ ht => hm.within ht

theorem left (h : Given F env (ts ++ us) (xs ++ ys) st) : Given F env ts xs st where
  confined := h.confined
  tys t ht := h.tys t (List.mem_append_left us ht)
  names := (Env.gives_append.mp h.names).1

theorem right (h : Given F env (ts ++ us) (xs ++ ys) st) : Given F env us ys st where
  confined := h.confined
  tys t ht := h.tys t (List.mem_append_right ts ht)
  names := (Env.gives_append.mp h.names).2

theorem tail {t : Ty} (h : Given F env (t :: ts) xs st) : Given F env ts xs st :=
  ⟨h.confined, fun u hu => h.tys u (List.mem_cons_of_mem t hu), h.names⟩

theorem extend {ds : List Decl} (h : Given F env ts (Decl.outer ds xs) st)
    (hds : ∀ d ∈ ds, d.ty.Within (st.scope F)) : Given F (env.extend ds) ts xs st :=
  ⟨h.confined, h.tys, h.names.extend hds⟩

end Given

namespace Exp

@[simp] theorem name_procDecl (b : Decl × Exp) : (procDecl b).name = b.1.name := by
  unfold procDecl
  split <;> rfl

theorem outer_procDecl (bs : List (Decl × Exp)) (xs : List String) :
    Decl.outer (bs.map procDecl) xs = Decl.outer (bs.map Prod.fst) xs := by
  simp [Decl.outer, Function.comp_def]

/-- The type that letrec declares for a procedure is made of the types written for it. -/
theorem within_procDecl {G : Set TyVar} {b : Decl × Exp}
    (h : ∀ t ∈ b.1.ty :: b.2.tys, t.Within G) : (procDecl b).ty.Within G := by
  unfold procDecl
  split
  · rename_i d ps r body
    refine Ty.within_proc.mpr ⟨fun p hp => h p ?_, h r ?_⟩
    · simp [tys, List.mem_map.mp hp]
    · simp [tys]
  · exact h _ List.mem_cons_self

end Exp

def ConfinedExp (F : Set TyVar) (env : Env) (e : Exp) : Prop :=
  ∀ st, Given F env e.tys e.free st →
    Answers F st (e.draws env st) (e.typeOf env st) fun t m => t.Within (m.scope F)

def ConfinedBody (F : Set TyVar) (env : Env) (es : List Exp) : Prop :=
  ∀ st, Given F env (Exp.tysAll es) (Exp.freeAll es) st →
    Answers F st (Exp.drawsBody env es st) (Exp.typeOfBody env es st) fun t m =>
      t.Within (m.scope F)

def ConfinedArgs (F : Set TyVar) (env : Env) (whole : Exp) (es : List Exp)
    (ps : List Ty) : Prop :=
  ∀ st, Given F env (Exp.tysAll es) (Exp.freeAll es) st → (∀ p ∈ ps, p.Within (st.scope F)) →
    Answers F st (Exp.drawsArgs env whole es ps st)
      (Exp.checkArgs env whole es ps st) fun _ _ =>
      True

def ConfinedBindings (F : Set TyVar) (env : Env) (whole : Exp)
    (bs : List (Decl × Exp)) : Prop :=
  ∀ st, Given F env (Exp.tysBound bs) (Exp.freeBound bs) st →
    Answers F st (Exp.drawsBindings env whole bs st)
      (Exp.checkBindings env whole bs st) fun _ _ =>
      True

def ConfinedProcs (F : Set TyVar) (env : Env) (whole : Exp) (bs : List (Decl × Exp)) : Prop :=
  ∀ st, Given F env (Exp.tysBound bs) (Exp.freeBound bs) st →
    Answers F st (Exp.drawsProcs env whole bs st) (Exp.checkProcs env whole bs st)
      fun _ _ => True

def ConfinedForms (F : Set TyVar) (env : Env) (last : Option Ty) (es : List Exp) : Prop :=
  ∀ st, Given F env (Exp.tysAll es) (Exp.freeForms es) st →
    (∀ t ∈ last, t.Within (st.scope F)) →
    Answers F st (Exp.drawsForms env es st) (Exp.typeOfForms env last es st) fun t m =>
      t.Within (m.scope F)

namespace ConfinedExp

theorem const (a : Atom) : ConfinedExp F env (.const a) := by
  intro st h
  rw [Exp.typeOf]
  refine .derived h.confined ?_
  cases a <;> simp [Atom.ty, Ty.Within]

theorem prim (op : String) : ConfinedExp F env (.prim op) := by
  intro st h
  rw [Exp.typeOf, Exp.draws]
  exact (Answers.primitive h.confined op).bind_quiet fun t m hm ht => .derived hm.confined ht

/-- A name brings in the variables of its type, which the environment gives. -/
theorem var (x : String) : ConfinedExp F env (.var x) := by
  intro st h
  rw [Exp.typeOf, Exp.draws]
  have hx : Answers F st [] (env.typeOf x st) fun t m => t.Within (m.scope F) := by
    rw [Env.typeOf]
    cases ht : env.lookup? x with
    | some t => exact .pure h.confined (h.names x (by simp [Exp.free]) t ht)
    | none => exact .throw h.confined _
  exact hx.bind_quiet fun t m hm ht => .derived hm.confined ht

/-- The three parts are confined in turn, each to what the ones before have left. -/
theorem ite {c t e : Exp} (hc : ConfinedExp F env c) (ht : ConfinedExp F env t)
    (he : ConfinedExp F env e) : ConfinedExp F env (.ite c t e) := by
  intro st h
  rw [Exp.tys, Exp.free] at h
  rw [Exp.typeOf, Exp.draws]
  refine (hc st h.left).bind fun tc m₁ h₁ htc => ?_
  have h := h.right.later h₁
  refine (ht m₁ h.left).bind fun tt m₂ h₂ htt => ?_
  refine (he m₂ (h.right.later h₂)).bind_quiet fun te m₃ h₃ hte => ?_
  have htc := h₃.within (h₂.within htc)
  have htt := h₃.within htt
  refine (Answers.unify h₃.confined htc (Ty.within_base _) _).bind_quiet fun _ m₄ h₄ _ => ?_
  have htt := h₄.within htt
  refine (Answers.unify h₄.confined htt (h₄.within hte) _).bind_quiet fun _ m₅ h₅ _ => ?_
  exact .derived h₅.confined (h₅.within htt)

theorem lambda {ps : List Decl} {r : Ty} {body : List Exp}
    (hbody : ConfinedBody F (env.extend ps) body) : ConfinedExp F env (.lambda ps r body) := by
  intro st h
  rw [Exp.tys, Exp.free] at h
  rw [Exp.typeOf, Exp.draws]
  obtain ⟨hps, hr, hbodyTys⟩ : (∀ d ∈ ps, d.ty.Within (st.scope F)) ∧ r.Within (st.scope F) ∧
      ∀ t ∈ Exp.tysAll body, t.Within (st.scope F) := by
    simpa [or_imp, forall_and] using h.tys
  have hgiven : Given F (env.extend ps) (Exp.tysAll body) (Exp.freeAll body) st :=
    ⟨h.confined, hbodyTys, h.names.extend hps⟩
  refine (hbody st hgiven).bind_quiet fun t m₁ h₁ ht => ?_
  refine (Answers.unify h₁.confined ht (h₁.within hr) _).bind_quiet fun _ m₂ h₂ _ => ?_
  refine .derived h₂.confined (Ty.within_proc.mpr ⟨fun p hp => ?_, h₂.within (h₁.within hr)⟩)
  obtain ⟨d, hd, rfl⟩ := List.mem_map.mp hp
  exact h₂.within (h₁.within (hps d hd))

/-- The parameters come from the type of the operator, which is confined before the arguments
are. -/
theorem app {f : Exp} {es : List Exp} (hf : ConfinedExp F env f)
    (hes : ∀ ps, ConfinedArgs F env (.app f es) es ps) : ConfinedExp F env (.app f es) := by
  intro st h
  rw [Exp.tys, Exp.free] at h
  rw [Exp.typeOf_app, Exp.draws]
  refine (hf st h.left).bind fun tf m₁ h₁ htf => ?_
  have h := h.right.later h₁
  have htf := h₁.confined.closed.deref h₁.confined.acyclic htf
  change Answers F m₁ _ (Exp.applied env f es (m₁.store.deref tf) m₁) _
  generalize m₁.store.deref tf = t at htf
  cases t with
  | proc ps r =>
    obtain ⟨hps, hr⟩ := Ty.within_proc.mp htf
    rw [Exp.applied]
    dsimp only
    by_cases hl : es.length = ps.length
    · rw [if_pos hl, if_pos hl]
      exact (hes ps m₁ h hps).bind_quiet fun _ m₂ h₂ _ => .derived h₂.confined (h₂.within hr)
    · rw [if_neg hl, if_neg hl]
      exact .throw h.confined _
  | base b => exact .throw h.confined _
  | var v => exact .throw h.confined _
  | pair l r => exact .throw h.confined _

theorem letIn {bs : List (Decl × Exp)} {body : List Exp}
    (hbs : ConfinedBindings F env (.letIn bs body) bs)
    (hbody : ConfinedBody F (env.extend (bs.map Prod.fst)) body) :
    ConfinedExp F env (.letIn bs body) := by
  intro st h
  rw [Exp.tys, Exp.free] at h
  rw [Exp.typeOf, Exp.draws]
  refine (hbs st h.left).bind fun _ m₁ h₁ _ => ?_
  have hds : ∀ d ∈ bs.map Prod.fst, d.ty.Within (m₁.scope F) :=
    fun d hd => h₁.within (h.left.tys d.ty (Exp.ty_mem_tysBound hd))
  refine (hbody m₁ ((h.right.later h₁).extend hds)).bind_quiet fun t m₂ h₂ ht => ?_
  exact .derived h₂.confined ht

/-- The procedures are declared from the types in the expression, so its scope grows by no
variable. -/
theorem letrec {bs : List (Decl × Exp)} {body : List Exp}
    (hbs : ConfinedProcs F (env.extend (bs.map Exp.procDecl)) (.letrec bs body) bs)
    (hbody : ConfinedBody F (env.extend (bs.map Exp.procDecl)) body) :
    ConfinedExp F env (.letrec bs body) := by
  intro st h
  rw [Exp.tys, Exp.free, ← Exp.outer_procDecl] at h
  rw [Exp.typeOf_letrec, Exp.draws]
  have hds : ∀ d ∈ bs.map Exp.procDecl, d.ty.Within (st.scope F) := by
    intro d hd
    obtain ⟨b, hb, rfl⟩ := List.mem_map.mp hd
    exact Exp.within_procDecl fun t ht =>
      h.tys t (List.mem_append_left _ (Exp.mem_tysBound hb ht))
  have h := h.extend hds
  split
  · refine (hbs st h.left).bind fun _ m₁ h₁ _ => ?_
    refine (hbody m₁ (h.right.later h₁)).bind_quiet fun t m₂ h₂ ht => ?_
    exact .derived h₂.confined ht
  · exact .throw h.confined _

theorem assign (x : String) (e : Exp) : ConfinedExp F env (.assign x e) := by
  intro st h
  rw [Exp.typeOf, Exp.draws]
  exact .throw h.confined _

theorem quote (v : Quoted) : ConfinedExp F env (.quote v) := by
  intro st h
  rw [Exp.typeOf, Exp.draws]
  exact .derived h.confined (by simp [Ty.Within, Quoted.vars_ty])

theorem define {d : Decl} {e : Exp} (he : ConfinedExp F env e) :
    ConfinedExp F env (.define d e) := by
  intro st h
  rw [Exp.tys, Exp.free] at h
  rw [Exp.typeOf, Exp.draws]
  refine (he st h.tail).bind_quiet fun t m₁ h₁ ht => ?_
  have hd := h₁.within (h.tys d.ty (by simp))
  refine (Answers.unify h₁.confined hd ht _).bind_quiet fun _ m₂ h₂ _ => ?_
  exact .derived h₂.confined (Ty.within_base _)

theorem program {es : List Exp} (hes : ConfinedForms F env none es) :
    ConfinedExp F env (.program es) := by
  intro st h
  rw [Exp.tys, Exp.free] at h
  rw [Exp.typeOf, Exp.draws]
  exact (hes st h (by simp)).bind_quiet fun t m₁ h₁ ht => .derived h₁.confined ht

end ConfinedExp

namespace ConfinedForms

theorem nil (last : Option Ty) : ConfinedForms F env last [] := by
  intro st h hlast
  rw [Exp.drawsForms]
  cases last with
  | none =>
    rw [Exp.typeOfForms]
    exact .throw h.confined _
  | some t =>
    rw [Exp.typeOfForms]
    exact .pure h.confined (hlast t rfl)

theorem define {last : Option Ty} {d : Decl} {e : Exp} {es : List Exp}
    (he : ConfinedExp F env e) (hes : ConfinedForms F (env.extend [d]) last es) :
    ConfinedForms F env last (.define d e :: es) := by
  intro st h hlast
  rw [Exp.tysAll, Exp.tys, Exp.freeForms] at h
  rw [Exp.typeOfForms, Exp.drawsForms]
  refine (he st h.tail.left).bind fun t m₁ h₁ ht => ?_
  have hd := h₁.within (h.tys d.ty (by simp))
  refine (Answers.unify h₁.confined hd ht _).bind fun _ m₂ h₂ _ => ?_
  have hmoves := h₁.trans h₂
  refine hes m₂ ((h.tail.right.later hmoves).extend ?_) fun t ht => hmoves.within (hlast t ht)
  simpa using h₂.within hd

theorem cons {last : Option Ty} {e : Exp}
    {es : List Exp} (hd : ∀ d e', e = .define d e' → False) (he : ConfinedExp F env e)
    (hes : ∀ t, ConfinedForms F env (some t) es) :
    ConfinedForms F env last (e :: es) := by
  intro st h hlast
  rw [Exp.tysAll, Exp.freeForms_cons hd] at h
  rw [Exp.typeOfForms_cons hd, Exp.drawsForms_cons hd]
  refine (he st h.left).bind fun t m₁ h₁ ht => ?_
  exact hes t m₁ (h.right.later h₁) (by simpa using ht)

end ConfinedForms

namespace ConfinedBody

theorem nil : ConfinedBody F env [] := by
  intro st h
  rw [Exp.typeOfBody, Exp.drawsBody]
  exact .throw h.confined _

theorem last {e : Exp} (he : ConfinedExp F env e) : ConfinedBody F env [e] := by
  intro st h
  rw [Exp.tysAll, Exp.freeAll] at h
  rw [Exp.typeOfBody, Exp.drawsBody]
  have hend : after (e.typeOf env st) (fun _ m => Exp.drawsBody env [] m) = [] := by
    cases e.typeOf env st <;> rfl
  rw [hend, List.append_nil]
  exact he st h.left

theorem cons {e : Exp} {es : List Exp} (hn : es = [] → False) (he : ConfinedExp F env e)
    (hes : ConfinedBody F env es) : ConfinedBody F env (e :: es) := by
  intro st h
  rw [Exp.tysAll, Exp.freeAll] at h
  rw [Exp.typeOfBody_cons hn, Exp.drawsBody]
  exact (he st h.left).bind fun _ m₁ h₁ _ => hes m₁ (h.right.later h₁)

end ConfinedBody

theorem ConfinedArgs.cons {whole e : Exp} {es : List Exp} {p : Ty} {ps : List Ty}
    (he : ConfinedExp F env e) (hes : ConfinedArgs F env whole es ps) :
    ConfinedArgs F env whole (e :: es) (p :: ps) := by
  intro st h hps
  rw [Exp.tysAll, Exp.freeAll] at h
  obtain ⟨hp, hps⟩ := List.forall_mem_cons.mp hps
  rw [Exp.checkArgs, Exp.drawsArgs]
  refine (he st h.left).bind fun t m₁ h₁ ht => ?_
  refine (Answers.unify h₁.confined ht (h₁.within hp) _).bind fun _ m₂ h₂ _ => ?_
  have hmoves := h₁.trans h₂
  exact hes m₂ (h.right.later hmoves) fun q hq => hmoves.within (hps q hq)

theorem ConfinedProcs.cons {whole : Exp} {d : Decl} {ps : List Decl} {r : Ty} {body : List Exp}
    {bs : List (Decl × Exp)} (hbody : ConfinedBody F (env.extend ps) body)
    (hbs : ConfinedProcs F env whole bs) :
    ConfinedProcs F env whole ((d, .lambda ps r body) :: bs) := by
  intro st h
  rw [Exp.tysBound, Exp.tys, Exp.freeBound, Exp.free] at h
  have h := h.tail
  have hl := h.left
  obtain ⟨hps, hr, hbodyTys⟩ : (∀ d ∈ ps, d.ty.Within (st.scope F)) ∧ r.Within (st.scope F) ∧
      ∀ t ∈ Exp.tysAll body, t.Within (st.scope F) := by
    simpa [or_imp, forall_and] using hl.tys
  rw [Exp.checkProcs, Exp.drawsProcs]
  refine (hbody st ⟨h.confined, hbodyTys, hl.names.extend hps⟩).bind fun t m₁ h₁ ht => ?_
  refine (Answers.unify h₁.confined ht (h₁.within hr) _).bind fun _ m₂ h₂ _ => ?_
  exact hbs m₂ (h.right.later (h₁.trans h₂))

theorem ConfinedBindings.cons {whole : Exp} {d : Decl} {e : Exp} {bs : List (Decl × Exp)}
    (he : ConfinedExp F env e) (hbs : ConfinedBindings F env whole bs) :
    ConfinedBindings F env whole ((d, e) :: bs) := by
  intro st h
  rw [Exp.tysBound, Exp.freeBound] at h
  rw [Exp.checkBindings, Exp.drawsBindings]
  refine (he st h.tail.left).bind fun t m₁ h₁ ht => ?_
  have hd := h₁.within (h.tys d.ty (by simp))
  refine (Answers.unify h₁.confined hd ht _).bind fun _ m₂ h₂ _ => ?_
  exact hbs m₂ (h.tail.right.later (h₁.trans h₂))

/-- Each rule keeps a check confined. -/
def RuleLaw.confined (F : Set TyVar) : RuleLaw where
  OfExp := ConfinedExp F
  OfForms := ConfinedForms F
  OfBody := ConfinedBody F
  OfArgs := ConfinedArgs F
  OfBindings := ConfinedBindings F
  OfProcs := ConfinedProcs F
  const a := .const a
  prim op := .prim op
  var x := .var x
  ite hc ht he := .ite hc ht he
  lambda hbody := .lambda hbody
  app hf hes := .app hf hes
  letIn hbs hbody := .letIn hbs hbody
  letrec hbs hbody := .letrec hbs hbody
  assign x e := .assign x e
  quote v := .quote v
  define he := .define he
  program hes := .program hes
  forms_nil last := .nil last
  forms_define he hes := .define he hes
  forms_cons hd he hes := .cons hd he hes
  body_nil _ := .nil
  body_last he := .last he
  body_cons hn he hes := .cons hn he hes
  args_cons he hes := .cons he hes
  args_end hn st h _ := by
    rw [Exp.checkArgs_end hn, Exp.drawsArgs_end hn]
    exact .pure h.confined trivial
  bindings_nil env whole st h := by
    rw [Exp.checkBindings, Exp.drawsBindings]
    exact .pure h.confined trivial
  bindings_cons he hbs := .cons he hbs
  procs_nil env whole st h := by
    rw [Exp.checkProcs, Exp.drawsProcs]
    exact .pure h.confined trivial
  procs_cons hbody hbs := .cons hbody hbs
  procs_other hn hbs st h := by
    rw [Exp.tysBound, Exp.freeBound] at h
    rw [Exp.checkProcs_cons hn, Exp.drawsProcs_cons hn]
    exact hbs st h.tail.right

namespace Exp

/-- The states in which an expression has been checked: as such, as a form, or as a program. -/
def ends (env : Env) (e : Exp) (st : CheckState) : List CheckState :=
  [endState (e.typeOf env st), endState (e.checkForm env st),
    endState (e.typeOfProgram env st)]

/-- Checking one form draws what its log says and touches nothing out of scope. -/
theorem logged_checkForm {e : Exp} (h : Given F env e.tys e.free st) :
    Logged F st (e.draws env st) (endState (e.checkForm env st)) := by
  unfold checkForm
  split
  · rename_i d e
    rw [tys, free] at h
    rw [draws]
    refine (((RuleLaw.confined F).exp env e st h.tail).bind_quiet fun t m₁ h₁ ht => ?_).logged
      (Q := fun _ _ => True)
    refine (Answers.unify h₁.confined (h₁.within (h.tys d.ty (by simp))) ht _).bind_quiet
      fun _ m₂ h₂ _ => ?_
    exact .pure h₂.confined trivial
  · refine (((RuleLaw.confined F).exp env _ st h).bind_quiet fun t m₁ h₁ ht => ?_).logged
      (Q := fun _ _ => True)
    exact .pure h₁.confined trivial

theorem logged_typeOfProgram {e : Exp} (h : Given F env e.tys e.free st) :
    Logged F st (e.draws env st) (endState (e.typeOfProgram env st)) := by
  unfold typeOfProgram
  split
  · rename_i es
    rw [tys, free] at h
    rw [draws]
    exact ((RuleLaw.confined F).forms env none es st h (by simp)).logged
  · exact ((RuleLaw.confined F).exp env _ st h).logged

/-- However a check of a form ends, its draws are in the log. -/
theorem logged_ends {e : Exp} {st' : CheckState} (h : Given F env e.tys e.free st)
    (hend : st' ∈ e.ends env st) : Logged F st (e.draws env st) st' := by
  simp only [ends, List.mem_cons, List.not_mem_nil, or_false] at hend
  rcases hend with rfl | rfl | rfl
  · exact ((RuleLaw.confined F).exp env e st h).logged
  · exact logged_checkForm h
  · exact logged_typeOfProgram h

end Exp

/-- All variables of a type have been taken. -/
def Supply.Covers (g : Supply) (t : Ty) : Prop := ∀ v ∈ t.vars, v.id < g.next

instance (g : Supply) (t : Ty) : Decidable (g.Covers t) :=
  inferInstanceAs (Decidable (∀ v ∈ t.vars, v.id < g.next))

theorem Supply.Covers.later {g g' : Supply} {t : Ty} (h : g.Covers t)
    (hle : g.next ≤ g'.next) :
    g'.Covers t :=
  fun v hv => Nat.lt_of_lt_of_le (h v hv) hle

/-- The variables that are yet to be taken. -/
def Supply.upcoming (g : Supply) : Set TyVar := {v | ∃ i, v = g.nth i}

theorem Supply.next_le_of_upcoming {g : Supply} {v : TyVar} (h : v ∈ g.upcoming) :
    g.next ≤ v.id := by
  obtain ⟨i, rfl⟩ := h
  exact Nat.le_add_right _ i

/-- Variables yet to be taken are new: they are not bound, and nothing is bound to a type that
mentions them. -/
structure CheckState.Ahead (st : CheckState) : Prop extends st.Valid where
  covers : ∀ v t, st.store.contents? v = some t → st.supply.Covers t

/-- Nothing is bound at the start. -/
theorem CheckState.ahead_initial (g : Supply) (trace : Trace) :
    Ahead { supply := g, trace := trace } where
  acyclic := Store.acyclic_empty
  old _ _ h := by cases h
  covers _ _ h := by cases h

/-- The types that are declared. -/
def Env.tys (env : Env) : List Ty := env.frames.flatten.map Decl.ty

theorem Env.mem_tys {x : String} {t : Ty} (h : env.lookup? x = some t) : t ∈ env.tys := by
  obtain ⟨frame, hframe, hx⟩ := List.exists_of_findSome?_eq_some h
  obtain ⟨d, hd, rfl⟩ := Option.map_eq_some_iff.mp hx
  exact List.mem_map_of_mem
    (List.mem_flatten.mpr ⟨frame, hframe, List.mem_of_find?_eq_some hd⟩)

namespace CheckState

/-- The variables that can be come to from the types in an expression and from those of its
free names. -/
def footprint (st : CheckState) (env : Env) (e : Exp) : Set TyVar :=
  {v | (∃ t ∈ e.tys, st.store.Reaches t v) ∨
    ∃ x ∈ e.free, ∃ t, env.lookup? x = some t ∧ st.store.Reaches t v}

variable {e : Exp}

theorem footprint_leads {v w : TyVar} (hv : v ∈ st.footprint env e) (hl : st.store.Leads v w) :
    w ∈ st.footprint env e := by
  rcases hv with ⟨t, ht, u, hu, hr⟩ | ⟨x, hx, t, ht, u, hu, hr⟩
  · exact .inl ⟨t, ht, u, hu, hr.tail hl⟩
  · exact .inr ⟨x, hx, t, ht, u, hu, hr.tail hl⟩

/-- A check stays within its footprint and the variables that it takes. -/
theorem given_footprint (hst : st.Ahead) (htys : ∀ t ∈ e.tys, st.supply.Covers t)
    (hnames : env.Gives e.free st.supply.Covers) :
    Given {v | v ∈ st.footprint env e ∨ v ∈ st.supply.upcoming} env e.tys e.free st where
  confined :=
    { toValid := hst.toValid
      closed := by
        rintro v ⟨hv, hlt⟩ t ht w hw
        have hv := hv.resolve_right fun hu =>
          Nat.not_le.mpr hlt (Supply.next_le_of_upcoming hu)
        exact ⟨.inl (footprint_leads hv ⟨t, ht, hw⟩), hst.covers v t ht w hw⟩
      fresh := fun i => .inr ⟨i, rfl⟩ }
  tys t ht v hv := ⟨.inl (.inl ⟨t, ht, v, hv, .refl⟩), htys t ht v hv⟩
  names x hx t ht v hv :=
    ⟨.inl (.inr ⟨x, hx, t, ht, v, hv, .refl⟩), hnames x hx t ht v hv⟩

theorem Ahead.later {g : Supply} (h : st.Ahead) (hle : st.supply.next ≤ g.next) :
    Ahead { st with supply := g } where
  acyclic := h.acyclic
  old v t ht := Nat.lt_of_lt_of_le (h.old v t ht) hle
  covers v t ht := (h.covers v t ht).later hle

/-- With all variables in scope, being ahead of the store is all that confinement asks. -/
theorem Ahead.confined (h : st.Ahead) : st.Confined Set.univ where
  toValid := h.toValid
  closed v _ t ht w hw := ⟨trivial, h.covers v t ht w hw⟩
  fresh _ := trivial

theorem Ahead.covers_resolve {t : Ty} (h : st.Ahead) (ht : st.supply.Covers t) :
    st.supply.Covers (st.store.resolve t) := by
  intro v hv
  have hr := ((Store.mem_vars_resolve h.acyclic).mp hv).1
  exact (h.confined.closed.mem_of_reaches (fun w hw => ⟨trivial, ht w hw⟩) hr).2

theorem Confined.ahead (h : st.Confined Set.univ) : st.Ahead where
  toValid := h.toValid
  covers v t ht w hw := (h.closed v ⟨trivial, h.old v t ht⟩ t ht w hw).2

theorem given_univ (hst : st.Ahead) (htys : ∀ t ∈ e.tys, st.supply.Covers t)
    (hnames : env.Gives e.free st.supply.Covers) : Given Set.univ env e.tys e.free st where
  confined := hst.confined
  tys t ht v hv := ⟨trivial, htys t ht v hv⟩
  names x hx t ht v hv := ⟨trivial, hnames x hx t ht v hv⟩

/-- What is taken from the supply cannot be come to from what was there before. -/
theorem Confined.not_reaches {d : Draw} {v : TyVar} {t : Ty} (h : d.state.Confined Set.univ)
    (hv : v ∈ d.vars) (ht : d.state.supply.Covers t) : ¬ d.state.store.Reaches t v := by
  intro hr
  have hmem := h.closed.mem_of_reaches (fun w hw => ⟨trivial, ht w hw⟩) hr
  exact absurd hmem.2 (Nat.not_lt.mpr (Supply.id_of_mem_takeNumbered hv).1)

end CheckState

/-- Of the variables that there were, a check changes only those it can come to, whether it
succeeds or fails. Each use of an operator takes variables that nothing leads to at that
moment, and no two uses have one in common. -/
theorem check_footprint {e : Exp} {st' : CheckState} (hst : st.Ahead)
    (htys : ∀ t ∈ e.tys ++ env.tys, st.supply.Covers t) (hend : st' ∈ e.ends env st) :
    (∀ v : TyVar, v.id < st.supply.next → st'.store.contents? v ≠ st.store.contents? v →
      v ∈ st.footprint env e) ∧
    ((e.draws env st).flatMap Draw.vars).Nodup ∧
    ((e.draws env st).flatMap Draw.vars).map TyVar.id =
      List.range' st.supply.next (st'.supply.next - st.supply.next) ∧
    ∀ d ∈ e.draws env st, st.store.Grows d.state.store ∧ d.state.store.Grows st'.store ∧
      ∀ v ∈ d.vars, d.state.store.contents? v = none ∧
        (∀ w : TyVar, w.id < d.state.supply.next → ¬ d.state.store.Reaches (.var w) v) ∧
        ∀ t ∈ e.tys ++ env.tys, ¬ d.state.store.Reaches t v := by
  have hwritten : ∀ t ∈ e.tys, st.supply.Covers t := fun t ht => htys t (by simp [ht])
  have hnames : env.Gives e.free st.supply.Covers :=
    fun x _ t ht => htys t (by simp [Env.mem_tys ht])
  -- The check is followed twice: within its footprint for what it changes, and within all
  -- variables for what it takes.
  have hfoot := Exp.logged_ends (given_footprint hst hwritten hnames) hend
  have hall := Exp.logged_ends (given_univ hst hwritten hnames) hend
  refine ⟨fun v hv hne => ?_, ?_, hall.drawn, fun d hd => ?_⟩
  · by_contra hout
    refine hne (hfoot.outside v fun h => h.elim hout fun hu => ?_)
    exact Nat.not_le.mpr hv (Supply.next_le_of_upcoming hu)
  · refine List.Nodup.of_map TyVar.id ?_
    rw [hall.drawn]
    exact List.nodup_range'
  · obtain ⟨hbefore, hafter⟩ := hall.moments d hd
    have hd := hbefore.confined
    refine ⟨hbefore.grown, hafter.grown, fun v hv => ⟨?_, fun w hw => ?_, fun t ht => ?_⟩⟩
    · exact hd.unbound (Supply.id_of_mem_takeNumbered hv).1
    · exact hd.not_reaches hv (by simpa [Supply.Covers] using hw)
    · refine hd.not_reaches hv fun w hw => ?_
      exact Nat.lt_of_lt_of_le (htys t ht w hw) hbefore.next_le

/-- The check fails at its last application, after two uses of operators. By then the types of
both names have changed. -/
theorem check_footprint_failed :
    let a : TyVar := ⟨0, "A"⟩
    let b : TyVar := ⟨1, "B"⟩
    let env : Env := ⟨[[⟨"x", .var b⟩]]⟩
    let st : CheckState := { supply := { next := 2 } }
    let e : Exp :=
      .letIn [(⟨"y", .var a⟩, .app (.prim "cons") [.const (.bool true), .var "x"])]
      [.app (.prim "eq?") [.var "y", .app (.var "x") []]]
    let st' := endState (e.typeOf env st)
    st'.store.contents? b = some (.var ⟨3, "T_2"⟩) ∧
    st'.store.contents? a = some (.pair (.var ⟨2, "T_1"⟩) (.var ⟨3, "T_2"⟩)) ∧
    st.Ahead ∧ (∀ t ∈ e.tys ++ env.tys, st.supply.Covers t) ∧ st' ∈ e.ends env st ∧
    (∀ v : TyVar, v.id < st.supply.next → st'.store.contents? v ≠ st.store.contents? v →
      v ∈ st.footprint env e) ∧
    ((e.draws env st).flatMap Draw.vars).Nodup ∧
    ((e.draws env st).flatMap Draw.vars).map TyVar.id =
      List.range' st.supply.next (st'.supply.next - st.supply.next) ∧
    ∀ d ∈ e.draws env st, st.store.Grows d.state.store ∧ d.state.store.Grows st'.store ∧
      ∀ v ∈ d.vars, d.state.store.contents? v = none ∧
        (∀ w : TyVar, w.id < d.state.supply.next → ¬ d.state.store.Reaches (.var w) v) ∧
        ∀ t ∈ e.tys ++ env.tys, ¬ d.state.store.Reaches t v := by
  intro a b env st e st'
  have hst : st.Ahead := ahead_initial _ _
  have htys : ∀ t ∈ e.tys ++ env.tys, st.supply.Covers t := by decide
  have hend : st' ∈ e.ends env st := by simp [Exp.ends, st']
  exact ⟨by decide, by decide, hst, htys, hend, check_footprint hst htys hend⟩

end TypedL5
