import TypedL5.Proofs.Annotated

/-! Where all types are written out, a check finds the type that there is, and fails only if
there is none. -/
namespace TypedL5

open CheckState (Later Valid)

variable {ρ : Assignment} {env : Env}

/-- The answer of a check is the one type of which `P` holds. -/
def Found (P : Ground → Prop) (st : CheckState) (t : Ty) (st' : CheckState) : Prop :=
  Later st.supply.next st st' ∧ ∃ τ, st'.store.StandsFor t τ ∧ ∀ τ', P τ' ↔ τ' = τ

/-- A check finds the one type of which `P` holds, or there is none. -/
def Decides (P : Ground → Prop) (x : CheckM Ty) (st : CheckState) : Prop :=
  Ends (x st) (Found P st) (∀ τ, ¬ P τ)

/-- A check finds out whether `P` holds. -/
def DecidesWhether (P : Prop) (x : CheckM Unit) (st : CheckState) : Prop :=
  Ends (x st) (fun _ st' => Later st.supply.next st st' ∧ P) (¬ P)

def DecidesExp (ρ : Assignment) (env : Env) (e : Exp) : Prop :=
  ∀ Γ st, st.Valid → env.Reads st.store Γ → Decides (HasType ρ Γ e) (e.typeOf env) st

def DecidesBody (ρ : Assignment) (env : Env) (es : List Exp) : Prop :=
  ∀ Γ st, st.Valid → env.Reads st.store Γ →
    Decides (BodyHasType ρ Γ es) (Exp.typeOfBody env es) st

def DecidesBindings (ρ : Assignment) (env : Env) (whole : Exp)
    (bs : List (Decl × Exp)) : Prop :=
  ∀ Γ st, st.Valid → env.Reads st.store Γ →
    DecidesWhether (∀ b ∈ bs, HasType ρ Γ b.2 (b.1.ty.eval ρ))
      (Exp.checkBindings env whole bs) st

def DecidesProcs (ρ : Assignment) (env : Env) (whole : Exp) (bs : List (Decl × Exp)) : Prop :=
  ∀ Γ st, st.Valid → env.Reads st.store Γ →
    DecidesWhether
      (∀ d ps r body, (d, .lambda ps r body) ∈ bs →
        BodyHasType ρ (Γ.extend ρ ps) body (r.eval ρ))
      (Exp.checkProcs env whole bs) st

/-- The parameters may mention variables, but none below `n`. They come to stand for the types
of the arguments, unless the arguments have types of which the parameters have no instance. -/
def DecidesArgs (ρ : Assignment) (env : Env) (whole : Exp) (es : List Exp)
    (ps : List Ty) : Prop :=
  ∀ Γ st n, st.Valid → env.Reads st.store Γ → es.length = ps.length → n ≤ st.supply.next →
    (∀ p ∈ ps, ∀ v ∈ (st.store.resolve p).vars, n ≤ v.id ∧ v.id < st.supply.next) →
    Ends (Exp.checkArgs env whole es ps st)
      (fun _ st' => Later n st st' ∧
        ∃ τs, st'.store.StandForAll ps τs ∧ ∀ τs', ArgsHaveTypes ρ Γ es τs' ↔ τs' = τs)
      (∀ θ : Assignment, θ.Satisfies st.store → ¬ ArgsHaveTypes ρ Γ es (ps.map (Ty.eval θ)))

/-- The type given before is that of the whole if all forms are definitions. -/
def DecidesForms (ρ : Assignment) (env : Env) (last : Option Ty) (es : List Exp) : Prop :=
  ∀ Γ st τl?, st.Valid → env.Reads st.store Γ →
    st.store.StandsFor? last τl? →
    Ends (Exp.typeOfForms env last es st)
      (fun t st' => Later st.supply.next st st' ∧ ∃ τ? τ, st'.store.StandsFor t τ ∧
        τ?.or τl? = some τ ∧ ∀ τ?', FormsHaveType ρ Γ es τ?' ↔ τ?' = τ?)
      (∀ τ?, FormsHaveType ρ Γ es τ? → τ?.or τl? = none)

theorem Ends.found {st₀ st : CheckState} {e : Exp} {t : Ty} {τ : Ground} {P : Ground → Prop}
    {E : Prop} (hl : Later st₀.supply.next st₀ st) (ht : st.store.StandsFor t τ)
    (hP : ∀ τ', P τ' ↔ τ' = τ) : Ends (CheckM.derived e t st) (Found P st₀) E :=
  ⟨hl.note e t, τ, by simpa using ht, hP⟩

section

variable {P : Ground → Prop} {x : CheckM Ty} {st : CheckState} {u : Ty}

/-- Against a closed type, deciding a type means comparing with it. -/
theorem Decides.at_declared (h : Decides P x st) (hu : u.vars = []) (ρ : Assignment)
    (whole : Exp) :
    DecidesWhether (P (u.eval ρ)) (x >>= fun t => CheckM.unify u t whole) st := by
  refine h.bind (fun hn => hn _) ?_
  rintro t st₁ ⟨l₁, τ, hτ, hP⟩
  refine (ends_unify_ground l₁.valid (Store.standsFor_of_closed l₁.valid.acyclic hu ρ) hτ).mono
    ?_ ?_
  · intro hne hP'
    exact hne ((hP _).mp hP')
  · rintro _ st₂ ⟨l₂, he⟩
    exact ⟨l₁.and_then l₂, (hP _).mpr he⟩

/-- A result is compared the other way around. -/
theorem Decides.at_result (h : Decides P x st) (hu : u.vars = []) (ρ : Assignment)
    (whole : Exp) :
    DecidesWhether (P (u.eval ρ)) (x >>= fun t => CheckM.unify t u whole) st := by
  refine h.bind (fun hn => hn _) ?_
  rintro t st₁ ⟨l₁, τ, hτ, hP⟩
  refine (ends_unify_ground l₁.valid hτ (Store.standsFor_of_closed l₁.valid.acyclic hu ρ)).mono
    ?_ ?_
  · intro hne hP'
    exact hne ((hP _).mp hP').symm
  · rintro _ st₂ ⟨l₂, he⟩
    exact ⟨l₁.and_then l₂, (hP _).mpr he.symm⟩

end

namespace DecidesArgs

theorem nil (whole : Exp) : DecidesArgs ρ env whole [] [] := by
  intro Γ st n hst hΓ _ _ _
  rw [Exp.checkArgs_end (by simp)]
  exact ⟨.refl _ hst, [], rfl, fun τs => argsHaveTypes_nil_iff⟩

/-- The first argument is unified with a parameter whose variables it may bind, and the others
are checked under those bindings. -/
theorem cons {whole e : Exp} {es : List Exp} {p : Ty} {ps : List Ty} (he : DecidesExp ρ env e)
    (hes : DecidesArgs ρ env whole es ps) : DecidesArgs ρ env whole (e :: es) (p :: ps) := by
  intro Γ st n hst hΓ hlen hn hvars
  have hargs : ∀ θ, ArgsHaveTypes ρ Γ (e :: es) ((p :: ps).map (Ty.eval θ)) ↔
      HasType ρ Γ e (p.eval θ) ∧ ArgsHaveTypes ρ Γ es (ps.map (Ty.eval θ)) := by
    intro θ
    simp [argsHaveTypes_cons_iff, and_assoc]
  rw [Exp.checkArgs]
  refine (he Γ st hst hΓ).bind (fun h θ _ hθ => h _ ((hargs θ).mp hθ).1) ?_
  rintro t st₁ ⟨l₁, τ, hτ, he⟩
  -- The argument leaves the variables of the parameters alone, for it only knows those of its
  -- own.
  have hsame : ∀ q ∈ p :: ps, st₁.store.resolve q = st.store.resolve q := fun q hq =>
    l₁.resolve_eq hst fun v hv => (hvars q hq v hv).2
  -- So what satisfied the store before the argument says the same of the parameters after it.
  have heval : ∀ θ : Assignment, θ.Satisfies st.store → ∀ q ∈ p :: ps,
      q.eval (st₁.store.solution θ) = q.eval θ := by
    intro θ hθ q hq
    rw [Store.eval_solution, hsame q hq, Store.eval_resolve hst.acyclic hθ]
  have hp : ∀ v ∈ (st₁.store.resolve p).vars, n ≤ v.id ∧ v.id < st₁.supply.next := by
    intro v hv
    rw [hsame p (by simp)] at hv
    obtain ⟨h₁, h₂⟩ := hvars p (by simp) v hv
    exact ⟨h₁, Nat.lt_of_lt_of_le h₂ l₁.next_le⟩
  refine (ends_unify l₁.valid hτ hp).bind ?_ ?_
  · intro h θ hθ hθ'
    refine h _ (Store.solution_satisfies l₁.valid.acyclic θ) ?_
    rw [heval θ hθ p (by simp)]
    exact (he _).mp ((hargs θ).mp hθ').1
  intro _ st₂ hm
  have l := (l₁.weaken hn).trans hm.later (Nat.le_refl n)
  refine (hes Γ st₂ n hm.later.valid (hΓ.after l) (Nat.succ.inj hlen)
    (Nat.le_trans hn l.next_le) ?_).mono ?_ ?_
  · intro q hq v hv
    have hv' := hm.subset q hv
    rw [hsame q (by simp [hq])] at hv'
    obtain ⟨h₁, h₂⟩ := hvars q (by simp [hq]) v hv'
    exact ⟨h₁, Nat.lt_of_lt_of_le h₂ l.next_le⟩
  · intro h θ hθ hθ'
    obtain ⟨hpe, hps⟩ := (hargs θ).mp hθ'
    have hs₁ := Store.solution_satisfies l₁.valid.acyclic θ
    refine h _ (hm.satisfies _ hs₁ ?_) ?_
    · rw [heval θ hθ p (by simp)]
      exact (he _).mp hpe
    · rwa [List.map_congr_left fun q hq => heval θ hθ q (by simp [hq])]
  · rintro _ st₃ ⟨l₃, τs, hτs, hes⟩
    refine ⟨l.trans l₃ (Nat.le_refl n), τ :: τs, ?_, fun τs' => ?_⟩
    · rw [Store.StandForAll, List.map_cons, List.map_cons, hτs, l₃.standsFor hm.standsFor]
    · simp [argsHaveTypes_cons_iff, he, hes]

/-- The arguments of an operator decide at which instance it is used. -/
theorem at_use {Γ : Context} {whole : Exp} {es : List Exp} {ps : List Ty} {st st₁ : CheckState}
    {σ : Scheme} {f g : TyVar → TyVar}
    (h : DecidesArgs ρ env whole es (ps.map (Ty.subst fun v => .var (f v))))
      (hu : Use st st₁ σ f g)
    (hps : ∀ p ∈ ps, ∀ v ∈ p.vars, v ∈ σ.vars) (hΓ : env.Reads st₁.store Γ)
    (hlen : es.length = (ps.map (Ty.subst fun v => .var (f v))).length) :
    Ends (Exp.checkArgs env whole es (ps.map (Ty.subst fun v => .var (f v))) st₁)
      (fun _ st₂ => Later st.supply.next st st₂ ∧ ∃ θ : Assignment,
        (∀ θ', ArgsHaveTypes ρ Γ es (ps.map (Ty.eval θ')) ↔
          ps.map (Ty.eval θ') = ps.map (Ty.eval θ)) ∧
        ∀ r : Ty, (∀ v ∈ r.vars, ∃ p ∈ ps, v ∈ p.vars) →
          st₂.store.StandsFor (r.subst fun v => .var (f v)) (r.eval θ))
      (∀ θ, ¬ ArgsHaveTypes ρ Γ es (ps.map (Ty.eval θ))) := by
  have hnew : ∀ p ∈ ps.map (Ty.subst fun v => .var (f v)), ∀ v ∈ (st₁.store.resolve p).vars,
      st.supply.next ≤ v.id ∧ v.id < st₁.supply.next := by
    refine List.forall_mem_map.mpr fun p hp v hv => ?_
    exact hu.vars_resolve (hps p hp) hv
  refine (h Γ st₁ _ hu.later.valid hΓ hlen hu.later.next_le hnew).mono ?_ ?_
  · intro hn θ hargs
    refine hn _ (Store.solution_satisfies hu.later.valid.acyclic fun w => θ (g w)) ?_
    rw [List.map_map]
    exact List.map_congr_left (fun p hp => hu.eval_eq (hps p hp) θ) ▸ hargs
  · rintro _ st₂ ⟨l₂, τs, hτs, hargs⟩
    have hs := l₂.valid.acyclic
    -- All that the arguments leave open is arbitrary, as `ρ` has it.
    have heval := Ty.eval_subst (fun v => .var (f v)) (st₂.store.solution ρ)
    have hτs' : ps.map (Ty.eval fun v => st₂.store.solution ρ (f v)) = τs := by
      rw [← hτs.eval hs (Store.solution_satisfies hs ρ), List.map_map]
      exact List.map_congr_left fun p _ => (heval p).symm
    refine ⟨hu.later.trans l₂ (Nat.le_refl _), fun v => st₂.store.solution ρ (f v),
      fun θ' => ?_, fun r hr => ?_⟩
    · rw [hargs, hτs']
    · have hstands := Store.standsFor_of_params hs hτs (Ty.params_subst hr _) ρ
      rwa [heval] at hstands

end DecidesArgs

namespace DecidesExp

theorem const (a : Atom) : DecidesExp ρ env (.const a) := by
  intro Γ st hst hΓ
  rw [Exp.typeOf]
  have hc : a.ty.vars = [] := by cases a <;> rfl
  exact .found (.refl _ hst) (Store.standsFor_of_closed hst.acyclic hc ρ) fun τ =>
    hasType_const_iff

/-- A name has a type exactly when it is declared. -/
theorem var (x : String) : DecidesExp ρ env (.var x) := by
  intro Γ st hst hΓ
  have hx := hΓ x
  rw [Exp.typeOf, Env.typeOf]
  cases hl : env.lookup? x with
  | none =>
    rw [hl, Store.standsFor?_none_iff] at hx
    refine ⟨fun s => by simp [Cause.failure], fun τ hτ => ?_⟩
    rw [hasType_var_iff, hx] at hτ
    cases hτ
  | some t =>
    rw [hl, Store.standsFor?_some_iff] at hx
    obtain ⟨τ, hτ, ht⟩ := hx
    refine .found (.refl _ hst) ht fun τ' => ?_
    rw [hasType_var_iff, hτ, Option.some.injEq, eq_comm]

/-- The branches are unified with each other after the test with boolean, in the order of the
rule. -/
theorem ite {c t e : Exp} (hc : DecidesExp ρ env c) (ht : DecidesExp ρ env t)
    (he : DecidesExp ρ env e) : DecidesExp ρ env (.ite c t e) := by
  intro Γ st hst hΓ
  rw [Exp.typeOf]
  refine (hc Γ st hst hΓ).bind (fun h τ hτ => h _ (hasType_ite_iff.mp hτ).1) ?_
  rintro tc st₁ ⟨l₁, τc, hτc, hc⟩
  refine (ht Γ st₁ l₁.valid (hΓ.after l₁)).bind
    (fun h τ hτ => h _ (hasType_ite_iff.mp hτ).2.1) ?_
  rintro tt st₂ ⟨l₂, τt, hτt, ht⟩
  have l := l₁.and_then l₂
  refine (he Γ st₂ l₂.valid (hΓ.after l)).bind
    (fun h τ hτ => h _ (hasType_ite_iff.mp hτ).2.2) ?_
  rintro te st₃ ⟨l₃, τe, hτe, he⟩
  have htype : ∀ τ, HasType ρ Γ (.ite c t e) τ ↔ .base .boolean = τc ∧ τ = τt ∧ τ = τe := by
    intro τ
    rw [hasType_ite_iff, hc, ht, he]
  -- The branches are made equal only after the condition, so its failure comes first.
  have hbool := Store.standsFor_of_closed l₃.valid.acyclic (t := .boolean) rfl ρ
  refine (ends_unify_ground l₃.valid (l₃.standsFor (l₂.standsFor hτc)) hbool).bind ?_ ?_
  · intro hne τ hτ
    exact hne ((htype τ).mp hτ).1.symm
  rintro _ st₄ ⟨l₄, rfl⟩
  have l' := (l.and_then l₃).and_then l₄
  refine (ends_unify_ground l₄.valid (l₄.standsFor (l₃.standsFor hτt)) (l₄.standsFor hτe)).bind
    ?_ ?_
  · intro hne τ hτ
    obtain ⟨_, h₁, h₂⟩ := (htype τ).mp hτ
    exact hne (h₁.symm.trans h₂)
  rintro _ st₅ ⟨l₅, rfl⟩
  refine .found (l'.and_then l₅) (l₅.standsFor (l₄.standsFor (l₃.standsFor hτt))) fun τ => ?_
  rw [htype]
  exact ⟨fun h => h.2.1, fun h => ⟨rfl, h, h⟩⟩

theorem lambda {ps : List Decl} {r : Ty} {body : List Exp} (hps : ∀ d ∈ ps, d.ty.vars = [])
    (hr : r.vars = []) (hbody : DecidesBody ρ (env.extend ps) body) :
    DecidesExp ρ env (.lambda ps r body) := by
  intro Γ st hst hΓ
  rw [Exp.typeOf, ← bind_assoc]
  refine ((hbody (Γ.extend ρ ps) st hst (hΓ.extend hst.acyclic hps ρ)).at_result hr ρ _).bind
    (fun h τ hτ => h (hasType_lambda_iff.mp hτ).1) ?_
  rintro _ st₁ ⟨l₁, hbody⟩
  have hclosed : (Ty.proc (ps.map Decl.ty) r).vars = [] := by
    simpa [hr, List.flatMap_eq_nil_iff] using hps
  refine .found l₁ (Store.standsFor_of_closed l₁.valid.acyclic hclosed ρ) fun τ => ?_
  rw [hasType_lambda_iff]
  simp [Function.comp_def, hbody]

theorem assign (x : String) (e : Exp) : DecidesExp ρ env (.assign x e) := by
  intro Γ st hst hΓ
  rw [Exp.typeOf]
  refine ⟨fun s => by simp [Cause.failure], fun τ hτ => ?_⟩
  cases hτ

theorem quote (v : Quoted) : DecidesExp ρ env (.quote v) := by
  intro Γ st hst hΓ
  rw [Exp.typeOf]
  exact .found (.refl _ hst)
      (Store.standsFor_of_closed hst.acyclic (v.vars_ty false) ρ) fun τ =>
    hasType_quote_iff

theorem define {d : Decl} {e : Exp} (hd : d.ty.vars = []) (he : DecidesExp ρ env e) :
    DecidesExp ρ env (.define d e) := by
  intro Γ st hst hΓ
  rw [Exp.typeOf, ← bind_assoc]
  refine ((he Γ st hst hΓ).at_declared hd ρ _).bind
    (fun h τ hτ => h (hasType_define_iff.mp hτ).1) ?_
  rintro _ st₁ ⟨l₁, he⟩
  refine .found l₁ (Store.standsFor_of_closed l₁.valid.acyclic (t := .void) rfl ρ) fun τ => ?_
  rw [hasType_define_iff]
  exact and_iff_right he

/-- The operator has a closed type, so its parameters and its result are known before the
arguments are checked. -/
theorem app {f : Exp} {es : List Exp} (hf : DecidesExp ρ env f)
    (hes : ∀ ps, DecidesArgs ρ env (.app f es) es ps) : DecidesExp ρ env (.app f es) := by
  intro Γ st hst hΓ
  rw [Exp.typeOf_app]
  refine (hf Γ st hst hΓ).bind ?_ ?_
  · intro h τ hτ
    obtain ⟨τs, hτs, _⟩ := hasType_app_iff.mp hτ
    exact h _ hτs
  rintro tf st₁ ⟨l₁, τf, hτf, hf⟩
  change Ends (Exp.applied env f es (st₁.store.deref tf) st₁) _ _
  have happ : ∀ τ, HasType ρ Γ (.app f es) τ ↔ ∃ τs, .proc τs τ = τf ∧
      ArgsHaveTypes ρ Γ es τs := by
    intro τ
    simp only [hasType_app_iff, hf]
  -- The operator stands for one ground type, and its head is in the store already.
  by_cases hproc : ∃ ps r, st₁.store.deref tf = .proc ps r
  · obtain ⟨ps, r, hd⟩ := hproc
    have hd' : st₁.store.StandsFor (.proc ps r) τf := by
      rw [← hd, Store.StandsFor, Store.resolve_deref l₁.valid.acyclic, hτf]
    obtain ⟨τs, τr, rfl, hps, hr⟩ := Store.standsFor_proc_iff.mp hd'
    rw [hd, Exp.applied]
    by_cases hlen : es.length = ps.length
    · rw [if_pos hlen]
      refine (hes ps Γ st₁ st₁.supply.next l₁.valid (hΓ.after l₁) hlen (Nat.le_refl _) ?_).bind
        ?_ ?_
      · intro p hp v hv
        obtain ⟨τ, hτ⟩ := hps.mem hp
        simp [hτ.vars_eq_nil] at hv
      · intro h τ hτ
        obtain ⟨_, ⟨⟩, hargs⟩ := (happ τ).mp hτ
        have hθ := Store.solution_satisfies l₁.valid.acyclic ρ
        exact h _ hθ (by rwa [hps.eval l₁.valid.acyclic hθ])
      rintro _ st₂ ⟨l₂, τs', hps', hargs⟩
      obtain rfl := hps'.unique (hps.later l₂.grown l₂.valid.acyclic)
      refine .found (l₁.and_then l₂) (l₂.standsFor hr) fun τ => ?_
      simp [happ, hargs]
    · rw [if_neg hlen]
      refine ⟨fun s => by simp [Cause.failure], fun τ hτ => hlen ?_⟩
      obtain ⟨_, ⟨⟩, hargs⟩ := (happ τ).mp hτ
      rw [length_of_argsHaveTypes hargs]
      simpa using (congrArg List.length hps).symm
  · rw [Exp.applied_of_not_proc hproc]
    refine ⟨fun s => by simp [Cause.failure], fun τ hτ => hproc ?_⟩
    obtain ⟨τs, rfl, _⟩ := (happ τ).mp hτ
    exact hτf.deref_eq_proc l₁.valid.acyclic

/-- A primitive that is not polymorphic has the one type of its signature. -/
theorem prim {op : String} (hop : op ∉ Primitive.polymorphic) :
    DecidesExp ρ env (.prim op) := by
  intro Γ st hst hΓ
  refine (ends_prim hst).mono ?_ ?_
  · intro hn τ hτ
    obtain ⟨σ, _, hσ, _⟩ := hasType_prim_iff.mp hτ
    rw [hn] at hσ
    cases hσ
  · rintro _ st₁ ⟨σ, f, g, hσ, hu, rfl⟩
    have hclosed : σ.body.vars = [] := by
      refine List.eq_nil_iff_forall_not_mem.mpr fun v hv => ?_
      have hv' := (Primitive.proper_of_signature hσ).closed v hv
      simp [Primitive.vars_eq_nil_of_signature hσ hop] at hv'
    rw [Ty.subst_of_vars_eq_nil hclosed]
    refine ⟨hu.later, _, Store.standsFor_of_closed hu.later.valid.acyclic hclosed ρ,
      fun τ => ?_⟩
    rw [hasType_prim_iff]
    constructor
    · rintro ⟨σ', θ, hσ', rfl⟩
      rw [hσ] at hσ'
      cases hσ'
      exact Ty.eval_eq_iff.mpr (by simp [hclosed])
    · rintro rfl
      exact ⟨σ, ρ, hσ, rfl⟩

/-- A polymorphic primitive may be applied: its arguments fix the variables of its signature.
-/
theorem operator {op : String} {es : List Exp}
    (hes : ∀ ps, DecidesArgs ρ env (.app (.prim op) es) es ps) :
    DecidesExp ρ env (.app (.prim op) es) := by
  intro Γ st hst hΓ
  rw [Exp.typeOf_app]
  refine (ends_prim hst).bind ?_ ?_
  · intro hn τ hτ
    obtain ⟨τs, hop, _⟩ := hasType_app_iff.mp hτ
    obtain ⟨σ, _, hσ, _⟩ := hasType_prim_iff.mp hop
    rw [hn] at hσ
    cases hσ
  rintro _ st₁ ⟨σ, f, g, hσ, hu, rfl⟩
  have hproper := Primitive.proper_of_signature hσ
  obtain ⟨ps, r, hbody, hr⟩ := hproper.proc
  have happ : ∀ τ, HasType ρ Γ (.app (.prim op) es) τ ↔ _ := fun τ =>
    hasType_operator_iff hσ hbody
  have hvars : ∀ p ∈ ps, ∀ v ∈ p.vars, v ∈ σ.vars := by
    intro p hp v hv
    refine hproper.closed v ?_
    simpa [hbody] using .inl ⟨p, hp, hv⟩
  -- The parameters still hold the variables of the use: it is the arguments that choose the
  -- instance.
  change Ends (Exp.applied env (.prim op) es (st₁.store.deref _) st₁) _ _
  rw [hbody, Ty.subst_proc, Store.deref_proc, Exp.applied]
  by_cases hlen : es.length = (ps.map (Ty.subst fun v => .var (f v))).length
  · rw [if_pos hlen]
    refine ((hes _).at_use hu hvars (hΓ.after hu.later) hlen).bind ?_ ?_
    · intro hn τ hτ
      obtain ⟨θ, _, hargs⟩ := (happ τ).mp hτ
      exact hn θ hargs
    rintro _ st₂ ⟨l₂, θ, hargs, hstands⟩
    refine .found l₂ (hstands r hr) fun τ => ?_
    rw [happ]
    constructor
    · rintro ⟨θ', rfl, h⟩
      exact Ty.eval_eq_of_params hr ((hargs θ').mp h)
    · rintro rfl
      exact ⟨θ, rfl, (hargs θ).mpr rfl⟩
  · rw [if_neg hlen]
    refine ⟨fun s => by simp [Cause.failure], fun τ hτ => hlen ?_⟩
    obtain ⟨θ, _, hargs⟩ := (happ τ).mp hτ
    simpa using length_of_argsHaveTypes hargs

theorem letIn {bs : List (Decl × Exp)} {body : List Exp} (hclosed : ∀ b ∈ bs, b.1.ty.vars = [])
    (hbs : DecidesBindings ρ env (.letIn bs body) bs)
    (hbody : DecidesBody ρ (env.extend (bs.map Prod.fst)) body) :
    DecidesExp ρ env (.letIn bs body) := by
  intro Γ st hst hΓ
  rw [Exp.typeOf]
  refine (hbs Γ st hst hΓ).bind (fun h τ hτ => h (hasType_letIn_iff.mp hτ).1) ?_
  rintro _ st₁ ⟨l₁, hbs⟩
  have hΓ₁ := (hΓ.after l₁).extend l₁.valid.acyclic (List.forall_mem_map.mpr hclosed) ρ
  refine (hbody _ st₁ l₁.valid hΓ₁).bind (fun h τ hτ => h τ (hasType_letIn_iff.mp hτ).2) ?_
  rintro t st₂ ⟨l₂, τ, hτ, hbody⟩
  refine .found (l₁.and_then l₂) hτ fun τ' => ?_
  rw [hasType_letIn_iff, hbody]
  exact and_iff_right hbs

/-- A binding that is not a lambda is refused by the checker and by the rules alike. -/
theorem letrec {bs : List (Decl × Exp)} {body : List Exp}
    (hclosed : bs.all (·.2.isLambda) = true → ∀ b ∈ bs, (Exp.procDecl b).ty.vars = [])
    (hbs : DecidesProcs ρ (env.extend (bs.map Exp.procDecl)) (.letrec bs body) bs)
    (hbody : DecidesBody ρ (env.extend (bs.map Exp.procDecl)) body) :
    DecidesExp ρ env (.letrec bs body) := by
  intro Γ st hst hΓ
  rw [Exp.typeOf_letrec]
  by_cases hl : bs.all (·.2.isLambda) = true
  · rw [if_pos hl]
    have hds : ∀ d ∈ bs.map Exp.procDecl, d.ty.vars = [] :=
      List.forall_mem_map.mpr (hclosed hl)
    refine (hbs _ st hst (hΓ.extend hst.acyclic hds ρ)).bind
      (fun h τ hτ => h (hasType_letrec_iff.mp hτ).2.1) ?_
    rintro _ st₁ ⟨l₁, hbs⟩
    have hΓ₁ := (hΓ.after l₁).extend l₁.valid.acyclic hds ρ
    refine (hbody _ st₁ l₁.valid hΓ₁).bind
      (fun h τ hτ => h τ (hasType_letrec_iff.mp hτ).2.2) ?_
    rintro t st₂ ⟨l₂, τ, hτ, hbody⟩
    refine .found (l₁.and_then l₂) hτ fun τ' => ?_
    rw [hasType_letrec_iff, hbody]
    exact ⟨fun h => h.2.2, fun h => ⟨List.all_eq_true.mp hl, hbs, h⟩⟩
  · rw [if_neg hl]
    refine ⟨fun s => by simp [Cause.failure], fun τ hτ => hl ?_⟩
    exact List.all_eq_true.mpr (hasType_letrec_iff.mp hτ).1

theorem program {es : List Exp} (hes : DecidesForms ρ env none es) :
    DecidesExp ρ env (.program es) := by
  intro Γ st hst hΓ
  rw [Exp.typeOf]
  refine (hes Γ st none hst hΓ (Store.standsFor?_none_iff.mpr rfl)).bind ?_ ?_
  · intro h τ hτ
    cases h _ (hasType_program_iff.mp hτ)
  rintro t st₁ ⟨l₁, τ?, τ, hτ, hor, hes⟩
  rw [Option.or_none] at hor
  refine .found l₁ hτ fun τ' => ?_
  rw [hasType_program_iff, hes, hor, Option.some.injEq]

end DecidesExp

namespace DecidesForms

theorem nil (last : Option Ty) : DecidesForms ρ env last [] := by
  intro Γ st τl? hst hΓ hlast
  cases last with
  | none =>
    rw [Exp.typeOfForms]
    refine ⟨fun s => by simp [Cause.failure], fun τ? hτ => ?_⟩
    rw [formsHaveType_nil_iff.mp hτ, Store.standsFor?_none_iff.mp hlast, Option.or_none]
  | some t =>
    rw [Exp.typeOfForms]
    obtain ⟨τ, rfl, hτ⟩ := Store.standsFor?_some_iff.mp hlast
    exact ⟨.refl _ hst, none, τ, hτ, rfl, fun τ? => formsHaveType_nil_iff⟩

theorem define {last : Option Ty} {d : Decl} {e : Exp} {es : List Exp} (hd : d.ty.vars = [])
    (he : DecidesExp ρ env e) (hes : DecidesForms ρ (env.extend [d]) last es) :
    DecidesForms ρ env last (.define d e :: es) := by
  intro Γ st τl? hst hΓ hlast
  rw [Exp.typeOfForms, ← bind_assoc]
  refine ((he Γ st hst hΓ).at_declared hd ρ _).bind ?_ ?_
  · intro h τ? hτ
    exact (h (formsHaveType_define_iff.mp hτ).1).elim
  rintro _ st₁ ⟨l₁, he⟩
  have hΓ₁ := (hΓ.after l₁).extend l₁.valid.acyclic (List.forall_mem_singleton.mpr hd) ρ
  refine (hes _ st₁ τl? l₁.valid hΓ₁ (hlast.later l₁.grown l₁.valid.acyclic)).mono ?_ ?_
  · intro h τ? hτ
    exact h τ? (formsHaveType_define_iff.mp hτ).2
  · rintro t st₂ ⟨l₂, τ?, τ, hτ, hor, hes⟩
    refine ⟨l₁.and_then l₂, τ?, τ, hτ, hor, fun τ?' => ?_⟩
    rw [formsHaveType_define_iff, hes]
    exact and_iff_right he

/-- A form that is not a definition sets the type of the program until a later one does. -/
theorem cons {last : Option Ty}
    {e : Exp} {es : List Exp} (hd : ∀ d e', e = .define d e' → False) (he : DecidesExp ρ env e)
    (hes : ∀ t, DecidesForms ρ env (some t) es) :
    DecidesForms ρ env last (e :: es) := by
  intro Γ st τl? hst hΓ hlast
  rw [Exp.typeOfForms_cons hd]
  refine (he Γ st hst hΓ).bind ?_ ?_
  · intro h τ? hτ
    obtain ⟨τ, _, _, hτ, _⟩ := (formsHaveType_cons_iff hd).mp hτ
    exact (h τ hτ).elim
  rintro t st₁ ⟨l₁, τ, hτ, he⟩
  have hlast₁ := Store.standsFor?_some_iff.mpr ⟨τ, rfl, hτ⟩
  refine (hes t Γ st₁ (some τ) l₁.valid (hΓ.after l₁) hlast₁).mono ?_ ?_
  · intro h τ? hτ'
    obtain ⟨_, τ?', _, _, hes⟩ := (formsHaveType_cons_iff hd).mp hτ'
    have hnone := h τ?' hes
    cases τ?' <;> cases hnone
  · rintro t' st₂ ⟨l₂, τ?, τ', hτ', hor, hes⟩
    have hget : τ?.getD τ = τ' := by
      cases τ? <;> simpa using hor
    refine ⟨l₁.and_then l₂, some τ', τ', hτ', rfl, fun τ?' => ?_⟩
    rw [formsHaveType_cons_iff hd]
    constructor
    · rintro ⟨τ₁, τ?₁, rfl, h₁, h₂⟩
      rw [(he _).mp h₁, (hes _).mp h₂, hget]
    · rintro rfl
      exact ⟨τ, τ?, by rw [hget], (he _).mpr rfl, (hes _).mpr rfl⟩

end DecidesForms

namespace DecidesBody

theorem last {e : Exp} (he : DecidesExp ρ env e) : DecidesBody ρ env [e] := by
  intro Γ st hst hΓ
  have hb : BodyHasType ρ Γ [e] = HasType ρ Γ e := by
    funext τ
    exact propext bodyHasType_singleton_iff
  rw [hb, Exp.typeOfBody]
  exact he Γ st hst hΓ

/-- A form of a body that is not its last must have a type, whichever it is. -/
theorem cons {e : Exp} {es : List Exp} (hn : es = [] → False) (he : DecidesExp ρ env e)
    (hes : DecidesBody ρ env es) : DecidesBody ρ env (e :: es) := by
  intro Γ st hst hΓ
  rw [Exp.typeOfBody_cons hn]
  refine (he Γ st hst hΓ).bind ?_ ?_
  · intro h τ hτ
    obtain ⟨⟨τ', hτ'⟩, _⟩ := (bodyHasType_cons_iff hn).mp hτ
    exact h τ' hτ'
  rintro _ st₁ ⟨l₁, τ', _, he⟩
  refine (hes Γ st₁ l₁.valid (hΓ.after l₁)).mono ?_ ?_
  · intro h τ hτ
    exact h τ ((bodyHasType_cons_iff hn).mp hτ).2
  · rintro t st₂ ⟨l₂, τ, hτ, hes⟩
    refine ⟨l₁.and_then l₂, τ, hτ, fun τ'' => ?_⟩
    rw [bodyHasType_cons_iff hn, hes]
    exact and_iff_right ⟨τ', (he τ').mpr rfl⟩

end DecidesBody

theorem DecidesBindings.cons {whole : Exp} {d : Decl} {e : Exp} {bs : List (Decl × Exp)}
    (hd : d.ty.vars = []) (he : DecidesExp ρ env e) (hbs : DecidesBindings ρ env whole bs) :
    DecidesBindings ρ env whole ((d, e) :: bs) := by
  intro Γ st hst hΓ
  rw [Exp.checkBindings, ← bind_assoc, List.forall_mem_cons]
  refine ((he Γ st hst hΓ).at_declared hd ρ _).bind (fun h hall => h hall.1) ?_
  rintro _ st₁ ⟨l₁, he⟩
  refine (hbs Γ st₁ l₁.valid (hΓ.after l₁)).mono (fun h hall => h hall.2) ?_
  rintro _ st₂ ⟨l₂, hbs⟩
  exact ⟨l₁.and_then l₂, he, hbs⟩

/-- Each procedure is checked against its own declaration. -/
theorem DecidesProcs.cons {whole : Exp} {d : Decl} {ps : List Decl} {r : Ty} {body : List Exp}
    {bs : List (Decl × Exp)} (hps : ∀ d ∈ ps, d.ty.vars = []) (hr : r.vars = [])
    (hbody : DecidesBody ρ (env.extend ps) body) (hbs : DecidesProcs ρ env whole bs) :
    DecidesProcs ρ env whole ((d, .lambda ps r body) :: bs) := by
  intro Γ st hst hΓ
  rw [Exp.checkProcs, ← bind_assoc]
  refine ((hbody (Γ.extend ρ ps) st hst (hΓ.extend hst.acyclic hps ρ)).at_result hr ρ _).bind
    (fun h hall => h (hall d ps r body (by simp))) ?_
  rintro _ st₁ ⟨l₁, hbody⟩
  refine (hbs Γ st₁ l₁.valid (hΓ.after l₁)).mono ?_ ?_
  · intro h hall
    exact h fun d' ps' r' body' hmem => hall d' ps' r' body' (by simp [hmem])
  · rintro _ st₂ ⟨l₂, hbs⟩
    refine ⟨l₁.and_then l₂, fun d' ps' r' body' hmem => ?_⟩
    rcases List.mem_cons.mp hmem with heq | hmem
    · cases heq
      exact hbody
    · exact hbs d' ps' r' body' hmem

theorem vars_procDecl {b : Decl × Exp} (hl : b.2.isLambda = true) (ha : b.2.Annotated) :
    (Exp.procDecl b).ty.vars = [] := by
  obtain ⟨d, e⟩ := b
  cases ha with
  | @lambda ps r body hps hr _ => simpa [Exp.procDecl, hr, List.flatMap_eq_nil_iff] using hps
  | _ => cases hl

/-- Each rule decides, where all types are written out. -/
def RuleLaw.decides (ρ : Assignment) : RuleLaw where
  OfExp env e := e.Annotated → DecidesExp ρ env e
  OfForms env last es := (∀ e ∈ es, Exp.Annotated e) → DecidesForms ρ env last es
  OfBody env es := (∀ e ∈ es, Exp.Annotated e) → DecidesBody ρ env es
  OfArgs env whole es ps := (∀ e ∈ es, Exp.Annotated e) → DecidesArgs ρ env whole es ps
  OfBindings env whole bs := (∀ b ∈ bs, b.1.ty.vars = []) → (∀ b ∈ bs, b.2.Annotated) →
    DecidesBindings ρ env whole bs
  OfProcs env whole bs := (∀ b ∈ bs, b.2.Annotated) → DecidesProcs ρ env whole bs
  const a _ := .const a
  prim op h := by
    cases h with
    | prim hop => exact .prim hop
  var x _ := .var x
  ite ihc iht ihe h := by
    cases h with
    | ite hc ht he => exact .ite (ihc hc) (iht ht) (ihe he)
  lambda ih h := by
    cases h with
    | lambda hps hr hbody => exact .lambda hps hr (ih hbody)
  app ihf ihes h := by
    cases h with
    | operator hes => exact .operator fun ps => ihes ps hes
    | app hf hes => exact .app (ihf hf) fun ps => ihes ps hes
  letIn ihbs ihbody h := by
    cases h with
    | letIn hclosed hbs hbody => exact .letIn hclosed (ihbs hclosed hbs) (ihbody hbody)
  letrec ihbs ihbody h := by
    cases h with
    | letrec hbs hbody =>
      refine .letrec (fun hl b hb => ?_) (ihbs hbs) (ihbody hbody)
      exact vars_procDecl (List.all_eq_true.mp hl b hb) (hbs b hb)
  assign x e _ := .assign x e
  quote v _ := .quote v
  define ih h := by
    cases h with
    | define hd he => exact .define hd (ih he)
  program ih h := by
    cases h with
    | program hes => exact .program (ih hes)
  forms_nil last _ := .nil last
  forms_define ihe ihes h := by
    obtain ⟨hd, hes⟩ := List.forall_mem_cons.mp h
    cases hd with
    | define hd he => exact .define hd (ihe he) (ihes hes)
  forms_cons hd ihe ihes h := by
    obtain ⟨he, hes⟩ := List.forall_mem_cons.mp h
    exact .cons hd (ihe he) fun t => ihes t hes
  body_nil env _ Γ st hst hΓ := by
    rw [Exp.typeOfBody]
    refine ⟨fun s => by simp [Cause.failure], fun τ hτ => ?_⟩
    cases hτ
  body_last ih h := .last (ih (h _ (by simp)))
  body_cons hn ihe ihes h := by
    obtain ⟨he, hes⟩ := List.forall_mem_cons.mp h
    exact .cons hn (ihe he) (ihes hes)
  args_cons ihe ihes h := by
    obtain ⟨he, hes⟩ := List.forall_mem_cons.mp h
    exact .cons (ihe he) (ihes hes)
  args_end {_ whole _ _} hn _ Γ st n hst hΓ hlen := by
    obtain ⟨rfl, rfl⟩ := Exp.args_eq_nil hn hlen
    exact DecidesArgs.nil whole Γ st n hst hΓ hlen
  bindings_nil env whole _ _ Γ st hst hΓ := by
    rw [Exp.checkBindings]
    exact ⟨.refl _ hst, by simp⟩
  bindings_cons ihe ihbs hclosed h := by
    obtain ⟨hd, hclosed⟩ := List.forall_mem_cons.mp hclosed
    obtain ⟨he, hbs⟩ := List.forall_mem_cons.mp h
    exact .cons hd (ihe he) (ihbs hclosed hbs)
  procs_nil env whole _ Γ st hst hΓ := by
    rw [Exp.checkProcs]
    exact ⟨.refl _ hst, by simp⟩
  procs_cons ihbody ihbs h := by
    obtain ⟨hl, hbs⟩ := List.forall_mem_cons.mp h
    cases hl with
    | lambda hps hr hbody => exact .cons hps hr (ihbody hbody) (ihbs hbs)
  procs_other hn ih h Γ st hst hΓ := by
    rw [Exp.checkProcs_cons hn]
    refine (ih (List.forall_mem_cons.mp h).2 Γ st hst hΓ).mono ?_ ?_
    · intro hnot hall
      exact hnot fun d ps r body hm => hall d ps r body (List.mem_cons_of_mem _ hm)
    · rintro _ st' ⟨hl, hall⟩
      exact ⟨hl, fun d ps r body hm => hall d ps r body (Exp.mem_procs_of_cons hn hm)⟩

/-- There is an answer if and only if there is a type, and then there is no other. That
variables yet to be taken are new is all that is asked of the state. -/
theorem typeOf_exact {env : Env}
    {e : Exp} {st : CheckState} {ρ : Assignment} (he : e.Annotated) (hs : st.store.Acyclic)
    (hold : ∀ v t, st.store.contents? v = some t → v.id < st.supply.next)
    (henv : ∀ x t, env.lookup? x = some t → (st.store.resolve t).vars = [])
    (hρ : ρ.Satisfies st.store) :
    ((∃ t st', e.typeOf env st = .ok t st') ↔ ∃ τ, HasType ρ (env.read ρ) e τ) ∧
    (∀ t st', e.typeOf env st = .ok t st' → ∃ τ : Ground, st'.store.resolve t = τ.toTy ∧
      ∀ τ', HasType ρ (env.read ρ) e τ' ↔ τ' = τ) ∧
    ∀ c st', e.typeOf env st = .error c st' → (c.failure st'.store).kind ≠ .occursCheck := by
  have hΓ : env.Reads st.store (env.read ρ) := by
    intro x
    rw [Env.read]
    cases hx : env.lookup? x with
    | none => rfl
    | some t =>
      refine Store.standsFor?_some_iff.mpr ⟨t.eval ρ, rfl, ?_⟩
      rw [Store.StandsFor, ← Store.eval_resolve hs hρ, Ty.toTy_eval (henv x t hx)]
  have hends := (RuleLaw.decides ρ).exp env e he (env.read ρ) st ⟨hs, hold⟩ hΓ
  cases hr : e.typeOf env st with
  | ok t st' =>
    rw [Decides, hr] at hends
    obtain ⟨_, τ, hτ, hu⟩ := hends
    refine ⟨⟨fun _ => ⟨τ, (hu τ).mpr rfl⟩, fun _ => ⟨t, st', rfl⟩⟩, ?_, ?_⟩
    · rintro _ _ ⟨⟩
      exact ⟨τ, hτ, hu⟩
    · rintro _ _ ⟨⟩
  | error c st' =>
    rw [Decides, hr] at hends
    refine ⟨⟨?_, ?_⟩, ?_, ?_⟩
    · rintro ⟨_, _, ⟨⟩⟩
    · rintro ⟨τ, hτ⟩
      exact (hends.2 τ hτ).elim
    · rintro _ _ ⟨⟩
    · rintro _ _ ⟨⟩
      exact hends.1 _

/-- A pair is made and taken apart, with a name whose type is behind a variable. -/
theorem typeOf_exact_pair :
    let a : TyVar := ⟨0, "A"⟩
    let env : Env := ⟨[[⟨"x", .var a⟩]]⟩
    let st : CheckState := { supply := { next := 1 }, store := ⟨[(a, .number)]⟩ }
    let ρ : Assignment := st.store.solution fun _ => .base .void
    let e : Exp := .letIn
      [(⟨"p", .pair .number .boolean⟩, .app (.prim "cons") [.var "x", .const (.bool true)])]
      [.ite (.app (.prim "cdr") [.var "p"]) (.app (.prim "car") [.var "p"]) (.var "x")]
    e.Annotated ∧ st.store.Acyclic ∧
    (∀ v t, st.store.contents? v = some t → v.id < st.supply.next) ∧
    (∀ x t, env.lookup? x = some t → (st.store.resolve t).vars = []) ∧
    ρ.Satisfies st.store ∧
    ((∃ t st', e.typeOf env st = .ok t st') ↔ ∃ τ, HasType ρ (env.read ρ) e τ) ∧
    (∀ t st', e.typeOf env st = .ok t st' → ∃ τ : Ground, st'.store.resolve t = τ.toTy ∧
      ∀ τ', HasType ρ (env.read ρ) e τ' ↔ τ' = τ) ∧
    ∀ c st', e.typeOf env st = .error c st' → (c.failure st'.store).kind ≠ .occursCheck := by
  intro a env st ρ e
  have he : e.Annotated := by
    refine .letIn (by simp) ?_ ?_
    · refine List.forall_mem_singleton.mpr (.operator ?_)
      simp [Exp.Annotated.var, Exp.Annotated.const]
    · refine List.forall_mem_singleton.mpr (.ite (.operator ?_) (.operator ?_) (.var "x"))
      · simp [Exp.Annotated.var]
      · simp [Exp.Annotated.var]
  have hs : st.store.Acyclic :=
    Store.bind_acyclic Store.acyclic_empty rfl
      (Store.not_reaches_of_occurs Store.acyclic_empty rfl)
  have hold : ∀ v t, st.store.contents? v = some t → v.id < st.supply.next := by
    intro v t h
    obtain rfl := List.mem_singleton.mp (Store.mem_keys_of_bound h)
    exact Nat.zero_lt_one
  have henv : ∀ x t, env.lookup? x = some t → (st.store.resolve t).vars = [] := by
    intro x t h
    obtain ⟨frame, hf, ht⟩ := List.exists_of_findSome?_eq_some h
    obtain rfl := List.mem_singleton.mp hf
    obtain ⟨d, hd, rfl⟩ := Option.map_eq_some_iff.mp ht
    obtain rfl := List.mem_singleton.mp (List.mem_of_find?_eq_some hd)
    rfl
  have hρ : ρ.Satisfies st.store := Store.solution_satisfies hs _
  exact ⟨he, hs, hold, henv, hρ, typeOf_exact he hs hold henv hρ⟩

end TypedL5
