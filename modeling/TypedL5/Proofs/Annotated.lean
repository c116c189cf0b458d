import TypedL5.Proofs.CheckStep
import TypedL5.Proofs.Footprint
import TypedL5.Proofs.Instance
import TypedL5.Proofs.Typing

/-!
Expressions whose types are written out. While they are checked every type at hand stands for a
ground type, and only variables that are new are bound.
-/
namespace TypedL5

/-- All parameters, results and bindings have a type without variables. An operator whose type
has variables is only applied. -/
inductive Exp.Annotated : Exp → Prop
  | const (a : Atom) : Annotated (.const a)
  | prim {op : String} : op ∉ Primitive.polymorphic → Annotated (.prim op)
  | var (x : String) : Annotated (.var x)
  | ite {c t e : Exp} : Annotated c → Annotated t → Annotated e → Annotated (.ite c t e)
  | lambda {ps : List Decl} {r : Ty} {body : List Exp} :
    (∀ d ∈ ps, d.ty.vars = []) → r.vars = [] →
    (∀ e ∈ body, Annotated e) → Annotated (.lambda ps r body)
  | operator {op : String} {es : List Exp} :
    (∀ e ∈ es, Annotated e) → Annotated (.app (.prim op) es)
  | app {f : Exp} {es : List Exp} :
    Annotated f → (∀ e ∈ es, Annotated e) → Annotated (.app f es)
  | letIn {bs : List (Decl × Exp)} {body : List Exp} : (∀ b ∈ bs, b.1.ty.vars = []) →
    (∀ b ∈ bs, Annotated b.2) → (∀ e ∈ body, Annotated e) → Annotated (.letIn bs body)
  /-- The types written at the names that are bound do not matter. -/
  | letrec {bs : List (Decl × Exp)} {body : List Exp} : (∀ b ∈ bs, Annotated b.2) →
    (∀ e ∈ body, Annotated e) → Annotated (.letrec bs body)
  | assign {x : String} {e : Exp} : Annotated e → Annotated (.assign x e)
  | quote (v : Quoted) : Annotated (.quote v)
  | define {d : Decl} {e : Exp} : d.ty.vars = [] → Annotated e → Annotated (.define d e)
  | program {es : List Exp} : (∀ e ∈ es, Annotated e) → Annotated (.program es)

namespace Store

variable {s s' : Store} {t u : Ty} {τ τ' : Ground} {ρ : Assignment}

/-- A type has no variables left and is a ground type. -/
def StandsFor (s : Store) (t : Ty) (τ : Ground) : Prop := s.resolve t = τ.toTy

theorem standsFor_of_closed (hs : s.Acyclic) (ht : t.vars = []) (ρ : Assignment) :
    s.StandsFor t (t.eval ρ) := by
  rw [StandsFor, resolve_closed hs ht, Ty.toTy_eval ht]

theorem StandsFor.vars_eq_nil (h : s.StandsFor t τ) : (s.resolve t).vars = [] := by
  rw [h, Ground.vars_toTy]

theorem StandsFor.later (h : s.StandsFor t τ) (hext : s.ExtendedBy s') (hs' : s'.Acyclic) :
    s'.StandsFor t τ := by
  rw [StandsFor, hext.resolve_ground hs' h.vars_eq_nil, h]

theorem StandsFor.unique (h : s.StandsFor t τ) (h' : s.StandsFor t τ') : τ = τ' :=
  Ground.toTy_injective (h.symm.trans h')

theorem StandsFor.eval (h : s.StandsFor t τ) (hs : s.Acyclic) (hρ : ρ.Satisfies s) :
    t.eval ρ = τ := by
  rw [← eval_resolve hs hρ, h, Ty.eval_toTy]

/-- A type, if there is one, stands for a ground type, if there is one. -/
def StandsFor? (s : Store) (t? : Option Ty) (τ? : Option Ground) : Prop :=
  t?.map s.resolve = τ?.map Ground.toTy

variable {t? : Option Ty} {τ? : Option Ground}

theorem standsFor?_none_iff : s.StandsFor? none τ? ↔ τ? = none := by
  rw [StandsFor?, Option.map_none, eq_comm, Option.map_eq_none_iff]

theorem standsFor?_some_iff :
    s.StandsFor? (some t) τ? ↔ ∃ τ, τ? = some τ ∧ s.StandsFor t τ := by
  rw [StandsFor?, Option.map_some, eq_comm, Option.map_eq_some_iff]
  exact exists_congr fun τ => and_congr_right fun _ => eq_comm

theorem StandsFor?.later (h : s.StandsFor? t? τ?) (hext : s.ExtendedBy s') (hs' : s'.Acyclic) :
    s'.StandsFor? t? τ? := by
  cases t? with
  | none => exact h
  | some t =>
    obtain ⟨τ, rfl, ht⟩ := standsFor?_some_iff.mp h
    exact standsFor?_some_iff.mpr ⟨τ, rfl, ht.later hext hs'⟩

/-- As many types stand for ground types, each for its own. -/
def StandForAll (s : Store) (ts : List Ty) (τs : List Ground) : Prop :=
  ts.map s.resolve = τs.map Ground.toTy

variable {ts : List Ty} {τs τs' : List Ground}

theorem StandForAll.mem (h : s.StandForAll ts τs) (ht : t ∈ ts) : ∃ τ, s.StandsFor t τ := by
  have hm : s.resolve t ∈ τs.map Ground.toTy := h ▸ List.mem_map_of_mem ht
  obtain ⟨τ, _, he⟩ := List.mem_map.mp hm
  exact ⟨τ, he.symm⟩

theorem StandForAll.later (h : s.StandForAll ts τs) (hext : s.ExtendedBy s')
    (hs' : s'.Acyclic) :
    s'.StandForAll ts τs := by
  rw [StandForAll, ← h]
  refine List.map_congr_left fun t ht => ?_
  obtain ⟨τ, hτ⟩ := h.mem ht
  exact hext.resolve_ground hs' hτ.vars_eq_nil

theorem StandForAll.unique (h : s.StandForAll ts τs) (h' : s.StandForAll ts τs') : τs = τs' :=
  List.map_injective_iff.mpr Ground.toTy_injective (h.symm.trans h')

/-- What types stand for is their value under every assignment that the store admits. -/
theorem StandForAll.eval (h : s.StandForAll ts τs) (hs : s.Acyclic) (hρ : ρ.Satisfies s) :
    ts.map (Ty.eval ρ) = τs := by
  calc ts.map (Ty.eval ρ)
      = (ts.map s.resolve).map (Ty.eval ρ) := by
        rw [List.map_map]
        exact List.map_congr_left fun t _ => (eval_resolve hs hρ t).symm
    _ = τs := by
        rw [h, List.map_map]
        exact List.map_id'' (Ty.eval_toTy ρ) τs

/-- What mentions no other variables than types that are ground is ground. -/
theorem standsFor_of_params (hs : s.Acyclic) {ps : List Ty} (h : s.StandForAll ps τs)
    (ht : ∀ v ∈ t.vars, ∃ p ∈ ps, v ∈ p.vars) (ρ : Assignment) :
    s.StandsFor t (t.eval (s.solution ρ)) := by
  have hclosed : (s.resolve t).vars = [] := by
    refine List.eq_nil_iff_forall_not_mem.mpr fun v hv => ?_
    obtain ⟨⟨w, hw, hl⟩, hn⟩ := (mem_vars_resolve hs).mp hv
    obtain ⟨p, hp, hwp⟩ := ht w hw
    obtain ⟨τ, hτ⟩ := h.mem hp
    have hvp : v ∈ (s.resolve p).vars := (mem_vars_resolve hs).mpr ⟨⟨w, hwp, hl⟩, hn⟩
    simp [hτ.vars_eq_nil] at hvp
  rw [StandsFor, eval_solution, Ty.toTy_eval hclosed]

theorem standsFor_proc_iff {ps : List Ty} {r : Ty} : s.StandsFor (.proc ps r) τ ↔
    ∃ τs τ', τ = .proc τs τ' ∧ s.StandForAll ps τs ∧ s.StandsFor r τ' := by
  unfold StandsFor StandForAll
  cases τ <;> simp

/-- A type that stands for that of a procedure is one, behind its chain of variables. -/
theorem StandsFor.deref_eq_proc (h : s.StandsFor t (.proc τs τ)) (hs : s.Acyclic) :
    ∃ ps r, s.deref t = .proc ps r := by
  unfold StandsFor at h
  rw [← resolve_deref hs] at h
  cases hd : s.deref t with
  | base b => simp [hd] at h
  | var v => simp [hd, resolve_unbound (unbound_of_deref hs hd)] at h
  | pair l r => simp [hd] at h
  | proc ps r => exact ⟨ps, r, rfl⟩

end Store

namespace CheckState

/-- A check went on without a change to the variables below `n`. -/
structure Later (n : Nat) (st st' : CheckState) : Prop where
  valid : st'.Valid
  next_le : st.supply.next ≤ st'.supply.next
  grown : st.store.ExtendedBy st'.store
  same : ∀ v : TyVar, v.id < n → st'.store.contents? v = st.store.contents? v

variable {n m : Nat} {st st' st'' : CheckState} {t : Ty} {τ : Ground}

theorem Later.refl (n : Nat) (h : st.Valid) : Later n st st :=
  ⟨h, Nat.le_refl _, fun _ _ ht => ht, fun _ _ => rfl⟩

theorem Later.draw (h : st.Valid) {supply : Supply} (hn : st.supply.next ≤ supply.next) :
    Later n st { st with supply := supply } where
  valid := ⟨h.acyclic, fun v t ht => Nat.lt_of_lt_of_le (h.old v t ht) hn⟩
  next_le := hn
  grown := fun _ _ ht => ht
  same := fun _ _ => rfl

theorem Later.trans (h : Later n st st') (h' : Later m st' st'') (hn : n ≤ m) :
    Later n st st'' where
  valid := h'.valid
  next_le := Nat.le_trans h.next_le h'.next_le
  grown := h.grown.trans h'.grown
  same v hv := (h'.same v (Nat.lt_of_lt_of_le hv hn)).trans (h.same v hv)

theorem Later.weaken (h : Later m st st') (hn : n ≤ m) : Later n st st' :=
  { h with same := fun v hv => h.same v (Nat.lt_of_lt_of_le hv hn) }

theorem Later.note (h : Later n st st') (e : Exp) (t : Ty) :
    Later n st (st'.noteType e t) where
  valid := ⟨by simpa using h.valid.acyclic, by simpa using h.valid.old⟩
  next_le := by simpa using h.next_le
  grown := by simpa using h.grown
  same := by simpa using h.same

theorem Later.standsFor (h : Later n st st') (ht : st.store.StandsFor t τ) :
    st'.store.StandsFor t τ :=
  ht.later h.grown h.valid.acyclic

theorem Later.and_then (h : Later st.supply.next st st')
    (h' : Later st'.supply.next st' st'') :
    Later st.supply.next st st'' :=
  h.trans h' h.next_le

/-- A type whose variables are all old is left as it is. -/
theorem Later.resolve_eq (h : Later st.supply.next st st') (hst : st.Valid)
    (ht : ∀ v ∈ (st.store.resolve t).vars, v.id < st.supply.next) :
    st'.store.resolve t = st.store.resolve t := by
  rw [h.grown.resolve_eq h.valid.acyclic, ← Ty.subst_id (st.store.resolve t)]
  rw [Ty.subst_subst]
  refine Ty.subst_congr fun v hv => ?_
  rw [Ty.subst_var, Store.resolve_unbound]
  rw [h.same v (ht v hv), Store.unbound_of_mem_resolve hst.acyclic hv]

end CheckState

/-- The types of the names are those of the context. -/
def Env.Reads (env : Env) (s : Store) (Γ : Context) : Prop :=
  ∀ x, s.StandsFor? (env.lookup? x) (Γ x)

namespace Env

variable {env : Env} {s s' : Store} {Γ : Context}

/-- Closed declarations mean the same types to the checker and to the typing rules. -/
theorem Reads.extend (h : env.Reads s Γ) (hs : s.Acyclic) {ds : List Decl}
    (hds : ∀ d ∈ ds, d.ty.vars = []) (ρ : Assignment) :
    (env.extend ds).Reads s (Γ.extend ρ ds) := by
  intro x
  rw [lookup?_extend, Context.extend]
  cases hd : ds.find? (·.name == x) with
  | none => exact h x
  | some d =>
    have hc := Store.standsFor_of_closed hs (hds d (List.mem_of_find?_eq_some hd)) ρ
    exact Store.standsFor?_some_iff.mpr ⟨_, rfl, hc⟩

theorem Reads.after {st st' : CheckState} {n : Nat} (h : env.Reads st.store Γ)
    (hl : CheckState.Later n st st') : env.Reads st'.store Γ :=
  fun x => (h x).later hl.grown hl.valid.acyclic

end Env

/-- How a check ends: with an answer of which `Q` holds, or with a failure, not for a cycle, in
which case `E` holds. -/
def Ends {α : Type} (r : EStateM.Result Cause CheckState α) (Q : α → CheckState → Prop)
    (E : Prop) : Prop :=
  match r with
  | .ok a st => Q a st
  | .error c _ => (∀ s, (c.failure s).kind ≠ .occursCheck) ∧ E

namespace Ends

variable {α β : Type} {x : CheckM α} {f : α → CheckM β} {st : CheckState} {E E' : Prop}
  {Q : α → CheckState → Prop} {Q' : β → CheckState → Prop}

/-- If the first part ends well or fails for a good reason, so does the whole. -/
theorem bind (hx : Ends (x st) Q E) (hE : E → E')
    (hf : ∀ a st', Q a st' → Ends (f a st') Q' E') : Ends ((x >>= f) st) Q' E' := by
  rw [bind_apply]
  cases hr : x st with
  | ok a st' =>
    rw [hr] at hx
    exact hf a st' hx
  | error c st' =>
    rw [hr] at hx
    exact ⟨hx.1, hE hx.2⟩

theorem mono {P : α → CheckState → Prop} (hx : Ends (x st) Q E) (hE : E → E')
    (hQ : ∀ a st', Q a st' → P a st') : Ends (x st) P E' := by
  cases hr : x st with
  | ok a st' =>
    rw [hr] at hx
    exact hQ a st' hx
  | error c st' =>
    rw [hr] at hx
    exact ⟨hx.1, hE hx.2⟩

end Ends

section

variable {st : CheckState} {t u : Ty} {τ τ' : Ground} {e : Exp} {n : Nat}

/-- What a ground type `τ` was made equal to is bound at its variables, and nowhere else. -/
structure Matched (n : Nat) (st st' : CheckState) (u : Ty) (τ : Ground) : Prop where
  later : CheckState.Later n st st'
  standsFor : st'.store.StandsFor u τ
  subset : ∀ q, (st'.store.resolve q).vars ⊆ (st.store.resolve q).vars
  satisfies : ∀ θ : Assignment, θ.Satisfies st.store → u.eval θ = τ → θ.Satisfies st'.store

/-- A parameter over fresh variables that unifies with a ground type is matched to it, and only
the fresh variables are bound. -/
theorem matched_unify
    {a : Unit} {st' : CheckState} (hst : st.Valid) (ht : st.store.StandsFor t τ)
    (hu : ∀ v ∈ (st.store.resolve u).vars, n ≤ v.id ∧ v.id < st.supply.next)
    (h : CheckM.unify t u e st = .ok a st') : Matched n st st' u τ := by
  obtain ⟨hok, hsupply⟩ := CheckM.unify_eq_ok h
  have hsolve := Store.unify_solve hst.acyclic t u
  rw [hok] at hsolve
  have hg : st.store.Grows st'.store := hsolve.grows hst.acyclic
  have hs' := hg.acyclic hst.acyclic
  -- A ground type has no variables to offer, so only those of `u` are bound.
  have hsame : ∀ v, v ∉ (st.store.resolve u).vars →
      st'.store.contents? v = st.store.contents? v := by
    intro v hv
    refine hsolve.untouched hst.acyclic ?_
    rintro ⟨e, he, hx⟩
    obtain rfl := List.mem_singleton.mp he
    rw [ht.vars_eq_nil] at hx
    simp [hv] at hx
  have hu' : st'.store.StandsFor u τ := by
    have he : st'.store.resolve t = st'.store.resolve u :=
      hsolve.resolve_eq hst.acyclic (t, u) (by simp)
    rw [Store.StandsFor, ← he]
    exact ht.later hg.extends hs'
  refine ⟨⟨⟨hs', fun v w hw => ?_⟩, by rw [hsupply], hg.extends, fun v hv => ?_⟩, hu', ?_, ?_⟩
  · rw [hsupply]
    by_cases hv : v ∈ (st.store.resolve u).vars
    · exact (hu v hv).2
    · rw [hsame v hv] at hw
      exact hst.old v w hw
  · refine hsame v fun hm => ?_
    exact absurd (hu v hm).1 (Nat.not_le.mpr hv)
  · intro q v hv
    obtain ⟨y, hy, hvy⟩ := Store.mem_vars_resolve_later hg.extends hs' hv
    by_cases hyu : y ∈ (st.store.resolve u).vars
    -- A variable of `u` has become ground, and nothing is left in its place.
    · have hv' : v ∈ (st'.store.resolve u).vars := by
        rw [hg.extends.resolve_eq hs', Ty.mem_vars_subst]
        exact ⟨y, hyu, hvy⟩
      simp [hu'.vars_eq_nil] at hv'
    · rw [Store.resolve_unbound, Ty.vars_var, List.mem_singleton] at hvy
      · exact hvy ▸ hy
      · rw [hsame y hyu, Store.unbound_of_mem_resolve hst.acyclic hy]
  · intro θ hθ he
    rw [hsolve.satisfies_iff hst.acyclic]
    refine ⟨hθ, ?_⟩
    simpa [he] using ht.eval hst.acyclic hθ

/-- A ground type can be made equal to any type which it is an instance of. -/
theorem ends_unify (hst : st.Valid) (ht : st.store.StandsFor t τ)
    (hu : ∀ v ∈ (st.store.resolve u).vars, n ≤ v.id ∧ v.id < st.supply.next) :
    Ends (CheckM.unify t u e st) (fun _ st' => Matched n st st' u τ)
      (∀ θ : Assignment, θ.Satisfies st.store → u.eval θ ≠ τ) := by
  cases hr : CheckM.unify t u e st with
  | ok a st' => exact matched_unify hst ht hu hr
  | error c st' =>
    obtain ⟨k, rfl, herr, _⟩ := CheckM.unify_eq_error hr
    have hsolve := Store.unify_solve hst.acyclic t u
    rw [herr] at hsolve
    obtain ⟨a, b, rfl⟩ := hsolve.mismatch_of_ground hst.acyclic
      (by simpa using Or.inl ht.vars_eq_nil)
    refine ⟨fun s => by simp [Cause.failure, Failure.ofClash], fun θ hθ he => ?_⟩
    apply hsolve.eval_ne_of_mismatch hst.acyclic hθ
    simpa [he] using ht.eval hst.acyclic hθ

/-- Ground types are compared. -/
theorem ends_unify_ground (hst : st.Valid) (ht : st.store.StandsFor t τ)
    (hu : st.store.StandsFor u τ') :
    Ends (CheckM.unify t u e st)
      (fun _ st' => CheckState.Later st.supply.next st st' ∧ τ = τ') (τ ≠ τ') := by
  refine (ends_unify (n := st.supply.next) hst ht (by simp [hu.vars_eq_nil])).mono ?_ ?_
  · rintro hne rfl
    have hθ := Store.solution_satisfies hst.acyclic fun _ => .base .void
    exact hne _ hθ (hu.eval hst.acyclic hθ)
  · intro a st' hm
    exact ⟨hm.later, hm.standsFor.unique (hm.later.standsFor hu)⟩

end

/-- The use of an operator in a state has variables of its own, and `f` says which. They are
told from each other by `g`. -/
structure Use (st st' : CheckState) (σ : Scheme) (f g : TyVar → TyVar) : Prop where
  later : CheckState.Later st.supply.next st st'
  new : ∀ v ∈ σ.vars, st.supply.next ≤ (f v).id ∧ (f v).id < st'.supply.next
  unbound : ∀ v ∈ σ.vars, st'.store.contents? (f v) = none
  inverse : ∀ v ∈ σ.vars, g (f v) = v

/-- A primitive has a fresh instance of its signature, or no signature at all. -/
theorem ends_prim {env : Env} {op : String} {st : CheckState} (hst : st.Valid) :
    Ends ((Exp.prim op).typeOf env st)
      (fun t st' => ∃ σ f g, Primitive.signature? op = some σ ∧ Use st st' σ f g ∧
        t = σ.body.subst fun v => .var (f v))
      (Primitive.signature? op = none) := by
  rw [Exp.typeOf, Primitive.typeOf]
  cases hσ : Primitive.signature? op with
  | none => exact ⟨fun s => by simp [Cause.failure], rfl⟩
  | some σ =>
    obtain ⟨hnext, f, g, hinst, hf⟩ :=
      Scheme.instantiate_spec (Primitive.proper_of_signature hσ).nodup st.supply
    have hl : CheckState.Later st.supply.next st
      { st with supply := (σ.instantiate st.supply).2 } :=
      .draw hst (by omega)
    refine ⟨σ, f, g, rfl,
      ⟨hl.note _ _, fun v hv => ?_, fun v hv => ?_, fun v hv => (hf v hv).2.2⟩, hinst⟩
    · rw [CheckState.noteType_supply]
      exact ⟨(hf v hv).1, Nat.lt_of_lt_of_eq (hf v hv).2.1 hnext.symm⟩
    · rw [CheckState.noteType_store]
      exact hst.unbound (hf v hv).1

/-- Any instance of a scheme can be read off the variables of a use of it. -/
theorem Use.eval_eq {st st' : CheckState} {σ : Scheme} {f g : TyVar → TyVar}
    (h : Use st st' σ f g) {p : Ty} (hp : ∀ v ∈ p.vars, v ∈ σ.vars) (θ : Assignment) :
    (p.subst fun v => .var (f v)).eval (st'.store.solution fun w => θ (g w)) = p.eval θ := by
  rw [Ty.eval_subst]
  refine Ty.eval_eq_iff.mpr fun v hv => ?_
  rw [Ty.eval_var, Store.solution_of_unbound (h.unbound v (hp v hv)), h.inverse v (hp v hv)]

/-- A parameter of a fresh instance mentions only the variables drawn for that instance. -/
theorem Use.vars_resolve {st st' : CheckState} {σ : Scheme} {f g : TyVar → TyVar}
    (h : Use st st' σ f g) {p : Ty} (hp : ∀ v ∈ p.vars, v ∈ σ.vars) {w : TyVar}
    (hw : w ∈ (st'.store.resolve (p.subst fun v => .var (f v))).vars) :
    st.supply.next ≤ w.id ∧ w.id < st'.supply.next := by
  have hvars : ∀ w ∈ (p.subst fun v => .var (f v)).vars, ∃ v ∈ σ.vars, w = f v := by
    intro w hw
    obtain ⟨v, hv, hwv⟩ := Ty.mem_vars_subst.mp hw
    exact ⟨v, hp v hv, by simpa using hwv⟩
  rw [Store.resolve_of_unbound h.later.valid.acyclic] at hw
  · obtain ⟨v, hv, rfl⟩ := hvars w hw
    exact h.new v hv
  · intro w hw
    obtain ⟨v, hv, rfl⟩ := hvars w hw
    exact h.unbound v hv

end TypedL5
