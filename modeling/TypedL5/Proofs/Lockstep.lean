import Mathlib.Data.List.Forall2
import Mathlib.Data.Option.Basic
import TypedL5.Proofs.CheckReach
import TypedL5.Proofs.Renaming

/-!
Two checks in lockstep, of an expression and of the same one with other types for its own.

What there is to know of the two states, and of types in them, is left open. If the steps of a
check keep up with each other, whole checks do.
-/
namespace TypedL5

namespace Env

variable {R : Ty → Ty → Prop} {env env' : Env} {ds ds' : List Decl} {xs : List String}

/-- Two declarations are of one name, and their types are related. -/
def RelDecl (R : Ty → Ty → Prop) (d d' : Decl) : Prop := d.name = d'.name ∧ R d.ty d'.ty

/-- Names have related types in two environments, or no types. -/
def Rel (R : Ty → Ty → Prop) (env env' : Env) (xs : List String) : Prop :=
  ∀ x ∈ xs, Option.Rel R (env.lookup? x) (env'.lookup? x)

theorem Rel.imp {S : Ty → Ty → Prop} (h : Rel R env env' xs) (hRS : ∀ t t', R t t' → S t t') :
    Rel S env env' xs := by
  intro x hx
  have hx := h x hx
  generalize env.lookup? x = t? at hx ⊢
  generalize env'.lookup? x = t?' at hx ⊢
  cases hx with
  | none => exact .none
  | some h => exact .some (hRS _ _ h)

theorem rel_find? (h : List.Forall₂ (RelDecl R) ds ds') (x : String) :
    Option.Rel (RelDecl R) (ds.find? (·.name == x)) (ds'.find? (·.name == x)) := by
  induction h with
  | nil => exact .none
  | cons h _ ih =>
    rw [List.find?_cons, List.find?_cons, h.1]
    split
    · exact .some h
    · exact ih

/-- Names that are not declared anew keep their types, and the others have related ones. -/
theorem Rel.extend (h : Rel R env env' (Decl.outer ds xs))
    (hds : List.Forall₂ (RelDecl R) ds ds') : Rel R (env.extend ds) (env'.extend ds') xs := by
  intro x hx
  have hfind := rel_find? hds x
  rw [lookup?_extend, lookup?_extend]
  cases hd : ds.find? (·.name == x) with
  | some d =>
    cases hd' : ds'.find? (·.name == x) with
    | some d' =>
      rw [hd, hd'] at hfind
      cases hfind with
      | some h => exact .some h.2
    | none =>
      rw [hd, hd'] at hfind
      cases hfind
  | none =>
    cases hd' : ds'.find? (·.name == x) with
    | some d' =>
      rw [hd, hd'] at hfind
      cases hfind
    | none => exact h x (List.mem_filter.mpr ⟨hx, by simpa using hd⟩)

theorem relDecl_mapTy {φ : Ty → Ty} (h : ∀ d ∈ ds, R d.ty (φ d.ty)) :
    List.Forall₂ (RelDecl R) ds (ds.map (Decl.mapTy φ)) := by
  rw [List.forall₂_map_right_iff]
  exact List.forall₂_same.mpr fun d hd => ⟨rfl, h d hd⟩

theorem map_name_of_relDecl (h : List.Forall₂ (RelDecl R) ds ds') :
    ds.map Decl.name = ds'.map Decl.name := by
  induction h with
  | nil => rfl
  | cons h _ ih => rw [List.map_cons, List.map_cons, h.1, ih]

end Env

namespace Exp

mutual

/-- The types written in an expression that a check looks at: all but those of the names that
recursive bindings bind. -/
def used : Exp → List Ty
  | .const _ | .prim _ | .var _ | .quote _ => []
  | .ite c t e => c.used ++ (t.used ++ e.used)
  | .lambda ps r body => ps.map Decl.ty ++ (r :: usedAll body)
  | .app f es => f.used ++ usedAll es
  | .letIn bs body => usedBound bs ++ usedAll body
  | .letrec bs body => usedProcs bs ++ usedAll body
  | .assign _ e => e.used
  | .define d e => d.ty :: e.used
  | .program es => usedAll es

def usedAll : List Exp → List Ty
  | [] => []
  | e :: es => e.used ++ usedAll es

def usedBound : List (Decl × Exp) → List Ty
  | [] => []
  | (d, e) :: bs => d.ty :: (e.used ++ usedBound bs)

def usedProcs : List (Decl × Exp) → List Ty
  | [] => []
  | (_, e) :: bs => e.used ++ usedProcs bs

end

theorem used_subset_tys (e : Exp) : e.used ⊆ e.tys := by
  refine (used.mutual_induct (fun e => e.used ⊆ e.tys) (fun bs => usedProcs bs ⊆ tysBound bs)
    (fun bs => usedBound bs ⊆ tysBound bs) (fun es => usedAll es ⊆ tysAll es)
    ?_ ?_ ?_ ?_ ?_ ?_ ?_ ?_ ?_ ?_ ?_ ?_ ?_ ?_ ?_ ?_ ?_ ?_).1 e
  all_goals
    intros
    simp only [used, usedAll, usedBound, usedProcs, tys, tysAll, tysBound]
    grind

theorem ty_mem_usedBound {d : Decl} {bs : List (Decl × Exp)} (hd : d ∈ bs.map Prod.fst) :
    d.ty ∈ usedBound bs := by
  induction bs with
  | nil => cases hd
  | cons b bs ih =>
    rw [usedBound]
    rcases List.mem_cons.mp hd with rfl | hd
    · exact List.mem_cons_self
    · simp [ih hd]

theorem mem_usedProcs {b : Decl × Exp} {bs : List (Decl × Exp)} {t : Ty} (hb : b ∈ bs)
    (ht : t ∈ b.2.used) :
    t ∈ usedProcs bs := by
  induction bs with
  | nil => cases hb
  | cons b' bs ih =>
    rw [usedProcs]
    rcases List.mem_cons.mp hb with rfl | hb
    · exact List.mem_append_left _ ht
    · exact List.mem_append_right _ (ih hb)

@[simp] theorem isLambda_mapTy (φ : Ty → Ty) (e : Exp) :
    (e.mapTy φ).isLambda = e.isLambda := by
  cases e <;> rfl

theorem all_isLambda_mapTy (φ : Ty → Ty) (bs : List (Decl × Exp)) :
    (mapTyBound φ bs).all (·.2.isLambda) = bs.all (·.2.isLambda) := by
  rw [mapTyBound_eq_map, List.all_map]
  simp [Function.comp_def]

theorem fst_mapTyBound (φ : Ty → Ty) (bs : List (Decl × Exp)) :
    (mapTyBound φ bs).map Prod.fst = (bs.map Prod.fst).map (Decl.mapTy φ) := by
  rw [mapTyBound_eq_map, List.map_map, List.map_map]
  rfl

end Exp

/-- The failure with other types for those that are written in its expression. -/
def Cause.mapTy (φ : Ty → Ty) : Cause → Cause
  | .unbound x similar => .unbound x similar
  | .unknownPrimitive op => .unknownPrimitive op
  | .notProcedure t e => .notProcedure t (e.mapTy φ)
  | .wrongArity e => .wrongArity (e.mapTy φ)
  | .notLambda e => .notLambda (e.mapTy φ)
  | .clash c e => .clash c (e.mapTy φ)
  | .unsupported e => .unsupported (e.mapTy φ)
  | .emptyBody => .emptyBody
  | .emptyProgram => .emptyProgram

/-- A computation that only adds to the store. -/
class Additive {α : Type} (x : CheckM α) : Prop where
  grows : Keeps (fun st st' => st.store.Acyclic → st.store.Grows st'.store) x

namespace Additive

variable {α β : Type} {x : CheckM α} {k : α → CheckM β}

instance (a : α) : Additive (pure a : CheckM α) := ⟨CheckStep.growth.pure a⟩

instance (c : Cause) : Additive (throw c : CheckM α) := ⟨CheckStep.growth.throw c⟩

instance [hx : Additive x] [hk : ∀ a, Additive (k a)] : Additive (x >>= k) :=
  ⟨CheckStep.growth.bind hx.grows fun a => (hk a).grows⟩

instance : Additive (get : CheckM CheckState) := ⟨fun _ _ => .refl⟩

instance (t u : Ty) (e : Exp) : Additive (CheckM.unify t u e) := ⟨CheckStep.growth.unify t u e⟩

instance (e : Exp) (t : Ty) : Additive (CheckM.derived e t) := ⟨CheckStep.growth.derived e t⟩

variable (env : Env) (whole : Exp)

instance (e : Exp) : Additive (e.typeOf env) := ⟨CheckStep.growth.rules.exp env e⟩

instance (last : Option Ty) (es : List Exp) : Additive (Exp.typeOfForms env last es) :=
  ⟨CheckStep.growth.rules.forms env last es⟩

instance (bs : List (Decl × Exp)) : Additive (Exp.checkProcs env whole bs) :=
  ⟨CheckStep.growth.rules.procs env whole bs⟩

instance (es : List Exp) : Additive (Exp.typeOfBody env es) :=
  ⟨CheckStep.growth.rules.body env es⟩

instance (bs : List (Decl × Exp)) : Additive (Exp.checkBindings env whole bs) :=
  ⟨CheckStep.growth.rules.bindings env whole bs⟩

instance (es : List Exp) (ps : List Ty) : Additive (Exp.checkArgs env whole es ps) :=
  ⟨CheckStep.growth.rules.args env whole es ps⟩

instance (f : Exp) (es : List Exp) (t : Ty) : Additive (Exp.applied env f es t) :=
  ⟨CheckStep.growth.applied (CheckStep.growth.rules.args env (.app f es) es) t⟩

end Additive

open EStateM (Result)

/-- A way of comparing two checks, and what it asks of the single steps. -/
structure Lockstep where
  /-- The types that the second expression has in the places of those of the first. -/
  onTy : Ty → Ty
  /-- What is known of two environments beyond the types of names. -/
  Sees : Env → Env → Prop
  Linked : CheckState → CheckState → Prop
  /-- What is known of two types, each in its state. -/
  Alike : CheckState → CheckState → Ty → Ty → Prop
  /-- Two states have come from two others. -/
  Follows : CheckState → CheckState → CheckState → CheckState → Prop
  /-- How a computation ends in two states. If it gives answers, the property holds of them. -/
  Runs {α : Type} :
    CheckState → CheckState → Result Cause CheckState α → Result Cause CheckState α →
    (α → α → CheckState → CheckState → Prop) → Prop
  sees_extend {env env' : Env} {ds ds' : List Decl} :
    Sees env env' → ds.map Decl.name = ds'.map Decl.name →
      Sees (env.extend ds) (env'.extend ds')
  follows_trans {st st' m m' n n' : CheckState} :
    Follows st st' m m' → Follows m m' n n' → Follows st st' n n'
  linked_of_follows {st st' m m' : CheckState} : Follows st st' m m' → Linked m m'
  alike_of_follows {st st' m m' : CheckState} {t t' : Ty} :
    Follows st st' m m' → Alike st st' t t' → Alike m m' t t'
  alike_closed {st st' : CheckState} {t : Ty} : Linked st st' → t.vars = [] → Alike st st' t t
  alike_proc {st st' : CheckState} {ps ps' : List Ty} {r r' : Ty} :
    List.Forall₂ (Alike st st') ps ps' → Alike st st' r r' →
      Alike st st' (.proc ps r) (.proc ps' r')
  pure {α : Type} {st st' : CheckState} {a a' : α}
      {Q : α → α → CheckState → CheckState → Prop} :
    Linked st st' → Q a a' st st' →
      Runs st st' ((Pure.pure a : CheckM α) st) ((Pure.pure a' : CheckM α) st') Q
  throw {α : Type} {st st' : CheckState} {Q : α → α → CheckState → CheckState → Prop}
      (c : Cause) :
    Linked st st' → Runs st st' ((throw c : CheckM α) st)
      ((MonadExcept.throw (c.mapTy onTy) : CheckM α) st') Q
  /-- What comes after the first computation only adds to the store, so that the store in the
  end satisfies whatever is asked of the one in between. -/
  bind {α β : Type} {st st' : CheckState} {x x' : CheckM α} {k k' : α → CheckM β}
    {Q : α → α → CheckState → CheckState → Prop} {P : β → β → CheckState → CheckState → Prop} :
    [∀ a, Additive (k a)] → Runs st st' (x st) (x' st') Q →
    (∀ a a' m m', Follows st st' m m' → Q a a' m m' → Runs m m' (k a m) (k' a' m') P) →
    Runs st st' ((x >>= k) st) ((x' >>= k') st') P
  unbound {st st' : CheckState} {env env' : Env} {Q : Ty → Ty → CheckState → CheckState → Prop}
      (x : String) :
    Linked st st' → Sees env env' →
    Runs st st' ((MonadExcept.throw (.unbound x (Name.similar x env.names)) : CheckM Ty) st)
      ((MonadExcept.throw (.unbound x (Name.similar x env'.names)) : CheckM Ty) st') Q
  primitive {st st' : CheckState} (op : String) : Linked st st' →
    Runs st st' (Primitive.typeOf op st) (Primitive.typeOf op st') fun t t' m m' =>
      Alike m m' t t'
  derived {st st' : CheckState} {t t' : Ty} (e : Exp) : Linked st st' → Alike st st' t t' →
    Runs st st' (CheckM.derived e t st) (CheckM.derived (e.mapTy onTy) t' st') fun t t' m m' =>
      Alike m m' t t'
  unify {st st' : CheckState} {t t' u u' : Ty} (e : Exp) :
    Linked st st' → Alike st st' t t' → Alike st st' u u' →
    Runs st st' (CheckM.unify t u e st) (CheckM.unify t' u' (e.mapTy onTy) st')
      fun _ _ _ _ => True
  headed {st st' : CheckState} {t t' r : Ty} {ps : List Ty} :
    Linked st st' → Alike st st' t t' →
    st.store.deref t = .proc ps r → ∃ ps' r', st'.store.deref t' = .proc ps' r' ∧
      List.Forall₂ (Alike st st') ps ps' ∧ Alike st st' r r'
  stuck {st st' : CheckState} {t t' : Ty} {env env' : Env} {f : Exp} {es : List Exp}
    {Q : Ty → Ty → CheckState → CheckState → Prop} : Linked st st' → Alike st st' t t' →
    (¬ ∃ ps r, st.store.deref t = .proc ps r) →
    Runs st st' (Exp.applied env f es (st.store.deref t) st)
      (Exp.applied env' (f.mapTy onTy) (Exp.mapTyAll onTy es) (st'.store.deref t') st') Q

namespace Lockstep

variable {K : Lockstep} {env env' : Env} {st st' m m' : CheckState} {ts us : List Ty}
  {xs ys : List String}

theorem Runs.bind {α β : Type} {x x' : CheckM α} {k k' : α → CheckM β}
    {Q : α → α → CheckState → CheckState → Prop} {P : β → β → CheckState → CheckState → Prop}
    [∀ a, Additive (k a)] (hx : K.Runs st st' (x st) (x' st') Q)
    (hk : ∀ a a' m m', K.Follows st st' m m' → Q a a' m m' →
      K.Runs m m' (k a m) (k' a' m') P) :
    K.Runs st st' ((x >>= k) st) ((x' >>= k') st') P :=
  K.bind hx hk

theorem Follows.trans {n n' : CheckState} (h : K.Follows st st' m m')
    (h' : K.Follows m m' n n') :
    K.Follows st st' n n' :=
  K.follows_trans h h'

theorem Follows.linked (h : K.Follows st st' m m') : K.Linked m m' := K.linked_of_follows h

theorem Follows.stays {t t' : Ty} (h : K.Follows st st' m m') (ht : K.Alike st st' t t') :
    K.Alike m m' t t' :=
  K.alike_of_follows h ht

/-- What two checks are given: states, environments, and types that are written or stand at
names. -/
structure Paired (K : Lockstep) (env env' : Env) (ts : List Ty) (xs : List String)
    (st st' : CheckState) : Prop where
  linked : K.Linked st st'
  sees : K.Sees env env'
  tys : ∀ t ∈ ts, K.Alike st st' t (K.onTy t)
  names : Env.Rel (K.Alike st st') env env' xs

namespace Paired

theorem later (h : K.Paired env env' ts xs st st') (hm : K.Follows st st' m m') :
    K.Paired env env' ts xs m m' where
  linked := hm.linked
  sees := h.sees
  tys t ht := hm.stays (h.tys t ht)
  names := h.names.imp fun _ _ => hm.stays

theorem left (h : K.Paired env env' (ts ++ us) (xs ++ ys) st st') :
    K.Paired env env' ts xs st st' where
  linked := h.linked
  sees := h.sees
  tys t ht := h.tys t (List.mem_append_left us ht)
  names x hx := h.names x (List.mem_append_left ys hx)

theorem right (h : K.Paired env env' (ts ++ us) (xs ++ ys) st st') :
    K.Paired env env' us ys st st' where
  linked := h.linked
  sees := h.sees
  tys t ht := h.tys t (List.mem_append_right ts ht)
  names x hx := h.names x (List.mem_append_right xs hx)

theorem tail {t : Ty} (h : K.Paired env env' (t :: ts) xs st st') :
    K.Paired env env' ts xs st st' :=
  ⟨h.linked, h.sees, fun u hu => h.tys u (List.mem_cons_of_mem t hu), h.names⟩

theorem extend {ds ds' : List Decl} (h : K.Paired env env' ts (Decl.outer ds xs) st st')
    (hds : List.Forall₂ (Env.RelDecl (K.Alike st st')) ds ds') :
    K.Paired (env.extend ds) (env'.extend ds') ts xs st st' :=
  ⟨h.linked, K.sees_extend h.sees (Env.map_name_of_relDecl hds), h.tys, h.names.extend hds⟩

/-- The parameters, the result and the body of a procedure. -/
theorem lambda {ps : List Decl} {r : Ty}
    (h : K.Paired env env' (ps.map Decl.ty ++ (r :: ts)) (Decl.outer ps xs) st st') :
    K.Alike st st' (.proc (ps.map Decl.ty) r)
      (.proc ((ps.map (Decl.mapTy K.onTy)).map Decl.ty) (K.onTy r)) ∧
      K.Alike st st' r (K.onTy r) ∧
      K.Paired (env.extend ps) (env'.extend (ps.map (Decl.mapTy K.onTy))) ts xs st st' := by
  obtain ⟨hps, hr, hts⟩ : (∀ d ∈ ps, K.Alike st st' d.ty (K.onTy d.ty)) ∧
    K.Alike st st' r (K.onTy r) ∧
      ∀ t ∈ ts, K.Alike st st' t (K.onTy t) := by
    simpa [or_imp, forall_and] using h.tys
  refine ⟨K.alike_proc ?_ hr, hr,
    extend ⟨h.linked, h.sees, hts, h.names⟩ (Env.relDecl_mapTy hps)⟩
  rw [List.map_map, List.forall₂_map_left_iff, List.forall₂_map_right_iff]
  exact List.forall₂_same.mpr hps

end Paired

variable (K) in
/-- A check keeps step with every check of the same expression, given what is known at the
beginning. -/
def InStepExp (env : Env) (e : Exp) : Prop :=
  ∀ env' st st', K.Paired env env' e.used e.free st st' →
    K.Runs st st' (e.typeOf env st) ((e.mapTy K.onTy).typeOf env' st') fun t t' m m' =>
      K.Alike m m' t t'

variable (K) in
def InStepBody (env : Env) (es : List Exp) : Prop :=
  ∀ env' st st', K.Paired env env' (Exp.usedAll es) (Exp.freeAll es) st st' →
    K.Runs st st' (Exp.typeOfBody env es st) (Exp.typeOfBody env' (Exp.mapTyAll K.onTy es) st')
      fun t t' m m' => K.Alike m m' t t'

variable (K) in
def InStepArgs (env : Env) (whole : Exp) (es : List Exp) (ps : List Ty) : Prop :=
  ∀ env' ps' st st', K.Paired env env' (Exp.usedAll es) (Exp.freeAll es) st st' →
    List.Forall₂ (K.Alike st st') ps ps' →
    K.Runs st st' (Exp.checkArgs env whole es ps st)
      (Exp.checkArgs env' (whole.mapTy K.onTy) (Exp.mapTyAll K.onTy es) ps' st')
        fun _ _ _ _ => True

variable (K) in
def InStepBindings (env : Env) (whole : Exp) (bs : List (Decl × Exp)) : Prop :=
  ∀ env' st st', K.Paired env env' (Exp.usedBound bs) (Exp.freeBound bs) st st' →
    K.Runs st st' (Exp.checkBindings env whole bs st)
      (Exp.checkBindings env' (whole.mapTy K.onTy) (Exp.mapTyBound K.onTy bs) st')
        fun _ _ _ _ => True

variable (K) in
def InStepProcs (env : Env) (whole : Exp) (bs : List (Decl × Exp)) : Prop :=
  ∀ env' st st', K.Paired env env' (Exp.usedProcs bs) (Exp.freeBound bs) st st' →
    K.Runs st st' (Exp.checkProcs env whole bs st)
      (Exp.checkProcs env' (whole.mapTy K.onTy) (Exp.mapTyBound K.onTy bs) st')
        fun _ _ _ _ => True

variable (K) in
def InStepForms (env : Env) (last : Option Ty) (es : List Exp) : Prop :=
  ∀ env' last' st st', K.Paired env env' (Exp.usedAll es) (Exp.freeForms es) st st' →
    Option.Rel (K.Alike st st') last last' →
    K.Runs st st' (Exp.typeOfForms env last es st)
      (Exp.typeOfForms env' last' (Exp.mapTyAll K.onTy es) st')
      fun t t' m m' => K.Alike m m' t t'

namespace InStepExp

theorem const (a : Atom) : K.InStepExp env (.const a) := by
  intro env' st st' h
  rw [Exp.mapTy, Exp.typeOf, Exp.typeOf]
  refine K.derived (.const a) h.linked (K.alike_closed h.linked ?_)
  cases a <;> rfl

theorem prim (op : String) : K.InStepExp env (.prim op) := by
  intro env' st st' h
  rw [Exp.mapTy, Exp.typeOf, Exp.typeOf]
  exact (K.primitive op h.linked).bind fun t t' m m' hm ht => K.derived (.prim op) hm.linked ht

/-- Both look the name up in vain and offer names, or both find it. -/
theorem var (x : String) : K.InStepExp env (.var x) := by
  intro env' st st' h
  rw [Exp.mapTy, Exp.typeOf, Exp.typeOf]
  have hx : K.Runs st st' (env.typeOf x st) (env'.typeOf x st') fun t t' m m' =>
      K.Alike m m' t t' := by
    have hrel := h.names x (by simp [Exp.free])
    rw [Env.typeOf, Env.typeOf]
    cases he : env.lookup? x <;> cases he' : env'.lookup? x <;>
      rw [he, he'] at hrel <;> cases hrel
    · exact K.unbound x h.linked h.sees
    · rename_i ht
      exact K.pure h.linked ht
  exact hx.bind fun t t' m m' hm ht => K.derived (.var x) hm.linked ht

/-- The tests are made boolean before the branches are looked at, on both sides. -/
theorem ite {c t e : Exp} (hc : K.InStepExp env c) (ht : K.InStepExp env t)
    (he : K.InStepExp env e) :
    K.InStepExp env (.ite c t e) := by
  intro env' st st' h
  rw [Exp.used, Exp.free] at h
  rw [Exp.mapTy, Exp.typeOf, Exp.typeOf]
  refine (hc env' st st' h.left).bind fun tc tc' m₁ m₁' h₁ htc => ?_
  have h := h.right.later h₁
  refine (ht env' m₁ m₁' h.left).bind fun tt tt' m₂ m₂' h₂ htt => ?_
  refine (he env' m₂ m₂' (h.right.later h₂)).bind fun te te' m₃ m₃' h₃ hte => ?_
  have htc := h₃.stays (h₂.stays htc)
  have htt := h₃.stays htt
  have hboolean := K.alike_closed h₃.linked (t := .boolean) rfl
  refine (K.unify (.ite c t e) h₃.linked htc hboolean).bind fun _ _ m₄ m₄' h₄ _ => ?_
  have htt := h₄.stays htt
  refine (K.unify (.ite c t e) h₄.linked htt (h₄.stays hte)).bind fun _ _ m₅ m₅' h₅ _ => ?_
  exact K.derived (.ite c t e) h₅.linked (h₅.stays htt)

theorem lambda {ps : List Decl} {r : Ty} {body : List Exp}
    (hbody : K.InStepBody (env.extend ps) body) :
    K.InStepExp env (.lambda ps r body) := by
  intro env' st st' h
  rw [Exp.used, Exp.free] at h
  rw [Exp.mapTy, Exp.typeOf, Exp.typeOf]
  obtain ⟨hproc, hr, h⟩ := h.lambda
  refine (hbody _ st st' h).bind fun t t' m₁ m₁' h₁ ht => ?_
  refine (K.unify (.lambda ps r body) h₁.linked ht (h₁.stays hr)).bind
    fun _ _ m₂ m₂' h₂ _ => ?_
  exact K.derived (.lambda ps r body) h₂.linked ((h₁.trans h₂).stays hproc)

/-- The operators have types of one shape, so that both are refused or both go on to the
arguments. -/
theorem app {g : Exp} {es : List Exp} (hg : K.InStepExp env g)
    (hes : ∀ ps, K.InStepArgs env (.app g es) es ps) : K.InStepExp env (.app g es) := by
  intro env' st st' h
  rw [Exp.used, Exp.free] at h
  rw [Exp.mapTy, Exp.typeOf_app, Exp.typeOf_app]
  refine (hg env' st st' h.left).bind fun tf tf' m₁ m₁' h₁ htf => ?_
  have h := h.right.later h₁
  change K.Runs m₁ m₁' (Exp.applied env g es (m₁.store.deref tf) m₁)
    (Exp.applied env' (g.mapTy K.onTy) (Exp.mapTyAll K.onTy es) (m₁'.store.deref tf') m₁') _
  by_cases hproc : ∃ ps r, m₁.store.deref tf = .proc ps r
  · obtain ⟨ps, r, hd⟩ := hproc
    obtain ⟨ps', r', hd', hps, hr⟩ := K.headed h.linked htf hd
    have hl : (Exp.mapTyAll K.onTy es).length = es.length := by simp [Exp.mapTyAll_eq_map]
    rw [hd, hd', Exp.applied, Exp.applied, hl, ← hps.length_eq]
    split
    · refine (hes _ env' _ m₁ m₁' h hps).bind fun _ _ m₂ m₂' h₂ _ => ?_
      exact K.derived (.app g es) h₂.linked (h₂.stays hr)
    · exact K.throw (.wrongArity (.app g es)) h.linked
  · exact K.stuck h.linked htf hproc

theorem letIn
    {bs : List (Decl × Exp)} {body : List Exp} (hbs : K.InStepBindings env (.letIn bs body) bs)
    (hbody : K.InStepBody (env.extend (bs.map Prod.fst)) body) :
    K.InStepExp env (.letIn bs body) := by
  intro env' st st' h
  rw [Exp.used, Exp.free] at h
  rw [Exp.mapTy, Exp.typeOf, Exp.typeOf]
  refine (hbs env' st st' h.left).bind fun _ _ m₁ m₁' h₁ _ => ?_
  have hds : ∀ d ∈ bs.map Prod.fst, K.Alike m₁ m₁' d.ty (K.onTy d.ty) :=
    fun d hd => h₁.stays (h.left.tys d.ty (Exp.ty_mem_usedBound hd))
  rw [Exp.fst_mapTyBound]
  refine (hbody _ m₁ m₁' ((h.right.later h₁).extend (Env.relDecl_mapTy hds))).bind
    fun t t' m₂ m₂' h₂ ht => ?_
  exact K.derived (.letIn bs body) h₂.linked ht

/-- All that is bound is a procedure, so that the types of the names are not looked at. -/
theorem relDecl_procDecls {bs : List (Decl × Exp)} (hl : bs.all (·.2.isLambda))
    (h : ∀ t ∈ Exp.usedProcs bs, K.Alike st st' t (K.onTy t)) :
    List.Forall₂ (Env.RelDecl (K.Alike st st')) (bs.map Exp.procDecl)
      ((Exp.mapTyBound K.onTy bs).map Exp.procDecl) := by
  rw [Exp.mapTyBound_eq_map, List.map_map, List.forall₂_map_left_iff,
    List.forall₂_map_right_iff]
  refine List.forall₂_same.mpr fun b hb => ?_
  have hlambda := List.all_eq_true.mp hl b hb
  have h := fun t ht => h t (Exp.mem_usedProcs hb ht)
  obtain ⟨d, e⟩ := b
  cases e with
  | lambda ps r body =>
    simp only [Exp.used, List.forall_mem_append, List.forall_mem_cons,
      List.forall_mem_map] at h
    refine ⟨rfl, K.alike_proc ?_ h.2.1⟩
    rw [List.map_map, List.forall₂_map_left_iff, List.forall₂_map_right_iff]
    exact List.forall₂_same.mpr h.1
  | _ => cases hlambda

/-- Whether all values are procedures does not depend on types. -/
theorem letrec {bs : List (Decl × Exp)} {body : List Exp}
    (hbs : K.InStepProcs (env.extend (bs.map Exp.procDecl)) (.letrec bs body) bs)
    (hbody : K.InStepBody (env.extend (bs.map Exp.procDecl)) body) : K.InStepExp env
      (.letrec bs body) := by
  intro env' st st' h
  rw [Exp.used, Exp.free, ← Exp.outer_procDecl] at h
  rw [Exp.mapTy, Exp.typeOf_letrec, Exp.typeOf_letrec, Exp.all_isLambda_mapTy]
  split
  · rename_i hl
    have h := h.extend (relDecl_procDecls hl fun t ht => h.tys t (List.mem_append_left _ ht))
    refine (hbs _ st st' h.left).bind fun _ _ m₁ m₁' h₁ _ => ?_
    refine (hbody _ m₁ m₁' (h.right.later h₁)).bind fun t t' m₂ m₂' h₂ ht => ?_
    exact K.derived (.letrec bs body) h₂.linked ht
  · exact K.throw (.notLambda (.letrec bs body)) h.linked

theorem assign (x : String) (e : Exp) : K.InStepExp env (.assign x e) := by
  intro env' st st' h
  rw [Exp.mapTy, Exp.typeOf, Exp.typeOf]
  exact K.throw (.unsupported (.assign x e)) h.linked

theorem quote (v : Quoted) : K.InStepExp env (.quote v) := by
  intro env' st st' h
  rw [Exp.mapTy, Exp.typeOf, Exp.typeOf]
  exact K.derived (.quote v) h.linked (K.alike_closed h.linked (v.vars_ty false))

theorem define {d : Decl} {e : Exp} (he : K.InStepExp env e) :
    K.InStepExp env (.define d e) := by
  intro env' st st' h
  rw [Exp.used, Exp.free] at h
  rw [Exp.mapTy, Exp.typeOf, Exp.typeOf]
  refine (he env' st st' h.tail).bind fun t t' m₁ m₁' h₁ ht => ?_
  have hd := h₁.stays (h.tys d.ty (by simp))
  refine (K.unify (.define d e) h₁.linked hd ht).bind fun _ _ m₂ m₂' h₂ _ => ?_
  exact K.derived (.define d e) h₂.linked (K.alike_closed h₂.linked rfl)

theorem program {es : List Exp} (hes : K.InStepForms env none es) :
    K.InStepExp env (.program es) := by
  intro env' st st' h
  rw [Exp.used, Exp.free] at h
  rw [Exp.mapTy, Exp.typeOf, Exp.typeOf]
  exact (hes env' none st st' h .none).bind fun t t' m₁ m₁' h₁ ht =>
    K.derived (.program es) h₁.linked ht

end InStepExp

namespace InStepForms

theorem nil (last : Option Ty) : K.InStepForms env last [] := by
  intro env' last' st st' h hlast
  rw [Exp.mapTyAll]
  cases hlast with
  | none =>
    rw [Exp.typeOfForms, Exp.typeOfForms]
    exact K.throw .emptyProgram h.linked
  | some ht =>
    rw [Exp.typeOfForms, Exp.typeOfForms]
    exact K.pure h.linked ht

theorem later_last {last last' : Option Ty} (h : Option.Rel (K.Alike st st') last last')
    (hm : K.Follows st st' m m') : Option.Rel (K.Alike m m') last last' := by
  cases h with
  | none => exact .none
  | some h => exact .some (hm.stays h)

theorem define {last : Option Ty} {d : Decl} {e : Exp} {es : List Exp}
    (he : K.InStepExp env e) (hes : K.InStepForms (env.extend [d]) last es) :
    K.InStepForms env last (.define d e :: es) := by
  intro env' last' st st' h hlast
  rw [Exp.usedAll, Exp.used, Exp.freeForms] at h
  rw [Exp.mapTyAll, Exp.mapTy, Exp.typeOfForms, Exp.typeOfForms]
  refine (he env' st st' h.tail.left).bind fun t t' m₁ m₁' h₁ ht => ?_
  have hd := h₁.stays (h.tys d.ty (by simp))
  refine (K.unify (.define d e) h₁.linked hd ht).bind fun _ _ m₂ m₂' h₂ _ => ?_
  have hm := h₁.trans h₂
  have hds : List.Forall₂ (Env.RelDecl (K.Alike m₂ m₂')) [d] [d.mapTy K.onTy] :=
    .cons ⟨rfl, h₂.stays hd⟩ .nil
  exact hes _ last' m₂ m₂' ((h.tail.right.later hm).extend hds) (later_last hlast hm)

theorem cons {last : Option Ty}
    {e : Exp} {es : List Exp} (hd : ∀ d e', e = .define d e' → False) (he : K.InStepExp env e)
    (hes : ∀ t, K.InStepForms env (some t) es) :
    K.InStepForms env last (e :: es) := by
  intro env' last' st st' h _
  have hd' : ∀ d e', e.mapTy K.onTy = .define d e' → False := by
    intro d e' he'
    cases e with
    | define d e => exact hd d e rfl
    | _ => cases he'
  rw [Exp.usedAll, Exp.freeForms_cons hd] at h
  rw [Exp.mapTyAll, Exp.typeOfForms_cons hd, Exp.typeOfForms_cons hd']
  refine (he env' st st' h.left).bind fun t t' m₁ m₁' h₁ ht => ?_
  exact hes t env' (some t') m₁ m₁' (h.right.later h₁) (.some ht)

end InStepForms

namespace InStepBody

theorem nil : K.InStepBody env [] := by
  intro env' st st' h
  rw [Exp.mapTyAll, Exp.typeOfBody, Exp.typeOfBody]
  exact K.throw .emptyBody h.linked

theorem last {e : Exp} (he : K.InStepExp env e) : K.InStepBody env [e] := by
  intro env' st st' h
  rw [Exp.usedAll, Exp.freeAll] at h
  rw [Exp.mapTyAll, Exp.mapTyAll, Exp.typeOfBody, Exp.typeOfBody]
  exact he env' st st' h.left

theorem cons {e : Exp} {es : List Exp} (hn : es = [] → False) (he : K.InStepExp env e)
    (hes : K.InStepBody env es) : K.InStepBody env (e :: es) := by
  intro env' st st' h
  have hn' : Exp.mapTyAll K.onTy es = [] → False := by
    rw [Exp.mapTyAll_eq_map, List.map_eq_nil_iff]
    exact hn
  rw [Exp.usedAll, Exp.freeAll] at h
  rw [Exp.mapTyAll, Exp.typeOfBody_cons hn, Exp.typeOfBody_cons hn']
  exact (he env' st st' h.left).bind fun _ _ m₁ m₁' h₁ _ => hes env' m₁ m₁' (h.right.later h₁)

end InStepBody

namespace InStepArgs

theorem cons {whole e : Exp} {es : List Exp} {p : Ty} {ps : List Ty} (he : K.InStepExp env e)
    (hes : K.InStepArgs env whole es ps) : K.InStepArgs env whole (e :: es) (p :: ps) := by
  intro env' ps' st st' h hps
  rw [Exp.usedAll, Exp.freeAll] at h
  cases hps with
  | cons hp hps =>
    rw [Exp.mapTyAll, Exp.checkArgs, Exp.checkArgs]
    refine (he env' st st' h.left).bind fun t t' m₁ m₁' h₁ ht => ?_
    refine (K.unify whole h₁.linked ht (h₁.stays hp)).bind fun _ _ m₂ m₂' h₂ _ => ?_
    have hm := h₁.trans h₂
    exact hes env' _ m₂ m₂' (h.right.later hm) (hps.imp fun _ _ => hm.stays)

/-- Arguments and parameters run out on both sides at once. -/
theorem nil {whole : Exp} {es : List Exp} {ps : List Ty}
    (hn : ∀ e es' p ps', es = e :: es' → ps = p :: ps' → False) : K.InStepArgs env
      whole es ps := by
  intro env' ps' st st' h hps
  have hn' : ∀ e es' p qs, Exp.mapTyAll K.onTy es = e :: es' → ps' = p :: qs → False := by
    rintro e es' p qs he rfl
    cases hps with
    | cons _ _ =>
      cases es with
      | nil => cases he
      | cons e es => exact hn _ _ _ _ rfl rfl
  rw [Exp.checkArgs_end hn, Exp.checkArgs_end hn']
  exact K.pure h.linked trivial

end InStepArgs

namespace InStepProcs

theorem nil (whole : Exp) : K.InStepProcs env whole [] := by
  intro env' st st' h
  rw [Exp.mapTyBound, Exp.checkProcs, Exp.checkProcs]
  exact K.pure h.linked trivial

theorem cons {whole : Exp} {d : Decl} {ps : List Decl} {r : Ty}
    {body : List Exp} {bs : List (Decl × Exp)} (hbody : K.InStepBody (env.extend ps) body)
    (hbs : K.InStepProcs env whole bs) :
    K.InStepProcs env whole ((d, .lambda ps r body) :: bs) := by
  intro env' st st' h
  rw [Exp.usedProcs, Exp.used, Exp.freeBound, Exp.free] at h
  rw [Exp.mapTyBound, Exp.mapTy, Exp.checkProcs, Exp.checkProcs]
  obtain ⟨_, hr, hb⟩ := h.left.lambda
  refine (hbody _ st st' hb).bind fun t t' m₁ m₁' h₁ ht => ?_
  refine (K.unify whole h₁.linked ht (h₁.stays hr)).bind fun _ _ m₂ m₂' h₂ _ => ?_
  exact hbs env' m₂ m₂' (h.right.later (h₁.trans h₂))

theorem other {whole : Exp} {b : Decl × Exp} {bs : List (Decl × Exp)}
    (hn : ∀ d ps r body, b = (d, .lambda ps r body) → False)
      (hbs : K.InStepProcs env whole bs) :
    K.InStepProcs env whole (b :: bs) := by
  intro env' st st' h
  obtain ⟨d, e⟩ := b
  have hn' : ∀ d' ps r body, (d.mapTy K.onTy, e.mapTy K.onTy) =
      (d', .lambda ps r body) → False := by
    intro d' ps r body he
    cases e with
    | lambda ps r body => exact hn d ps r body rfl
    | _ => cases he
  rw [Exp.usedProcs, Exp.freeBound] at h
  rw [Exp.mapTyBound, Exp.checkProcs_cons hn, Exp.checkProcs_cons hn']
  exact hbs env' st st' h.right

end InStepProcs

namespace InStepBindings

theorem nil (whole : Exp) : K.InStepBindings env whole [] := by
  intro env' st st' h
  rw [Exp.mapTyBound, Exp.checkBindings, Exp.checkBindings]
  exact K.pure h.linked trivial

theorem cons {whole : Exp} {d : Decl} {e : Exp} {bs : List (Decl × Exp)}
    (he : K.InStepExp env e) (hbs : K.InStepBindings env whole bs) :
    K.InStepBindings env whole ((d, e) :: bs) := by
  intro env' st st' h
  rw [Exp.usedBound, Exp.freeBound] at h
  rw [Exp.mapTyBound, Exp.checkBindings, Exp.checkBindings]
  refine (he env' st st' h.tail.left).bind fun t t' m₁ m₁' h₁ ht => ?_
  have hd := h₁.stays (h.tys d.ty (by simp))
  refine (K.unify whole h₁.linked hd ht).bind fun _ _ m₂ m₂' h₂ _ => ?_
  exact hbs env' m₂ m₂' (h.tail.right.later (h₁.trans h₂))

end InStepBindings

/-- Each rule keeps the two checks in step. -/
def rules (K : Lockstep) : RuleLaw where
  OfExp := K.InStepExp
  OfForms := K.InStepForms
  OfBody := K.InStepBody
  OfArgs := K.InStepArgs
  OfBindings := K.InStepBindings
  OfProcs := K.InStepProcs
  const a := .const a
  prim op := .prim op
  var x := .var x
  ite hc ht he := .ite hc ht he
  lambda hbody := .lambda hbody
  app hf hes := .app hf hes
  letIn hbs hbody := .letIn hbs hbody
  letrec hbs hbody := .letrec hbs hbody
  assign x e := .assign x e
  quote v := .quote v
  define he := .define he
  program hes := .program hes
  forms_nil last := .nil last
  forms_define he hes := .define he hes
  forms_cons hd he hes := .cons hd he hes
  body_nil _ := .nil
  body_last he := .last he
  body_cons hn he hes := .cons hn he hes
  args_cons he hes := .cons he hes
  args_end hn := .nil hn
  bindings_nil _ whole := .nil whole
  bindings_cons he hbs := .cons he hbs
  procs_nil _ whole := .nil whole
  procs_cons hbody hbs := .cons hbody hbs
  procs_other hn hbs := .other hn hbs

theorem typeOf (K : Lockstep) {e : Exp} (h : K.Paired env env' e.used e.free st st') :
    K.Runs st st' (e.typeOf env st) ((e.mapTy K.onTy).typeOf env' st') fun t t' m m' =>
      K.Alike m m' t t' :=
  K.rules.exp env e env' st st' h

/-- A program is checked as its forms are, one after the other. -/
theorem typeOfProgram (K : Lockstep) {e : Exp} (h : K.Paired env env' e.used e.free st st') :
    K.Runs st st' (e.typeOfProgram env st) ((e.mapTy K.onTy).typeOfProgram env' st')
      fun t t' m m' => K.Alike m m' t t' := by
  cases e with
  | program es =>
    rw [Exp.used, Exp.free] at h
    exact K.rules.forms env none es env' none st st' h .none
  | _ => exact K.typeOf h

end Lockstep

end TypedL5
