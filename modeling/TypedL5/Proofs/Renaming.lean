import Mathlib.Data.List.Basic
import TypedL5.Proofs.Occurrence

/-! Types and expressions with other variables, or other types, in the places of theirs. -/
namespace TypedL5

namespace Ty

variable {t : Ty} {f g : TyVar → TyVar}

/-- The type with other variables for its own. -/
def rename (f : TyVar → TyVar) (t : Ty) : Ty := t.subst fun v => .var (f v)

@[simp] theorem rename_base (f : TyVar → TyVar) (b : BaseTy) :
    (Ty.base b).rename f = .base b :=
  rfl

@[simp] theorem rename_var (f : TyVar → TyVar) (v : TyVar) :
    (Ty.var v).rename f = .var (f v) :=
  rfl

@[simp] theorem rename_pair (f : TyVar → TyVar) (l r : Ty) :
    (Ty.pair l r).rename f = .pair (l.rename f) (r.rename f) := rfl

@[simp] theorem rename_proc (f : TyVar → TyVar) (ps : List Ty) (r : Ty) :
    (Ty.proc ps r).rename f = .proc (ps.map (rename f)) (r.rename f) :=
  subst_proc _ ps r

theorem vars_rename (f : TyVar → TyVar) (t : Ty) : (t.rename f).vars = t.vars.map f := by
  induction t with
  | base b => rfl
  | var v => rfl
  | pair l r ihl ihr => simp [ihl, ihr]
  | proc ps r ihp ihr =>
    have hps : ps.flatMap (fun p => (p.rename f).vars) = ps.flatMap fun p => p.vars.map f :=
      List.flatMap_congr ihp
    simp [List.flatMap_map, List.map_flatMap, ihr, hps]

theorem rename_congr (h : ∀ v ∈ t.vars, f v = g v) : t.rename f = t.rename g :=
  subst_congr fun v hv => by rw [h v hv]

end Ty

/-- A declaration with another type for its own. -/
def Decl.mapTy (φ : Ty → Ty) (d : Decl) : Decl := ⟨d.name, φ d.ty⟩

@[simp] theorem Decl.name_mapTy (φ : Ty → Ty) (d : Decl) : (d.mapTy φ).name = d.name := rfl

@[simp] theorem Decl.ty_mapTy (φ : Ty → Ty) (d : Decl) : (d.mapTy φ).ty = φ d.ty := rfl

namespace Exp

mutual

/-- The expression with other types for those written in it. -/
def mapTy (φ : Ty → Ty) : Exp → Exp
  | .const a => .const a
  | .prim op => .prim op
  | .var x => .var x
  | .ite c t e => .ite (c.mapTy φ) (t.mapTy φ) (e.mapTy φ)
  | .lambda ps r body => .lambda (ps.map (Decl.mapTy φ)) (φ r) (mapTyAll φ body)
  | .app f es => .app (f.mapTy φ) (mapTyAll φ es)
  | .letIn bs body => .letIn (mapTyBound φ bs) (mapTyAll φ body)
  | .letrec bs body => .letrec (mapTyBound φ bs) (mapTyAll φ body)
  | .assign x e => .assign x (e.mapTy φ)
  | .quote v => .quote v
  | .define d e => .define (d.mapTy φ) (e.mapTy φ)
  | .program es => .program (mapTyAll φ es)

def mapTyAll (φ : Ty → Ty) : List Exp → List Exp
  | [] => []
  | e :: es => e.mapTy φ :: mapTyAll φ es

def mapTyBound (φ : Ty → Ty) : List (Decl × Exp) → List (Decl × Exp)
  | [] => []
  | (d, e) :: bs => (d.mapTy φ, e.mapTy φ) :: mapTyBound φ bs

end

theorem mapTyAll_eq_map (φ : Ty → Ty) (es : List Exp) : mapTyAll φ es = es.map (mapTy φ) := by
  induction es with
  | nil => rfl
  | cons e es ih => simp [mapTyAll, ih]

theorem mapTyBound_eq_map (φ : Ty → Ty) (bs : List (Decl × Exp)) :
    mapTyBound φ bs = bs.map fun b => (b.1.mapTy φ, b.2.mapTy φ) := by
  induction bs with
  | nil => rfl
  | cons b bs ih => simp [mapTyBound, ih]

theorem tysAll_eq_flatMap (es : List Exp) : tysAll es = es.flatMap tys := by
  induction es with
  | nil => rfl
  | cons e es ih => simp [tysAll, ih]

theorem tysBound_eq_flatMap (bs : List (Decl × Exp)) :
    tysBound bs = bs.flatMap fun b => b.1.ty :: b.2.tys := by
  induction bs with
  | nil => rfl
  | cons b bs ih => simp [tysBound, ih]

/-- The types of an expression with other types are the other types. -/
theorem tys_mapTy (φ : Ty → Ty) (e : Exp) : (e.mapTy φ).tys = e.tys.map φ := by
  have hall : ∀ es : List Exp, (∀ e ∈ es, (e.mapTy φ).tys = e.tys.map φ) →
      tysAll (mapTyAll φ es) = (tysAll es).map φ := by
    intro es hes
    rw [tysAll_eq_flatMap, tysAll_eq_flatMap, mapTyAll_eq_map, List.flatMap_map,
      List.map_flatMap]
    exact List.flatMap_congr hes
  have hbound : ∀ bs : List (Decl × Exp), (∀ b ∈ bs, (b.2.mapTy φ).tys = b.2.tys.map φ) →
      tysBound (mapTyBound φ bs) = (tysBound bs).map φ := by
    intro bs hbs
    rw [tysBound_eq_flatMap, tysBound_eq_flatMap, mapTyBound_eq_map, List.flatMap_map,
      List.map_flatMap]
    refine List.flatMap_congr fun b hb => ?_
    rw [hbs b hb, List.map_cons, Decl.ty_mapTy]
  induction e with
  | const a => rfl
  | prim op => rfl
  | var x => rfl
  | ite c t e hc ht he => simp [mapTy, tys, hc, ht, he]
  | lambda ps r body hbody => simp [mapTy, tys, hall body hbody, Function.comp_def]
  | app f es hf hes => simp [mapTy, tys, hf, hall es hes]
  | letIn bs body hbs hbody => simp [mapTy, tys, hbound bs hbs, hall body hbody]
  | letrec bs body hbs hbody => simp [mapTy, tys, hbound bs hbs, hall body hbody]
  | assign x e he => simp [mapTy, tys, he]
  | quote v => rfl
  | define d e he => simp [mapTy, tys, he]
  | program es hes => simp [mapTy, tys, hall es hes]

/-- An expression stays as it is if its types do. -/
theorem mapTy_of_fixed {φ : Ty → Ty} {e : Exp} (h : ∀ t ∈ e.tys, φ t = t) : e.mapTy φ = e := by
  have hall : ∀ es : List Exp, (∀ e ∈ es, (∀ t ∈ e.tys, φ t = t) → e.mapTy φ = e) →
      (∀ t ∈ tysAll es, φ t = t) → mapTyAll φ es = es := by
    intro es hes h
    rw [tysAll_eq_flatMap] at h
    rw [mapTyAll_eq_map]
    refine (List.map_congr_left fun e he => hes e he fun t ht => ?_).trans (List.map_id' es)
    exact h t (List.mem_flatMap.mpr ⟨e, he, ht⟩)
  have hbound : ∀ bs : List (Decl × Exp),
    (∀ b ∈ bs, (∀ t ∈ b.2.tys, φ t = t) → b.2.mapTy φ = b.2) →
      (∀ t ∈ tysBound bs, φ t = t) → mapTyBound φ bs = bs := by
    intro bs hbs h
    have hpair : ∀ b ∈ bs, (b.1.mapTy φ, b.2.mapTy φ) = id b := by
      intro b hb
      rw [tysBound_eq_flatMap] at h
      have hb' := fun t ht => h t (List.mem_flatMap.mpr ⟨b, hb, ht⟩)
      obtain ⟨hd, he⟩ := List.forall_mem_cons.mp hb'
      rw [Decl.mapTy, hd, hbs b hb he]
      rfl
    rw [mapTyBound_eq_map]
    exact (List.map_congr_left hpair).trans (List.map_id bs)
  induction e with
  | const a => rfl
  | prim op => rfl
  | var x => rfl
  | ite c t e hc ht he =>
    simp only [tys, List.forall_mem_append] at h
    rw [mapTy, hc h.1, ht h.2.1, he h.2.2]
  | lambda ps r body hbody =>
    simp only [tys, List.forall_mem_append, List.forall_mem_cons, List.forall_mem_map] at h
    have hps : ∀ d ∈ ps, d.mapTy φ = id d := fun d hd => by rw [Decl.mapTy, h.1 d hd]; rfl
    rw [mapTy, List.map_congr_left hps, List.map_id, h.2.1, hall body hbody h.2.2]
  | app f es hf hes =>
    simp only [tys, List.forall_mem_append] at h
    rw [mapTy, hf h.1, hall es hes h.2]
  | letIn bs body hbs hbody =>
    simp only [tys, List.forall_mem_append] at h
    rw [mapTy, hbound bs hbs h.1, hall body hbody h.2]
  | letrec bs body hbs hbody =>
    simp only [tys, List.forall_mem_append] at h
    rw [mapTy, hbound bs hbs h.1, hall body hbody h.2]
  | assign x e he => rw [mapTy, he h]
  | quote v => rfl
  | define d e he =>
    simp only [tys, List.forall_mem_cons] at h
    rw [mapTy, Decl.mapTy, h.1, he h.2]
  | program es hes => rw [mapTy, hall es hes h]

theorem mapTy_id (e : Exp) : e.mapTy id = e := mapTy_of_fixed fun _ _ => rfl

theorem mapTyAll_id (es : List Exp) : mapTyAll id es = es := by
  rw [mapTyAll_eq_map]
  exact (List.map_congr_left fun e _ => mapTy_id e).trans (List.map_id es)

end Exp

/-- Things that type variables stand in. -/
class HasVars (α : Type) where
  /-- The variables, as often as they stand there. -/
  vars : α → List TyVar
  rename : (TyVar → TyVar) → α → α

namespace HasVars

variable {α β : Type} [HasVars α] [HasVars β]

instance : HasVars Ty := ⟨Ty.vars, Ty.rename⟩

instance : HasVars Decl := ⟨fun d => d.ty.vars, fun f => Decl.mapTy (Ty.rename f)⟩

instance : HasVars Exp := ⟨fun e => e.tys.flatMap Ty.vars, fun f => Exp.mapTy (Ty.rename f)⟩

instance : HasVars (List α) := ⟨List.flatMap vars, fun f => List.map (rename f)⟩

instance : HasVars (α × β) :=
  ⟨fun p => vars p.1 ++ vars p.2, fun f p => (rename f p.1, rename f p.2)⟩

end HasVars

end TypedL5
