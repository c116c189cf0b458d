import TypedL5.Proofs.Ty

/-! Ground types, and types read through an assignment of ground types to variables. -/
namespace TypedL5

/-- A finite type without variables. -/
inductive Ground where
  | base (b : BaseTy)
  | pair (left right : Ground)
  | proc (params : List Ground) (result : Ground)
deriving Repr

/-- A ground type for every variable. -/
abbrev Assignment := TyVar → Ground

namespace Ty

mutual

/-- What a type stands for when each variable stands for its ground type. -/
def eval (ρ : Assignment) : Ty → Ground
  | .base b => .base b
  | .var v => ρ v
  | .pair l r => .pair (l.eval ρ) (r.eval ρ)
  | .proc ps r => .proc (evalAll ρ ps) (r.eval ρ)

def evalAll (ρ : Assignment) : List Ty → List Ground
  | [] => []
  | t :: ts => t.eval ρ :: evalAll ρ ts

end

end Ty

namespace Ground

mutual

/-- A ground type as a type. -/
def toTy : Ground → Ty
  | .base b => .base b
  | .pair l r => .pair l.toTy r.toTy
  | .proc ps r => .proc (toTyAll ps) r.toTy

def toTyAll : List Ground → List Ty
  | [] => []
  | τ :: τs => τ.toTy :: toTyAll τs

end

theorem toTyAll_eq_map (τs : List Ground) : toTyAll τs = τs.map toTy := by
  induction τs with
  | nil => rfl
  | cons τ τs ih => simp [toTyAll, ih]

@[induction_eliminator]
theorem induction {motive : Ground → Prop} (base : ∀ b, motive (.base b))
    (pair : ∀ l r, motive l → motive r → motive (.pair l r))
    (proc : ∀ ps r, (∀ p ∈ ps, motive p) → motive r → motive (.proc ps r)) (τ : Ground) :
    motive τ := by
  refine @Ground.rec motive (fun τs => ∀ p ∈ τs, motive p) base pair proc ?_ ?_ τ
  · intro p hp
    cases hp
  · intro τ τs hτ hτs p hp
    rcases List.mem_cons.mp hp with rfl | hp
    · exact hτ
    · exact hτs p hp

@[simp] theorem toTy_base (b : BaseTy) : (Ground.base b).toTy = .base b := rfl

@[simp] theorem toTy_pair (l r : Ground) : (Ground.pair l r).toTy = .pair l.toTy r.toTy := rfl

@[simp] theorem toTy_proc (ps : List Ground) (r : Ground) :
    (Ground.proc ps r).toTy = .proc (ps.map toTy) r.toTy := by
  simp only [toTy, toTyAll_eq_map]

@[simp] theorem vars_toTy (τ : Ground) : τ.toTy.vars = [] := by
  induction τ with
  | base b => rfl
  | pair l r ihl ihr => simp [ihl, ihr]
  | proc ps r ihp ihr => simpa [ihr] using ihp

end Ground

namespace Ty

variable {t : Ty} {ρ ρ' : Assignment}

theorem evalAll_eq_map (ρ : Assignment) (ts : List Ty) : evalAll ρ ts = ts.map (eval ρ) := by
  induction ts with
  | nil => rfl
  | cons t ts ih => simp [evalAll, ih]

@[simp] theorem eval_base (ρ : Assignment) (b : BaseTy) : (Ty.base b).eval ρ = .base b := rfl

@[simp] theorem eval_var (ρ : Assignment) (v : TyVar) : (Ty.var v).eval ρ = ρ v := rfl

@[simp] theorem eval_pair (ρ : Assignment) (l r : Ty) :
    (Ty.pair l r).eval ρ = .pair (l.eval ρ) (r.eval ρ) := rfl

@[simp] theorem eval_proc (ρ : Assignment) (ps : List Ty) (r : Ty) :
    (Ty.proc ps r).eval ρ = .proc (ps.map (eval ρ)) (r.eval ρ) := by
  simp only [eval, evalAll_eq_map]

/-- A type is read alike by the assignments that agree on its variables, and by no others. -/
theorem eval_eq_iff : t.eval ρ = t.eval ρ' ↔ ∀ v ∈ t.vars, ρ v = ρ' v := by
  induction t with
  | base b => simp
  | var v => simp
  | pair l r ihl ihr => simp [ihl, ihr, or_imp, forall_and]
  | proc ps r ihp ihr =>
    simp only [eval_proc, Ground.proc.injEq, List.map_inj_left, ihr, vars_proc,
      List.mem_append, List.mem_flatMap, or_imp, forall_and]
    refine and_congr ?_ Iff.rfl
    constructor
    · rintro h v ⟨p, hp, hv⟩
      exact (ihp p hp).mp (h p hp) v hv
    · intro h p hp
      exact (ihp p hp).mpr fun v hv => h v ⟨p, hp, hv⟩

theorem eval_subst (f : TyVar → Ty) (ρ : Assignment) (t : Ty) :
    (t.subst f).eval ρ = t.eval fun v => (f v).eval ρ := by
  induction t with
  | base b => rfl
  | var v => rfl
  | pair l r ihl ihr => simp [ihl, ihr]
  | proc ps r ihp ihr => simpa [ihr] using ihp

@[simp] theorem eval_toTy (ρ : Assignment) (τ : Ground) : τ.toTy.eval ρ = τ := by
  induction τ with
  | base b => rfl
  | pair l r ihl ihr => simp [ihl, ihr]
  | proc ps r ihp ihr =>
    have hps : ps.map (eval ρ ∘ Ground.toTy) = ps.map id := List.map_congr_left ihp
    simp [ihr, hps]

theorem toTy_eval (h : t.vars = []) (ρ : Assignment) : (t.eval ρ).toTy = t := by
  induction t with
  | base b => rfl
  | var v => simp at h
  | pair l r ihl ihr =>
    rw [vars_pair, List.append_eq_nil_iff] at h
    rw [eval_pair, Ground.toTy_pair, ihl h.1, ihr h.2]
  | proc ps r ihp ihr =>
    rw [vars_proc, List.append_eq_nil_iff, List.flatMap_eq_nil_iff] at h
    have hps : ps.map (Ground.toTy ∘ eval ρ) = ps.map id :=
      List.map_congr_left fun p hp => ihp p hp (h.1 p hp)
    rw [eval_proc, Ground.toTy_proc, List.map_map, hps, List.map_id, ihr h.2]

end Ty

/-- Ground types are types without variables, and none is lost. -/
theorem Ground.toTy_injective : Function.Injective Ground.toTy := by
  intro τ τ' h
  have he := congrArg (Ty.eval fun _ => .base .void) h
  simpa using he

end TypedL5
