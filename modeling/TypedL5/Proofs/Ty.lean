import Mathlib.Logic.Relation
import TypedL5.Ty.Basic

/-! Induction over types, and what substitution does to their variables and parts. -/
namespace TypedL5.Ty

variable {t u l r : Ty} {ps : List Ty} {v : TyVar} {f g : TyVar → Ty}

/-- The parameters of a procedure are reached by membership, so nothing is said of lists of
types. -/
@[induction_eliminator]
theorem induction {motive : Ty → Prop} (base : ∀ b, motive (.base b))
    (var : ∀ v, motive (.var v)) (pair : ∀ l r, motive l → motive r → motive (.pair l r))
    (proc : ∀ ps r, (∀ p ∈ ps, motive p) → motive r → motive (.proc ps r)) (t : Ty) :
    motive t := by
  refine @Ty.rec motive (fun ts => ∀ p ∈ ts, motive p) base var pair proc ?_ ?_ t
  · intro p hp
    cases hp
  · intro t ts ht hts p hp
    rcases List.mem_cons.mp hp with rfl | hp
    · exact ht
    · exact hts p hp

@[simp] theorem vars_base (b : BaseTy) : (Ty.base b).vars = [] := rfl

@[simp] theorem vars_var (v : TyVar) : (Ty.var v).vars = [v] := rfl

@[simp] theorem vars_pair (l r : Ty) : (Ty.pair l r).vars = l.vars ++ r.vars := rfl

@[simp] theorem vars_proc (ps : List Ty) (r : Ty) :
    (Ty.proc ps r).vars = ps.flatMap vars ++ r.vars := by
  simp only [vars, varsAll_eq_flatMap]

@[simp] theorem subst_base (f : TyVar → Ty) (b : BaseTy) : (Ty.base b).subst f = .base b := rfl

@[simp] theorem subst_var (f : TyVar → Ty) (v : TyVar) : (Ty.var v).subst f = f v := rfl

@[simp] theorem subst_pair (f : TyVar → Ty) (l r : Ty) :
    (Ty.pair l r).subst f = .pair (l.subst f) (r.subst f) := rfl

@[simp] theorem subst_proc (f : TyVar → Ty) (ps : List Ty) (r : Ty) :
    (Ty.proc ps r).subst f = .proc (ps.map (subst f)) (r.subst f) := by
  simp only [subst, substAll_eq_map]

theorem subst_congr (h : ∀ v ∈ t.vars, f v = g v) : t.subst f = t.subst g := by
  induction t with
  | base b => rfl
  | var v => exact h v (by simp)
  | pair l r ihl ihr =>
    simp only [vars_pair, List.mem_append] at h
    rw [subst_pair, subst_pair, ihl fun v hv => h v (.inl hv), ihr fun v hv => h v (.inr hv)]
  | proc ps r ihp ihr =>
    simp only [vars_proc, List.mem_append, List.mem_flatMap] at h
    have hps : ps.map (subst f) = ps.map (subst g) :=
      List.map_congr_left fun p hp => ihp p hp fun v hv => h v (.inl ⟨p, hp, hv⟩)
    rw [subst_proc, subst_proc, hps, ihr fun v hv => h v (.inr hv)]

/-- Substitutions that give the same type agree on all variables of the type they are put
into. -/
theorem eq_of_subst_eq (h : t.subst f = t.subst g) : ∀ v ∈ t.vars, f v = g v := by
  induction t with
  | base b => simp
  | var v => simpa using h
  | pair l r ihl ihr =>
    simp only [subst_pair, pair.injEq] at h
    rw [vars_pair, List.forall_mem_append]
    exact ⟨ihl h.1, ihr h.2⟩
  | proc ps r ihp ihr =>
    simp only [subst_proc, proc.injEq, List.map_inj_left] at h
    rw [vars_proc, List.forall_mem_append]
    refine ⟨fun v hv => ?_, ihr h.2⟩
    obtain ⟨p, hp, hv⟩ := List.mem_flatMap.mp hv
    exact ihp p hp (h.1 p hp) v hv

theorem subst_subst (f g : TyVar → Ty) (t : Ty) :
    (t.subst f).subst g = t.subst fun v => (f v).subst g := by
  induction t with
  | base b => rfl
  | var v => rfl
  | pair l r ihl ihr => simp [ihl, ihr]
  | proc ps r ihp ihr => simpa [ihr] using ihp

@[simp] theorem subst_id (t : Ty) : (t.subst fun v => .var v) = t := by
  induction t with
  | base b => rfl
  | var v => rfl
  | pair l r ihl ihr => simp [ihl, ihr]
  | proc ps r ihp ihr =>
    have hps : ps.map (subst fun v => .var v) = ps.map id := List.map_congr_left ihp
    rw [subst_proc, ihr, hps, List.map_id]

theorem subst_of_vars_eq_nil (h : t.vars = []) (f : TyVar → Ty) : t.subst f = t := by
  calc t.subst f = t.subst fun v => .var v := subst_congr (by simp [h])
    _ = t := subst_id t

theorem mem_vars_subst : v ∈ (t.subst f).vars ↔ ∃ w ∈ t.vars, v ∈ (f w).vars := by
  induction t with
  | base b => simp
  | var w => simp
  | pair l r ihl ihr => simp [ihl, ihr, or_and_right, exists_or]
  | proc ps r ihp ihr =>
    simp only [subst_proc, vars_proc, List.mem_append, List.mem_flatMap, List.mem_map, ihr,
      or_and_right, exists_or]
    constructor
    · rintro (⟨_, ⟨p, hp, rfl⟩, hv⟩ | hr)
      · obtain ⟨w, hw, hv⟩ := (ihp p hp).mp hv
        exact .inl ⟨w, ⟨p, hp, hw⟩, hv⟩
      · exact .inr hr
    · rintro (⟨w, ⟨p, hp, hw⟩, hv⟩ | hr)
      · exact .inl ⟨_, ⟨p, hp, rfl⟩, (ihp p hp).mpr ⟨w, hw, hv⟩⟩
      · exact .inr hr

/-- A type stands directly below another. -/
inductive Part : Ty → Ty → Prop
  | left (l r : Ty) : Part l (.pair l r)
  | right (l r : Ty) : Part r (.pair l r)
  | param {p : Ty} {ps : List Ty} (r : Ty) : p ∈ ps → Part p (.proc ps r)
  | result (ps : List Ty) (r : Ty) : Part r (.proc ps r)

/-- A type stands somewhere below another. -/
def Inside : Ty → Ty → Prop := Relation.TransGen Part

theorem sizeAll_append (ts us : List Ty) : sizeAll (ts ++ us) = sizeAll ts + sizeAll us := by
  induction ts with
  | nil => simp [sizeAll]
  | cons t ts ih => simp [sizeAll, ih, Nat.add_assoc]

theorem size_lt_of_part (h : Part t u) : t.size < u.size := by
  cases h with
  | left l r => simp only [size]; omega
  | right l r => simp only [size]; omega
  | param r hp =>
    obtain ⟨before, after, rfl⟩ := List.append_of_mem hp
    simp only [size, sizeAll_append, sizeAll]
    omega
  | result ps r => simp only [size]; omega

theorem size_lt_of_inside (h : Inside t u) : t.size < u.size := by
  induction h with
  | single h => exact size_lt_of_part h
  | tail _ h ih => exact Nat.lt_trans ih (size_lt_of_part h)

theorem not_inside_self (t : Ty) : ¬ Inside t t := by
  intro h
  exact Nat.lt_irrefl _ (size_lt_of_inside h)

theorem part_subst (h : Part t u) (f : TyVar → Ty) : Part (t.subst f) (u.subst f) := by
  cases h with
  | left l r => exact .left _ _
  | right l r => exact .right _ _
  | param r hp => simpa using Part.param _ (List.mem_map_of_mem hp)
  | result ps r => simpa using Part.result _ _

theorem inside_subst (h : Inside t u) (f : TyVar → Ty) : Inside (t.subst f) (u.subst f) :=
  Relation.TransGen.lift (subst f) (fun _ _ h => part_subst h f) _ _ h

end TypedL5.Ty
