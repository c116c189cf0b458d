import Mathlib.Tactic.FinCases
import TypedL5.Check.Primitive
import TypedL5.Proofs.Ground

/-! Uses of the primitive operators: each has variables of its own, which are new. -/
namespace TypedL5

/-- If the parameters mention all variables of a result, they still do in an instance. -/
theorem Ty.params_subst {ps : List Ty} {r : Ty} (hr : ∀ v ∈ r.vars, ∃ p ∈ ps, v ∈ p.vars)
    (f : TyVar → Ty) : ∀ v ∈ (r.subst f).vars, ∃ p ∈ ps.map (Ty.subst f), v ∈ p.vars := by
  intro v hv
  obtain ⟨w, hw, hv⟩ := Ty.mem_vars_subst.mp hv
  obtain ⟨p, hp, hwp⟩ := hr w hw
  exact ⟨p.subst f, List.mem_map_of_mem hp, Ty.mem_vars_subst.mpr ⟨w, hwp, hv⟩⟩

/-- Parameters decide about a result that mentions no other variables. -/
theorem Ty.eval_eq_of_params {ps : List Ty} {r : Ty} {ρ ρ' : Assignment}
    (hr : ∀ v ∈ r.vars, ∃ p ∈ ps, v ∈ p.vars) (h : ps.map (Ty.eval ρ) = ps.map (Ty.eval ρ')) :
    r.eval ρ = r.eval ρ' := by
  refine Ty.eval_eq_iff.mpr fun v hv => ?_
  obtain ⟨p, hp, hvp⟩ := hr v hv
  exact Ty.eval_eq_iff.mp (List.map_inj_left.mp h p hp) v hvp

namespace Supply

theorem takeNumbered_next (s : Supply) (n : Nat) : (s.takeNumbered n).2.next = s.next + n := by
  induction n generalizing s with
  | zero => rfl
  | succ n ih =>
    simp only [takeNumbered, ih, numbered]
    omega

theorem takeNumbered_stem (s : Supply) (n : Nat) : (s.takeNumbered n).2.stem = s.stem := by
  induction n generalizing s with
  | zero => rfl
  | succ n ih => exact ih s.numbered.2

theorem takeNumbered_ids (s : Supply) (n : Nat) :
    (s.takeNumbered n).1.map TyVar.id = List.range' s.next n := by
  induction n generalizing s with
  | zero => rfl
  | succ n ih => simp only [takeNumbered, List.map_cons, ih, numbered, List.range'_succ]

theorem takeNumbered_length (s : Supply) (n : Nat) : (s.takeNumbered n).1.length = n := by
  simpa using congrArg List.length (s.takeNumbered_ids n)

theorem takeNumbered_nodup (s : Supply) (n : Nat) : (s.takeNumbered n).1.Nodup := by
  have h : ((s.takeNumbered n).1.map TyVar.id).Nodup := by
    rw [takeNumbered_ids]
    exact List.nodup_range'
  exact h.of_map

theorem id_of_mem_takeNumbered {s : Supply} {n : Nat} {v : TyVar}
    (h : v ∈ (s.takeNumbered n).1) :
    s.next ≤ v.id ∧ v.id < s.next + n := by
  have hv := List.mem_map_of_mem (f := TyVar.id) h
  rw [takeNumbered_ids, List.mem_range'_1] at hv
  exact hv

/-- The numbered variable that comes after so many others. -/
def nth (g : Supply) (i : Nat) : TyVar :=
  ⟨g.next + i, g.stem ++ "_" ++ toString (g.count + i + 1)⟩

theorem nth_numbered (g : Supply) (i : Nat) : g.numbered.2.nth i = g.nth (i + 1) := by
  simp only [numbered, nth, TyVar.mk.injEq]
  exact ⟨by omega, by rw [Nat.add_right_comm g.count 1 i, Nat.add_assoc g.count i 1]⟩

theorem nth_takeNumbered (g : Supply) (n i : Nat) :
    (g.takeNumbered n).2.nth i = g.nth (n + i) := by
  induction n generalizing g with
  | zero => rw [takeNumbered, Nat.zero_add]
  | succ n ih =>
    simp only [takeNumbered]
    rw [ih, nth_numbered, Nat.add_right_comm]

theorem takeNumbered_eq (g : Supply) (n : Nat) :
    (g.takeNumbered n).1 = (List.range n).map g.nth := by
  induction n generalizing g with
  | zero => rfl
  | succ n ih =>
    simp only [takeNumbered, ih, List.range_succ_eq_map, List.map_cons, List.map_map]
    refine congrArg (List.cons _) (List.map_congr_left fun i _ => ?_)
    exact g.nth_numbered i

end Supply

namespace Scheme

/-- The type of a procedure that is applied at one instance at most for given arguments. -/
structure Proper (σ : Scheme) : Prop where
  nodup : σ.vars.Nodup
  closed : ∀ v ∈ σ.body.vars, v ∈ σ.vars
  proc : ∃ ps r, σ.body = .proc ps r ∧ ∀ v ∈ r.vars, ∃ p ∈ ps, v ∈ p.vars

/-- Renaming variables to new ones can be undone. -/
theorem lookup_zip {vs ws : List TyVar} (hl : vs.length = ws.length) (hv : vs.Nodup)
    (hw : ws.Nodup) {v : TyVar} (h : v ∈ vs) :
    ∃ w ∈ ws, (vs.zip ws).lookup v = some w ∧ (ws.zip vs).lookup w = some v := by
  induction vs generalizing ws with
  | nil => cases h
  | cons x vs ih =>
    obtain ⟨y, ws, rfl⟩ := List.exists_cons_of_length_eq_add_one hl.symm
    rw [List.nodup_cons] at hv hw
    by_cases hx : v = x
    · subst v
      exact ⟨y, by simp, by simp, by simp⟩
    · obtain ⟨w, hmem, h₁, h₂⟩ :=
        ih (Nat.succ.inj hl) hv.2 hw.2 ((List.mem_cons.mp h).resolve_left hx)
      have hy : w ≠ y := by
        rintro rfl
        exact hw.1 hmem
      refine ⟨w, by simp [hmem], ?_, ?_⟩
      · rw [List.zip_cons_cons, List.lookup_cons, beq_false_of_ne hx, h₁]
      · rw [List.zip_cons_cons, List.lookup_cons, beq_false_of_ne hy, h₂]

/-- The variables of an instance are new, and can be told from each other. -/
theorem instantiate_spec {σ : Scheme} (hσ : σ.vars.Nodup) (s : Supply) :
    (σ.instantiate s).2.next = s.next + σ.vars.length ∧
    ∃ f g : TyVar → TyVar, (σ.instantiate s).1 = σ.body.subst (fun v => .var (f v)) ∧
      ∀ v ∈ σ.vars, s.next ≤ (f v).id ∧ (f v).id < s.next + σ.vars.length ∧ g (f v) = v := by
  let ws := (s.takeNumbered σ.vars.length).1
  refine ⟨s.takeNumbered_next _, fun v => ((σ.vars.zip ws).lookup v).getD v,
    fun w => ((ws.zip σ.vars).lookup w).getD w, rfl, fun v hv => ?_⟩
  obtain ⟨w, hw, h₁, h₂⟩ :=
    lookup_zip (s.takeNumbered_length _).symm hσ (s.takeNumbered_nodup _) hv
  have hid := Supply.id_of_mem_takeNumbered hw
  simp only [ws, h₁, h₂, Option.getD_some]
  exact ⟨hid.1, hid.2, trivial⟩

/-- An instance mentions new variables only. -/
theorem mem_vars_instantiate {σ : Scheme} (hσ : σ.Proper) {s : Supply} {v : TyVar}
    (hv : v ∈ (σ.instantiate s).1.vars) : v ∈ (s.takeNumbered σ.vars.length).1 := by
  obtain ⟨w, hw, hv⟩ := Ty.mem_vars_subst.mp hv
  obtain ⟨x, hx, h₁, _⟩ := lookup_zip (s.takeNumbered_length _).symm hσ.nodup
    (s.takeNumbered_nodup _) (hσ.closed w hw)
  rw [h₁, Option.getD_some] at hv
  obtain rfl : v = x := by simpa using hv
  exact hx

end Scheme

namespace Primitive

/-- The operators whose types mention variables. -/
def polymorphic : List String :=
  ["number?", "boolean?", "string?", "list?", "pair?", "symbol?", "eq?", "string=?", "display",
    "cons", "car", "cdr"]

theorem mem_signatures {op : String} {σ : Scheme} (h : signature? op = some σ) :
    (op, σ) ∈ signatures := by
  obtain ⟨before, later, he, _⟩ := List.lookup_eq_some_iff.mp h
  simp [he]

/-- All signatures are types of procedures whose parameters fix their results. -/
theorem proper_of_signature {op : String} {σ : Scheme}
    (h : signature? op = some σ) : σ.Proper := by
  have hall : ∀ p ∈ signatures, p.2.Proper := by
    intro p hp
    fin_cases hp
    all_goals exact ⟨by decide, by decide, _, _, rfl, by decide⟩
  exact hall (op, σ) (mem_signatures h)

/-- The operators that are not among them have one type only. -/
theorem vars_eq_nil_of_signature {op : String} {σ : Scheme} (h : signature? op = some σ)
    (hop : op ∉ polymorphic) : σ.vars = [] := by
  have hall : ∀ p ∈ signatures, p.1 ∉ polymorphic → p.2.vars = [] := by decide
  exact hall (op, σ) (mem_signatures h) hop

end Primitive

end TypedL5
