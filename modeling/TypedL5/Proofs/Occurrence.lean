import TypedL5.Env
import TypedL5.Exp.Basic
import TypedL5.Proofs.Ty

/-! What occurs in an expression: the types written in it, and the names that it takes from
outside. -/
namespace TypedL5

/-- The names that declarations leave to an outer frame. -/
def Decl.outer (ds : List Decl) (names : List String) : List String :=
  names.filter fun x => !ds.any (·.name == x)

namespace Exp

mutual

/-- The types written in an expression, from left to right. -/
def tys : Exp → List Ty
  | .const _ | .prim _ | .var _ | .quote _ => []
  | .ite c t e => c.tys ++ (t.tys ++ e.tys)
  | .lambda ps r body => ps.map Decl.ty ++ (r :: tysAll body)
  | .app f es => f.tys ++ tysAll es
  | .letIn bs body => tysBound bs ++ tysAll body
  | .letrec bs body => tysBound bs ++ tysAll body
  | .assign _ e => e.tys
  | .define d e => d.ty :: e.tys
  | .program es => tysAll es

def tysAll : List Exp → List Ty
  | [] => []
  | e :: es => e.tys ++ tysAll es

def tysBound : List (Decl × Exp) → List Ty
  | [] => []
  | (d, e) :: bs => d.ty :: (e.tys ++ tysBound bs)

end

/-- The parts of an expression that stand in a list are reached by membership. -/
@[induction_eliminator]
theorem induction {motive : Exp → Prop} (const : ∀ a, motive (.const a))
    (prim : ∀ op, motive (.prim op)) (var : ∀ x, motive (.var x))
    (ite : ∀ c t e, motive c → motive t → motive e → motive (.ite c t e))
    (lambda : ∀ ps r body, (∀ e ∈ body, motive e) → motive (.lambda ps r body))
    (app : ∀ f es, motive f → (∀ e ∈ es, motive e) → motive (.app f es))
    (letIn : ∀ bs body, (∀ b ∈ bs, motive b.2) → (∀ e ∈ body, motive e) →
      motive (.letIn bs body))
    (letrec : ∀ bs body, (∀ b ∈ bs, motive b.2) → (∀ e ∈ body, motive e) →
      motive (.letrec bs body))
    (assign : ∀ x e, motive e → motive (.assign x e)) (quote : ∀ v, motive (.quote v))
    (define : ∀ d e, motive e → motive (.define d e))
    (program : ∀ es, (∀ e ∈ es, motive e) → motive (.program es)) (e : Exp) : motive e := by
  refine (tys.mutual_induct motive (fun bs => ∀ b ∈ bs, motive b.2)
    (fun es => ∀ e ∈ es, motive e)
    const prim var quote ite lambda app letIn letrec assign define program ?_ ?_ ?_ ?_).1 e
  · intro e he
    cases he
  · intro e es he hes
    exact List.forall_mem_cons.mpr ⟨he, hes⟩
  · intro b hb
    cases hb
  · intro d e bs he hbs
    exact List.forall_mem_cons.mpr ⟨he, hbs⟩

mutual

/-- The free names of an expression. A definition binds its name in the forms after it only. -/
@[simp] def free : Exp → List String
  | .const _ | .prim _ | .quote _ => []
  | .var x => [x]
  | .ite c t e => c.free ++ (t.free ++ e.free)
  | .lambda ps _ body => Decl.outer ps (freeAll body)
  | .app f es => f.free ++ freeAll es
  | .letIn bs body => freeBound bs ++ Decl.outer (bs.map Prod.fst) (freeAll body)
  | .letrec bs body => Decl.outer (bs.map Prod.fst) (freeBound bs ++ freeAll body)
  | .assign x e => x :: e.free
  | .define _ e => e.free
  | .program es => freeForms es

def freeAll : List Exp → List String
  | [] => []
  | e :: es => e.free ++ freeAll es

/-- The free names of the values that are bound. -/
def freeBound : List (Decl × Exp) → List String
  | [] => []
  | (_, e) :: bs => e.free ++ freeBound bs

def freeForms : List Exp → List String
  | [] => []
  | .define d e :: es => e.free ++ Decl.outer [d] (freeForms es)
  | e :: es => e.free ++ freeForms es

end

theorem freeForms_cons {e : Exp} {es : List Exp} (h : ∀ d e', e = .define d e' → False) :
    freeForms (e :: es) = e.free ++ freeForms es :=
  freeForms.eq_3 e es h

theorem mem_tysBound {b : Decl × Exp} {bs : List (Decl × Exp)} {t : Ty} (hb : b ∈ bs)
    (ht : t ∈ b.1.ty :: b.2.tys) : t ∈ tysBound bs := by
  induction bs with
  | nil => cases hb
  | cons b' bs ih =>
    rw [tysBound]
    rcases List.mem_cons.mp hb with rfl | hb
    · rcases List.mem_cons.mp ht with rfl | ht
      · exact List.mem_cons_self
      · simp [ht]
    · simp [ih hb]

theorem ty_mem_tysBound {d : Decl} {bs : List (Decl × Exp)} (hd : d ∈ bs.map Prod.fst) :
    d.ty ∈ tysBound bs := by
  obtain ⟨b, hb, rfl⟩ := List.mem_map.mp hd
  exact mem_tysBound hb List.mem_cons_self

end Exp

namespace Env

variable {env : Env} {ds : List Decl} {xs ys : List String} {P Q : Ty → Prop}

/-- The types of those of the names that have one. -/
def Gives (env : Env) (xs : List String) (P : Ty → Prop) : Prop :=
  ∀ x ∈ xs, ∀ t, env.lookup? x = some t → P t

theorem Gives.mono (h : env.Gives xs P) (hP : ∀ t, P t → Q t) : env.Gives xs Q :=
  fun x hx t ht => hP t (h x hx t ht)

theorem gives_append : env.Gives (xs ++ ys) P ↔ env.Gives xs P ∧ env.Gives ys P :=
  List.forall_mem_append

/-- A name is declared, or left to the outer frames. -/
theorem lookup?_extend_cases (env : Env) (ds : List Decl) {x : String} (hx : x ∈ xs) :
    (∃ d ∈ ds, (env.extend ds).lookup? x = some d.ty) ∨
      x ∈ Decl.outer ds xs ∧ (env.extend ds).lookup? x = env.lookup? x := by
  rw [lookup?_extend]
  cases hd : ds.find? (·.name == x) with
  | some d => exact .inl ⟨d, List.mem_of_find?_eq_some hd, rfl⟩
  | none => exact .inr ⟨List.mem_filter.mpr ⟨hx, by simpa using hd⟩, rfl⟩

/-- A frame gives the types that are declared in it, and hides those behind it. -/
theorem Gives.extend (h : env.Gives (Decl.outer ds xs) P) (hds : ∀ d ∈ ds, P d.ty) :
    (env.extend ds).Gives xs P := by
  intro x hx t ht
  rcases lookup?_extend_cases env ds hx with ⟨d, hd, he⟩ | ⟨ho, he⟩
  · rw [he] at ht
    cases ht
    exact hds d hd
  · rw [he] at ht
    exact h x ho t ht

end Env

end TypedL5
