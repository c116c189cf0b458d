import Mathlib.Data.Finset.Card
import TypedL5.Proofs.Ty
import TypedL5.Ty.Store

/-! Stores without cycles. Following bindings ends there, within the steps that the functions
on stores take. -/
namespace TypedL5.Store

open Relation (ReflTransGen TransGen)

variable {s : Store} {v w : TyVar} {t u : Ty}

/-- The binding of a variable mentions another. -/
def Leads (s : Store) (v w : TyVar) : Prop := ∃ t, s.contents? v = some t ∧ w ∈ t.vars

/-- Following bindings never leads from a variable back to itself. -/
def Acyclic (s : Store) : Prop := ∀ v, ¬ TransGen s.Leads v v

theorem mem_keys_of_bound (h : s.contents? v = some t) : v ∈ s.bindings.map Prod.fst := by
  obtain ⟨l, r, he, _⟩ := List.lookup_eq_some_iff.mp h
  simp [he]

open Classical in
/-- The bound variables that following bindings leads to, the first among them. -/
noncomputable def below (s : Store) (v : TyVar) : Finset TyVar :=
  (s.bindings.map Prod.fst).toFinset.filter fun w => ReflTransGen s.Leads v w

theorem mem_below :
    w ∈ s.below v ↔ w ∈ s.bindings.map Prod.fst ∧ ReflTransGen s.Leads v w := by
  simp [below]

noncomputable def rank (s : Store) (v : TyVar) : Nat := (s.below v).card

/-- No chain of bindings is longer than the store. -/
theorem rank_le_length (s : Store) (v : TyVar) : s.rank v ≤ s.length := by
  calc s.rank v ≤ (s.bindings.map Prod.fst).toFinset.card :=
        Finset.card_le_card fun w hw => List.mem_toFinset.mpr (mem_below.mp hw).1
    _ ≤ (s.bindings.map Prod.fst).length := List.toFinset_card_le _
    _ = s.length := by simp [length]

theorem rank_pos (h : s.contents? v = some t) : 0 < s.rank v :=
  Finset.card_pos.mpr ⟨v, mem_below.mpr ⟨mem_keys_of_bound h, .refl⟩⟩

/-- A binding leads to variables with fewer bound variables below them. -/
theorem rank_lt_of_leads (h : s.Acyclic) (hl : s.Leads v w) : s.rank w < s.rank v := by
  apply Finset.card_lt_card
  refine ⟨?_, ?_⟩
  · intro x hx
    obtain ⟨hk, hr⟩ := mem_below.mp hx
    exact mem_below.mpr ⟨hk, .head hl hr⟩
  · intro hs
    obtain ⟨t, ht, hw⟩ := hl
    have hv := mem_below.mp (hs (mem_below.mpr ⟨mem_keys_of_bound ht, .refl⟩))
    exact h v (TransGen.head' ⟨t, ht, hw⟩ hv.2)

theorem unbound_of_rank (h : s.rank v ≤ 0) : s.contents? v = none := by
  cases hc : s.contents? v with
  | none => rfl
  | some t => exact absurd h (Nat.not_le_of_lt (rank_pos hc))

theorem rank_le_of_bound (h : s.Acyclic) {n : Nat} (hc : s.contents? v = some t)
    (hn : s.rank v ≤ n + 1) : ∀ w ∈ t.vars, s.rank w ≤ n := by
  intro w hw
  exact Nat.le_of_lt_succ (Nat.lt_of_lt_of_le (rank_lt_of_leads h ⟨t, hc, hw⟩) hn)

/-- A measure that falls along every binding rules out cycles. -/
theorem acyclic_of_rank (r : TyVar → Nat)
    (h : ∀ v w, s.Leads v w → r w < r v) : s.Acyclic := by
  have hlt : ∀ v w, TransGen s.Leads v w → r w < r v := by
    intro v w hw
    induction hw with
    | single hw => exact h _ _ hw
    | tail _ hw ih => exact Nat.lt_trans (h _ _ hw) ih
  intro v hv
  exact Nat.lt_irrefl _ (hlt v v hv)

theorem acyclic_empty : Acyclic {} := by
  apply acyclic_of_rank fun _ => 0
  rintro v w ⟨t, ht, _⟩
  simp [contents?] at ht

/-- Induction over a type as it stands in the store: a bound variable follows from what it is
bound to. -/
@[elab_as_elim]
theorem Acyclic.induction (h : s.Acyclic) {motive : Ty → Prop} (base : ∀ b, motive (.base b))
    (free : ∀ v, s.contents? v = none → motive (.var v))
    (bound : ∀ v t, s.contents? v = some t → motive t → motive (.var v))
    (pair : ∀ l r, motive l → motive r → motive (.pair l r))
    (proc : ∀ ps r, (∀ p ∈ ps, motive p) → motive r → motive (.proc ps r)) (t : Ty) :
    motive t := by
  -- Within a type its size decreases, and from a variable to what it is bound to the rank
  -- does.
  have key : ∀ n t, (∀ v ∈ t.vars, s.rank v < n) → motive t := by
    intro n
    induction n using Nat.strong_induction_on with
    | h n ih =>
      intro t hv
      induction t with
      | base b => exact base b
      | var v =>
        cases hc : s.contents? v with
        | none => exact free v hc
        | some t =>
          refine bound v t hc (ih (s.rank v) (hv v (by simp)) t ?_)
          intro w hw
          exact rank_lt_of_leads h ⟨t, hc, hw⟩
      | pair l r ihl ihr =>
        exact pair l r (ihl fun v h => hv v (by simp [h])) (ihr fun v h => hv v (by simp [h]))
      | proc ps r ihp ihr =>
        refine proc ps r (fun p hp => ihp p hp fun v h => hv v ?_)
          (ihr fun v h => hv v (by simp [h]))
        simp only [Ty.vars_proc, List.mem_append, List.mem_flatMap]
        exact .inl ⟨p, hp, h⟩
  exact key (s.length + 1) t fun v _ => Nat.lt_succ_of_le (s.rank_le_length v)

/-- One more step changes nothing once the steps suffice for every variable of a type. -/
theorem derefUpTo_succ (h : s.Acyclic) (n : Nat) (t : Ty) (hn : ∀ v ∈ t.vars, s.rank v ≤ n) :
    s.derefUpTo (n + 1) t = s.derefUpTo n t := by
  induction n generalizing t with
  | zero =>
    cases t with
    | var v => simp [derefUpTo, unbound_of_rank (hn v (by simp))]
    | _ => simp [derefUpTo]
  | succ n ih =>
    cases t with
    | var v =>
      cases hc : s.contents? v with
      | none => simp [derefUpTo, hc]
      | some u =>
        rw [derefUpTo, derefUpTo, hc]
        exact ih u (rank_le_of_bound h hc (hn v (by simp)))
    | _ => simp [derefUpTo]

@[simp] theorem deref_base (s : Store) (b : BaseTy) : s.deref (.base b) = .base b := by
  simp [deref, derefUpTo]

@[simp] theorem deref_pair (s : Store) (l r : Ty) : s.deref (.pair l r) = .pair l r := by
  simp [deref, derefUpTo]

@[simp] theorem deref_proc (s : Store) (ps : List Ty) (r : Ty) :
    s.deref (.proc ps r) = .proc ps r := by
  simp [deref, derefUpTo]

theorem deref_unbound (h : s.contents? v = none) : s.deref (.var v) = .var v := by
  unfold deref
  cases s.length <;> simp [derefUpTo, h]

theorem deref_bound (h : s.Acyclic) (hc : s.contents? v = some t) :
    s.deref (.var v) = s.deref t := by
  unfold deref
  rw [← derefUpTo_succ h _ _ fun w _ => s.rank_le_length w, derefUpTo, hc]

/-- A chain ends in a variable only if that is not bound. -/
theorem unbound_of_deref (h : s.Acyclic) (hd : s.deref t = .var v) : s.contents? v = none := by
  induction t using h.induction with
  | base b => simp at hd
  | free w hw =>
    rw [deref_unbound hw, Ty.var.injEq] at hd
    exact hd ▸ hw
  | bound w u hw ih => exact ih (by rwa [deref_bound h hw] at hd)
  | pair l r => simp at hd
  | proc ps r => simp at hd

/-- Once the variables of a type are of small enough rank, more fuel resolves no further. -/
theorem resolveUpTo_succ (h : s.Acyclic) (n : Nat) (t : Ty) (hn : ∀ v ∈ t.vars, s.rank v ≤ n) :
    s.resolveUpTo (n + 1) t = s.resolveUpTo n t := by
  induction n generalizing t with
  | zero =>
    calc s.resolveUpTo 1 t = t.subst fun v => .var v := by
          apply Ty.subst_congr
          intro v hv
          rw [unbound_of_rank (hn v hv)]
      _ = t := Ty.subst_id t
  | succ n ih =>
    apply Ty.subst_congr
    intro v hv
    cases hc : s.contents? v with
    | none => rfl
    | some u => exact ih u (rank_le_of_bound h hc (hn v hv))

@[simp] theorem resolve_base (s : Store) (b : BaseTy) : s.resolve (.base b) = .base b := by
  unfold resolve
  cases s.length <;> simp [resolveUpTo]

@[simp] theorem resolve_pair (s : Store) (l r : Ty) :
    s.resolve (.pair l r) = .pair (s.resolve l) (s.resolve r) := by
  unfold resolve
  cases s.length <;> simp [resolveUpTo]

@[simp] theorem resolve_proc (s : Store) (ps : List Ty) (r : Ty) :
    s.resolve (.proc ps r) = .proc (ps.map s.resolve) (s.resolve r) := by
  unfold resolve
  cases s.length <;> simp [resolveUpTo]

theorem resolve_unbound (h : s.contents? v = none) : s.resolve (.var v) = .var v := by
  unfold resolve
  cases s.length <;> simp [resolveUpTo, h]

theorem resolve_bound (h : s.Acyclic) (hc : s.contents? v = some t) :
    s.resolve (.var v) = s.resolve t := by
  unfold resolve
  rw [← resolveUpTo_succ h _ _ fun w _ => s.rank_le_length w, resolveUpTo, Ty.subst_var, hc]

/-- Following the bindings at the head of a type does not change what it stands for. -/
theorem resolve_deref (h : s.Acyclic) (t : Ty) : s.resolve (s.deref t) = s.resolve t := by
  induction t using h.induction with
  | base b => simp
  | free v hv => rw [deref_unbound hv]
  | bound v u hv ih => rw [deref_bound h hv, resolve_bound h hv, ih]
  | pair l r => simp
  | proc ps r => simp

/-- A variable can be come to from a type. -/
def Reaches (s : Store) (t : Ty) (v : TyVar) : Prop := ∃ w ∈ t.vars, ReflTransGen s.Leads w v

/-- A variable is reached in the type itself or through the contents of one of its variables.
-/
theorem reaches_iff : s.Reaches t v ↔
    ∃ w ∈ t.vars, w = v ∨ ∃ u, s.contents? w = some u ∧ s.Reaches u v := by
  refine exists_congr fun w => and_congr_right fun _ => ?_
  rw [ReflTransGen.cases_head_iff]
  refine or_congr Iff.rfl ?_
  constructor
  · rintro ⟨x, ⟨u, hu, hx⟩, hv⟩
    exact ⟨u, hu, x, hx, hv⟩
  · rintro ⟨u, hu, x, hx, hv⟩
    exact ⟨x, ⟨u, hu, hx⟩, hv⟩

/-- With fuel for the rank of a type, the occurs check finds exactly the variables it reaches.
-/
theorem occursUpTo_iff (h : s.Acyclic) (n : Nat) (t : Ty) (hn : ∀ v ∈ t.vars, s.rank v ≤ n) :
    s.occursUpTo v n t = true ↔ s.Reaches t v := by
  induction n generalizing t with
  | zero =>
    rw [reaches_iff, occursUpTo, List.contains_iff_mem]
    constructor
    · intro hv
      exact ⟨v, hv, .inl rfl⟩
    · rintro ⟨w, hw, rfl | ⟨u, hu, _⟩⟩
      · exact hw
      · simp [unbound_of_rank (hn w hw)] at hu
  | succ n ih =>
    simp only [reaches_iff (t := t), occursUpTo, List.any_eq_true, Bool.or_eq_true, beq_iff_eq]
    refine exists_congr fun w => and_congr_right fun hw => or_congr Iff.rfl ?_
    cases hc : s.contents? w with
    | none => simp
    | some u => simp [ih u (rank_le_of_bound h hc (hn w hw))]

/-- The occurs check decides whether a variable can be come to. -/
theorem occurs_iff (h : s.Acyclic) : s.occurs v t = true ↔ s.Reaches t v :=
  occursUpTo_iff h _ _ fun w _ => s.rank_le_length w

end TypedL5.Store
