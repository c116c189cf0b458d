import TypedL5.Proofs.Unify

/-!
Comparing two types is never given up in a store without cycles, and if it succeeds, what it
has bound is right and most general.

The types met on the way down one side lie inside each other, also when bindings have been made
in between. So none is met twice, and all of them are parts of the two types or of what the
store binds to.
-/
namespace TypedL5

namespace Ty

mutual

/-- A type with all the types below it. -/
def parts : Ty → List Ty
  | .base b => [.base b]
  | .var v => [.var v]
  | .pair l r => .pair l r :: (l.parts ++ r.parts)
  | .proc ps r => .proc ps r :: (partsAll ps ++ r.parts)

def partsAll : List Ty → List Ty
  | [] => []
  | t :: ts => t.parts ++ partsAll ts

end

theorem partsAll_eq_flatMap (ts : List Ty) : partsAll ts = ts.flatMap parts := by
  induction ts with
  | nil => rfl
  | cons t ts ih => simp [partsAll, ih]

theorem length_parts (t : Ty) : t.parts.length = t.size := by
  induction t with
  | base b => rfl
  | var v => rfl
  | pair l r ihl ihr => simp [parts, size, ihl, ihr]
  | proc ps r ihp ihr =>
    have hps : (partsAll ps).length = sizeAll ps := by
      induction ps with
      | nil => rfl
      | cons p ps ih =>
        obtain ⟨hp, hps⟩ := List.forall_mem_cons.mp ihp
        simp [partsAll, sizeAll, hp, ih hps]
    simp [parts, size, hps, ihr]

theorem self_mem_parts (t : Ty) : t ∈ t.parts := by
  cases t <;> simp [parts]

theorem mem_parts_of_part {t p a : Ty} (ha : a ∈ t.parts) (hp : Part p a) : p ∈ t.parts := by
  induction t with
  | base b =>
    simp only [parts, List.mem_singleton] at ha
    subst ha
    cases hp
  | var v =>
    simp only [parts, List.mem_singleton] at ha
    subst ha
    cases hp
  | pair l r ihl ihr =>
    simp only [parts, List.mem_cons, List.mem_append] at ha ⊢
    rcases ha with rfl | ha | ha
    · cases hp with
      | left => exact .inr (.inl (self_mem_parts _))
      | right => exact .inr (.inr (self_mem_parts _))
    · exact .inr (.inl (ihl ha))
    · exact .inr (.inr (ihr ha))
  | proc ps r ihp ihr =>
    simp only [parts, partsAll_eq_flatMap, List.mem_cons, List.mem_append,
      List.mem_flatMap] at ha ⊢
    rcases ha with rfl | ⟨q, hq, ha⟩ | ha
    · cases hp with
      | param _ hp => exact .inr (.inl ⟨p, hp, self_mem_parts p⟩)
      | result => exact .inr (.inr (self_mem_parts _))
    · exact .inr (.inl ⟨q, hq, ihp q hq ha⟩)
    · exact .inr (.inr (ihr ha))

end Ty

namespace Store

variable {s s' : Store} {t u p : Ty} {P A : Finset Ty} {eqs : List (Ty × Ty)}
  {r : EStateM.Result Clash Store Unit}

/-- A set holds the parts of its types, and what the store binds to. -/
structure Holds (P : Finset Ty) (s : Store) : Prop where
  part : ∀ t ∈ P, ∀ p, Ty.Part p t → p ∈ P
  contents : ∀ v t, s.contents? v = some t → t ∈ P

theorem Holds.deref (h : Holds P s) (hs : s.Acyclic) (ht : t ∈ P) : s.deref t ∈ P := by
  induction t using hs.induction with
  | base b => simpa using ht
  | free v hv => simpa [deref_unbound hv] using ht
  | bound v u hv ih =>
    rw [deref_bound hs hv]
    exact ih (h.contents v u hv)
  | pair l r => simpa using ht
  | proc ps r => simpa using ht

/-- A binding to a type of the set keeps the set large enough. -/
theorem Holds.bind {v : TyVar} (h : Holds P s) (ht : t ∈ P) : Holds P (s.bind v t) := by
  refine ⟨h.part, ?_⟩
  intro w u hw
  rw [contents?_bind] at hw
  split at hw
  · cases hw
    exact ht
  · exact h.contents w u hw

theorem Holds.meet_bind {v : TyVar} {w : Ty} (h : Holds P s) (hs : s.Acyclic) (ht : t ∈ P)
    (hu : u ∈ P) (hm : (s.deref t).meet (s.deref u) = .bind v w) : .var v ∈ P ∧ w ∈ P := by
  have ht := h.deref hs ht
  have hu := h.deref hs hu
  rcases Ty.meet_bind hm with ⟨hd, rfl⟩ | ⟨hd, rfl⟩
  · exact ⟨hd ▸ ht, hu⟩
  · exact ⟨hd ▸ hu, ht⟩

theorem Holds.meet_parts (h : Holds P s) (hs : s.Acyclic) (ht : t ∈ P) (hu : u ∈ P)
    (hm : (s.deref t).meet (s.deref u) = .parts eqs) : ∀ e ∈ eqs, e.1 ∈ P ∧ e.2 ∈ P := by
  intro e he
  obtain ⟨hl, hr⟩ := Ty.part_of_meet hm he
  exact ⟨h.part _ (h.deref hs ht) _ hl, h.part _ (h.deref hs hu) _ hr⟩

/-- Unification binds variables only to what was there before. -/
theorem Holds.solve (hP : Holds P s) (hs : s.Acyclic) (h : Solve s eqs r)
    (he : ∀ e ∈ eqs, e.1 ∈ P ∧ e.2 ∈ P) : Holds P (endState r) := by
  induction h with
  | done s => exact hP
  | @bind s t u v w eqs r hm ho _ ih =>
    obtain ⟨⟨ht, hu⟩, he⟩ := List.forall_mem_cons.mp he
    exact ih (hP.bind (hP.meet_bind hs ht hu hm).2) ((grows_of_meet hs hm ho).acyclic hs) he
  | cycle => exact hP
  | parts hm _ ih =>
    obtain ⟨⟨ht, hu⟩, he⟩ := List.forall_mem_cons.mp he
    exact ih hP hs (List.forall_mem_append.mpr ⟨hP.meet_parts hs ht hu hm, he⟩)
  | clash => exact hP

/-- The types of `A` have been met on the way down to `t`. -/
def Descent (s : Store) (A : Finset Ty) (t : Ty) : Prop :=
  ∀ a ∈ A, Ty.Inside (s.resolve t) (s.resolve a)

theorem Descent.not_mem (h : Descent s A t) : t ∉ A :=
  fun ht => Ty.not_inside_self _ (h t ht)

theorem part_resolve (h : Ty.Part p t) (s : Store) : Ty.Part (s.resolve p) (s.resolve t) := by
  cases h with
  | left l r => simpa using Ty.Part.left _ _
  | right l r => simpa using Ty.Part.right _ _
  | param r hp => simpa using Ty.Part.param _ (List.mem_map_of_mem hp)
  | result ps r => simpa using Ty.Part.result _ _

/-- One level down, the type just met joins those above. -/
theorem Descent.down (h : Descent s A t) (hg : s.ExtendedBy s') (hs' : s'.Acyclic)
    (hp : Ty.Part p (s.deref t)) : Descent s' (insert t A) p := by
  have hpt : Ty.Inside (s'.resolve p) (s'.resolve t) := by
    rw [← hg.resolve_deref hs' t]
    exact .single (part_resolve hp s')
  intro a ha
  rcases Finset.mem_insert.mp ha with rfl | ha
  · exact hpt
  -- Bindings made in between fill both types alike, and the one stays inside the other.
  · refine hpt.trans ?_
    rw [hg.resolve_eq hs' t, hg.resolve_eq hs' a]
    exact Ty.inside_subst (h a ha) _

/-- A row of equations ends if each does in every store that may come about before it. -/
theorem unifyEach_ended {unify : Ty → Ty → UnifyM Unit} (hs : s.Acyclic) (hP : Holds P s)
    (hu : ∀ t u s, Ended (unify t u s) → Solve s [(t, u)] (unify t u s))
    (he : ∀ e ∈ eqs, e.1 ∈ P ∧ e.2 ∈ P ∧
      ∀ s', s.Grows s' → Holds P s' → Ended (unify e.1 e.2 s')) :
    Ended (unifyEach unify eqs s) := by
  induction eqs generalizing s with
  | nil => trivial
  | cons e eqs ih =>
    obtain ⟨l, r⟩ := e
    obtain ⟨⟨hl, hr, hend⟩, he⟩ := List.forall_mem_cons.mp he
    have hend := hend s .refl hP
    have hsolve := hu l r s hend
    rw [unifyEach_cons]
    cases hq : unify l r s with
    | ok _ s' =>
      rw [hq] at hsolve
      have hg : s.Grows s' := hsolve.grows hs
      refine ih (hg.acyclic hs) (hP.solve hs hsolve (by simpa using ⟨hl, hr⟩)) fun e hm => ?_
      obtain ⟨h₁, h₂, h₃⟩ := he e hm
      exact ⟨h₁, h₂, fun s'' hg' => h₃ s'' (hg.trans hg')⟩
    | error c s' =>
      rw [hq] at hend
      exact hend

/-- Each level meets a type not met above it, so that the levels cannot run out. -/
theorem unifyUpTo_ended (n : Nat) (hs : s.Acyclic) (hP : Holds P s) (ht : t ∈ P) (hu : u ∈ P)
    (hA : A ⊆ P) (hd : Descent s A t) (hn : P.card < n + A.card) :
      Ended (unifyUpTo n t u s) := by
  induction n generalizing s t u A with
  | zero =>
    have hle := Finset.card_le_card hA
    omega
  | succ n ih =>
    rw [unifyUpTo_succ]
    unfold unifyMet
    cases hm : (s.deref t).meet (s.deref u) with
    | bind v w =>
      simp only [bindVar_apply]
      split <;> trivial
    | parts ds =>
      refine unifyEach_ended hs hP (unifyUpTo_solve n) fun e he => ?_
      obtain ⟨hlP, hrP⟩ := hP.meet_parts hs ht hu hm e he
      refine ⟨hlP, hrP, fun s' hg hP' => ?_⟩
      have hs' := hg.acyclic hs
      apply ih hs' hP' hlP hrP (Finset.insert_subset ht hA)
        (hd.down hg.extends hs' (Ty.part_of_meet hm he).1)
      rw [Finset.card_insert_of_notMem hd.not_mem]
      omega
    | clash => trivial

/-- The parts of two types and of what a store binds to. -/
def allParts (s : Store) (t u : Ty) : List Ty :=
  t.parts ++ u.parts ++ s.bindings.flatMap fun b => b.2.parts

/-- There are more levels than types to be met. -/
theorem length_allParts_lt (s : Store) (t u : Ty) :
    (s.allParts t u).length < s.levels t u := by
  have hb : ∀ bs : List (TyVar × Ty),
      (bs.flatMap fun b => b.2.parts).length ≤ bs.foldr (fun b n => b.2.size + 1 + n) 0 := by
    intro bs
    induction bs with
    | nil => simp
    | cons b bs ih =>
      simp only [List.flatMap_cons, List.length_append, Ty.length_parts, List.foldr_cons]
      omega
  have hs := hb s.bindings
  simp only [allParts, levels, weight, List.length_append, Ty.length_parts]
  omega

theorem allParts_holds (s : Store) (t u : Ty) : Holds (s.allParts t u).toFinset s := by
  constructor
  · intro a ha p hp
    simp only [allParts, List.mem_toFinset, List.mem_append, List.mem_flatMap] at ha ⊢
    rcases ha with (ha | ha) | ⟨b, hb, ha⟩
    · exact .inl (.inl (Ty.mem_parts_of_part ha hp))
    · exact .inl (.inr (Ty.mem_parts_of_part ha hp))
    · exact .inr ⟨b, hb, Ty.mem_parts_of_part ha hp⟩
  · intro v a hv
    obtain ⟨later, earlier, he, _⟩ := List.lookup_eq_some_iff.mp hv
    simp only [allParts, List.mem_toFinset, List.mem_append, List.mem_flatMap]
    exact .inr ⟨(v, a), by simp [he], Ty.self_mem_parts a⟩

/-- The bound on the levels of a comparison suffices. -/
theorem unify_ended (hs : s.Acyclic) (t u : Ty) : Ended (unify t u s) := by
  change Ended (unifyUpTo (s.levels t u) t u s)
  apply unifyUpTo_ended _ hs (allParts_holds s t u) (A := ∅)
  · simp [allParts, Ty.self_mem_parts]
  · simp [allParts, Ty.self_mem_parts]
  · exact Finset.empty_subset _
  · simp [Descent]
  · exact Nat.lt_of_le_of_lt (List.toFinset_card_le _) (length_allParts_lt s t u)

/-- In a store without cycles unification works off its one equation. -/
theorem unify_solve (hs : s.Acyclic) (t u : Ty) : Solve s [(t, u)] (unify t u s) :=
  unifyUpTo_solve _ t u s (unify_ended hs t u)

/-- The two types have become one, and exactly the solutions that make them equal remain. -/
theorem unify_most_general {s s' : Store} {t u : Ty} (hs : s.Acyclic)
    (h : unify t u s = .ok () s') :
    s'.Acyclic ∧ s'.resolve t = s'.resolve u ∧
      ∀ ρ : Assignment, ρ.Satisfies s' ↔ ρ.Satisfies s ∧ t.eval ρ = u.eval ρ := by
  have hsolve := unify_solve hs t u
  rw [h] at hsolve
  refine ⟨(hsolve.grows hs).acyclic hs, ?_, ?_⟩
  · exact hsolve.resolve_eq hs (t, u) (by simp)
  · intro ρ
    simpa using hsolve.satisfies_iff hs

/-- The second parameter decides about the first, which is met again through a chain. -/
theorem unify_most_general_chain :
    let a : TyVar := ⟨0, "a"⟩
    let b : TyVar := ⟨1, "b"⟩
    let c : TyVar := ⟨2, "c"⟩
    let s : Store := ⟨[(a, .var b)]⟩
    let s' : Store := ⟨[(c, .string), (b, .pair (.var c) .boolean), (a, .var b)]⟩
    let t : Ty := .proc [.var a, .var c] (.var a)
    let u : Ty := .proc [.pair (.var c) .boolean, .string] (.pair .string .boolean)
    s.Acyclic ∧ unify t u s = .ok () s' ∧ s'.Acyclic ∧ s'.resolve t = s'.resolve u ∧
      ∀ ρ : Assignment, ρ.Satisfies s' ↔ ρ.Satisfies s ∧ t.eval ρ = u.eval ρ := by
  intro a b c s s' t u
  have hs : s.Acyclic :=
    bind_acyclic acyclic_empty rfl (not_reaches_of_occurs acyclic_empty rfl)
  have h : unify t u s = .ok () s' := rfl
  exact ⟨hs, h, unify_most_general hs h⟩

end Store

end TypedL5
