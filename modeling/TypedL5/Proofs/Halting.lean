import TypedL5.Proofs.Termination
import TypedL5.Ty.Printer

/-!
The loops and recursions over types, with no bound on their steps. In a store without cycles
each of them ends, with the answer of the function that has a bound.

The parts of two types are made equal one after the other, so that the later ones may have
grown through what the earlier ones have bound. Either a variable has been bound, and fewer are
left, or the store is as it was, and the parts are smaller than the whole.
-/
namespace TypedL5

open Relation (ReflTransGen)

/-- A loop comes from one state to another and stops there. -/
def Runs {α : Type} (step? : α → Option α) (a b : α) : Prop :=
  ReflTransGen (fun x y => step? x = some y) a b ∧ step? b = none

theorem Runs.head {α : Type} {step? : α → Option α} {a b c : α} (hab : step? a = some b)
    (h : Runs step? b c) : Runs step? a c :=
  ⟨.head hab h.1, h.2⟩

/-- The written form of a type, with the given texts of its parts. -/
def Ty.textWith (text : Ty → String) : Ty → String
  | .base b => b.name
  | .var v => v.name
  | .pair l r => Text.parens (Text.spaced ["Pair", text l, text r])
  | .proc ps r => Text.parens (Text.spaced [paramsText (ps.map text), "->", text r])

namespace Store

variable {s s' : Store} {t u p q : Ty} {v : TyVar} {P : Finset Ty} {eqs : List (Ty × Ty)}
  {r : EStateM.Result Clash Store Unit}

/-- One step along a chain of bound variables. -/
def follow? (s : Store) : Ty → Option Ty
  | .var v => s.contents? v
  | _ => none

/-- Following bindings one by one comes to an end at what the type stands for. -/
theorem runs_follow (hs : s.Acyclic) (t : Ty) : Runs s.follow? t (s.deref t) := by
  induction t using hs.induction with
  | base b => simpa using ⟨.refl, rfl⟩
  | free v hv =>
    rw [deref_unbound hv]
    exact ⟨.refl, hv⟩
  | bound v u hv ih =>
    rw [deref_bound hs hv]
    exact .head hv ih
  | pair l r => simpa using ⟨.refl, rfl⟩
  | proc ps r => simpa using ⟨.refl, rfl⟩

/-- The types that stand directly below a type or are what a variable is bound to, latest
first. -/
def successors (s : Store) : Ty → List Ty
  | .base _ => []
  | .var v => (s.contents? v).toList
  | .pair l r => [r, l]
  | .proc ps r => r :: ps.reverse

/-- One step of the search for a variable. The first type that is pending gives way to its
successors. -/
def search? (s : Store) (v : TyVar) : List Ty → Option (List Ty)
  | [] => none
  | t :: ts => if t = .var v then none else some (s.successors t ++ ts)

/-- What a type reaches is itself, if a variable, or what one of its successors reaches. -/
theorem reaches_iff_successor :
    s.Reaches t v ↔ t = .var v ∨ ∃ u ∈ s.successors t, s.Reaches u v := by
  cases t with
  | base b => simp [Reaches, successors]
  | var w =>
    rw [reaches_iff]
    cases hw : s.contents? w <;> simp [successors, hw]
  | pair l r => simp [Reaches, successors, or_and_right, exists_or, or_comm]
  | proc ps r =>
    simp only [Reaches, successors, Ty.vars_proc, List.mem_append, List.mem_flatMap,
      List.mem_cons,
      List.mem_reverse, or_and_right, exists_or, exists_eq_left, reduceCtorEq, false_or]
    rw [or_comm]
    refine or_congr Iff.rfl ?_
    constructor
    · rintro ⟨w, ⟨p, hp, hw⟩, hv⟩
      exact ⟨p, hp, w, hw, hv⟩
    · rintro ⟨p, hp, w, hw, hv⟩
      exact ⟨w, ⟨p, hp, hw⟩, hv⟩

theorem reaches_iff_of_ne (ht : t ≠ .var v) :
    s.Reaches t v ↔ ∃ u ∈ s.successors t, s.Reaches u v := by
  rw [reaches_iff_successor, or_iff_right ht]

theorem Acyclic.successor_induction (hs : s.Acyclic) {motive : Ty → Prop}
    (h : ∀ t, (∀ u ∈ s.successors t, motive u) → motive t) (t : Ty) : motive t := by
  induction t using hs.induction with
  | base b => exact h _ (by simp [successors])
  | free v hv => exact h _ (by simp [successors, hv])
  | bound v u hv ih => exact h _ (by simpa [successors, hv] using ih)
  | pair l r ihl ihr => exact h _ (by simp [successors, ihl, ihr])
  | proc ps r ihp ihr => exact h _ (by simpa [successors] using ⟨ihr, ihp⟩)

/-- The search comes upon the variable in the types `ts`, or gets through them. -/
def Searched (s : Store) (v : TyVar) (ts : List Ty) : Prop :=
  ∀ rest, ((∃ t ∈ ts, s.Reaches t v) ∧
      ∃ us, ReflTransGen (fun x y => s.search? v x = some y) (ts ++ rest) (.var v :: us)) ∨
    ((∀ t ∈ ts, ¬ s.Reaches t v) ∧
      ReflTransGen (fun x y => s.search? v x = some y) (ts ++ rest) rest)

/-- A search that ends from each of the pending types ends from all of them. -/
theorem searched_of_forall {ts : List Ty} (h : ∀ t ∈ ts, s.Searched v [t]) :
    s.Searched v ts := by
  induction ts with
  | nil => exact fun rest => .inr ⟨by simp, .refl⟩
  -- The first type is searched with the others still pending, which is why the rest is
  -- arbitrary.
  | cons t ts ih =>
    obtain ⟨ht, hts⟩ := List.forall_mem_cons.mp h
    intro rest
    rcases ht (ts ++ rest) with ⟨hreaches, us, hrun⟩ | ⟨hnot, hrun⟩
    · exact .inl ⟨⟨t, by simp, by simpa using hreaches⟩, us, hrun⟩
    · have hnot : ¬ s.Reaches t v := by simpa using hnot
      rcases ih hts rest with ⟨⟨u, hu, hreaches⟩, us, hrest⟩ | ⟨hnone, hrest⟩
      · exact .inl ⟨⟨u, List.mem_cons_of_mem _ hu, hreaches⟩, us, hrun.trans hrest⟩
      · exact .inr ⟨List.forall_mem_cons.mpr ⟨hnot, hnone⟩, hrun.trans hrest⟩

theorem searched (hs : s.Acyclic) (v : TyVar) (t : Ty) : s.Searched v [t] := by
  induction t using hs.successor_induction with
  | h t ih =>
    intro rest
    by_cases hv : t = .var v
    · subst hv
      exact .inl ⟨⟨_, by simp, reaches_iff_successor.mpr (.inl rfl)⟩, rest, .refl⟩
    · -- The successors come before the rest, so the search is through with them first.
      have hstep : s.search? v (t :: rest) = some (s.successors t ++ rest) := if_neg hv
      have hreach := reaches_iff_of_ne (s := s) hv
      rcases searched_of_forall ih rest with ⟨hsome, us, hrun⟩ | ⟨hnone, hrun⟩
      · exact .inl ⟨⟨t, by simp, hreach.mpr hsome⟩, us, .head hstep hrun⟩
      · refine .inr ⟨?_, .head hstep hrun⟩
        simpa [hreach] using hnone

/-- The search for a variable ends, and something is pending then exactly if the variable
occurs. -/
theorem runs_search (hs : s.Acyclic) (v : TyVar) (t : Ty) :
    ∃ pending, Runs (s.search? v) [t] pending ∧ (s.occurs v t = true ↔ pending ≠ []) := by
  rw [occurs_iff hs]
  rcases searched hs v t [] with ⟨hsome, us, hrun⟩ | ⟨hnone, hrun⟩
  · exact ⟨_, ⟨hrun, if_pos rfl⟩, by simpa using hsome⟩
  · exact ⟨_, ⟨hrun, rfl⟩, by simpa using hnone⟩

/-- The text of `p` is called for when `t` is written. -/
def Writes (s : Store) (p t : Ty) : Prop := Ty.Part p (s.deref t)

theorem size_resolve_lt (hs : s.Acyclic) (h : Ty.Part p (s.deref t)) :
    (s.resolve p).size < (s.resolve t).size := by
  rw [← resolve_deref hs t]
  exact Ty.size_lt_of_part (part_resolve h s)

theorem acc_writes (hs : s.Acyclic) (t : Ty) : Acc s.Writes t :=
  Subrelation.accessible (fun h => size_resolve_lt hs h)
    ((measure fun t => (s.resolve t).size).wf.apply t)

/-- Writing a type follows its bindings level by level. -/
theorem text_eq (hs : s.Acyclic) (t : Ty) : s.text t = (s.deref t).textWith s.text := by
  rw [text, ← resolve_deref hs t]
  cases hd : s.deref t with
  | base b => rw [resolve_base]; rfl
  | var v => rw [resolve_unbound (unbound_of_deref hs hd)]; rfl
  | pair l r => rw [resolve_pair]; rfl
  | proc ps r =>
    rw [resolve_proc, Ty.text, Ty.texts_eq_map, List.map_map]
    rfl

theorem unify_solve_of_ended (t u : Ty) (s : Store) (h : Ended (unify t u s)) :
    Solve s [(t, u)] (unify t u s) :=
  unifyUpTo_solve _ t u s h

theorem unifyEach_unify_solve (h : unifyEach unify eqs s = .ok () s') :
    Solve s eqs (.ok () s') := by
  have hsolve := unifyEach_solve unify_solve_of_ended eqs s
  rw [h] at hsolve
  exact hsolve trivial

/-- A list of equations is solved or refused, each in the store that the ones before have left.
-/
theorem unifyEach_unify_ended (hs : s.Acyclic) (eqs : List (Ty × Ty)) :
    Ended (unifyEach unify eqs s) := by
  induction eqs generalizing s with
  | nil => trivial
  | cons e eqs ih =>
    obtain ⟨t, u⟩ := e
    have hend := unify_ended hs t u
    have hgrows := (unify_solve hs t u).grows hs
    rw [unifyEach_cons]
    cases hr : unify t u s with
    | ok _ m =>
      rw [hr] at hgrows
      exact ih (hgrows.acyclic hs)
    | error c m =>
      rw [hr] at hend
      exact hend

theorem unifyMet_unify_ended (hs : s.Acyclic) (t u : Ty) : Ended (unifyMet unify t u s) := by
  unfold unifyMet
  cases t.meet u with
  | bind v w =>
    simp only [bindVar_apply]
    split <;> trivial
  | parts eqs => exact unifyEach_unify_ended hs eqs
  | clash => trivial

/-- Unification as a recursion without a bound. -/
theorem unify_eq (hs : s.Acyclic) (t u : Ty) :
    unify t u s = unifyMet unify (s.deref t) (s.deref u) s :=
  (unify_solve hs t u).unique
    (unifyMet_solve unify_solve_of_ended (unifyMet_unify_ended hs _ _))

/-- Making two types equal calls for the same of their parts, each in the store that the parts
before it have left. -/
inductive Compares : Store × Ty × Ty → Store × Ty × Ty → Prop
  | part {s s' : Store} {t u p q : Ty} {before after : List (Ty × Ty)}
    (hm : (s.deref t).meet (s.deref u) = .parts (before ++ (p, q) :: after))
    (hb : unifyEach unify before s = .ok () s') : Compares (s', p, q) (s, t, u)

theorem Compares.acyclic {c d : Store × Ty × Ty} (h : Compares d c)
    (hs : c.1.Acyclic) : d.1.Acyclic := by
  cases h with
  | part hm hb => exact ((unifyEach_unify_solve hb).grows hs).acyclic hs

/-- The type is a variable that is not bound. -/
def isFree (s : Store) : Ty → Bool
  | .var v => (s.contents? v).isNone
  | _ => false

/-- The variables of a set that are not bound. -/
def freeIn (s : Store) (P : Finset Ty) : Finset Ty := P.filter fun t => s.isFree t = true

/-- A binding leaves fewer free variables among those that matter. -/
theorem freeIn_bind {w : Ty} (hv : s.contents? v = none) (hP : .var v ∈ P) :
    ((s.bind v w).freeIn P).card < (s.freeIn P).card := by
  apply Finset.card_lt_card
  refine ⟨fun t ht => ?_, fun hsub => ?_⟩
  · obtain ⟨ht, hfree⟩ := Finset.mem_filter.mp ht
    refine Finset.mem_filter.mpr ⟨ht, ?_⟩
    cases t with
    | var x =>
      by_cases hx : x = v
      · simpa [isFree, hx] using hv
      · simpa [isFree, contents?_bind, hx] using hfree
    | _ => cases hfree
  · have hfree : s.isFree (.var v) = true := by simpa [isFree] using hv
    have hmem := Finset.mem_filter.mp (hsub (Finset.mem_filter.mpr ⟨hP, hfree⟩))
    simp [isFree, contents?_bind] at hmem

/-- Working off equations leaves the store as it is, or fewer variables to bind. -/
theorem Solve.freeIn (h : Solve s eqs r) (hs : s.Acyclic) (hP : Holds P s)
    (he : ∀ e ∈ eqs, e.1 ∈ P ∧ e.2 ∈ P) :
    endState r = s ∨ ((endState r).freeIn P).card < (s.freeIn P).card := by
  induction h with
  | done s => exact .inl rfl
  | @bind s t u v w eqs r hm ho _ ih =>
    obtain ⟨⟨ht, hu⟩, he⟩ := List.forall_mem_cons.mp he
    obtain ⟨hv, hw⟩ := hP.meet_bind hs ht hu hm
    have hlt := freeIn_bind (w := w) (unbound_of_meet hs hm) hv
    rcases ih ((grows_of_meet hs hm ho).acyclic hs) (hP.bind hw) he with hsame | hless
    · exact .inr (by rwa [hsame])
    · exact .inr (hless.trans hlt)
  | cycle => exact .inl rfl
  | parts hm _ ih =>
    obtain ⟨⟨ht, hu⟩, he⟩ := List.forall_mem_cons.mp he
    exact ih hs hP (List.forall_mem_append.mpr ⟨hP.meet_parts hs ht hu hm, he⟩)
  | clash => exact .inl rfl

/-- A comparison within the types of a set, in a store without cycles. -/
structure Bounded (P : Finset Ty) (c : Store × Ty × Ty) : Prop where
  acyclic : c.1.Acyclic
  holds : Holds P c.1
  left : c.2.1 ∈ P
  right : c.2.2 ∈ P

/-- How much is left to do: variables to bind first, then the resolved type. -/
def remaining (P : Finset Ty) (c : Store × Ty × Ty) : Nat × Nat :=
  ((c.1.freeIn P).card, (c.1.resolve c.2.1).size)

/-- The parts come to be compared with fewer variables left to bind, or as many and smaller
types. -/
theorem Compares.decreases {c d : Store × Ty × Ty} (h : Compares d c) (hc : Bounded P c) :
    Bounded P d ∧ Prod.Lex (· < ·) (· < ·) (remaining P d) (remaining P c) := by
  obtain ⟨hs, hP, ht, hu⟩ := hc
  cases h with
  | @part s s' t u p q before after hm hb =>
    have hmem := hP.meet_parts hs ht hu hm
    have hbefore : ∀ e ∈ before, e.1 ∈ P ∧ e.2 ∈ P :=
      fun e he => hmem e (List.mem_append_left _ he)
    have hsolve := unifyEach_unify_solve hb
    obtain ⟨hp, hq⟩ := hmem (p, q) (by simp)
    refine ⟨⟨Compares.acyclic (.part hm hb) hs, hP.solve hs hsolve hbefore, hp, hq⟩, ?_⟩
    -- The part may have grown if something was bound before it, but then a variable less is
    -- left.
    rcases hsolve.freeIn hs hP hbefore with hsame | hless
    · obtain rfl : s' = s := hsame
      exact .right _ (size_resolve_lt hs (Ty.part_of_meet hm (e := (p, q)) (by simp)).1)
    · exact .left _ _ hless

/-- No comparison goes on for ever. -/
theorem acc_compares_of_bounded {c : Store × Ty × Ty} (hc : Bounded P c) : Acc Compares c := by
  have hwf : WellFounded (InvImage (Prod.Lex (· < ·) (· < ·)) (remaining P)) :=
    InvImage.wf _ (WellFounded.prod_lex Nat.lt_wfRel.wf Nat.lt_wfRel.wf)
  induction c using hwf.induction with
  | _ c ih =>
    refine .intro c fun d hd => ?_
    obtain ⟨hbounded, hlt⟩ := hd.decreases hc
    exact ih d hlt hbounded

/-- No comparison of two types goes on for ever. -/
theorem acc_compares (hs : s.Acyclic) (t u : Ty) : Acc Compares (s, t, u) := by
  refine acc_compares_of_bounded (P := (s.allParts t u).toFinset)
    ⟨hs, allParts_holds s t u, ?_, ?_⟩
  · simp [allParts, Ty.self_mem_parts]
  · simp [allParts, Ty.self_mem_parts]

/-- In a store without cycles every loop and recursion over types ends. Chains of variables are
followed to their end. The search for a variable stops, with something pending exactly if the
variable occurs. Writing a type and making two types equal, whatever has been bound in between,
call for no endless row of smaller tasks. They give what their own recursions give, and
unification leaves a store without cycles. -/
theorem halts (hs : s.Acyclic) (t u : Ty) (v : TyVar) :
    Runs s.follow? t (s.deref t) ∧
    (∃ pending, Runs (s.search? v) [t] pending ∧ (s.occurs v t = true ↔ pending ≠ [])) ∧
    (Acc s.Writes t ∧ s.text t = (s.deref t).textWith s.text) ∧
    Acc Compares (s, t, u) ∧ unify t u s = unifyMet unify (s.deref t) (s.deref u) s ∧
      Ended (unify t u s) ∧ (endState (unify t u s)).Acyclic :=
  ⟨runs_follow hs t, runs_search hs v t, ⟨acc_writes hs t, text_eq hs t⟩, acc_compares hs t u,
    unify_eq hs t u, unify_ended hs t u, ((unify_solve hs t u).grows hs).acyclic hs⟩

/-- When the results are compared, that on the left is larger than both types were at first. -/
theorem halts_growing :
    let x (n : Nat) : TyVar := ⟨n, "T"⟩
    let s := Store.bind {} (x 1) (.pair (.var (x 0)) (.var (x 0)))
    let t := Ty.proc [.var (x 2), .var (x 3)] (.var (x 3))
    let u :=
      Ty.proc [.pair (.var (x 1)) (.var (x 1)), .pair (.var (x 2)) (.var (x 2))] (.var (x 4))
    s.Acyclic ∧ Acc Compares (s, t, u) ∧ Ended (unify t u s) ∧
      ∃ s', Compares (s', .var (x 3), .var (x 4)) (s, t, u) ∧
        (s.resolve t).size < (s'.resolve (.var (x 3))).size ∧
        (s.resolve u).size < (s'.resolve (.var (x 3))).size := by
  intro x s t u
  have hs : s.Acyclic :=
    bind_acyclic acyclic_empty rfl (not_reaches_of_occurs acyclic_empty (by decide))
  have hhalts := halts hs t u (x 0)
  refine ⟨hs, hhalts.2.2.2.1, hhalts.2.2.2.2.2.1, ?_⟩
  let s' := (s.bind (x 2) (.pair (.var (x 1)) (.var (x 1)))).bind (x 3)
    (.pair (.var (x 2)) (.var (x 2)))
  have hb : unifyEach unify [(.var (x 2), .pair (.var (x 1)) (.var (x 1))),
      (.var (x 3), .pair (.var (x 2)) (.var (x 2)))] s = .ok () s' := by rfl
  exact ⟨s', .part rfl hb, by decide, by decide⟩

end Store

end TypedL5
