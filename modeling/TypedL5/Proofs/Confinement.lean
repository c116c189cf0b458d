import Mathlib.Data.Set.Basic
import TypedL5.Proofs.CheckStep
import TypedL5.Proofs.Draw
import TypedL5.Proofs.Footprint
import TypedL5.Proofs.Instance
import TypedL5.Proofs.Occurrence

/-!
Checks stay within any set of variables that holds the types they are given, what those are
bound to, and all variables yet to be taken.
-/
namespace TypedL5

/-- All variables of a type are in a set. -/
def Ty.Within (G : Set TyVar) (t : Ty) : Prop := ∀ v ∈ t.vars, v ∈ G

namespace Ty

variable {G G' : Set TyVar} {t p : Ty}

theorem Within.mono (h : t.Within G) (hG : G ⊆ G') : t.Within G' := fun v hv => hG (h v hv)

theorem Within.part (h : t.Within G) (hp : Part p t) : p.Within G :=
  fun v hv => h v (vars_subset_of_part hp hv)

theorem within_base (b : BaseTy) : (Ty.base b).Within G := by simp [Within]

theorem within_proc {ps : List Ty} {r : Ty} :
    (Ty.proc ps r).Within G ↔ (∀ p ∈ ps, p.Within G) ∧ r.Within G := by
  simp only [Within, vars_proc, List.forall_mem_append, List.mem_flatMap, forall_exists_index,
    and_imp]
  exact and_congr_left fun _ => forall_comm.trans (forall_congr' fun p => forall_comm)

end Ty

namespace Store

variable {G : Set TyVar} {s s' : Store} {t u w : Ty} {v : TyVar} {eqs : List (Ty × Ty)}
  {r : EStateM.Result Clash Store Unit}

/-- What the variables of a set are bound to is within the set. -/
def ClosedOn (G : Set TyVar) (s : Store) : Prop :=
  ∀ v ∈ G, ∀ t, s.contents? v = some t → t.Within G

theorem ClosedOn.earlier (h : s'.ClosedOn G) (hext : s.ExtendedBy s') : s.ClosedOn G :=
  fun v hv t ht => h v hv t (hext v t ht)

theorem ClosedOn.mem_of_reaches (h : s.ClosedOn G) (ht : t.Within G) (hr : s.Reaches t v) :
    v ∈ G := by
  obtain ⟨w, hw, hl⟩ := hr
  induction hl with
  | refl => exact ht w hw
  | tail _ hl ih =>
    obtain ⟨u, hu, hx⟩ := hl
    exact h _ ih u hu _ hx

theorem ClosedOn.deref (h : s.ClosedOn G) (hs : s.Acyclic) (ht : t.Within G) :
    (s.deref t).Within G := by
  induction t using hs.induction with
  | base b => simpa using ht
  | free v hv => rwa [deref_unbound hv]
  | bound v u hv ih =>
    rw [deref_bound hs hv]
    exact ih (h v (ht v (by simp)) u hv)
  | pair l r => simpa using ht
  | proc ps r => simpa using ht

/-- A new binding leaves the set closed if its contents lie within. -/
theorem ClosedOn.bind (h : s.ClosedOn G) (hw : w.Within G) : (s.bind v w).ClosedOn G := by
  intro x hx t ht
  rw [contents?_bind] at ht
  split at ht
  · cases ht
    exact hw
  · exact h x hx t ht

/-- What is bound is a variable of the set, and to a type within it. -/
theorem ClosedOn.meet (h : s.ClosedOn G) (hs : s.Acyclic) (ht : t.Within G) (hu : u.Within G)
    (hm : (s.deref t).meet (s.deref u) = .bind v w) : v ∈ G ∧ w.Within G := by
  have ht := h.deref hs ht
  have hu := h.deref hs hu
  rcases Ty.meet_bind hm with ⟨he, rfl⟩ | ⟨he, rfl⟩
  · exact ⟨ht v (by simp [he]), hu⟩
  · exact ⟨hu v (by simp [he]), ht⟩

/-- Both sides of each equation are within a set. -/
def WithinAll (G : Set TyVar) (eqs : List (Ty × Ty)) : Prop :=
  ∀ e ∈ eqs, e.1.Within G ∧ e.2.Within G

/-- Solving equations within a closed set binds nothing outside it. -/
theorem Solve.confined (hsolve : Solve s eqs r) (hs : s.Acyclic) (hG : s.ClosedOn G)
    (heqs : WithinAll G eqs) :
    (endState r).ClosedOn G ∧ ∀ v ∉ G, (endState r).contents? v = s.contents? v := by
  induction hsolve with
  | done s => exact ⟨hG, fun _ _ => rfl⟩
  | @bind s t u v w eqs r hm ho _ ih =>
    obtain ⟨⟨ht, hu⟩, heqs⟩ := List.forall_mem_cons.mp heqs
    obtain ⟨hv, hw⟩ := hG.meet hs ht hu hm
    obtain ⟨hclosed, hsame⟩ := ih ((grows_of_meet hs hm ho).acyclic hs) (hG.bind hw) heqs
    refine ⟨hclosed, fun x hx => ?_⟩
    have hxv : x ≠ v := by
      rintro rfl
      exact hx hv
    rw [hsame x hx, contents?_bind, if_neg hxv]
  | cycle => exact ⟨hG, fun _ _ => rfl⟩
  | parts hm _ ih =>
    obtain ⟨⟨ht, hu⟩, heqs⟩ := List.forall_mem_cons.mp heqs
    refine ih hs hG (List.forall_mem_append.mpr ⟨fun e he => ?_, heqs⟩)
    obtain ⟨hp, hq⟩ := Ty.part_of_meet hm he
    exact ⟨(hG.deref hs ht).part hp, (hG.deref hs hu).part hq⟩
  | clash => exact ⟨hG, fun _ _ => rfl⟩

end Store

namespace CheckState

variable {F : Set TyVar} {st st' st'' : CheckState} {t : Ty}

/-- The variables of a set that have been taken so far. -/
def scope (F : Set TyVar) (st : CheckState) : Set TyVar := {v | v ∈ F ∧ v.id < st.supply.next}

/-- A set of variables is one that a check can stay within. -/
structure Confined (F : Set TyVar) (st : CheckState) : Prop extends st.Valid where
  closed : st.store.ClosedOn (st.scope F)
  fresh : ∀ i, st.supply.nth i ∈ F

/-- A check within a set gets from one state to another. -/
structure Moves (F : Set TyVar) (st st' : CheckState) : Prop where
  confined : st'.Confined F
  next_le : st.supply.next ≤ st'.supply.next
  grown : st.store.Grows st'.store
  outside : ∀ v ∉ F, st'.store.contents? v = st.store.contents? v

theorem Moves.refl (h : st.Confined F) : Moves F st st :=
  ⟨h, Nat.le_refl _, .refl, fun _ _ => rfl⟩

theorem Moves.trans (h : Moves F st st') (h' : Moves F st' st'') : Moves F st st'' where
  confined := h'.confined
  next_le := Nat.le_trans h.next_le h'.next_le
  grown := h.grown.trans h'.grown
  outside v hv := (h'.outside v hv).trans (h.outside v hv)

theorem Moves.within (h : Moves F st st') (ht : t.Within (st.scope F)) :
    t.Within (st'.scope F) :=
  ht.mono fun _ hv => ⟨hv.1, Nat.lt_of_lt_of_le hv.2 h.next_le⟩

theorem Confined.note (h : st.Confined F) (e : Exp) (t : Ty) :
    (st.noteType e t).Confined F where
  acyclic := by simpa using h.acyclic
  old := by simpa using h.old
  closed := by simpa [scope] using h.closed
  fresh := by simpa using h.fresh

theorem Moves.note (h : st.Confined F) (e : Exp) (t : Ty) : Moves F st (st.noteType e t) where
  confined := h.note e t
  next_le := by simp
  grown := by simpa using Store.Grows.refl
  outside := by simp

/-- Taking variables makes none reachable that was not. -/
theorem Moves.draw (h : st.Confined F) (n : Nat) :
    Moves F st { st with supply := (st.supply.takeNumbered n).2 } := by
  have hle : st.supply.next ≤ (st.supply.takeNumbered n).2.next := by
    rw [Supply.takeNumbered_next]
    exact Nat.le_add_right _ _
  exact {
    confined :=
      { acyclic := h.acyclic
        old := fun v t ht => Nat.lt_of_lt_of_le (h.old v t ht) hle
        closed := by
          rintro v ⟨hF, _⟩ t ht w hw
          obtain ⟨hF, hlt⟩ := h.closed v ⟨hF, h.old v t ht⟩ t ht w hw
          exact ⟨hF, Nat.lt_of_lt_of_le hlt hle⟩
        fresh := fun i => by
          rw [Supply.nth_takeNumbered]
          exact h.fresh (n + i) }
    next_le := hle
    grown := .refl
    outside := fun _ _ => rfl }

/-- Unification within the scope moves only what is in scope. -/
theorem Moves.unify {u : Ty} {r : EStateM.Result Clash Store Unit} (h : st.Confined F)
    (ht : t.Within (st.scope F)) (hu : u.Within (st.scope F))
      (hr : Store.unify t u st.store = r)
    (hstore : st'.store = endState r) (hsupply : st'.supply = st.supply) : Moves F st st' := by
  have hsolve := Store.unify_solve h.acyclic t u
  obtain ⟨hclosed, hsame⟩ :=
    hsolve.confined h.acyclic h.closed (by simp [Store.WithinAll, ht, hu])
  have hg := hsolve.grows h.acyclic
  rw [hr, ← hstore] at hclosed hsame hg
  have hold : ∀ v w, st'.store.contents? v = some w → v.id < st.supply.next := by
    intro v w hw
    by_cases hv : v ∈ st.scope F
    · exact hv.2
    · exact h.old v w (hsame v hv ▸ hw)
  refine ⟨⟨⟨hg.acyclic h.acyclic, ?_⟩, ?_, ?_⟩, ?_, hg, fun v hv => hsame v fun hs => hv hs.1⟩
  · rwa [hsupply]
  · rwa [scope, hsupply]
  · rw [hsupply]
    exact h.fresh
  · rw [hsupply]

/-- A check within a set gets from one state to another, and the uses of operators on its way
are known. -/
structure Logged (F : Set TyVar) (st : CheckState) (log : List Draw) (st' : CheckState) : Prop
    extends Moves F st st' where
  moments : ∀ d ∈ log, Moves F st d.state ∧ Moves F d.state st'
  drawn : (log.flatMap Draw.vars).map TyVar.id =
    List.range' st.supply.next (st'.supply.next - st.supply.next)

theorem Moves.unlogged (h : Moves F st st') (hn : st'.supply.next = st.supply.next) :
    Logged F st [] st' where
  toMoves := h
  moments := by simp
  drawn := by simp [hn]

theorem Logged.trans {log log' : List Draw} (h : Logged F st log st')
    (h' : Logged F st' log' st'') : Logged F st (log ++ log') st'' where
  toMoves := h.toMoves.trans h'.toMoves
  moments := by
    rw [List.forall_mem_append]
    refine ⟨fun d hd => ?_, fun d hd => ?_⟩
    · obtain ⟨h₁, h₂⟩ := h.moments d hd
      exact ⟨h₁, h₂.trans h'.toMoves⟩
    · obtain ⟨h₁, h₂⟩ := h'.moments d hd
      exact ⟨h.toMoves.trans h₁, h₂⟩
  drawn := by
    have hle := h.next_le
    have hle' := h'.next_le
    rw [List.flatMap_append, List.map_append, h.drawn, h'.drawn]
    have hm : st'.supply.next = st.supply.next + 1 *
      (st'.supply.next - st.supply.next) := by omega
    nth_rewrite 2 [hm]
    rw [List.range'_append]
    congr 1
    omega

end CheckState

open CheckState

/-- How a check within a set ends, with the uses of operators on its way. -/
def Answers {α : Type} (F : Set TyVar) (st : CheckState) (log : List Draw)
    (r : EStateM.Result Cause CheckState α) (Q : α → CheckState → Prop) : Prop :=
  match r with
  | .ok a st' => Logged F st log st' ∧ Q a st'
  | .error _ st' => Logged F st log st'

namespace Answers

variable {α β : Type} {x : CheckM α} {f : α → CheckM β} {F : Set TyVar} {st : CheckState}
  {log : List Draw} {Q : α → CheckState → Prop} {Q' : β → CheckState → Prop}

theorem pure {a : α} (h : st.Confined F) (ha : Q a st) :
    Answers F st [] ((Pure.pure a : CheckM α) st) Q :=
  ⟨(Moves.refl h).unlogged rfl, ha⟩

theorem throw (h : st.Confined F) (c : Cause) :
    Answers F st [] ((throw c : CheckM α) st) Q :=
  (Moves.refl h).unlogged rfl

theorem bind {next : α → CheckState → List Draw} (hx : Answers F st log (x st) Q)
    (hf : ∀ a m, Moves F st m → Q a m → Answers F m (next a m) (f a m) Q') :
    Answers F st (log ++ after (x st) next) ((x >>= f) st) Q' := by
  rw [bind_apply]
  cases hr : x st with
  | error c m =>
    rw [hr] at hx
    rw [after, List.append_nil]
    exact hx
  | ok a m =>
    rw [hr] at hx
    obtain ⟨hlog, hQ⟩ := hx
    have hfa := hf a m hlog.toMoves hQ
    simp only [after]
    cases hr' : f a m with
    | ok b m' =>
      rw [hr'] at hfa
      exact ⟨hlog.trans hfa.1, hfa.2⟩
    | error c m' =>
      rw [hr'] at hfa
      exact hlog.trans hfa

/-- A computation that uses no operators adds nothing. -/
theorem bind_quiet (hx : Answers F st log (x st) Q)
    (hf : ∀ a m, Moves F st m → Q a m → Answers F m [] (f a m) Q') :
    Answers F st log ((x >>= f) st) Q' := by
  have hn : after (x st) (fun _ _ => ([] : List Draw)) = [] := by
    cases x st <;> rfl
  simpa [hn] using hx.bind hf

theorem logged (hx : Answers F st log (x st) Q) : Logged F st log (endState (x st)) := by
  cases hr : x st with
  | ok a m =>
    rw [hr] at hx
    exact hx.1
  | error c m =>
    rw [hr] at hx
    exact hx

theorem unify {t u : Ty} (h : st.Confined F) (ht : t.Within (st.scope F))
    (hu : u.Within (st.scope F)) (e : Exp) :
    Answers F st [] (CheckM.unify t u e st) fun _ _ => True := by
  cases hr : CheckM.unify t u e st with
  | ok a m =>
    obtain ⟨hok, hsupply⟩ := CheckM.unify_eq_ok hr
    exact ⟨(Moves.unify h ht hu hok rfl hsupply).unlogged (by rw [hsupply]), trivial⟩
  | error c m =>
    obtain ⟨k, _, herr, hsupply⟩ := CheckM.unify_eq_error hr
    exact (Moves.unify h ht hu herr rfl hsupply).unlogged (by rw [hsupply])

theorem derived {e : Exp} {t : Ty} (h : st.Confined F) (ht : t.Within (st.scope F)) :
    Answers F st [] (CheckM.derived e t st) fun t m => t.Within (m.scope F) := by
  refine ⟨(Moves.note h e t).unlogged (by simp), ?_⟩
  exact (Moves.note h e t).within ht

/-- A primitive draws one instance of its signature, and its type is made of what it drew. -/
theorem primitive (h : st.Confined F) (op : String) :
    Answers F st ((Primitive.signature? op).toList.map fun σ => ⟨st, σ⟩)
      (Primitive.typeOf op st) fun t m => t.Within (m.scope F) := by
  cases hσ : Primitive.signature? op with
  | none =>
    rw [Primitive.typeOf, hσ]
    exact .throw h _
  | some σ =>
    rw [Primitive.typeOf_apply hσ]
    have hproper := Primitive.proper_of_signature hσ
    have hmoves : Moves F st { st with supply := (σ.instantiate st.supply).2 } :=
      .draw h σ.vars.length
    have hnext : (σ.instantiate st.supply).2.next = st.supply.next + σ.vars.length :=
      st.supply.takeNumbered_next _
    refine ⟨⟨hmoves, ?_, ?_⟩, ?_⟩
    · simp only [Option.toList_some, List.map_cons, List.map_nil, List.mem_singleton]
      rintro d rfl
      exact ⟨.refl h, hmoves⟩
    · have hids : (Draw.vars ⟨st, σ⟩).map TyVar.id =
        List.range' st.supply.next σ.vars.length :=
        st.supply.takeNumbered_ids _
      simp [hnext, hids]
    · intro v hv
      have hmem := Scheme.mem_vars_instantiate hproper hv
      refine ⟨?_, Nat.lt_of_lt_of_eq (Supply.id_of_mem_takeNumbered hmem).2 hnext.symm⟩
      rw [Supply.takeNumbered_eq] at hmem
      obtain ⟨i, _, rfl⟩ := List.mem_map.mp hmem
      exact h.fresh i

end Answers

end TypedL5
