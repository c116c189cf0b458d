import Mathlib.Data.Option.Basic
import TypedL5.Proofs.Simulation

/-! Computations that check, run side by side in two states that are the same up to a renaming
of variables. -/
namespace TypedL5

namespace CheckState

variable {f : TyVar → TyVar} {D : Set TyVar} {st st' m m' n n' : CheckState} {t t' : Ty}

/-- The variables of a set that have been taken, and whose counterparts have been taken too. -/
def shared (f : TyVar → TyVar) (D : Set TyVar) (st st' : CheckState) : Set TyVar :=
  {v | v ∈ D ∧ v.id < st.supply.next ∧ (f v).id < st'.supply.next}

/-- Two types are the same up to a renaming, each as it stands in its state. -/
def Alike (f : TyVar → TyVar) (D : Set TyVar) (st st' : CheckState) (t t' : Ty) : Prop :=
  Store.Alike f (shared f D st st') st.store st'.store t t'

/-- What is taken from the supplies from now on is renamed too. -/
structure Linked (f : TyVar → TyVar) (D : Set TyVar) (st st' : CheckState) : Prop where
  left : st.Valid
  right : st'.Valid
  inj : Set.InjOn f D
  sync : ∀ i, st.supply.nth i ∈ D ∧ f (st.supply.nth i) = st'.supply.nth i

/-- Two states come from two others, and what was the same up to a renaming still is. -/
structure Follows (f : TyVar → TyVar) (D : Set TyVar) (st st' m m' : CheckState) : Prop where
  linked : Linked f D m m'
  taken : shared f D st st' ⊆ shared f D m m'
  stays : ∀ t t', Alike f D st st' t t' → Alike f D m m' t t'

theorem Linked.injShared (h : Linked f D st st') : Set.InjOn f (shared f D st st') :=
  h.inj.mono fun _ hv => hv.1

theorem Follows.refl (h : Linked f D st st') : Follows f D st st' st st' :=
  ⟨h, subset_rfl, fun _ _ ha => ha⟩

theorem Follows.trans (h : Follows f D st st' m m') (h' : Follows f D m m' n n') :
    Follows f D st st' n n' :=
  ⟨h'.linked, h.taken.trans h'.taken, fun t t' ha => h'.stays t t' (h.stays t t' ha)⟩

/-- States count as the same here if they have the same supply and the same store. -/
theorem Follows.same (h : Linked f D st st') (hs : m.store = st.store)
    (hg : m.supply = st.supply) (hs' : m'.store = st'.store) (hg' : m'.supply = st'.supply) :
    Follows f D st st' m m' where
  linked :=
    { left := ⟨hs ▸ h.left.acyclic, by rw [hs, hg]; exact h.left.old⟩
      right := ⟨hs' ▸ h.right.acyclic, by rw [hs', hg']; exact h.right.old⟩
      inj := h.inj
      sync := by rw [hg, hg']; exact h.sync }
  taken := by rw [shared, shared, hg, hg']
  stays t t' ha := by
    unfold Alike shared at ha ⊢
    rwa [hs, hg, hs', hg']

theorem shared_draw (st st' : CheckState) (k : Nat) :
    shared f D st st' ⊆ shared f D { st with supply := (st.supply.takeNumbered k).2 }
      { st' with supply := (st'.supply.takeNumbered k).2 } := by
  rintro v ⟨hD, hv, hfv⟩
  refine ⟨hD, ?_, ?_⟩
  · simpa [Supply.takeNumbered_next] using Nat.lt_add_right k hv
  · simpa [Supply.takeNumbered_next] using Nat.lt_add_right k hfv

/-- Variables that are taken from both supplies at once are renamed to each other. -/
theorem Follows.draw (h : Linked f D st st') (k : Nat) :
    Follows f D st st' { st with supply := (st.supply.takeNumbered k).2 }
      { st' with supply := (st'.supply.takeNumbered k).2 } where
  linked :=
    { left := ⟨h.left.acyclic, fun v t ht => by
        simpa [Supply.takeNumbered_next] using Nat.lt_add_right k (h.left.old v t ht)⟩
      right := ⟨h.right.acyclic, fun v t ht => by
        simpa [Supply.takeNumbered_next] using Nat.lt_add_right k (h.right.old v t ht)⟩
      inj := h.inj
      sync := fun i => by
        rw [Supply.nth_takeNumbered, Supply.nth_takeNumbered]
        exact h.sync (k + i) }
  taken := shared_draw st st' k
  stays _ _ ha := ha.mono (shared_draw st st' k)

/-- What a store binds is old if all of it was, or stands in the types that are made equal. -/
theorem Valid.unify {u : Ty} {r : EStateM.Result Clash Store Unit} (h : st.Valid)
    (hr : Store.unify t u st.store = r) (hstore : m.store = endState r)
    (hsupply : m.supply = st.supply)
    (ht : ∀ v ∈ (st.store.resolve t).vars, v.id < st.supply.next)
    (hu : ∀ v ∈ (st.store.resolve u).vars, v.id < st.supply.next) : m.Valid := by
  have hsolve := Store.unify_solve h.acyclic t u
  rw [hr] at hsolve
  refine ⟨hstore ▸ (hsolve.grows h.acyclic).acyclic h.acyclic, fun v w hw => ?_⟩
  rw [hsupply]
  by_cases hv : st.store.Mentions [(t, u)] v
  · obtain ⟨e, he, hv⟩ := hv
    obtain rfl := List.mem_singleton.mp he
    exact hv.elim (ht v) (hu v)
  · rw [hstore, hsolve.untouched h.acyclic hv] at hw
    exact h.old v w hw

theorem Alike.id_left (h : Alike f D st st' t t') :
    ∀ v ∈ (st.store.resolve t).vars, v.id < st.supply.next :=
  fun v hv => (h.within v hv).2.1

theorem Alike.id_right (h : Alike f D st st' t t') :
    ∀ v ∈ (st'.store.resolve t').vars, v.id < st'.supply.next := by
  rw [h.resolved, Ty.vars_rename]
  intro v hv
  obtain ⟨w, hw, rfl⟩ := List.mem_map.mp hv
  exact (h.within w hw).2.2

end CheckState

open CheckState

/-- How a computation ends in two states: with answers of which `Q` holds, or with failures of
the same kind. What was the same up to a renaming still is, either way. -/
def Mirrors {α : Type} (f : TyVar → TyVar) (D : Set TyVar) (st st' : CheckState)
    (r r' : EStateM.Result Cause CheckState α) (Q : α → α → CheckState → CheckState →
      Prop) : Prop :=
  match r, r' with
  | .ok a m, .ok a' m' => Follows f D st st' m m' ∧ Q a a' m m'
  | .error c m, .error c' m' =>
    Follows f D st st' m m' ∧ ∀ s s', (c.failure s).kind = (c'.failure s').kind
  | _, _ => False

namespace Mirrors

variable {α β : Type} {f : TyVar → TyVar} {D : Set TyVar} {st st' : CheckState}
  {x x' : CheckM α} {k k' : α → CheckM β} {Q : α → α → CheckState → CheckState → Prop}
  {P : β → β → CheckState → CheckState → Prop} {t t' u u' : Ty}

theorem pure {a a' : α} (h : Linked f D st st') (ha : Q a a' st st') :
    Mirrors f D st st' ((Pure.pure a : CheckM α) st) ((Pure.pure a' : CheckM α) st') Q :=
  ⟨.refl h, ha⟩

theorem throw {c c' : Cause} (h : Linked f D st st')
    (hc : ∀ s s', (c.failure s).kind = (c'.failure s').kind) :
    Mirrors f D st st' ((throw c : CheckM α) st) ((MonadExcept.throw c' : CheckM α) st') Q :=
  ⟨.refl h, hc⟩

theorem endAlike_iff {r r' : EStateM.Result Cause CheckState α} : Mirrors f D st st' r r' Q ↔
    EndAlike (fun a a' m m' => Follows f D st st' m m' ∧ Q a a' m m')
      (fun c c' m m' => Follows f D st st' m m' ∧ ∀ s s', (c.failure s).kind =
        (c'.failure s').kind) r r' := by
  cases r <;> cases r' <;> exact Iff.rfl

theorem bind (hx : Mirrors f D st st' (x st) (x' st') Q)
    (hk : ∀ a a' m m', Follows f D st st' m m' → Q a a' m m' →
      Mirrors f D m m' (k a m) (k' a' m') P) :
    Mirrors f D st st' ((x >>= k) st) ((x' >>= k') st') P := by
  refine endAlike_iff.mpr ((endAlike_iff.mp hx).bind ?_)
  rintro a a' m m' ⟨hm, hQ⟩
  refine (endAlike_iff.mp (hk a a' m m' hm hQ)).imp ?_ ?_
  · rintro b b' n n' ⟨hn, hP⟩
    exact ⟨hm.trans hn, hP⟩
  · rintro c c' n n' ⟨hn, hc⟩
    exact ⟨hm.trans hn, hc⟩

/-- Equal up to a renaming, two pairs of types are made equal in the same way, or clash in the
same way. -/
theorem unify (h : Linked f D st st') (ht : Alike f D st st' t t') (hu : Alike f D st st' u u')
    (e e' : Exp) :
    Mirrors f D st st' (CheckM.unify t u e st) (CheckM.unify t' u' e' st')
      fun _ _ _ _ => True := by
  have hp := Store.unify_parallel h.left.acyclic h.right.acyclic h.injShared ht hu
  -- The stores after unification are those of the states, whether it has succeeded or not.
  have hfollows : ∀ {m m' : CheckState}, m.store = endState (Store.unify t u st.store) →
      m'.store = endState (Store.unify t' u' st'.store) → m.supply = st.supply →
      m'.supply = st'.supply → Follows f D st st' m m' := by
    intro m m' hs hs' hg hg'
    have htaken : shared f D m m' = shared f D st st' := by rw [shared, shared, hg, hg']
    refine ⟨⟨h.left.unify rfl hs hg ht.id_left hu.id_left,
      h.right.unify rfl hs' hg' ht.id_right hu.id_right, h.inj, ?_⟩, htaken.ge,
        fun q q' hq => ?_⟩
    · rw [hg, hg']
      exact h.sync
    · have hq := hp.stays q q' hq
      rw [← hs, ← hs', ← htaken] at hq
      exact hq
  have hend := hp.sameEnd
  cases hr : CheckM.unify t u e st with
  | ok a m =>
    obtain ⟨hok, hsupply⟩ := CheckM.unify_eq_ok hr
    cases hr' : CheckM.unify t' u' e' st' with
    | ok a' m' =>
      obtain ⟨hok', hsupply'⟩ := CheckM.unify_eq_ok hr'
      exact ⟨hfollows (by rw [hok]; rfl) (by rw [hok']; rfl) hsupply hsupply', trivial⟩
    | error c' m' =>
      obtain ⟨k', _, herr', _⟩ := CheckM.unify_eq_error hr'
      rw [hok, herr'] at hend
      exact hend.elim
  | error c m =>
    obtain ⟨k, rfl, herr, hsupply⟩ := CheckM.unify_eq_error hr
    cases hr' : CheckM.unify t' u' e' st' with
    | ok a' m' =>
      rw [herr, (CheckM.unify_eq_ok hr').1] at hend
      exact hend.elim
    | error c' m' =>
      obtain ⟨k', rfl, herr', hsupply'⟩ := CheckM.unify_eq_error hr'
      rw [herr, herr'] at hend
      exact ⟨hfollows (by rw [herr]; rfl) (by rw [herr']; rfl) hsupply hsupply', fun s s' =>
        hend s s' e e'⟩

theorem of_ok {a : α} {m : CheckState} {r : EStateM.Result Cause CheckState α}
    (h : Mirrors f D st st' (.ok a m) r Q) : ∃ a' m', r = .ok a' m' ∧ Q a a' m m' := by
  cases r with
  | ok a' m' => exact ⟨a', m', rfl, h.2⟩
  | error c m' => exact h.elim

theorem derived {e e' : Exp} (h : Linked f D st st') (ht : Alike f D st st' t t') :
    Mirrors f D st st' (CheckM.derived e t st) (CheckM.derived e' t' st')
      fun t t' m m' => Alike f D m m' t t' := by
  have hm : Follows f D st st' (st.noteType e t) (st'.noteType e' t') :=
    .same h (by simp) (by simp) (by simp) (by simp)
  exact ⟨hm, hm.stays t t' ht⟩

end Mirrors

namespace Scheme

theorem lookup_zip_map {vs ws : List TyVar} (f : TyVar → TyVar) (v : TyVar) :
    (vs.zip (ws.map f)).lookup v = ((vs.zip ws).lookup v).map f := by
  induction vs generalizing ws with
  | nil => rfl
  | cons x vs ih =>
    cases ws with
    | nil => rfl
    | cons w ws =>
      simp only [List.map_cons, List.zip_cons_cons, List.lookup_cons, ih]
      split <;> rfl

/-- The instance with renamed variables is the renamed instance. -/
theorem rename_map {σ : Scheme} (hσ : σ.Proper) {vs : List TyVar}
    (hl : σ.vars.length = vs.length) (hv : vs.Nodup) (f : TyVar → TyVar) :
    σ.rename (vs.map f) = (σ.rename vs).rename f := by
  rw [rename, rename, Ty.rename, Ty.subst_subst]
  refine Ty.subst_congr fun v hb => ?_
  obtain ⟨w, _, hw, _⟩ := lookup_zip hl hσ.nodup hv (hσ.closed v hb)
  simp [lookup_zip_map, hw]

end Scheme

namespace CheckState

variable {f : TyVar → TyVar} {D : Set TyVar} {st st' : CheckState} {σ : Scheme}

/-- The variables of a new instance are not bound yet. -/
theorem Valid.resolve_instantiate (h : st.Valid) (hσ : σ.Proper) :
    st.store.resolve (σ.instantiate st.supply).1 = (σ.instantiate st.supply).1 := by
  refine Store.resolve_of_unbound h.acyclic fun v hv => h.unbound ?_
  exact (Supply.id_of_mem_takeNumbered (Scheme.mem_vars_instantiate hσ hv)).1

/-- The uses of an operator in two states take variables that are renamed into each other. -/
theorem Linked.instantiate (h : Linked f D st st') (hσ : σ.Proper) :
    (σ.instantiate st'.supply).1 = (σ.instantiate st.supply).1.rename f := by
  have hmap : (st'.supply.takeNumbered σ.vars.length).1 =
      (st.supply.takeNumbered σ.vars.length).1.map f := by
    rw [Supply.takeNumbered_eq, Supply.takeNumbered_eq, List.map_map]
    exact List.map_congr_left fun i _ => (h.sync i).2.symm
  have hrename := Scheme.rename_map hσ (st.supply.takeNumbered_length _).symm
    (st.supply.takeNumbered_nodup _) f
  rw [← hmap] at hrename
  exact hrename

/-- A new instance is made of variables that both states have taken. -/
theorem Linked.within_instantiate (h : Linked f D st st') (hσ : σ.Proper) :
    (σ.instantiate st.supply).1.Within
      (shared f D { st with supply := (σ.instantiate st.supply).2 }
      { st' with supply := (σ.instantiate st'.supply).2 }) := by
  intro v hv
  have hmem := Scheme.mem_vars_instantiate hσ hv
  rw [Supply.takeNumbered_eq] at hmem
  obtain ⟨i, hi, rfl⟩ := List.mem_map.mp hmem
  have hlt := List.mem_range.mp hi
  obtain ⟨hD, hf⟩ := h.sync i
  refine ⟨hD, ?_, ?_⟩
  · simpa [Scheme.instantiate, Supply.takeNumbered_next, Supply.nth] using hlt
  · rw [hf]
    simpa [Scheme.instantiate, Supply.takeNumbered_next, Supply.nth] using hlt

end CheckState

/-- An instance of a signature is renamed to the instance that is taken on the other side. -/
theorem Mirrors.primitive {f : TyVar → TyVar} {D : Set TyVar} {st st' : CheckState}
    (h : Linked f D st st') (op : String) :
    Mirrors f D st st' (Primitive.typeOf op st) (Primitive.typeOf op st')
      fun t t' m m' => Alike f D m m' t t' := by
  cases hop : Primitive.signature? op with
  | none =>
    rw [Primitive.typeOf, hop]
    exact .throw h fun _ _ => rfl
  | some σ =>
    have hσ := Primitive.proper_of_signature hop
    have hleft := h.left.resolve_instantiate hσ
    have hright := h.right.resolve_instantiate hσ
    rw [Primitive.typeOf_apply hop, Primitive.typeOf_apply hop]
    refine ⟨.draw h σ.vars.length, ?_, ?_⟩
    · exact hright.trans ((h.instantiate hσ).trans (congrArg (Ty.rename f) hleft.symm))
    · rw [hleft]
      exact h.within_instantiate hσ

end TypedL5
