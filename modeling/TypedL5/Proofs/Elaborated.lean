import TypedL5.Proofs.Independence
import TypedL5.Proofs.RoundTrip
import TypedL5.Proofs.Settled

/-!
Checks of an expression with the types that a check has found for it.

The second check is compared with the first in two steps. The first step keeps the expression
and gives the variables of its types their ground types beforehand; the second step puts the
ground types into the expression and begins anew.
-/
namespace TypedL5

open EStateM (Result)

/-- Two states of one check, with ground types for some variables in the second. -/
structure CheckState.Settles (ts : List Ty) (ρ : Assignment) (st st' : CheckState) : Prop where
  supply : st'.supply = st.supply
  store : Store.Settles ts ρ st.store st'.store

/-- If a computation ends with an answer, and the assignment satisfies the store at the end, it
ends with an answer in the second state too. -/
def Recurs {α : Type} (ts : List Ty) (ρ : Assignment) (st' : CheckState)
    (r r' : Result Cause CheckState α) (Q : α → α → CheckState → CheckState → Prop) : Prop :=
  ∀ a m, r = .ok a m → m.store.Acyclic ∧ (ρ.Satisfies m.store → ∃ a' m', r' = .ok a' m' ∧
    m.Settles ts ρ m' ∧ st'.store.ExtendedBy m'.store ∧ Q a a' m m')

namespace Recurs

variable {α β : Type} {ts : List Ty} {ρ : Assignment} {st st' : CheckState} {t t' u u' : Ty}
  {Q : α → α → CheckState → CheckState → Prop} {P : β → β → CheckState → CheckState → Prop}

theorem pure {a a' : α} (h : st.Settles ts ρ st') (hQ : Q a a' st st') :
    Recurs ts ρ st' ((Pure.pure a : CheckM α) st) ((Pure.pure a' : CheckM α) st') Q := by
  rintro _ _ ⟨⟩
  exact ⟨h.store.left, fun _ => ⟨a', st', rfl, h, fun _ _ hv => hv, hQ⟩⟩

theorem error {c : Cause} {r' : Result Cause CheckState α} :
    Recurs ts ρ st' (.error c st) r' Q := by
  rintro _ _ ⟨⟩

/-- A second check that keeps up with the first part keeps up with the whole. -/
theorem bind {x x' : CheckM α} {k k' : α → CheckM β} [hadd : ∀ a, Additive (k a)]
    (hx : Recurs ts ρ st' (x st) (x' st') Q)
    (hk : ∀ a a' m m', m.Settles ts ρ m' ∧ st'.store.ExtendedBy m'.store → Q a a' m m' →
      Recurs ts ρ m' (k a m) (k' a' m') P) : Recurs ts ρ st' ((x >>= k) st)
        ((x' >>= k') st') P := by
  intro b n hb
  obtain ⟨a, m, ha, hb⟩ := bind_eq_ok_iff.mp hb
  obtain ⟨hm, hx⟩ := hx a m ha
  have hgrows := (hadd a).grows m hm
  rw [hb] at hgrows
  refine ⟨hgrows.acyclic hm, fun hρ => ?_⟩
  obtain ⟨a', m', ha', hsettles, hext, hQ⟩ := hx fun v t ht => hρ v t (hgrows.extends v t ht)
  obtain ⟨b', n', hb', hsettles', hext', hP⟩ := (hk a a' m m' ⟨hsettles, hext⟩ hQ b n hb).2 hρ
  exact ⟨b', n', bind_eq_ok_iff.mpr ⟨a', m', ha', hb'⟩, hsettles', hext.trans hext', hP⟩

/-- Types that the settled store already makes equal unify there without a clash. -/
theorem unify
    (e e' : Exp) (h : st.Settles ts ρ st') (ht : st'.store.resolve t' = st'.store.resolve t)
    (hu : st'.store.resolve u' = st'.store.resolve u) :
    Recurs ts ρ st' (CheckM.unify t u e st) (CheckM.unify t' u' e' st')
      fun _ _ _ _ => True := by
  intro a m hr
  obtain ⟨hok, hsupply⟩ := CheckM.unify_eq_ok hr
  have hsolve := Store.unify_solve h.store.left t u
  rw [hok] at hsolve
  refine ⟨(hsolve.grows h.store.left).acyclic h.store.left, fun hρ => ?_⟩
  have heqs : List.Forall₂ (Ty.RelEq fun q q' => st'.store.resolve q' = st'.store.resolve q)
    [(t, u)] [(t', u')] :=
    .cons ⟨ht, hu⟩ .nil
  obtain ⟨s, hsolve', hsettles⟩ := hsolve.settled h.store hρ heqs
  have hok' : Store.unify t' u' st'.store = .ok () s :=
    (Store.unify_solve h.store.right t' u').unique hsolve'
  refine ⟨(), st'.withStore s, by rw [CheckM.unify, hok'], ⟨?_, hsettles⟩,
    (hsolve'.grows h.store.right).extends, trivial⟩
  rw [hsupply]
  exact h.supply

theorem derived (e e' : Exp) (h : st.Settles ts ρ st')
    (ht : st'.store.resolve t' = st'.store.resolve t) :
    Recurs ts ρ st' (CheckM.derived e t st) (CheckM.derived e' t' st') fun t t' _ m' =>
      m'.store.resolve t' = m'.store.resolve t := by
  rintro _ _ ⟨⟩
  refine ⟨by simpa using h.store.left, fun _ =>
    ⟨t', st'.noteType e' t', rfl, ⟨?_, ?_⟩, ?_, ?_⟩⟩
  · simpa using h.supply
  · simpa using h.store
  · simp [Store.ExtendedBy]
  · simpa using ht

/-- A fresh instance in the second check is matched to the one in the first. -/
theorem primitive (op : String) (h : st.Settles ts ρ st') :
    Recurs ts ρ st' (Primitive.typeOf op st) (Primitive.typeOf op st') fun t t' _ m' =>
      m'.store.resolve t' = m'.store.resolve t := by
  cases hσ : Primitive.signature? op with
  | none =>
    rw [Primitive.typeOf, hσ]
    exact error
  | some σ =>
    rw [Primitive.typeOf_apply hσ, Primitive.typeOf_apply hσ, h.supply]
    rintro _ _ ⟨⟩
    exact ⟨h.store.left, fun _ => ⟨_, _, rfl, ⟨rfl, h.store⟩, fun _ _ hv => hv, rfl⟩⟩

end Recurs

/-- Checks of one expression in two states, with ground types for some variables in the
second. -/
def Lockstep.settle (ts : List Ty) (ρ : Assignment) : Lockstep where
  onTy := id
  Sees _ _ := True
  Linked := CheckState.Settles ts ρ
  Alike _ st' t t' := st'.store.resolve t' = st'.store.resolve t
  Follows _ st' m m' := m.Settles ts ρ m' ∧ st'.store.ExtendedBy m'.store
  Runs _ := Recurs ts ρ
  sees_extend _ _ := trivial
  follows_trans h h' := ⟨h'.1, h.2.trans h'.2⟩
  linked_of_follows h := h.1
  alike_of_follows h ht := h.2.resolve_inj h.1.store.right ht
  alike_closed _ _ := rfl
  alike_proc hps hr := by
    rw [Store.resolve_proc, Store.resolve_proc, hr]
    congr 1
    induction hps with
    | nil => rfl
    | cons hp _ ih => rw [List.map_cons, List.map_cons, hp, ih]
  pure := .pure
  throw _ _ := .error
  bind := .bind
  unbound _ _ _ := .error
  primitive := .primitive
  derived e := .derived e _
  unify e := .unify e _
  headed h ht hd := by
    have hheads := h.store.heads ht (by simp [hd])
    rw [hd] at hheads
    generalize Store.deref _ _ = d at hheads ⊢
    cases hheads with
    | proc hps hr => exact ⟨_, _, rfl, hps, hr⟩
  stuck _ _ hn := by
    rw [Exp.applied_of_not_proc hn]
    exact .error

section

open CheckState (Linked)

variable {check : Exp → CheckM Ty} {e : Exp} {st st' m : CheckState} {t : Ty}

/-- Checks that know no names, of an expression or of a program. -/
theorem Lockstep.alone (K : Lockstep)
    (hcheck : check = Exp.typeOf {} ∨ check = Exp.typeOfProgram {}) (hl : K.Linked st st')
    (hs : K.Sees {} {}) (htys : ∀ t ∈ e.used, K.Alike st st' t (K.onTy t)) :
    K.Runs st st' (check e st) (check (e.mapTy K.onTy) st') fun t t' m m' =>
      K.Alike m m' t t' := by
  have h : K.Paired {} {} e.used e.free st st' := ⟨hl, hs, htys, fun _ _ => .none⟩
  rcases hcheck with rfl | rfl
  · exact K.typeOf h
  · exact K.typeOfProgram h

/-- If all types of an expression become ground, it can be checked with their ground types
known beforehand. -/
theorem exists_settled_check (hcheck : check = Exp.typeOf {} ∨ check = Exp.typeOfProgram {})
    (hst : st.store.Acyclic) (h : check e st = .ok t m)
      (hground : ∀ u ∈ e.used, (m.store.resolve u).vars = []) :
    ∃ s, (∀ u ∈ e.used, s.resolve u = m.store.resolve u) ∧ s.Acyclic ∧
      (∀ v u, s.contents? v = some u → st.store.contents? v = some u ∨
        v ∈ st.store.openVars e.used) ∧
      ∃ t' m', check e { st with store := s } = .ok t' m' ∧ m'.store.resolve t' =
        m.store.resolve t := by
  have hgrows : st.store.Grows m.store := by
    have hkeeps : Keeps (fun st st' => st.store.Acyclic → st.store.Grows st'.store)
        (check e) := by
      rcases hcheck with rfl | rfl
      · exact CheckStep.growth.rules.exp {} e
      · exact CheckStep.growth.typeOfProgram {} e
    have hgrows := hkeeps st hst
    rw [h] at hgrows
    exact hgrows
  have hm := hgrows.acyclic hst
  -- The store in the end says what each of the types becomes. Nothing is left open in them, so
  -- any ground type will do.
  let ρ := m.store.solution fun _ => .base .void
  have hρ : ρ.Satisfies m.store := Store.solution_satisfies hm _
  obtain ⟨s, hsettles, hbound⟩ :=
    Store.exists_settles hst (fun v u hu => hρ v u (hgrows.extends v u hu)) e.used
  have hlinked : st.Settles e.used ρ { st with store := s } := ⟨rfl, hsettles⟩
  have hrun := (Lockstep.settle e.used ρ).alone (e := e) hcheck hlinked trivial fun _ _ => rfl
  rw [show e.mapTy (Lockstep.settle e.used ρ).onTy = e from e.mapTy_id] at hrun
  obtain ⟨t', m', hok, hend, _, ht⟩ := (hrun t m h).2 hρ
  refine ⟨s, fun u hu => ?_, hsettles.right, hbound, t', m', hok, ?_⟩
  · rw [hsettles.resolve_of_mem hu, ← Store.eval_resolve hm hρ u, Ty.toTy_eval (hground u hu)]
  · exact Eq.trans ht (hend.store.resolve_of_closed hground t)

/-- An expression whose types all become ground in a check, but for those of names that
recursive bindings bind, can be checked anew with the types that have been found, which are the
ones it is written with after the check. The type is the same up to a renaming of variables. -/
theorem elaborated_checks (hcheck : check = Exp.typeOf {} ∨ check = Exp.typeOfProgram {})
    (hst : st.Ahead) (htys : ∀ u ∈ e.tys, st.supply.Covers u) (h : check e st = .ok t m)
    (hground : ∀ u ∈ e.used, (m.store.resolve u).vars = []) (g : Supply) :
    (e.mapTy m.store.resolve).text {} = e.text m.store ∧
      ∃ t' m', check (e.mapTy m.store.resolve) { supply := g } = .ok t' m' ∧
        ∃ π : Equiv.Perm TyVar, m'.store.resolve t' = (m.store.resolve t).rename π := by
  refine ⟨Exp.text_mapTy fun u _ => Store.text_of_unbound Store.acyclic_empty
    fun _ _ => rfl, ?_⟩
  obtain ⟨s, hs, hacyclic, hbound, t₁, m₁, hok, ht₁⟩ :=
    exists_settled_check hcheck hst.acyclic h hground
  have hold : ∀ v u, s.contents? v = some u → v.id < st.supply.next := by
    intro v u hu
    rcases hbound v u hu with hu | hopen
    · exact hst.old v u hu
    · obtain ⟨u, hu, hv⟩ := List.mem_flatMap.mp hopen
      exact hst.covers_resolve (htys u (e.used_subset_tys hu)) v hv
  let f := Supply.across st.supply g [] []
  have hlinked : Linked f (st.supply.span []) { st with store := s } { supply := g } :=
    { left := ⟨hacyclic, hold⟩
      right := (CheckState.ahead_initial g {}).toValid
      inj := Supply.across_injOn .nil .nil rfl (fun _ hv => by cases hv)
        fun _ hv => by cases hv
      sync := fun i => ⟨.inr ⟨i, rfl⟩, Supply.across_nth i⟩ }
  have halike : ∀ u ∈ e.used,
      CheckState.Alike f (st.supply.span []) { st with store := s } { supply := g } u
        (m.store.resolve u) := by
    intro u hu
    refine ⟨?_, by simp [hs u hu, Ty.Within, hground u hu]⟩
    rw [hs u hu, Ty.rename, Ty.subst_of_vars_eq_nil (hground u hu)]
    exact Store.resolve_closed Store.acyclic_empty (hground u hu)
  -- That check is run once more, in an empty store, with the ground types in place of the
  -- variables.
  have hsame := Mirrors.sameOutcome
    ((Lockstep.mirror f (st.supply.span []) m.store.resolve).alone hcheck hlinked
      trivial halike)
  rw [hok] at hsame
  obtain ⟨t', m', hok', π, hπ⟩ := hsame.exists_ok
  exact ⟨t', m', hok', π, ht₁ ▸ hπ⟩

end

/-- The types of a procedure that had been left out are found, and that of its name is not
looked at. The type in the end has variables of its own, so the new one is the same up to a
renaming only. -/
theorem elaborated_checks_letrec :
    let name : Ty := .var ⟨0, "A"⟩
    let e : Exp := .letrec [(⟨"f", name⟩, .lambda [⟨"x", .var ⟨1, "T_1"⟩⟩] (.var ⟨2, "T_2"⟩)
      [.app (.prim "not") [.var "x"]])] [.prim "cons"]
    let st : CheckState := { supply := { next := 3, count := 2 } }
    ∃ t m t' m', e.typeOf {} st = .ok t m ∧ m.store.resolve name = name ∧
      e.text m.store = "(letrec (((f : A) (lambda ((x : boolean)) : boolean (not x)))) cons)" ∧
      (e.mapTy m.store.resolve).text {} = e.text m.store ∧
      (e.mapTy m.store.resolve).typeOf {} {} = .ok t' m' ∧
      ∃ π : Equiv.Perm TyVar, m'.store.resolve t' = (m.store.resolve t).rename π := by
  intro name e st
  obtain ⟨t, m, h, htest⟩ := exists_ok (r := e.typeOf {} st) (P := fun _ m =>
    e.used.all (fun u => (m.store.resolve u).vars == []) && m.store.resolve name == name &&
      e.text m.store == "(letrec (((f : A) (lambda ((x : boolean)) : boolean (not x)))) cons)")
        (by decide +kernel)
  simp only [Bool.and_eq_true, List.all_eq_true, beq_iff_eq] at htest
  obtain ⟨⟨hground, hname⟩, htext⟩ := htest
  obtain ⟨hsame, t', m', h', hπ⟩ := elaborated_checks (.inl rfl) (CheckState.ahead_initial _ _)
    (by decide : ∀ u ∈ e.tys, st.supply.Covers u) h hground {}
  exact ⟨t, m, t', m', h, hname, htext, hsame, h', hπ⟩

end TypedL5
