import Mathlib.Algebra.Group.End
import Mathlib.Data.Fintype.Sum
import TypedL5.Proofs.MirrorRules
import TypedL5.Proofs.Parsed

/-! The outcome of a check does not depend on what has been read and checked before it. -/
namespace TypedL5

open CheckState HasVars

/-- A function that tells finitely many things apart goes on to a permutation. -/
theorem exists_perm_eqOn {α : Type} [DecidableEq α] {f : α → α} {l : List α}
    (hf : Set.InjOn f {a | a ∈ l}) : ∃ π : Equiv.Perm α, ∀ a ∈ l, π a = f a := by
  let T : Finset α := l.toFinset ∪ (l.map f).toFinset
  have hmaps : Set.MapsTo (fun a : T => f a) {a : T | a.1 ∈ l} T := by
    intro a ha
    have hfa : f a ∈ l.map f := List.mem_map_of_mem ha
    simp only [T, Finset.coe_union, Set.mem_union, Finset.mem_coe, List.mem_toFinset]
    exact .inr hfa
  have hinj : Set.InjOn (fun a : T => f a) {a : T | a.1 ∈ l} := by
    intro a ha b hb he
    exact Subtype.ext (hf ha hb he)
  obtain ⟨g, hg⟩ := hmaps.exists_equiv_extend_of_card_eq (Fintype.card_coe T) hinj
  refine ⟨Equiv.Perm.ofSubtype g, fun a ha => ?_⟩
  have hT : a ∈ T := by simp [T, ha]
  rw [Equiv.Perm.ofSubtype_apply_of_mem g hT]
  exact hg ⟨a, hT⟩ ha

/-- Two checks come to the same: types that are the same up to a renaming of variables, or
failures of one kind. -/
def SameOutcome (r r' : EStateM.Result Cause CheckState Ty) : Prop :=
  match r, r' with
  | .ok t m, .ok t' m' =>
    ∃ π : Equiv.Perm TyVar, m'.store.resolve t' = (m.store.resolve t).rename π
  | .error c m, .error c' m' => (c.failure m.store).kind = (c'.failure m'.store).kind
  | _, _ => False

theorem SameOutcome.exists_ok {t : Ty} {m : CheckState}
    {r : EStateM.Result Cause CheckState Ty} (h : SameOutcome (.ok t m) r) :
    ∃ t' m', r = .ok t' m' ∧
      ∃ π : Equiv.Perm TyVar, m'.store.resolve t' = (m.store.resolve t).rename π := by
  cases r with
  | ok t' m' => exact ⟨t', m', rfl, h⟩
  | error c m' => exact h.elim

/-- A renaming that is one to one on the variables in use extends to all variables. -/
theorem Mirrors.sameOutcome {f : TyVar → TyVar} {D : Set TyVar} {st st' : CheckState}
    {r r' : EStateM.Result Cause CheckState Ty}
    (h : Mirrors f D st st' r r' fun t t' m m' => Alike f D m m' t t') : SameOutcome r r' := by
  unfold Mirrors at h
  unfold SameOutcome
  split at h
  · rename_i t m t' m'
    obtain ⟨hm, ht⟩ := h
    obtain ⟨π, hπ⟩ := exists_perm_eqOn (l := (m.store.resolve t).vars)
      (hm.linked.injShared.mono fun v hv => ht.within v hv)
    exact ⟨π, ht.resolved.trans (Ty.rename_congr fun v hv => (hπ v hv).symm)⟩
  · exact h.2 _ _
  · exact h.elim

namespace Supply

variable {g g' : Supply} {vs vs' : List TyVar} {v : TyVar}

/-- Renames variables that have been taken place by place, and all later ones in order. -/
def across (g g' : Supply) (vs vs' : List TyVar) (v : TyVar) : TyVar :=
  if v.id < g.next then ((vs.zip vs').lookup v).getD v else g'.nth (v.id - g.next)

/-- The variables in a list, and all that are yet to be taken. -/
def span (g : Supply) (vs : List TyVar) : Set TyVar := {v | v ∈ vs ∨ v ∈ g.upcoming}

theorem across_nth (i : Nat) : across g g' vs vs' (g.nth i) = g'.nth i := by
  have hid : (g.nth i).id = g.next + i := rfl
  rw [across, hid, if_neg (by omega), Nat.add_sub_cancel_left]

theorem map_lookup_zip (hn : vs.Nodup) (hl : vs.length = vs'.length) :
    (vs.map fun v => ((vs.zip vs').lookup v).getD v) = vs' := by
  induction vs generalizing vs' with
  | nil =>
    obtain rfl := List.eq_nil_of_length_eq_zero hl.symm
    rfl
  | cons v vs ih =>
    obtain ⟨v', vs', rfl⟩ := List.exists_cons_of_length_eq_add_one hl.symm
    obtain ⟨hv, hn⟩ := List.nodup_cons.mp hn
    simp only [List.map_cons, List.zip_cons_cons, List.lookup_cons_self, Option.getD_some,
      List.cons.injEq, true_and]
    rw [← ih hn (Nat.succ.inj hl)]
    refine List.map_congr_left fun w hw => ?_
    have hwv : (w == v) = false := beq_false_of_ne fun he => hv (he ▸ hw)
    rw [List.lookup_cons, hwv, ih hn (Nat.succ.inj hl)]

theorem map_across (hn : vs.Nodup) (hl : vs.length = vs'.length)
    (hv : ∀ v ∈ vs, v.id < g.next) :
    vs.map (across g g' vs vs') = vs' := by
  rw [← map_lookup_zip hn hl]
  refine List.map_congr_left fun v hmem => ?_
  rw [across, if_pos (hv v hmem), map_lookup_zip hn hl]

/-- Variables keep apart: those taken from one another, those to be taken from one another, and
the ones from the others. -/
theorem across_injOn (hn : vs.Nodup) (hn' : vs'.Nodup) (hl : vs.length = vs'.length)
    (hv : ∀ v ∈ vs, v.id < g.next) (hv' : ∀ v ∈ vs', v.id < g'.next) :
    Set.InjOn (across g g' vs vs') (g.span vs) := by
  have hmap : vs.map (across g g' vs vs') = vs' := map_across hn hl hv
  -- What has been taken goes to what has been taken, and what is yet to be taken to what is
  -- yet to be.
  have hold : ∀ v ∈ vs, (across g g' vs vs' v).id < g'.next := by
    intro v hmem
    have himage := List.mem_map_of_mem (f := across g g' vs vs') hmem
    rw [hmap] at himage
    exact hv' _ himage
  have hnew : ∀ i, g'.next ≤ (across g g' vs vs' (g.nth i)).id := by
    intro i
    rw [across_nth]
    exact Nat.le_add_right _ _
  rintro v (hmem | ⟨i, rfl⟩) w (hmem' | ⟨j, rfl⟩) he
  · exact List.inj_on_of_nodup_map (hmap.symm ▸ hn') hmem hmem' he
  · have hlt := hold v hmem
    have hle := hnew j
    rw [he] at hlt
    omega
  · have hlt := hold w hmem'
    have hle := hnew i
    rw [← he] at hlt
    omega
  · rw [across_nth, across_nth] at he
    have hij : g'.next + i = g'.next + j := congrArg TyVar.id he
    obtain rfl : i = j := by omega
    rfl

end Supply

/-- A text that is read twice is checked alike: what has been taken for it is renamed place by
place, and what is taken later in order. -/
theorem mirrors_of_read {env : Env} {e e' : Exp} {st st' : CheckState}
    {g m g' m' : Supply} {vs vs' : List TyVar} (hst : st.Valid) (hst' : st'.Valid)
    (hread : ReadAlike g m g' m' e e' vs vs') (hle : m.next ≤ st.supply.next)
    (hle' : m'.next ≤ st'.supply.next) (hun : ∀ v ∈ vars e, st.store.contents? v = none)
    (hun' : ∀ v ∈ vars e', st'.store.contents? v = none) (henv : ∀ x t, env.lookup? x =
    some t → (st.store.resolve t).vars = [] ∧ st'.store.resolve t = st.store.resolve t) :
    
    let f := Supply.across st.supply st'.supply vs vs'
    let D := st.supply.span vs
    Mirrors f D st st' (e.typeOf env st) (e'.typeOf env st') fun t t' m m' =>
      Alike f D m m' t t' := by
  intro f D
  have hv : ∀ v ∈ vs, v.id < st.supply.next :=
    fun v hv => Nat.lt_of_lt_of_le (hread.left.id_of_mem hv).2 hle
  have hv' : ∀ v ∈ vs', v.id < st'.supply.next :=
    fun v hv => Nat.lt_of_lt_of_le (hread.right.id_of_mem hv).2 hle'
  have hmap : vs.map f = vs' := Supply.map_across hread.left.nodup hread.twin.length hv
  obtain rfl : e' = e.mapTy (Ty.rename f) := hread.twin.renamed f hmap
  have hlinked : Linked f D st st' :=
    { left := hst
      right := hst'
      inj := Supply.across_injOn hread.left.nodup hread.right.nodup hread.twin.length hv hv'
      sync := fun i => ⟨.inr ⟨i, rfl⟩, Supply.across_nth i⟩ }
  -- A type that is written is renamed as a whole, and a name has a ground type, which no
  -- renaming changes.
  refine mirrors_typeOf ⟨hlinked, fun t htys => ?_, fun x _ => ?_⟩
  · have hvars : ∀ v ∈ t.vars, v ∈ vars e := fun v hv => List.mem_flatMap.mpr ⟨t, htys, hv⟩
    have hvars' : ∀ v ∈ t.vars, f v ∈ vars (e.mapTy (Ty.rename f)) := by
      intro v hv
      refine List.mem_flatMap.mpr ⟨t.rename f, ?_, ?_⟩
      · rw [Exp.tys_mapTy]
        exact List.mem_map_of_mem htys
      · rw [Ty.vars_rename]
        exact List.mem_map_of_mem hv
    refine Store.alike_rename hst.acyclic hst'.acyclic (fun v hvt => ?_) fun v hvt =>
      ⟨hun v (hvars v hvt), hun' _ (hvars' v hvt)⟩
    have hmem : v ∈ vs := hread.twin.perm.mem_iff.mpr (hvars v hvt)
    exact ⟨.inl hmem, hv v hmem, hv' _ (hmap ▸ List.mem_map_of_mem hmem)⟩
  · cases hx : env.lookup? x with
    | none => exact .none
    | some t =>
      obtain ⟨hg, hsame⟩ := henv x t hx
      refine .some ⟨?_, by simp [Ty.Within, hg]⟩
      rw [hsame, Ty.rename, Ty.subst_of_vars_eq_nil hg]

/-- An expression has been read from a text, and none of its variables has been bound so
far. -/
def ReadyIn (source : String) (e : Exp) (st : CheckState) : Prop :=
  ∃ g m, Exp.read source g = .ok e m ∧ m.next ≤ st.supply.next ∧
    ∀ v ∈ vars e, st.store.contents? v = none

/-- The outcome of a check depends on nothing but the text and the ground types of the
names. -/
theorem sameOutcome_of_ready {source : String} {env : Env} {e e' : Exp} {st st' : CheckState}
    (hst : st.Valid) (hst' : st'.Valid) (he : ReadyIn source e st)
      (he' : ReadyIn source e' st')
    (henv : ∀ x t, env.lookup? x = some t →
      (st.store.resolve t).vars = [] ∧ st'.store.resolve t = st.store.resolve t) :
    SameOutcome (e.typeOf env st) (e'.typeOf env st') := by
  obtain ⟨g, m, hr, hle, hun⟩ := he
  obtain ⟨g', m', hr', hle', hun'⟩ := he'
  have hparse := Exp.parses_read source g g'
  rw [hr, hr'] at hparse
  obtain ⟨vs, vs', htaken, htwin⟩ := hparse
  exact (mirrors_of_read hst hst' ⟨htaken, htwin⟩ hle hle' hun hun' henv).sameOutcome

section

variable {env : Env} {st : CheckState} {g : Supply} {e : Exp}

/-- A ground type has no variable that is yet to be taken. -/
theorem covers_of_ground {t : Ty} (hst : st.Valid) (ht : (st.store.resolve t).vars = []) :
    st.supply.Covers t := by
  intro v hv
  by_contra hge
  have hun := hst.unbound (Nat.not_lt.mp hge)
  have hmem : v ∈ (st.store.resolve t).vars :=
    (Store.mem_vars_resolve hst.acyclic).mpr ⟨⟨v, hv, .refl⟩, hun⟩
  rw [ht] at hmem
  cases hmem

/-- A check of an expression with new variables binds none of the other new ones. -/
theorem unbound_after_check (hst : st.Ahead)
    (hcov : ∀ x t, env.lookup? x = some t → st.supply.Covers t)
    (hle : st.supply.next ≤ g.next)
    (he : ∀ v ∈ vars e, st.supply.next ≤ v.id ∧ v.id < g.next) :
    let m := endState (e.typeOf env { st with supply := g })
    m.Valid ∧ g.next ≤ m.supply.next ∧ st.store.ExtendedBy m.store ∧
      ∀ v : TyVar, st.supply.next ≤ v.id → v.id < g.next → v ∉ vars e →
        m.store.contents? v = none := by
  intro m
  have hnames : env.Gives e.free g.Covers :=
    fun x _ t ht => (hcov x t ht).later hle
  have htys : ∀ t ∈ e.tys, g.Covers t :=
    fun t ht v hv => (he v (List.mem_flatMap.mpr ⟨t, ht, hv⟩)).2
  have hmem : m ∈ e.ends env { st with supply := g } := by simp [Exp.ends, m]
  have hlog := Exp.logged_ends (given_footprint (hst.later hle) htys hnames) hmem
  refine ⟨hlog.confined.toValid, hlog.next_le, hlog.grown.extends, fun v hge hlt hv => ?_⟩
  rw [hlog.outside v]
  · exact hst.unbound hge
  rintro ((⟨t, ht, hr⟩ | ⟨x, _, t, ht, hr⟩) | hu)
  · -- The variables of the expression are not bound, so nothing leads on from them.
    have hclosed : st.store.ClosedOn {w | w ∈ vars e} := by
      intro w hw t ht
      rw [hst.unbound (he w hw).1] at ht
      cases ht
    exact hv (hclosed.mem_of_reaches (fun w hw => List.mem_flatMap.mpr ⟨t, ht, hw⟩) hr)
  · have hold := hst.confined.closed.mem_of_reaches
      (fun w hw => ⟨trivial, hcov x t ht w hw⟩) hr
    exact absurd hold.2 (Nat.not_lt.mpr hge)
  · exact absurd hlt (Nat.not_lt.mpr (Supply.next_le_of_upcoming hu))

/-- Every text that can be read from one supply can be read from another. -/
theorem exists_read {source : String} {g m : Supply} (h : Exp.read source g = .ok e m)
    (g' : Supply) : ∃ e' m', Exp.read source g' = .ok e' m' := by
  obtain ⟨e', m', _, _, hr, _⟩ := (Exp.parses_read source).counterpart h g'
  exact ⟨e', m', hr⟩

/-- What is read later than a state was reached is ready in it. -/
theorem ready_of_read {source : String} {a b : Supply} (hst : st.Ahead)
    (h : Exp.read source a = .ok e b) (ha : st.supply.next ≤ a.next) (hb : b.next ≤ g.next) :
    ReadyIn source e { st with supply := g } :=
  ⟨a, b, h, hb, fun _ hv =>
    hst.unbound (Nat.le_trans ha ((Exp.parses_read source).id_of_mem h hv).1)⟩

/-- An expression is still ready after another one, with other variables, has been checked. -/
theorem ready_after_check {source : String} {a b : Supply} {e' : Exp} (hst : st.Ahead)
    (hcov : ∀ x t, env.lookup? x = some t → st.supply.Covers t)
      (h : Exp.read source a = .ok e b)
    (ha : st.supply.next ≤ a.next) (hb : b.next ≤ g.next)
    (he' : ∀ v ∈ vars e', st.supply.next ≤ v.id ∧ v.id < g.next)
    (hdisjoint : ∀ v ∈ vars e', ¬ (a.next ≤ v.id ∧ v.id < b.next)) :
    ReadyIn source e (endState (e'.typeOf env { st with supply := g })) := by
  have hab : a.next ≤ b.next := (Exp.parses_read source).next_le_of_ok h
  obtain ⟨_, hle, _, hun⟩ := unbound_after_check hst hcov (by omega) he'
  refine ⟨a, b, h, Nat.le_trans hb hle, fun v hv => ?_⟩
  obtain ⟨hva, hvb⟩ := (Exp.parses_read source).id_of_mem h hv
  exact hun v (by omega) (by omega) fun hv' => hdisjoint v hv' ⟨hva, hvb⟩

/-- Names with ground types look the same in every later state. -/
theorem sameOutcome_alone {source : String} {e' : Exp} {m : CheckState} (hst : st.Ahead)
    (hground : ∀ x t, env.lookup? x = some t → (st.store.resolve t).vars = [])
    (hm : m.Valid) (hext : st.store.ExtendedBy m.store) (hle : st.supply.next ≤ g.next)
    (he : ReadyIn source e m) (he' : ReadyIn source e' { st with supply := g }) :
    SameOutcome (e.typeOf env m) (e'.typeOf env { st with supply := g }) := by
  refine sameOutcome_of_ready hm (hst.later hle).toValid he he' fun x t ht => ?_
  rw [hext.resolve_ground hm.acyclic (hground x t ht)]
  exact ⟨hground x t ht, rfl⟩

/-- The outcome of a check is that of the same text checked alone, whether another expression
has been checked before it or not: both may be read first, in either order, or the other one
may be read and checked before this one is read. -/
theorem checks_independent {source₁ source₂ : String} {e₁ e₂ : Exp} {g₁ g₂ : Supply}
    (hst : st.Ahead)
    (hground : ∀ x t, env.lookup? x = some t → (st.store.resolve t).vars = [])
    (h₁ : Exp.read source₁ st.supply = .ok e₁ g₁)
      (h₂ : Exp.read source₂ st.supply = .ok e₂ g₂) :
    let alone := e₂.typeOf env { st with supply := g₂ }
    (∃ e g, Exp.read source₂ g₁ = .ok e g ∧
      SameOutcome (e.typeOf env (endState (e₁.typeOf env { st with supply := g })))
        (e.typeOf env { st with supply := g }) ∧
      SameOutcome (e.typeOf env (endState (e₁.typeOf env { st with supply := g }))) alone) ∧
    (∃ e g, Exp.read source₁ g₂ = .ok e g ∧
      SameOutcome (e₂.typeOf env (endState (e.typeOf env { st with supply := g })))
        (e₂.typeOf env { st with supply := g }) ∧
      SameOutcome (e₂.typeOf env (endState (e.typeOf env { st with supply := g }))) alone) ∧
    ∃ e g,
      Exp.read source₂ (endState (e₁.typeOf env { st with supply := g₁ })).supply = .ok e g ∧
      SameOutcome
        (e.typeOf env { endState (e₁.typeOf env { st with supply := g₁ }) with supply := g })
        alone := by
  intro alone
  have hcov := fun x t ht => covers_of_ground hst.toValid (hground x t ht)
  have hid₁ := fun v hv => (Exp.parses_read source₁).id_of_mem (v := v) h₁ hv
  have hid₂ := fun v hv => (Exp.parses_read source₂).id_of_mem (v := v) h₂ hv
  have hle₁ : st.supply.next ≤ g₁.next := (Exp.parses_read source₁).next_le_of_ok h₁
  have hle₂ : st.supply.next ≤ g₂.next := (Exp.parses_read source₂).next_le_of_ok h₂
  have hready := ready_of_read hst h₂ (Nat.le_refl _) (Nat.le_refl _)
  refine ⟨?_, ?_, ?_⟩
  · obtain ⟨e, g, h⟩ := exists_read h₂ g₁
    have hle : g₁.next ≤ g.next := (Exp.parses_read source₂).next_le_of_ok h
    have he₁ : ∀ v ∈ vars e₁, st.supply.next ≤ v.id ∧ v.id < g.next :=
      fun v hv => ⟨(hid₁ v hv).1, Nat.lt_of_lt_of_le (hid₁ v hv).2 hle⟩
    have hafter := ready_after_check hst hcov h hle₁ (Nat.le_refl _) he₁ fun v hv hr =>
      absurd hr.1 (Nat.not_le.mpr (hid₁ v hv).2)
    obtain ⟨hm, _, hext, _⟩ := unbound_after_check hst hcov (Nat.le_trans hle₁ hle) he₁
    refine ⟨e, g, h, ?_, ?_⟩
    · exact sameOutcome_alone hst hground hm hext (Nat.le_trans hle₁ hle) hafter
        (ready_of_read hst h hle₁ (Nat.le_refl _))
    · exact sameOutcome_alone hst hground hm hext hle₂ hafter hready
  · obtain ⟨e, g, h⟩ := exists_read h₁ g₂
    have hid := fun v hv => (Exp.parses_read source₁).id_of_mem (v := v) h hv
    have hle : g₂.next ≤ g.next := (Exp.parses_read source₁).next_le_of_ok h
    have he : ∀ v ∈ vars e, st.supply.next ≤ v.id ∧ v.id < g.next :=
      fun v hv => ⟨Nat.le_trans hle₂ (hid v hv).1, (hid v hv).2⟩
    have hafter := ready_after_check hst hcov h₂ (Nat.le_refl _) hle he fun v hv hr =>
      absurd hr.2 (Nat.not_lt.mpr (hid v hv).1)
    obtain ⟨hm, _, hext, _⟩ := unbound_after_check hst hcov (Nat.le_trans hle₂ hle) he
    refine ⟨e, g, h, ?_, ?_⟩
    · exact sameOutcome_alone hst hground hm hext (Nat.le_trans hle₂ hle) hafter
        (ready_of_read hst h₂ (Nat.le_refl _) hle)
    · exact sameOutcome_alone hst hground hm hext hle₂ hafter hready
  · obtain ⟨hm, _, hext, _⟩ := unbound_after_check hst hcov hle₁ hid₁
    generalize endState (e₁.typeOf env { st with supply := g₁ }) = m at hm hext
    obtain ⟨e, g, h⟩ := exists_read h₂ m.supply
    have hle : m.supply.next ≤ g.next := (Exp.parses_read source₂).next_le_of_ok h
    have hm' : CheckState.Valid { m with supply := g } :=
      ⟨hm.acyclic, fun v t ht => Nat.lt_of_lt_of_le (hm.old v t ht) hle⟩
    have he : ReadyIn source₂ e { m with supply := g } :=
      ⟨m.supply, g, h, Nat.le_refl _, fun v hv =>
        hm.unbound ((Exp.parses_read source₂).id_of_mem h hv).1⟩
    exact ⟨e, g, h, sameOutcome_alone hst hground hm' hext hle₂ he hready⟩

end

/-- The first check binds the variable of its own procedure, and then fails since a number is
no test. -/
theorem checks_independent_failed :
    let env : Env := ⟨[[⟨"n", .base .number⟩]]⟩
    let st : CheckState := {}
    ∃ e₁ g₁ e₂ g₂, Exp.read "(if ((lambda (x) x) n) 1 2)" st.supply = .ok e₁ g₁ ∧
      Exp.read "(lambda (x) (cons n x))" st.supply = .ok e₂ g₂ ∧
      (∃ c m, e₁.typeOf env { st with supply := g₁ } = .error c m ∧ m.store ≠ {}) ∧
      ∃ e g,
        Exp.read "(lambda (x) (cons n x))"
          (endState (e₁.typeOf env { st with supply := g₁ })).supply = .ok e g ∧
        SameOutcome
          (e.typeOf env { endState (e₁.typeOf env { st with supply := g₁ }) with supply := g })
          (e₂.typeOf env { st with supply := g₂ }) := by
  intro env st
  obtain ⟨e₁, g₁, h₁, hfail⟩ :=
    exists_ok (r := Exp.read "(if ((lambda (x) x) n) 1 2)" st.supply)
    (P := fun e g => failsWith (fun _ m => m.store.bindings.length == 2)
      (e.typeOf env { st with supply := g })) (by decide +kernel)
  obtain ⟨e₂, g₂, h₂, _⟩ := exists_ok (r := Exp.read "(lambda (x) (cons n x))" st.supply)
    (P := fun _ _ => true) (by decide +kernel)
  have hst : st.Ahead := ahead_initial _ _
  have hground : ∀ x t, env.lookup? x = some t → (st.store.resolve t).vars = [] := by
    intro x t ht
    have hmem := Env.mem_tys ht
    obtain rfl : t = .base .number := by simpa [Env.tys, env] using hmem
    simp
  refine ⟨e₁, g₁, e₂, g₂, h₁, h₂, ?_, (checks_independent hst hground h₁ h₂).2.2⟩
  obtain ⟨c, m, hcheck, hbound⟩ := exists_error hfail
  refine ⟨c, m, hcheck, fun he => ?_⟩
  rw [he] at hbound
  cases hbound

end TypedL5
