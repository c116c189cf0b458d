import TypedL5.Proofs.Acyclic

/-! Stores that grow by one binding after another, and what stays as it is meanwhile. -/
namespace TypedL5.Store

open Relation (ReflTransGen TransGen)

variable {s s' s'' m : Store} {v w x : TyVar} {t u : Ty}

/-- Each binding is of a variable that is not bound, to a type from which it cannot be come
to. -/
inductive Grows (s : Store) : Store → Prop
  | refl : Grows s s
  | bind {s' : Store} {v : TyVar} {t : Ty} :
    Grows s s' → s'.contents? v = none → ¬ s'.Reaches t v → Grows s (s'.bind v t)

/-- What is bound in a store is bound to the same in another. -/
def ExtendedBy (s s' : Store) : Prop := ∀ v t, s.contents? v = some t → s'.contents? v = some t

theorem leads_bind_iff :
    (s.bind v t).Leads w x ↔ (w = v ∧ x ∈ t.vars) ∨ (w ≠ v ∧ s.Leads w x) := by
  by_cases hw : w = v <;> simp [Leads, contents?_bind, hw]

/-- The occurs check is what keeps the store acyclic. -/
theorem bind_acyclic (h : s.Acyclic) (hv : s.contents? v = none) (ho : ¬ s.Reaches t v) :
    (s.bind v t).Acyclic := by
  classical
  -- All that leads to `v` is put above all that it is bound to.
  apply acyclic_of_rank fun w => if ReflTransGen s.Leads w v then s.rank w + s.length + 1
    else s.rank w
  intro w x hl
  rcases leads_bind_iff.mp hl with ⟨rfl, hx⟩ | ⟨_, hl⟩
  · have hn : ¬ ReflTransGen s.Leads x w := fun hr => ho ⟨x, hx, hr⟩
    have hle := s.rank_le_length x
    simp only [hn, if_false, ReflTransGen.refl, if_true]
    omega
  · have hlt := rank_lt_of_leads h hl
    by_cases hx : ReflTransGen s.Leads x v
    · simp only [hx, if_true, ReflTransGen.head hl hx]
      omega
    · simp only [hx, if_false]
      split <;> omega

theorem not_reaches_of_occurs (h : s.Acyclic) (ho : s.occurs v t = false) :
    ¬ s.Reaches t v := by
  rw [← occurs_iff h, ho]
  exact Bool.false_ne_true

theorem bind_extends (hv : s.contents? v = none) : s.ExtendedBy (s.bind v t) := by
  intro w u hw
  have hne : w ≠ v := by
    rintro rfl
    simp [hv] at hw
  simpa [contents?_bind, hne] using hw

theorem ExtendedBy.trans (h : s.ExtendedBy s') (h' : s'.ExtendedBy s'') : s.ExtendedBy s'' :=
  fun v t ht => h' v t (h v t ht)

theorem ExtendedBy.acyclic (h : s.ExtendedBy s') (hs : s'.Acyclic) : s.Acyclic := by
  intro v hv
  apply hs v
  refine TransGen.mono ?_ _ _ hv
  rintro w x ⟨t, ht, hx⟩
  exact ⟨t, h w t ht, hx⟩

theorem Grows.trans (h : s.Grows s') (h' : s'.Grows s'') : s.Grows s'' := by
  induction h' with
  | refl => exact h
  | bind _ hv ho ih => exact .bind ih hv ho

theorem Grows.acyclic (h : s.Grows s') (hs : s.Acyclic) : s'.Acyclic := by
  induction h with
  | refl => exact hs
  | bind _ hv ho ih => exact bind_acyclic ih hv ho

theorem Grows.extends (h : s.Grows s') : s.ExtendedBy s' := by
  induction h with
  | refl => exact fun _ _ ht => ht
  | bind _ hv _ ih => exact ih.trans (bind_extends hv)

/-- A store grows at its front, and keeps its bindings in their order. -/
theorem Grows.suffix (h : s.Grows s') : s.bindings <:+ s'.bindings := by
  induction h with
  | refl => exact List.suffix_rfl
  | bind _ _ _ ih => exact ih.trans (List.suffix_cons _ _)

/-- A store in the history of another has grown on the way to it. -/
theorem Grows.between {m : Store} (h : s.Grows s') (hm : s.bindings <:+ m.bindings)
    (hm' : m.bindings <:+ s'.bindings) : m.Grows s' := by
  induction h with
  | refl =>
    obtain rfl : m = s := congrArg Store.mk (hm'.eq_of_length_le hm.length_le)
    exact .refl
  | @bind s' v t _ hv ho ih =>
    rcases List.suffix_cons_iff.mp hm' with he | hsuffix
    · obtain rfl : m = s'.bind v t := congrArg Store.mk he
      exact .refl
    · exact .bind (ih hsuffix) hv ho

/-- Later types are instances of earlier ones. -/
theorem ExtendedBy.resolve_eq (h : s.ExtendedBy s') (hs' : s'.Acyclic) (t : Ty) :
    s'.resolve t = (s.resolve t).subst fun v => s'.resolve (.var v) := by
  have hs := h.acyclic hs'
  induction t using hs.induction with
  | base b => simp
  | free v hv => rw [resolve_unbound hv, Ty.subst_var]
  | bound v u hv ih => rw [resolve_bound hs' (h v u hv), resolve_bound hs hv, ih]
  | pair l r ihl ihr => simp [ihl, ihr]
  | proc ps r ihp ihr => simpa [ihr] using ihp

theorem ExtendedBy.resolve_inj (h : s.ExtendedBy s') (hs' : s'.Acyclic)
    (he : s.resolve t = s.resolve u) : s'.resolve t = s'.resolve u := by
  rw [h.resolve_eq hs' t, h.resolve_eq hs' u, he]

theorem ExtendedBy.resolve_deref (h : s.ExtendedBy s') (hs' : s'.Acyclic) (t : Ty) :
    s'.resolve (s.deref t) = s'.resolve t :=
  h.resolve_inj hs' (Store.resolve_deref (h.acyclic hs') t)

/-- A type that has become ground does not change. -/
theorem ExtendedBy.resolve_ground (h : s.ExtendedBy s') (hs' : s'.Acyclic)
    (hg : (s.resolve t).vars = []) : s'.resolve t = s.resolve t := by
  rw [h.resolve_eq hs', Ty.subst_of_vars_eq_nil hg]

theorem resolve_of_unbound (hs : s.Acyclic) (ht : ∀ v ∈ t.vars, s.contents? v = none) :
    s.resolve t = t := by
  have hext : ExtendedBy {} s := fun _ _ h => by cases h
  rw [hext.resolve_eq hs t]
  refine Eq.trans (Ty.subst_congr fun v hv => resolve_unbound (ht v hv)) (Ty.subst_id t)

theorem resolve_closed (hs : s.Acyclic) (ht : t.vars = []) : s.resolve t = t :=
  resolve_of_unbound hs (by simp [ht])

/-- No binding in the history of a store was of a variable already bound. -/
def SingleAssignment (s : Store) : Prop :=
  ∀ (m : Store) v t, (m.bind v t).bindings <:+ s.bindings → m.contents? v = none

theorem singleAssignment_empty : SingleAssignment {} := by
  intro m v t h
  cases List.suffix_nil.mp h

theorem SingleAssignment.of_suffix (h : s.SingleAssignment) (hm : m.bindings <:+ s.bindings) :
    m.SingleAssignment :=
  fun _ v t hb => h _ v t (hb.trans hm)

/-- A store that grows never binds a variable twice. -/
theorem Grows.singleAssignment (h : s.Grows s') (hs : s.SingleAssignment) :
    s'.SingleAssignment := by
  induction h with
  | refl => exact hs
  | @bind s' v t _ hv _ ih =>
    intro m w u hm
    rcases List.suffix_cons_iff.mp hm with he | hm
    · cases m
      simp only [Store.bind, List.cons.injEq, Prod.mk.injEq] at he
      obtain ⟨⟨rfl, _⟩, rfl⟩ := he
      exact hv
    · exact ih m w u hm

/-- A store extends every store of its history. -/
theorem SingleAssignment.extends (h : s.SingleAssignment) (hm : m.bindings <:+ s.bindings) :
    m.ExtendedBy s := by
  obtain ⟨later, he⟩ := hm
  induction later generalizing s with
  | nil =>
    obtain rfl : m = s := by cases m; cases s; simpa using he
    exact fun _ _ ht => ht
  | cons b later ih =>
    obtain rfl : s = Store.bind ⟨later ++ m.bindings⟩ b.1 b.2 := by
      cases s; simpa [Store.bind] using he.symm
    have hb := h ⟨later ++ m.bindings⟩ b.1 b.2 List.suffix_rfl
    exact (ih (h.of_suffix (List.suffix_cons _ _)) rfl).trans (bind_extends hb)

end TypedL5.Store
