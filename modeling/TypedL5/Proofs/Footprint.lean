import TypedL5.Proofs.Termination

/-! What unification leaves alone, and what it means that it fails. -/
namespace TypedL5

theorem Ty.vars_subset_of_part {p t : Ty} (h : Ty.Part p t) : p.vars ⊆ t.vars := by
  intro v hv
  cases h with
  | left l r => simp [hv]
  | right l r => simp [hv]
  | param r hp => simpa using .inl ⟨p, hp, hv⟩
  | result ps r => simp [hv]

namespace Store

variable {s s' : Store} {t u w p : Ty} {v x : TyVar} {eqs : List (Ty × Ty)} {c : Clash}
  {r : EStateM.Result Clash Store Unit} {ρ : Assignment}

/-- What stands in a resolved type is what can be come to and is not bound. -/
theorem mem_vars_resolve (h : s.Acyclic) :
    v ∈ (s.resolve t).vars ↔ s.Reaches t v ∧ s.contents? v = none := by
  induction t using h.induction with
  | base b => simp [Reaches]
  | free x hx =>
    rw [resolve_unbound hx, reaches_iff]
    constructor
    · intro hv
      obtain rfl : v = x := by simpa using hv
      exact ⟨⟨v, by simp, .inl rfl⟩, hx⟩
    · rintro ⟨⟨w, hw, rfl | ⟨u, hu, _⟩⟩, _⟩
      · exact hw
      · obtain rfl : w = x := by simpa using hw
        simp [hx] at hu
  | bound x u hx ih =>
    rw [resolve_bound h hx, ih, reaches_iff (t := .var x)]
    -- The variable itself is bound, so what is come to lies in what it is bound to.
    refine and_congr_left fun hv => ?_
    constructor
    · intro hr
      exact ⟨x, by simp, .inr ⟨u, hx, hr⟩⟩
    · rintro ⟨w, hw, hr⟩
      obtain rfl : w = x := by simpa using hw
      rcases hr with rfl | ⟨u', hu', hr⟩
      · simp [hx] at hv
      · rw [hx] at hu'
        cases hu'
        exact hr
  | pair l r ihl ihr =>
    simp only [resolve_pair, Ty.vars_pair, List.mem_append, ihl, ihr, Reaches, or_and_right,
      exists_or]
  | proc ps r ihp ihr =>
    simp only [resolve_proc, Ty.vars_proc, List.mem_append, ihr, List.flatMap_map,
      List.mem_flatMap]
    rw [exists_congr fun p => and_congr_right (ihp p)]
    constructor
    · rintro (⟨p, hp, ⟨w, hw, hl⟩, hv⟩ | ⟨⟨w, hw, hl⟩, hv⟩)
      · exact ⟨⟨w, by simpa using .inl ⟨p, hp, hw⟩, hl⟩, hv⟩
      · exact ⟨⟨w, by simp [hw], hl⟩, hv⟩
    · rintro ⟨⟨w, hw, hl⟩, hv⟩
      simp only [Ty.vars_proc, List.mem_append, List.mem_flatMap] at hw
      rcases hw with ⟨p, hp, hw⟩ | hw
      · exact .inl ⟨p, hp, ⟨w, hw, hl⟩, hv⟩
      · exact .inr ⟨⟨w, hw, hl⟩, hv⟩

theorem unbound_of_mem_resolve (h : s.Acyclic) (hv : v ∈ (s.resolve t).vars) :
    s.contents? v = none :=
  ((mem_vars_resolve h).mp hv).2

/-- The variable that is bound stands in one of the two types, and what it is bound to is the
other. -/
theorem resolve_of_meet (h : s.Acyclic) (hm : (s.deref t).meet (s.deref u) = .bind v w) :
    (s.resolve t = .var v ∧ s.resolve w = s.resolve u) ∨
      (s.resolve u = .var v ∧ s.resolve w = s.resolve t) := by
  have hv := resolve_unbound (unbound_of_meet h hm)
  rcases Ty.meet_bind hm with ⟨hd, rfl⟩ | ⟨hd, rfl⟩
  · rw [← resolve_deref h t, hd, hv, resolve_deref h]
    exact .inl ⟨rfl, rfl⟩
  · rw [← resolve_deref h u, hd, hv, resolve_deref h]
    exact .inr ⟨rfl, rfl⟩

/-- The equations that two types come down to mention no new variables. -/
theorem vars_resolve_subset_of_meet (h : s.Acyclic)
    (hm : (s.deref t).meet (s.deref u) = .parts eqs) {e : Ty × Ty} (he : e ∈ eqs) :
    (s.resolve e.1).vars ⊆ (s.resolve t).vars ∧ (s.resolve e.2).vars ⊆ (s.resolve u).vars := by
  obtain ⟨ht, hu⟩ := Ty.part_of_meet hm he
  rw [← resolve_deref h t, ← resolve_deref h u]
  exact ⟨Ty.vars_subset_of_part (part_resolve ht s),
    Ty.vars_subset_of_part (part_resolve hu s)⟩

/-- A variable of a type that has been resolved later comes from one that stood there
before. -/
theorem mem_vars_resolve_later (hext : s.ExtendedBy s') (hs' : s'.Acyclic)
    (hx : x ∈ (s'.resolve t).vars) :
    ∃ y ∈ (s.resolve t).vars, x ∈ (s'.resolve (.var y)).vars := by
  rw [hext.resolve_eq hs'] at hx
  exact Ty.mem_vars_subst.mp hx

/-- Binding a variable brings no others into a type than those it is bound to. -/
theorem mem_vars_resolve_bind (h : s.Acyclic) (hv : s.contents? v = none)
    (ho : ¬ s.Reaches w v) (hx : x ∈ ((s.bind v w).resolve t).vars) :
    x ∈ (s.resolve t).vars ∨ x ∈ (s.resolve w).vars := by
  have hs' := bind_acyclic h hv ho
  have hext : s.ExtendedBy (s.bind v w) := bind_extends hv
  have hother : ∀ {t y}, y ∈ (s.resolve t).vars → y ≠ v →
      (s.bind v w).resolve (.var y) = .var y := by
    intro t y hy hne
    rw [resolve_unbound (by rw [contents?_bind, if_neg hne, unbound_of_mem_resolve h hy])]
  obtain ⟨y, hy, hx⟩ := mem_vars_resolve_later hext hs' hx
  by_cases hyv : y = v
  · subst y
    rw [resolve_bound hs' (t := w) (by simp [contents?_bind])] at hx
    obtain ⟨z, hz, hx⟩ := mem_vars_resolve_later hext hs' hx
    have hzv : z ≠ v := by
      rintro rfl
      exact ho ((mem_vars_resolve h).mp hz).1
    rw [hother hz hzv, Ty.vars_var, List.mem_singleton] at hx
    exact .inr (hx ▸ hz)
  · rw [hother hy hyv, Ty.vars_var, List.mem_singleton] at hx
    exact .inl (hx ▸ hy)

/-- Some side of the equations mentions a variable. -/
def Mentions (s : Store) (eqs : List (Ty × Ty)) (x : TyVar) : Prop :=
  ∃ e ∈ eqs, x ∈ (s.resolve e.1).vars ∨ x ∈ (s.resolve e.2).vars

/-- What the remaining equations mention after a binding, they mentioned with the equation that
caused it. -/
theorem mentions_of_bind (h : s.Acyclic) (hm : (s.deref t).meet (s.deref u) = .bind v w)
    (ho : s.occurs v w = false) (hx : (s.bind v w).Mentions eqs x) :
    s.Mentions ((t, u) :: eqs) x := by
  have hv := unbound_of_meet h hm
  have hr := not_reaches_of_occurs h ho
  have hw : x ∈ (s.resolve w).vars → s.Mentions ((t, u) :: eqs) x := by
    intro hx
    refine ⟨(t, u), by simp, ?_⟩
    rcases resolve_of_meet h hm with ⟨_, he⟩ | ⟨_, he⟩
    · exact .inr (he ▸ hx)
    · exact .inl (he ▸ hx)
  obtain ⟨e, he, hx | hx⟩ := hx
  · rcases mem_vars_resolve_bind h hv hr hx with hx | hx
    · exact ⟨e, by simp [he], .inl hx⟩
    · exact hw hx
  · rcases mem_vars_resolve_bind h hv hr hx with hx | hx
    · exact ⟨e, by simp [he], .inr hx⟩
    · exact hw hx

theorem mentions_of_parts (h : s.Acyclic) {ds : List (Ty × Ty)}
    (hm : (s.deref t).meet (s.deref u) = .parts ds) (hx : s.Mentions (ds ++ eqs) x) :
    s.Mentions ((t, u) :: eqs) x := by
  obtain ⟨e, he, hx⟩ := hx
  rcases List.mem_append.mp he with he | he
  · obtain ⟨ht, hu⟩ := vars_resolve_subset_of_meet h hm he
    exact ⟨(t, u), by simp, hx.imp (fun hx => ht hx) fun hx => hu hx⟩
  · exact ⟨e, by simp [he], hx⟩

/-- A variable that no equation mentions keeps its contents. -/
theorem Solve.untouched (hsolve : Solve s eqs r) (h : s.Acyclic) (hx : ¬ s.Mentions eqs x) :
    (endState r).contents? x = s.contents? x := by
  induction hsolve with
  | done s => rfl
  | @bind s t u v w eqs r hm ho _ ih =>
    have hxv : x ≠ v := by
      rintro rfl
      apply hx
      refine ⟨(t, u), by simp, ?_⟩
      rcases resolve_of_meet h hm with ⟨he, _⟩ | ⟨he, _⟩
      · exact .inl (by simp [he])
      · exact .inr (by simp [he])
    rw [ih ((grows_of_meet h hm ho).acyclic h) fun hx' => hx (mentions_of_bind h hm ho hx'),
      contents?_bind, if_neg hxv]
  | cycle => rfl
  | parts hm _ ih => exact ih h fun hx' => hx (mentions_of_parts h hm hx')
  | clash => rfl

/-- Types that clash are not equal under any assignment. -/
theorem Solve.eval_ne_of_mismatch (hsolve : Solve s eqs (.error (.mismatch t u) s'))
    (h : s.Acyclic) (hρ : ρ.Satisfies s) : ¬ ∀ e ∈ eqs, e.1.eval ρ = e.2.eval ρ := by
  generalize hr : EStateM.Result.error (Clash.mismatch t u) s' = q at hsolve
  induction hsolve with
  | done s => cases hr
  | bind hm ho _ ih =>
    rw [List.forall_mem_cons, eval_eq_iff_of_bind h hρ hm]
    rintro ⟨hv, he⟩
    exact ih ((grows_of_meet h hm ho).acyclic h)
      ((satisfies_bind_iff (unbound_of_meet h hm)).mpr ⟨hρ, hv⟩) hr he
  | cycle => cases hr
  | parts hm _ ih =>
    rw [List.forall_mem_cons, eval_eq_iff_of_parts h hρ hm, ← List.forall_mem_append]
    exact ih h hρ hr
  | @clash s t u _ hm =>
    intro he
    apply Ty.meet_clash hm ρ
    rw [eval_deref h hρ, eval_deref h hρ]
    exact he (t, u) (by simp)

/-- Where one side of every equation is ground, nothing can turn out to be inside of itself. -/
theorem Solve.mismatch_of_ground (hsolve : Solve s eqs (.error c s')) (h : s.Acyclic)
    (hg : ∀ e ∈ eqs, (s.resolve e.1).vars = [] ∨ (s.resolve e.2).vars = []) :
    ∃ t u, c = .mismatch t u := by
  generalize hr : EStateM.Result.error c s' = q at hsolve
  induction hsolve with
  | done s => cases hr
  | bind hm ho _ ih =>
    have hgrows := grows_of_meet h hm ho
    have hs' := hgrows.acyclic h
    refine ih hs' (fun e he => ?_) hr
    refine (hg e (by simp [he])).imp (fun hn => ?_) fun hn => ?_
    · rw [hgrows.extends.resolve_ground hs' hn, hn]
    · rw [hgrows.extends.resolve_ground hs' hn, hn]
  | @cycle s t u v w _ hm ho =>
    -- The side on which the variable stands is not ground, so the other is, and mentions none.
    have hv : v ∈ (s.resolve w).vars :=
      (mem_vars_resolve h).mpr ⟨(occurs_iff h).mp ho, unbound_of_meet h hm⟩
    rcases resolve_of_meet h hm with ⟨ht, hw⟩ | ⟨hu, hw⟩
    · rw [hw] at hv
      rcases hg (t, u) (by simp) with hn | hn
      · simp [ht] at hn
      · simp [hn] at hv
    · rw [hw] at hv
      rcases hg (t, u) (by simp) with hn | hn
      · simp [hn] at hv
      · simp [hu] at hn
  | @parts s t u ds eqs _ hm _ ih =>
    refine ih h (fun e he => ?_) hr
    rcases List.mem_append.mp he with he | he
    · obtain ⟨ht, hu⟩ := vars_resolve_subset_of_meet h hm he
      refine (hg (t, u) (by simp)).imp (fun hn => ?_) fun hn => ?_
      · exact List.eq_nil_of_subset_nil (hn ▸ ht)
      · exact List.eq_nil_of_subset_nil (hn ▸ hu)
    · exact hg e (by simp [he])
  | clash =>
    cases hr
    exact ⟨_, _, rfl⟩

end Store

end TypedL5
