import TypedL5.Proofs.Independence
import TypedL5.Proofs.SessionReach

/-!
Sessions side by side. As long as what they know is the same up to a renaming of variables, so
is what comes of the forms that are entered in both, and the renaming goes on to the variables
taken on the way.
-/
namespace TypedL5

open CheckState

section

variable {f : TyVar → TyVar} {D : Set TyVar} {φ : Ty → Ty} {env env' : Env}
  {st st' : CheckState} {form : Exp}

theorem Exp.not_defines_mapTy (h : ¬ form.Defines) : ¬ (form.mapTy φ).Defines := by
  rintro ⟨d, e, he⟩
  cases form with
  | define d e => exact h ⟨d, e, rfl⟩
  | _ => cases he

/-- Forms come to the same types, and to environments that agree on all names. -/
theorem Mirrors.checkForm (h : ∀ xs, Paired f D φ env env' form.tys xs st st') :
    Mirrors f D st st' (form.checkForm env st) ((form.mapTy φ).checkForm env' st')
      fun a a' m m' =>
      (∀ xs, Env.Rel (Alike f D m m') a.1 a'.1 xs) ∧ Option.Rel (Alike f D m m') a.2 a'.2 := by
  by_cases hform : form.Defines
  · obtain ⟨d, e, rfl⟩ := hform
    simp only [Exp.tys] at h
    rw [Exp.mapTy, Exp.checkForm, Exp.checkForm]
    refine (mirrors_typeOf (h _).tail).bind fun t t' m₁ m₁' h₁ ht => ?_
    have hd := h₁.stays _ _ ((h []).tys d.ty (by simp))
    refine (Mirrors.unify h₁.linked hd ht _ _).bind fun _ _ m₂ m₂' h₂ _ => ?_
    have hds : List.Forall₂ (Env.RelDecl (Alike f D m₂ m₂')) [d] [d.mapTy φ] :=
      .cons ⟨rfl, h₂.stays _ _ hd⟩ .nil
    exact .pure h₂.linked ⟨fun xs => ((h _).later (h₁.trans h₂)).names.extend hds, .none⟩
  · rw [Exp.checkForm_of_not_defines hform,
      Exp.checkForm_of_not_defines (Exp.not_defines_mapTy hform)]
    refine (mirrors_typeOf (h _)).bind fun t t' m₁ m₁' h₁ ht => ?_
    exact .pure h₁.linked ⟨fun xs => ((h xs).later h₁).names, .some ht⟩

end

namespace Answer

variable {R R' : Store → Store → Ty → Ty → Prop} {a a' : Answer}

/-- Two forms have come to the same: to types that are related as they stand after the checks,
or to failures of one kind. -/
def Agree (R : Store → Store → Ty → Ty → Prop) (a a' : Answer) : Prop :=
  match a.result, a'.result with
  | .ok t?, .ok t?' => Option.Rel (R a.state.store a'.state.store) t? t?'
  | .error e, .error e' => e.kind = e'.kind
  | _, _ => False

theorem Agree.imp (h : Agree R a a') (hR : ∀ s s' t t', R s s' t t' → R' s s' t t') :
    Agree R' a a' := by
  unfold Agree at h ⊢
  split at h
  · cases h with
    | none => exact .none
    | some h => exact .some (hR _ _ _ _ h)
  · exact h
  · exact h

theorem Agree.failed (h : Agree R a a') : a'.failed = a.failed := by
  unfold Agree at h
  split at h
  · rename_i hr hr'
    rw [Answer.failed, Answer.failed, hr, hr']
  · rename_i hr hr'
    rw [Answer.failed, Answer.failed, hr, hr']
  · exact h.elim

end Answer

namespace Session

variable {form : Exp} {forms : List Exp} {s s' : Session}

/-- What comes of a form. -/
def answer (form : Exp) (s : Session) : Answer :=
  match add form s with
  | .ok t? s' => ⟨form, .ok t?, s'.state⟩
  | .error f s' => ⟨form, .error f, s'.state⟩

/-- Forms are entered up to the first that fails. -/
theorem enter_cons (form : Exp) (forms : List Exp) (s : Session) :
    enter (form :: forms) s =
      if (answer form s).failed then ([answer form s], endState (add form s))
      else (answer form s :: (enter forms (endState (add form s))).1,
        (enter forms (endState (add form s))).2) := by
  cases hadd : add form s with
  | ok t? s' =>
    rw [enter_cons_ok hadd, answer, hadd]
    rfl
  | error e s' =>
    rw [enter_cons_error hadd, answer, hadd]
    rfl

theorem defined_mapTy (φ : Ty → Ty) (form : Exp) :
    defined (form.mapTy φ) = (defined form).map (Decl.mapTy φ) := by
  cases form <;> rfl

/-- What two sessions know is related: the types of all names, and the definitions in order. -/
structure Agree (R : Store → Store → Ty → Ty → Prop) (s s' : Session) : Prop where
  types :
    ∀ name,
      Option.Rel (R s.state.store s'.state.store) (s.env.lookup? name) (s'.env.lookup? name)
  definitions :
    List.Forall₂ (Env.RelDecl (R s.state.store s'.state.store)) s.definitions s'.definitions

variable {f : TyVar → TyVar} {D G : Set TyVar} {φ : Ty → Ty}

theorem Agree.imp
    {R R' : Store → Store → Ty → Ty → Prop} {m m' : CheckState} (h : Agree R s s')
    (hR : ∀ t t', R s.state.store s'.state.store t t' → R' m.store m'.store t t') :
    Agree R' { s with state := m } { s' with state := m' } where
  types name := by
    have htypes := h.types name
    generalize s.env.lookup? name = t? at htypes ⊢
    generalize s'.env.lookup? name = t?' at htypes ⊢
    cases htypes with
    | none => exact .none
    | some ht => exact .some (hR _ _ ht)
  definitions := h.definitions.imp fun _ _ hd => ⟨hd.1, hR _ _ hd.2⟩

/-- Two courses of forms have gone side by side: all that was the same up to a renaming still
is, and the answers are the same too. -/
structure Tandem (f : TyVar → TyVar) (D : Set TyVar) (s s' : Session)
    (r r' : List Answer × Session) : Prop where
  follows : Follows f D s.state s'.state r.2.state r'.2.state
  agree : Agree (Store.Alike f (shared f D r.2.state r'.2.state)) r.2 r'.2
  answers :
    List.Forall₂ (Answer.Agree (Store.Alike f (shared f D r.2.state r'.2.state))) r.1 r'.1

theorem Tandem.append {as as' : List Answer} {m m' : Session} {r r' : List Answer × Session}
    (h : Tandem f D s s' (as, m) (as', m')) (h' : Tandem f D m m' r r') :
    Tandem f D s s' (as ++ r.1, r.2) (as' ++ r'.1, r'.2) where
  follows := h.follows.trans h'.follows
  agree := h'.agree
  answers := by
    have hanswers := h.answers.imp fun _ _ ha => ha.imp fun _ _ _ _ ht =>
      ht.mono h'.follows.taken
    exact List.rel_append hanswers h'.answers

theorem ty_mem_of_defined {d : Decl} (h : d ∈ defined form) : d.ty ∈ form.tys := by
  cases form with
  | define d' e =>
    obtain rfl := List.mem_singleton.mp h
    simp [Exp.tys]
  | _ => cases h

/-- A form whose types are renamed is answered alike, and the sessions still know the same. -/
theorem Agree.add (h : Agree (Store.Alike f (shared f D s.state s'.state)) s s')
    (hl : Linked f D s.state s'.state)
      (hform : ∀ t ∈ form.tys, CheckState.Alike f D s.state s'.state t (φ t)) :
    Tandem f D s s' ([answer form s], endState (add form s))
      ([answer (form.mapTy φ) s'], endState (add (form.mapTy φ) s')) := by
  have hm := Mirrors.checkForm (φ := φ) fun xs => ⟨hl, hform, fun name _ => h.types name⟩
  unfold answer Session.add
  cases hr : form.checkForm s.env s.state with
  | ok a m =>
    cases hr' : (form.mapTy φ).checkForm s'.env s'.state with
    | ok a' m' =>
      rw [hr, hr'] at hm
      obtain ⟨hfollows, henv, ht⟩ := hm
      refine ⟨hfollows, ⟨fun name => henv [name] name (by simp), ?_⟩, .cons ht .nil⟩
      rw [defined_mapTy]
      have hds := Env.relDecl_mapTy fun d hd =>
        hfollows.stays _ _ (hform d.ty (ty_mem_of_defined hd))
      exact List.rel_append
        (h.definitions.imp fun _ _ hd => ⟨hd.1, hfollows.stays _ _ hd.2⟩) hds
    | error c' m' =>
      rw [hr, hr'] at hm
      exact hm.elim
  | error c m =>
    cases hr' : (form.mapTy φ).checkForm s'.env s'.state with
    | ok a' m' =>
      rw [hr, hr'] at hm
      exact hm.elim
    | error c' m' =>
      rw [hr, hr'] at hm
      obtain ⟨hfollows, hkind⟩ := hm
      exact ⟨hfollows, h.imp hfollows.stays, .cons (hkind _ _) .nil⟩

/-- Two sessions that enter renamed forms stop at the same form, if they stop. -/
theorem Agree.enter (h : Agree (Store.Alike f (shared f D s.state s'.state)) s s')
    (hl : Linked f D s.state s'.state)
    (hforms : ∀ form ∈ forms, ∀ t ∈ form.tys, CheckState.Alike f D s.state s'.state t (φ t)) :
    Tandem f D s s' (enter forms s) (enter (forms.map (Exp.mapTy φ)) s') := by
  induction forms generalizing s s' with
  | nil => exact ⟨.refl hl, h, .nil⟩
  | cons form forms ih =>
    obtain ⟨hform, hforms⟩ := List.forall_mem_cons.mp hforms
    have hadd := h.add hl hform
    have hfailed : (answer (form.mapTy φ) s').failed = (answer form s).failed :=
      (List.forall₂_cons.mp hadd.answers).1.failed
    rw [List.map_cons, enter_cons, enter_cons, hfailed]
    split
    · exact hadd
    · refine hadd.append (ih hadd.agree hadd.follows.linked fun form hf t ht => ?_)
      exact hadd.follows.stays _ _ (hforms form hf t ht)

end Session

namespace Supply

variable {g g' : Supply} {f f₁ : TyVar → TyVar} {G G₁ : Set TyVar} {v : TyVar}

/-- Renames variables that have been taken by a function, and all later ones in order. -/
def onward (g g' : Supply) (f : TyVar → TyVar) (v : TyVar) : TyVar :=
  if v.id < g.next then f v else g'.nth (v.id - g.next)

theorem onward_old (h : v.id < g.next) : g.onward g' f v = f v := if_pos h

theorem onward_nth (i : Nat) : g.onward g' f (g.nth i) = g'.nth i := by
  have hid : (g.nth i).id = g.next + i := rfl
  rw [onward, hid, if_neg (by omega), Nat.add_sub_cancel_left]

/-- A renaming of a set goes on to a larger one. What is new there has been taken from two
supplies side by side. -/
structure Prolongs (g g' : Supply) (f f₁ : TyVar → TyVar) (G G₁ : Set TyVar) : Prop where
  same : ∀ v ∈ G, f₁ v = f v
  subset : G ⊆ G₁
  new : ∀ v ∈ G₁, v ∈ G ∨ ∃ i, v = g.nth i ∧ f₁ v = g'.nth i

end Supply

namespace Session

variable {f : TyVar → TyVar} {G : Set TyVar} {φ : Ty → Ty} {forms : List Exp} {s s' : Session}

/-- All that two sessions know is the same up to a renaming of variables that both have taken.
Written names stay. -/
structure Matched (f : TyVar → TyVar) (G : Set TyVar) (s s' : Session) : Prop where
  left : s.state.Valid
  right : s'.state.Valid
  inj : Set.InjOn f G
  taken : ∀ v ∈ G, v.id < s.state.supply.next ∧ (f v).id < s'.state.supply.next
  sorts : ∀ v ∈ G, s.state.supply.SameSort s'.state.supply v (f v)
  agree : Agree (Store.Alike f G) s s'

/-- What has come of forms in two sessions is the same up to a renaming too. -/
structure MatchedRuns (f : TyVar → TyVar) (G : Set TyVar)
    (r r' : List Answer × Session) : Prop where
  sessions : Matched f G r.2 r'.2
  answers : List.Forall₂ (Answer.Agree (Store.Alike f G)) r.1 r'.1

/-- The variables between two supplies have been set apart: they are not bound, and later ones
are taken from now on. -/
structure Reserves (s : Session) (g₁ g₂ : Supply) : Prop where
  stem : s.state.supply.stem = g₁.stem
  next_le : g₂.next ≤ s.state.supply.next
  unbound : ∀ v : TyVar, g₁.next ≤ v.id → v.id < g₂.next → s.state.store.contents? v = none

namespace Matched

/-- The renaming goes on to the variables that both sessions will take. -/
theorem linked (h : Matched f G s s') :
    Linked (s.state.supply.onward s'.state.supply f) {v | v ∈ G ∨ v ∈ s.state.supply.upcoming}
      s.state s'.state where
  left := h.left
  right := h.right
  inj := by
    have hold : ∀ v ∈ G, s.state.supply.onward s'.state.supply f v = f v :=
      fun v hv => Supply.onward_old (h.taken v hv).1
    have hapart : ∀ v ∈ G, ∀ i, f v ≠ s'.state.supply.nth i := by
      intro v hv i he
      have hlt := (h.taken v hv).2
      rw [he] at hlt
      exact absurd hlt (Nat.not_lt.mpr (Nat.le_add_right _ i))
    -- Old variables go to old ones and new ones to new ones, so the two sorts never meet.
    rintro v (hv | ⟨i, rfl⟩) w (hw | ⟨j, rfl⟩) he
    · rw [hold v hv, hold w hw] at he
      exact h.inj hv hw he
    · rw [hold v hv, Supply.onward_nth] at he
      exact absurd he (hapart v hv j)
    · rw [hold w hw, Supply.onward_nth] at he
      exact absurd he.symm (hapart w hw i)
    · rw [Supply.onward_nth, Supply.onward_nth] at he
      have hid : s'.state.supply.next + i = s'.state.supply.next + j := congrArg TyVar.id he
      obtain rfl : i = j := by omega
      rfl
  sync i := ⟨.inr ⟨i, rfl⟩, Supply.onward_nth i⟩

/-- Forms that are the same up to the renaming lead on to sessions that are. -/
theorem enter (h : Matched f G s s')
    (hforms : ∀ form ∈ forms, ∀ t ∈ form.tys,
      Store.Alike f G s.state.store s'.state.store t (φ t)) :
    ∃ f₁ G₁, s.state.supply.Prolongs s'.state.supply f f₁ G G₁ ∧
      MatchedRuns f₁ G₁ (Session.enter forms s)
        (Session.enter (forms.map (Exp.mapTy φ)) s') := by
  have hsame : ∀ v ∈ G, s.state.supply.onward s'.state.supply f v = f v :=
    fun v hv => Supply.onward_old (h.taken v hv).1
  have hG : G ⊆ shared (s.state.supply.onward s'.state.supply f)
      {v | v ∈ G ∨ v ∈ s.state.supply.upcoming} s.state s'.state := by
    intro v hv
    refine ⟨.inl hv, (h.taken v hv).1, ?_⟩
    rw [hsame v hv]
    exact (h.taken v hv).2
  have hagree := h.agree.imp
    fun t t' (ht : Store.Alike f G s.state.store s'.state.store t t') => ht.congr hsame hG
  have hrun := hagree.enter h.linked fun form hf t ht => (hforms form hf t ht).congr hsame hG
  -- What both sessions have taken in the end is what was matched before, and what they took
  -- side by side since.
  let G₁ :=
    shared (s.state.supply.onward s'.state.supply f) {v | v ∈ G ∨ v ∈ s.state.supply.upcoming}
    (Session.enter forms s).2.state (Session.enter (forms.map (Exp.mapTy φ)) s').2.state
  have hnew : ∀ v ∈ G₁, v ∈ G ∨
      ∃ i, v = s.state.supply.nth i ∧ s.state.supply.onward s'.state.supply f v =
        s'.state.supply.nth i := by
    rintro v ⟨hv | ⟨i, rfl⟩, _⟩
    · exact .inl hv
    · exact .inr ⟨i, rfl, Supply.onward_nth i⟩
  have hlinked := hrun.follows.linked
  refine ⟨_, G₁, ⟨hsame, hG.trans hrun.follows.taken, hnew⟩,
    ⟨hlinked.left, hlinked.right, hlinked.injShared, fun v hv => hv.2, fun v hv => ?_,
      hrun.agree⟩, hrun.answers⟩
  refine .earlier (enter_stem forms s).symm (enter_stem _ s').symm ?_
  rcases hnew v hv with hv | ⟨i, rfl, he⟩
  · rw [hsame v hv]
    exact h.sorts v hv
  · rw [he]
    exact .inr ⟨⟨_, rfl⟩, ⟨_, rfl⟩⟩

variable {forms' : List Exp} {g g₁ g₂ : Supply} {vs vs' : List TyVar}

/-- What the one session takes when it reads can be matched with what the other one has set
apart. -/
theorem renew (h : Matched f G s s')
    (hread : ReadAlike s.state.supply g g₁ g₂ forms forms' vs vs') (hres : s'.Reserves g₁ g₂)
    (hfree : ∀ v ∈ G, f v ∉ vs') :
    ∃ f₁, (∀ v ∈ G, f₁ v = f v) ∧ vs.map f₁ = vs' ∧
      Matched f₁ {v | v ∈ G ∨ v ∈ vs} (s.withSupply g) s' := by
  have ht := hread.left
  -- What is read now goes, place by place, to what the other session has set apart.
  let f₁ : TyVar → TyVar := fun v =>
    if v.id < s.state.supply.next then f v else ((vs.zip vs').lookup v).getD v
  have hsame : ∀ v ∈ G, f₁ v = f v := fun v hv => if_pos (h.taken v hv).1
  have hmap : vs.map f₁ = vs' := by
    refine Eq.trans (List.map_congr_left fun v hv => ?_)
      (Supply.map_lookup_zip ht.nodup hread.twin.length)
    exact if_neg (Nat.not_lt.mpr (ht.id_of_mem hv).1)
  have hnew : ∀ v ∈ vs, f₁ v ∈ vs' := fun v hv => hmap ▸ List.mem_map_of_mem hv
  refine ⟨f₁, hsame, hmap, ⟨h.left.acyclic, fun v t hv => ?_⟩, h.right, ?_, ?_, ?_, ?_⟩
  · exact Nat.lt_of_lt_of_le (h.left.old v t hv) ht.later.next_le
  · rintro v (hv | hv) w (hw | hw) he
    · rw [hsame v hv, hsame w hw] at he
      exact h.inj hv hw he
    · exact absurd (hsame v hv ▸ he ▸ hnew w hw) (hfree v hv)
    · exact absurd (hsame w hw ▸ he ▸ hnew v hv) (hfree w hw)
    · exact List.inj_on_of_nodup_map (hmap.symm ▸ hread.right.nodup) hv hw he
  · rintro v (hv | hv)
    · rw [hsame v hv]
      exact ⟨Nat.lt_of_lt_of_le (h.taken v hv).1 ht.later.next_le, (h.taken v hv).2⟩
    · have hlt := (hread.right.id_of_mem (hnew v hv)).2
      exact ⟨(ht.id_of_mem hv).2, Nat.lt_of_lt_of_le hlt hres.next_le⟩
  · rintro v (hv | hv)
    · rw [hsame v hv]
      exact .earlier ht.stem.symm rfl (h.sorts v hv)
    · have hsorts := hread.sorts
      rw [← hmap, List.forall₂_map_right_iff, List.forall₂_same] at hsorts
      exact .earlier ht.stem.symm hres.stem.symm (hsorts v hv)
  · exact h.agree.imp fun t t' (ha : Store.Alike f G s.state.store s'.state.store t t') =>
      ha.congr hsame fun _ => .inl

/-- Forms that the one session has yet to read, and the other one has read before, are entered
in both. -/
theorem enter_read (h : Matched f G s s')
    (hread : ReadAlike s.state.supply g g₁ g₂ forms forms' vs vs') (hres : s'.Reserves g₁ g₂)
    (hfree : ∀ v ∈ G, f v ∉ vs') :
    ∃ f₁ G₁, (∀ v ∈ G, f₁ v = f v) ∧ G ⊆ G₁ ∧ (∀ v ∈ vs, v ∈ G₁) ∧ vs.map f₁ = vs' ∧
      MatchedRuns f₁ G₁ (Session.enter forms (s.withSupply g)) (Session.enter forms' s') := by
  obtain ⟨f₁, hsame, hmap, hrenewed⟩ := h.renew hread hres hfree
  have htys : ∀ form ∈ forms, ∀ t ∈ form.tys,
      Store.Alike f₁ {v | v ∈ G ∨ v ∈ vs} s.state.store s'.state.store t (t.rename f₁) := by
    intro form hf t ht
    have hvars : ∀ v ∈ t.vars, v ∈ vs := fun v hv =>
      hread.twin.perm.mem_iff.mpr
        (List.mem_flatMap.mpr ⟨form, hf, List.mem_flatMap.mpr ⟨t, ht, hv⟩⟩)
    refine Store.alike_rename h.left.acyclic h.right.acyclic (fun v hv => .inr (hvars v hv))
      fun v hv => ?_
    obtain ⟨hge, hlt⟩ := hread.right.id_of_mem (hmap ▸ List.mem_map_of_mem (hvars v hv))
    exact ⟨h.left.unbound (hread.left.id_of_mem (hvars v hv)).1, hres.unbound _ hge hlt⟩
  obtain ⟨f₂, G₂, hpro, hruns⟩ := hrenewed.enter htys
  obtain rfl : forms' = forms.map (Exp.mapTy (Ty.rename f₁)) := hread.twin.renamed f₁ hmap
  refine ⟨f₂, G₂, fun v hv => (hpro.same v (.inl hv)).trans (hsame v hv), fun v hv =>
    hpro.subset (.inl hv), fun v hv => hpro.subset (.inr hv), ?_, hruns⟩
  exact (List.map_congr_left fun v hv => hpro.same v (.inr hv)).trans hmap

end Matched

end Session

end TypedL5
