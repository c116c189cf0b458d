import Mathlib.Data.Set.Finite.Basic
import Mathlib.Logic.Denumerable
import Mathlib.Logic.Equiv.List
import TypedL5.Proofs.Juxtaposed
import TypedL5.Proofs.SessionMirror

/-!
Texts may be entered one after the other or together. What comes of them is the same up to a
renaming of variables, although of texts that are entered together all are read before the
first one is checked.
-/
namespace TypedL5

open CheckState HasVars

/-- A function that tells the members of a set apart goes on to a permutation if there is
enough beside them. -/
theorem exists_perm_eqOn_of_infinite {α : Type} [Countable α] {f : α → α} {G : Set α}
    (hf : Set.InjOn f G) (hG : Gᶜ.Infinite) (hfG : (f '' G)ᶜ.Infinite) :
    ∃ π : Equiv.Perm α, ∀ a ∈ G, π a = f a := by
  classical
  have := hG.to_subtype
  have := hfG.to_subtype
  obtain ⟨e⟩ := nonempty_equiv_of_countable (α := ↥Gᶜ) (β := ↥(f '' G)ᶜ)
  let parts := Equiv.sumCongr (Equiv.Set.imageOfInjOn f G hf) e
  refine ⟨(Equiv.Set.sumCompl G).symm.trans (parts.trans (Equiv.Set.sumCompl (f '' G))),
    fun a ha => ?_⟩
  rw [Equiv.trans_apply, Equiv.Set.sumCompl_symm_apply_of_mem ha]
  rfl

instance : Countable TyVar := by
  have hchar : Function.Injective Char.toNat := fun a b h => Char.toNat_inj.mp h
  refine Function.Injective.countable
    (f := fun v : TyVar => (v.id, v.name.toList.map Char.toNat)) ?_
  rintro ⟨i, x⟩ ⟨j, y⟩ h
  obtain ⟨rfl, hxy⟩ := Prod.mk.inj h
  obtain rfl := String.toList_injective (List.map_injective_iff.mpr hchar hxy)
  rfl

/-- There are always variables that have not been taken. -/
theorem TyVar.infinite_compl {G : Set TyVar} {n : Nat}
    (h : ∀ v ∈ G, v.id < n) : Gᶜ.Infinite := by
  refine Set.infinite_of_injective_forall_mem (f := fun i => ⟨n + i, ""⟩) ?_ fun i hi => ?_
  · intro i j he
    have hid : n + i = n + j := congrArg TyVar.id he
    omega
  · have hlt : n + i < n := h _ hi
    omega

namespace Exp

variable {source : String}

/-- The text can be read, whatever the variables that are new. -/
def Readable (source : String) : Prop := ∃ forms g, readTopLevel source {} = .ok forms g

theorem Readable.read (h : Readable source) (g : Supply) :
    ∃ forms g', readTopLevel source g = .ok forms g' := by
  obtain ⟨forms, m, h⟩ := h
  obtain ⟨forms', g', _, _, hr, _⟩ := (parses_readTopLevel source).counterpart h g
  exact ⟨forms', g', hr⟩

end Exp

namespace Session

variable {source : String} {forms : List Exp} {s : Session} {g : Supply}

/-- What comes of the forms of a text. -/
def answers (source : String) (s : Session) : List Answer :=
  match read source s with
  | .ok forms s' => (enter forms s').1
  | .error _ _ => []

theorem answers_of_read (h : Exp.readTopLevel source s.state.supply = .ok forms g) :
    s.answers source = (enter forms (s.withSupply g)).1 := by
  rw [answers, read_of_ok h]

theorem input_of_read (h : Exp.readTopLevel source s.state.supply = .ok forms g) :
    s.input source = (enter forms (s.withSupply g)).2 := by
  rw [input, read_of_ok h]
  split
  · rename_i hblank
    obtain ⟨rfl, rfl⟩ := Exp.eq_nil_of_blank h hblank
    rfl
  · rfl

end Session

namespace Repl

variable {source : String} {forms : List Exp} {r : Repl} {g : Supply}

/-- The dialogue after a text has been answered. -/
def answered (source : String) (r : Repl) : Repl :=
  (r.withSession (r.session.input source)).said ((r.session.answers source).map Answer.text)

/-- A text that can be read is answered at once, with nothing held back. -/
theorem process_of_read (h : Exp.readTopLevel source r.session.state.supply = .ok forms g) :
    process source r = .ok true (r.answered source) := by
  cases hblank : Text.isBlank source with
  | true =>
    obtain ⟨rfl, rfl⟩ := Exp.eq_nil_of_blank h hblank
    rw [process_blank hblank, answered, Session.input_of_read h, Session.answers_of_read h]
    simp [said, withSession, Session.enter, Session.withSupply]
  | false =>
    rw [process_ok hblank (Session.read_of_ok h), answered, Session.input_of_read h,
      Session.answers_of_read h]

end Repl

namespace Session

variable {s : Session} {forms₁ forms₂ forms₂' : List Exp} {g g₁ g₂ : Supply}
  {vs vs' : List TyVar}

theorem Coherent.ty_mem (h : s.Coherent) {d : Decl} (hd : d ∈ s.definitions) :
    d.ty ∈ s.env.tys := by
  rw [h, Env.tys, Env.flatten_ofDefinitions]
  exact List.mem_map_of_mem (List.mem_reverse.mpr hd)

/-- A session is like itself, wherever its next variables come from. -/
theorem Ahead.matched (hs : s.Ahead) (hc : s.Coherent) (h₁ : s.state.supply.Later g₁)
    (h₂ : g₁.Later g₂) :
    Matched id {v | v.id < g₁.next} (s.withSupply g₁) (s.withSupply g₂) := by
  have hknown : ∀ t ∈ s.env.tys, (s.state.store.resolve t).Within {v | v.id < g₁.next} :=
      fun t ht v hv =>
    Nat.lt_of_lt_of_le (hs.state.covers_resolve (hs.env t ht) v hv) h₁.next_le
  exact {
    left := (hs.state.later h₁.next_le).toValid
    right := (hs.state.later (h₁.trans h₂).next_le).toValid
    inj := Set.injOn_id _
    taken := fun v hv => ⟨hv, Nat.lt_of_lt_of_le hv h₂.next_le⟩
    sorts := fun v _ => .inl rfl
    agree :=
      { types := fun name => by
          change Option.Rel _ (s.env.lookup? name) (s.env.lookup? name)
          cases hx : s.env.lookup? name with
          | none => exact .none
          | some t => exact .some (Store.alike_refl (hknown t (Env.mem_tys hx)))
        definitions := List.forall₂_same.mpr fun d hd =>
          ⟨rfl, Store.alike_refl (hknown d.ty (hc.ty_mem hd))⟩ } }

/-- Forms leave alone what has been taken after them. -/
theorem Ahead.reserves (hs : s.Ahead) (h₁ : s.state.supply.Later g₁) (h₂ : g₁.Later g₂)
    (hforms : ∀ form ∈ forms₁, ∀ t ∈ form.tys, g₁.Covers t) :
    (enter forms₁ (s.withSupply g₂)).2.Reserves g₁ g₂ := by
  have hle₁ := h₁.next_le
  have hle₂ := h₂.next_le
  -- The check is kept to what there was before the second reading and what there will be after
  -- it.
  let F : Set TyVar := {v | v.id < g₁.next ∨ v ∈ g₂.upcoming}
  have hscope : ∀ v : TyVar, v.id < g₁.next → v ∈ (s.withSupply g₂).state.scope F :=
    fun v hv => ⟨.inl hv, Nat.lt_of_lt_of_le hv hle₂⟩
  have hheld : Course.Held F ⟨s.withSupply g₂, forms₁⟩ :=
    { confined :=
        { toValid := (hs.state.later (Nat.le_trans hle₁ hle₂)).toValid
          closed := fun v _ t ht w hw =>
            hscope w (Nat.lt_of_lt_of_le (hs.state.covers v t ht w hw) hle₁)
          fresh := fun i => .inr ⟨i, rfl⟩ }
      env := fun t ht v hv => hscope v (Nat.lt_of_lt_of_le (hs.env t ht v hv) hle₁)
      forms := fun form hf t ht v hv => hscope v (hforms form hf t ht v hv) }
  obtain ⟨hmoves, _⟩ := hheld.enter fun form hf => hf
  refine ⟨(enter_stem forms₁ (s.withSupply g₂)).trans h₂.stem, hmoves.next_le,
    fun v hge hlt => ?_⟩
  have hout : v ∉ F := by
    rintro (hv | hv)
    · omega
    · have hle := Supply.next_le_of_upcoming hv
      omega
  rw [hmoves.outside v hout]
  exact hs.state.unbound (Nat.le_trans hle₁ hge)

/-- The same forms lead on to sessions that are alike. -/
theorem Ahead.enter_matched (hs : s.Ahead) (hc : s.Coherent) (h₁ : s.state.supply.Later g₁)
    (h₂ : g₁.Later g₂) (hforms : ∀ form ∈ forms₁, ∀ t ∈ form.tys, g₁.Covers t) :
    ∃ f G, g₁.Prolongs g₂ id f {v | v.id < g₁.next} G ∧
      MatchedRuns f G (enter forms₁ (s.withSupply g₁)) (enter forms₁ (s.withSupply g₂)) := by
  have hknown : ∀ form ∈ forms₁, ∀ t ∈ form.tys,
      Store.Alike id {v | v.id < g₁.next} s.state.store s.state.store t (id t) :=
        fun form hf t ht =>
    Store.alike_refl ((hs.state.later h₁.next_le).covers_resolve (hforms form hf t ht))
  have hrun := (hs.matched hc h₁ h₂).enter hknown
  rwa [← Exp.mapTyAll_eq_map, Exp.mapTyAll_id] at hrun

/-- Whether forms are read after others have been checked or before, the sessions are alike in
the end. -/
theorem Ahead.split (hs : s.Ahead) (hc : s.Coherent) (h₁ : s.state.supply.Later g₁)
    (hforms : ∀ form ∈ forms₁, ∀ t ∈ form.tys, g₁.Covers t)
    (hread : ReadAlike (enter forms₁ (s.withSupply g₁)).2.state.supply g g₁ g₂ forms₂
      forms₂' vs vs') :
    let p := enter forms₁ (s.withSupply g₁)
    let q := enter forms₁ (s.withSupply g₂)
    ∃ f G, (∀ v, v.id < g₁.next → v ∈ G ∧ f v = v) ∧ (∀ v ∈ vs, v ∈ G) ∧ vs.map f = vs' ∧
      List.Forall₂ (Answer.Agree (Store.Alike f G)) p.1 q.1 ∧
      MatchedRuns f G (enter forms₂ (p.2.withSupply g)) (enter forms₂' q.2) := by
  intro p q
  have h₂ := hread.right.later
  obtain ⟨f, G, hpro, hruns⟩ := hs.enter_matched hc h₁ h₂ hforms
  -- What is known so far is older than what is read, or has been taken after it.
  have hfree : ∀ v ∈ G, f v ∉ vs' := by
    intro v hv hmem
    obtain ⟨hge, hlt⟩ := hread.right.id_of_mem hmem
    rcases hpro.new v hv with hold | ⟨i, rfl, hi⟩
    · rw [hpro.same v hold] at hge
      exact absurd hold (Nat.not_lt.mpr hge)
    · rw [hi] at hlt
      exact absurd hlt (Nat.not_lt.mpr (Nat.le_add_right _ i))
  obtain ⟨f₁, G₁, hsame, hsub, hvs, hmap, hruns₁⟩ :=
    hruns.sessions.enter_read hread (hs.reserves h₁ h₂ hforms) hfree
  refine ⟨f₁, G₁, fun v hv => ?_, hvs, hmap, ?_, hruns₁⟩
  · have hmem := hpro.subset hv
    exact ⟨hsub hmem, (hsame v hmem).trans (hpro.same v hv)⟩
  · exact hruns.answers.imp fun _ _ ha => ha.imp fun _ _ _ _ h => h.congr hsame hsub

end Session

/-- Two types, each as it stands in its store, are the same up to a renaming under which
written names stay. -/
structure Store.Renamed (π : TyVar → TyVar) (s s' : Store) (t t' : Ty) : Prop where
  resolved : s'.resolve t' = (s.resolve t).rename π
  names : ∀ v ∈ (s.resolve t).vars, Supply.SameSort {} {} v (π v)

namespace Session

variable {f : TyVar → TyVar} {G : Set TyVar} {s s' : Session}

namespace Matched

/-- The variables that two sessions match can be renamed one to one throughout. -/
theorem exists_perm (h : Matched f G s s') : ∃ π : Equiv.Perm TyVar, ∀ v ∈ G, π v = f v := by
  refine exists_perm_eqOn_of_infinite h.inj (TyVar.infinite_compl fun v hv => (h.taken v hv).1)
    (TyVar.infinite_compl (n := s'.state.supply.next) ?_)
  rintro _ ⟨v, hv, rfl⟩
  exact (h.taken v hv).2

theorem renamed {π : TyVar → TyVar} (h : Matched f G s s') (hπ : ∀ v ∈ G, π v = f v)
    (hstem : s.state.supply.stem = "T") (hstem' : s'.state.supply.stem = "T")
      (m m' : Store) (t t' : Ty)
    (ht : Store.Alike f G m m' t t') : Store.Renamed π m m' t t' where
  resolved := ht.resolved.trans (Ty.rename_congr fun v hv => (hπ v (ht.within v hv)).symm)
  names v hv := by
    rw [hπ v (ht.within v hv)]
    exact .earlier hstem hstem' (h.sorts v (ht.within v hv))

end Matched

/-- Two rows of answers, and the sessions after them, are the same up to a renaming of
variables. -/
structure SameCourse (π : TyVar → TyVar) (answers answers' : List Answer)
    (s s' : Session) : Prop where
  forms : answers'.map Answer.form = rename π (answers.map Answer.form)
  answers : List.Forall₂ (Answer.Agree (Store.Renamed π)) answers answers'
  known : Agree (Store.Renamed π) s s'
  names : s'.env.names = s.env.names

/-- Coherent sessions with the same definitions list the same names. -/
theorem names_of_agree {R : Store → Store → Ty → Ty → Prop} (hs : s.Coherent)
    (hs' : s'.Coherent) (h : Agree R s s') : s'.env.names = s.env.names := by
  have hnames : s.definitions.map Decl.name = s'.definitions.map Decl.name := by
    refine List.forall₂_eq_eq_eq ▸ ?_
    rw [List.forall₂_map_left_iff, List.forall₂_map_right_iff]
    exact h.definitions.imp fun _ _ hd => hd.1
  rw [hs.names, hs'.names, hnames]

/-- Rows of forms that are renamed into each other are so as far as they have been answered. -/
theorem forms_of_isPrefix {ρ : Exp → Exp} {forms forms' : List Exp} {as as' : List Answer}
    (h : as.map Answer.form <+: forms) (h' : as'.map Answer.form <+: forms')
      (hforms : forms' = forms.map ρ)
    (hl : as.length = as'.length) : as'.map Answer.form = (as.map Answer.form).map ρ := by
  rw [List.prefix_iff_eq_take.mp h, List.prefix_iff_eq_take.mp h', hforms, List.map_take,
    List.length_map, List.length_map, hl]

theorem not_failed_of_agree {R : Store → Store → Ty → Ty → Prop} {as as' : List Answer}
    (h : List.Forall₂ (Answer.Agree R) as as') (hok : ∀ a ∈ as, a.failed = false) :
    ∀ a ∈ as', a.failed = false := by
  induction h with
  | nil => exact hok
  | cons ha _ ih =>
    obtain ⟨ha', hok⟩ := List.forall_mem_cons.mp hok
    exact List.forall_mem_cons.mpr ⟨ha.failed.trans ha', ih hok⟩

/-- Forms are left alone by a renaming of variables taken after them. -/
theorem rename_of_old {π : TyVar → TyVar} {forms : List Exp} {g : Supply}
    (hπ : ∀ v, v.id < g.next → π v = v) (hforms : ∀ form ∈ forms, ∀ t ∈ form.tys, g.Covers t) :
    rename π forms = forms := by
  refine (List.map_congr_left fun form hf => ?_).trans (List.map_id' forms)
  refine Exp.mapTy_of_fixed fun t ht => ?_
  exact (Ty.rename_congr fun v hv => hπ v (hforms form hf t ht v hv)).trans (Ty.subst_id t)

/-- Forms come to the same whether the later ones are read after the others have been checked
or before. -/
theorem Ahead.enter_sameCourse
    (hs : s.Ahead) (hc : s.Coherent) (hstem : s.state.supply.stem = "T")
    (h₁ : s.state.supply.Later g₁) (hforms : ∀ form ∈ forms₁, ∀ t ∈ form.tys, g₁.Covers t)
    (hok : ∀ a ∈ (enter forms₁ (s.withSupply g₁)).1, a.failed = false) (hread : ReadAlike
    (enter forms₁ (s.withSupply g₁)).2.state.supply g g₁ g₂ forms₂ forms₂' vs vs') :
    
    let p := enter forms₁ (s.withSupply g₁)
    let p₂ := enter forms₂ (p.2.withSupply g)
    let q := enter (forms₁ ++ forms₂') (s.withSupply g₂)
    ∃ π : Equiv.Perm TyVar, (∀ v, v.id < g₁.next → π v = v) ∧
      SameCourse π (p.1 ++ p₂.1) q.1 p₂.2 q.2 := by
  intro p p₂ q
  obtain ⟨f, G, hold, hvs, hmap, hfirst, hruns⟩ := hs.split hc h₁ hforms hread
  have hq : q = _ := enter_append (not_failed_of_agree hfirst hok)
  obtain ⟨π, hπ⟩ := hruns.sessions.exists_perm
  have hfixed : ∀ v, v.id < g₁.next → π v = v :=
    fun v hv => (hπ v (hold v hv).1).trans (hold v hv).2
  have hstem₁ : g₁.stem = "T" := h₁.stem.trans hstem
  have hrenamed := hruns.sessions.renamed hπ
    ((enter_stem _ _).trans (hread.left.stem.trans ((enter_stem _ _).trans hstem₁)))
    ((enter_stem _ _).trans ((enter_stem _ _).trans (hread.right.stem.trans hstem₁)))
  have hanswers : List.Forall₂ (Answer.Agree (Store.Renamed π)) (p.1 ++ p₂.1) q.1 := by
    rw [hq]
    exact (List.rel_append hfirst hruns.answers).imp fun _ _ ha => ha.imp hrenamed
  have hknown : Agree (Store.Renamed π) p₂.2 q.2 := by
    rw [hq]
    exact hruns.sessions.agree.imp (hrenamed _ _)
  -- The forms are renamed as the types are: those of the first text have old variables only.
  have hrow : forms₁ ++ forms₂' = (forms₁ ++ forms₂).map (rename π) := by
    have hvs : vs.map π = vs' := (List.map_congr_left fun v hv => hπ v (hvs v hv)).trans hmap
    rw [List.map_append]
    exact congrArg₂ _ (rename_of_old hfixed hforms).symm (hread.twin.renamed π hvs)
  have hfront : (p.1 ++ p₂.1).map Answer.form <+: forms₁ ++ forms₂ := by
    rw [List.map_append, enter_forms hok]
    exact (List.prefix_append_right_inj forms₁).mpr (isPrefix_enter_forms forms₂ _)
  have hp₂ : p₂.2.Coherent := (((hc.withSupply g₁).enter forms₁).withSupply g).enter forms₂
  have hforms' := forms_of_isPrefix hfront (isPrefix_enter_forms _ _) hrow hanswers.length_eq
  exact ⟨π, hfixed, hforms', hanswers, hknown,
    names_of_agree hp₂ ((hc.withSupply g₂).enter _) hknown⟩

/-- Texts come to the same together as one after the other. -/
theorem Ahead.sameCourse {source₁ source₂ : String} (hs : s.Ahead) (hc : s.Coherent)
    (hstem : s.state.supply.stem = "T") (h₁ : Exp.Readable source₁) (h₂ : Exp.Readable source₂)
    (hpoint : Scan.beginsWithPoint source₂.toList = false)
      (hok : ∀ a ∈ s.answers source₁, a.failed = false) :
    ∃ π : Equiv.Perm TyVar, (∀ v, v.id < s.state.supply.next → π v = v) ∧
      SameCourse π (s.answers source₁ ++ (s.input source₁).answers source₂)
        (s.answers (source₁ ++ "\n" ++ source₂)) ((s.input source₁).input source₂)
        (s.input (source₁ ++ "\n" ++ source₂)) := by
  obtain ⟨forms₁, g₁, hr₁⟩ := h₁.read s.state.supply
  obtain ⟨_, htaken, _⟩ := (Exp.parses_readTopLevel source₁).taken hr₁
  rw [answers_of_read hr₁] at hok ⊢
  rw [input_of_read hr₁]
  obtain ⟨forms₂, g, hr₂⟩ := h₂.read (enter forms₁ (s.withSupply g₁)).2.state.supply
  obtain ⟨forms₂', g₂, vs, vs', hr₂', hread⟩ :=
    (Exp.parses_readTopLevel source₂).counterpart hr₂ g₁
  have hjoint := Exp.readTopLevel_newline hr₁ hr₂' hpoint
  obtain ⟨π, hfixed, hsame⟩ :=
    hs.enter_sameCourse hc hstem htaken.later (Exp.covers_of_read hr₁) hok hread
  rw [answers_of_read hjoint, answers_of_read hr₂, input_of_read hjoint, input_of_read hr₂]
  exact ⟨π, fun v hv => hfixed v (Nat.lt_of_lt_of_le hv htaken.later.next_le), hsame⟩

end Session

namespace Repl

/-- Texts that can be read may be entered together, on lines of their own, or one after the
other, if no form of the first one fails. What is printed and known then is the same up to a
renaming of variables taken meanwhile. -/
theorem process_newline (trace : Trace) (entries : List Entry) {source₁ source₂ : String}
    (h₁ : Exp.Readable source₁) (h₂ : Exp.Readable source₂)
      (hpoint : Scan.beginsWithPoint source₂.toList = false)
    (hok : ∀ a ∈ ((ofTrace trace).after entries).session.answers source₁, a.failed = false) :
    let r := (ofTrace trace).after entries
    let r₁ := r.answered source₁
    let r₂ := r₁.answered source₂
    let joint := source₁ ++ "\n" ++ source₂
    process source₁ r = .ok true r₁ ∧ process source₂ r₁ = .ok true r₂ ∧
      process joint r = .ok true (r.answered joint) ∧
      ∃ π : Equiv.Perm TyVar, (∀ v, v.id < r.session.state.supply.next → π v = v) ∧
        Session.SameCourse π (r.session.answers source₁ ++ r₁.session.answers source₂)
          (r.session.answers joint) r₂.session (r.answered joint).session := by
  intro r r₁ r₂ joint
  have hcoherent : r.session.Coherent := holds_after SessionStep.coherent (fun _ => rfl) rfl
  obtain ⟨forms₁, g₁, hr₁⟩ := h₁.read r.session.state.supply
  obtain ⟨forms₂, g, hr₂⟩ := h₂.read r₁.session.state.supply
  obtain ⟨forms₂', g₂, hr₂'⟩ := h₂.read g₁
  refine ⟨process_of_read hr₁, process_of_read hr₂,
    process_of_read (Exp.readTopLevel_newline hr₁ hr₂' hpoint), ?_⟩
  exact (ahead_after trace entries).sameCourse hcoherent (stem_after trace entries) h₁
    h₂ hpoint hok

/-- The operator of the first text takes variables when it is checked, so the numbers differ.
The second text fails before its last form. -/
theorem process_newline_failing :
    let r := (ofTrace {}).after [.input "(define k 1)"]
    let source₁ := "(define f (lambda (x) (cons x k)))"
    let source₂ := "(define g (lambda ((y : a) z) f))\n(if k 2 3)\n5"
    let r₂ := (r.answered source₁).answered source₂
    let joint := source₁ ++ "\n" ++ source₂
    r₂.session.typeOf? "g" = some "(a * T_8 -> (T_5 -> (Pair T_5 number)))" ∧
    (r.answered joint).session.typeOf? "g" = some "(a * T_6 -> (T_8 -> (Pair T_8 number)))" ∧
    (r.session.answers joint).map Answer.failed = [false, false, true] ∧
    ∃ π : Equiv.Perm TyVar, Session.SameCourse π
      (r.session.answers source₁ ++ (r.answered source₁).session.answers source₂)
        (r.session.answers joint)
      r₂.session (r.answered joint).session := by
  intro r source₁ source₂ r₂ joint
  have h₁ : Exp.Readable source₁ := by
    obtain ⟨forms, g, h, _⟩ :=
      exists_ok (r := Exp.readTopLevel source₁ {}) (P := fun _ _ => true) (by decide +kernel)
    exact ⟨forms, g, h⟩
  have h₂ : Exp.Readable source₂ := by
    obtain ⟨forms, g, h, _⟩ :=
      exists_ok (r := Exp.readTopLevel source₂ {}) (P := fun _ _ => true) (by decide +kernel)
    exact ⟨forms, g, h⟩
  have hpoint : Scan.beginsWithPoint source₂.toList = false := by decide +kernel
  have hok : ∀ a ∈ r.session.answers source₁, a.failed = false := by
    have hall : (r.session.answers source₁).all (fun a => !a.failed) = true := by
      decide +kernel
    simpa using List.all_eq_true.mp hall
  obtain ⟨_, _, _, π, _, hsame⟩ := process_newline {} [.input "(define k 1)"] h₁ h₂ hpoint hok
  -- A text that is written out is faster to read than one that has to be joined.
  have hjoint : joint =
      "(define f (lambda (x) (cons x k)))\n(define g (lambda ((y : a) z) f))\n(if k 2 3)\n5" := by
    decide +kernel
  have hrun :
    ((r.answered joint).session.typeOf? "g", (r.session.answers joint).map Answer.failed) =
      (some "(a * T_6 -> (T_8 -> (Pair T_8 number)))", [false, false, true]) := by
    rw [hjoint]
    decide +kernel
  obtain ⟨htype, hfailed⟩ := Prod.mk.inj hrun
  exact ⟨by decide +kernel, htype, hfailed, π, hsame⟩

end Repl

end TypedL5
