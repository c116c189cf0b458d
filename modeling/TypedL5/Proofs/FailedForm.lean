import TypedL5.Proofs.CheckReach
import TypedL5.Proofs.Parsed
import TypedL5.Session.Basic

/-! What a form leaves behind in a session when its check fails. -/
namespace TypedL5

/-- A session and the forms that have been read in it. -/
structure Course where
  session : Session := {}
  forms : List Exp := []

namespace Course

/-- What can be done in a session. -/
inductive Move where
  | read (source : String)
  /-- Checks one of the forms that have been read. -/
  | add (index : Nat)
  | restart
deriving DecidableEq, Repr

/-- A session about to begin. -/
def start (trace : Trace) : Course := { session := { state := { trace := trace } } }

/-- What is left after a move, whether it succeeds or fails. -/
def step (c : Course) : Move → Course
  | .read source =>
    match Session.read source c.session with
    | .ok forms s => ⟨s, c.forms ++ forms⟩
    | .error _ s => ⟨s, c.forms⟩
  | .add index =>
    match c.forms[index]? with
    | some form => ⟨endState (Session.add form c.session), c.forms⟩
    | none => c
  | .restart => ⟨c.session.restart, []⟩

def after (c : Course) (moves : List Move) : Course := moves.foldl step c

/-- The variables that the session has yet to take are new to all that it knows. -/
structure Ahead (c : Course) : Prop where
  state : c.session.state.Ahead
  env : ∀ t ∈ c.session.env.tys, c.session.state.supply.Covers t
  forms : ∀ form ∈ c.forms, ∀ t ∈ form.tys, c.session.state.supply.Covers t

end Course

namespace Session

variable {s s' : Session} {form : Exp} {f : Failure}

/-- Whether or not the form is accepted, the state is what its check leaves. -/
theorem add_state (form : Exp) (s : Session) :
    (endState (add form s)).state = endState (form.checkForm s.env s.state) := by
  unfold add
  cases form.checkForm s.env s.state with
  | ok a st => rfl
  | error c st => rfl

/-- A form that fails adds nothing to the environment, and a definition its own declaration. -/
theorem add_env (form : Exp) (s : Session) : ∀ t ∈ (endState (add form s)).env.tys,
    t ∈ s.env.tys ∨ t ∈ form.tys := by
  intro t ht
  unfold add at ht
  cases hr : form.checkForm s.env s.state with
  | error c st =>
    rw [hr] at ht
    exact .inl ht
  | ok a st =>
    rw [hr] at ht
    unfold Exp.checkForm at hr
    split at hr
    · obtain ⟨_, _, _, hr⟩ := bind_eq_ok_iff.mp hr
      obtain ⟨_, _, _, hr⟩ := bind_eq_ok_iff.mp hr
      cases hr
      simp only [endState, Env.tys, Env.extend, List.flatten_cons, List.map_append,
        List.map_cons, List.map_nil, List.mem_append, List.mem_singleton] at ht
      rcases ht with rfl | ht
      · exact .inr (by simp [Exp.tys])
      · exact .inl ht
    · obtain ⟨_, _, _, hr⟩ := bind_eq_ok_iff.mp hr
      cases hr
      exact .inl ht

end Session

/-- What has been read mentions no variables but those taken so far. -/
theorem Exp.covers_of_read {source : String} {g g' : Supply} {forms : List Exp}
    (h : Exp.readTopLevel source g = .ok forms g') : ∀ form ∈ forms, ∀ t ∈ form.tys,
      g'.Covers t := by
  intro form hf t ht v hv
  refine ((Exp.parses_readTopLevel source).id_of_mem h ?_).2
  exact List.mem_flatMap.mpr ⟨form, hf, List.mem_flatMap.mpr ⟨t, ht, hv⟩⟩

namespace Course

variable {c : Course} {form : Exp}

theorem ahead_start (trace : Trace) : (start trace).Ahead where
  state := CheckState.ahead_initial _ trace
  env _ ht := by cases ht
  forms _ hf := by cases hf

theorem Ahead.withSupply {g : Supply} {forms : List Exp} (h : c.Ahead)
    (hle : c.session.state.supply.next ≤ g.next)
    (hforms : ∀ form ∈ forms, ∀ t ∈ form.tys, g.Covers t) :
    Ahead ⟨{ c.session with state := { c.session.state with supply := g } },
      c.forms ++ forms⟩ where
  state := h.state.later hle
  env t ht := (h.env t ht).later hle
  forms := List.forall_mem_append.mpr
    ⟨fun form hf t ht => (h.forms form hf t ht).later hle, hforms⟩

/-- Reading draws from the supply, so it stays ahead of the forms it reads. -/
theorem Ahead.read (h : c.Ahead) (source : String) : (c.step (.read source)).Ahead := by
  have hle := ((Exp.parses_readTopLevel source).later c.session.state.supply).next_le
  simp only [step, Session.read]
  cases hr : Exp.readTopLevel source c.session.state.supply with
  | ok forms g =>
    rw [hr] at hle
    exact h.withSupply hle (Exp.covers_of_read hr)
  | error e g =>
    rw [hr, endState] at hle
    have hnone : ∀ form ∈ ([] : List Exp), ∀ t ∈ form.tys, g.Covers t := by simp
    simpa using h.withSupply hle hnone

/-- All that a session knows is within a set that its checks can stay in. -/
structure Held (F : Set TyVar) (c : Course) : Prop where
  confined : c.session.state.Confined F
  env : ∀ t ∈ c.session.env.tys, t.Within (c.session.state.scope F)
  forms : ∀ form ∈ c.forms, ∀ t ∈ form.tys, t.Within (c.session.state.scope F)

/-- A form that is held touches only what is held, and the others stay held. -/
theorem Held.add {F : Set TyVar} (h : c.Held F) (hform : form ∈ c.forms) :
    CheckState.Moves F c.session.state (endState (Session.add form c.session)).state ∧
      Held F ⟨endState (Session.add form c.session), c.forms⟩ := by
  have hgiven : Given F c.session.env form.tys form.free c.session.state :=
    ⟨h.confined, h.forms form hform, fun _ _ t ht => h.env t (Env.mem_tys ht)⟩
  have hmoves := (Exp.logged_checkForm hgiven).toMoves
  rw [← Session.add_state] at hmoves
  refine ⟨hmoves, hmoves.confined, fun t ht => ?_, fun form' hf t ht =>
    hmoves.within (h.forms form' hf t ht)⟩
  rcases Session.add_env form c.session t ht with ht | ht
  · exact hmoves.within (h.env t ht)
  · exact hmoves.within (h.forms form hform t ht)

/-- Holding every variable is no more than keeping the supply ahead. -/
theorem held_univ_iff : c.Held Set.univ ↔ c.Ahead := by
  constructor
  · intro h
    exact ⟨h.confined.ahead, fun t ht v hv => (h.env t ht v hv).2,
      fun form hf t ht v hv => (h.forms form hf t ht v hv).2⟩
  · intro h
    exact ⟨h.state.confined, fun t ht v hv => ⟨trivial, h.env t ht v hv⟩,
      fun form hf t ht v hv => ⟨trivial, h.forms form hf t ht v hv⟩⟩

theorem Ahead.add (h : c.Ahead) (hform : form ∈ c.forms) :
    Ahead ⟨endState (Session.add form c.session), c.forms⟩ :=
  held_univ_iff.mp ((held_univ_iff.mpr h).add hform).2

theorem Ahead.step (h : c.Ahead) (m : Move) : (c.step m).Ahead := by
  cases m with
  | read source => exact h.read source
  | add index =>
    rw [Course.step]
    cases hf : c.forms[index]? with
    | none => exact h
    | some form => exact h.add (List.mem_of_getElem? hf)
  | restart => exact ahead_start c.session.state.trace

theorem Ahead.after (h : c.Ahead) (moves : List Move) : (c.after moves).Ahead := by
  induction moves generalizing c with
  | nil => exact h
  | cons m moves ih => exact ih (h.step m)

/-- What a declared type mentions has been taken. -/
theorem Ahead.id_of_mem {t : Ty} (h : c.Ahead) (ht : t ∈ c.session.env.tys) {v : TyVar}
    (hv : v ∈ (c.session.state.store.resolve t).vars) : v.id < c.session.state.supply.next :=
  h.state.covers_resolve (h.env t ht) v hv

/-- A failed check puts types for variables in its footprint only. -/
theorem Ahead.instance_of_failed {t : Ty} {f : Failure} {s' : Session} (h : c.Ahead)
    (hform : form ∈ c.forms) (hadd : Session.add form c.session = .error f s')
    (ht : t ∈ c.session.env.tys) :
    ∃ θ : TyVar → Ty,
      (∀ v ∉ c.session.state.footprint c.session.env form, θ v = .var v) ∧
      s'.state.store.resolve t = (c.session.state.store.resolve t).subst θ := by
  classical
  have hgiven := CheckState.given_footprint h.state (h.forms form hform)
    fun _ _ t ht => h.env t (Env.mem_tys ht)
  have hlog := Exp.logged_checkForm hgiven
  rw [← Session.add_state, hadd, endState] at hlog
  refine ⟨fun v => if v ∈ c.session.state.footprint c.session.env form then
    s'.state.store.resolve (.var v) else .var v, fun v hv => if_neg hv, ?_⟩
  rw [hlog.grown.extends.resolve_eq hlog.confined.acyclic t]
  refine Ty.subst_congr fun v hv => ?_
  split
  · rfl
  · rename_i hout
    have hlt := h.id_of_mem ht hv
    refine Store.resolve_unbound ?_
    rw [hlog.outside v fun hF => hF.elim hout fun hu =>
      Nat.not_le.mpr hlt (Supply.next_le_of_upcoming hu)]
    exact Store.unbound_of_mem_resolve h.state.acyclic hv

/-- Names and definitions stay as they are. The type of a name stays as well, unless it
mentions a variable that the form can come to; then it can only have become an instance of what
it was. -/
structure Spares (form : Exp) (s s' : Session) : Prop where
  definitions : s'.definitions = s.definitions
  env : s'.env = s.env
  narrowed : ∀ name t, s.env.lookup? name = some t → ∃ θ : TyVar → Ty,
    (∀ v ∉ s.state.footprint s.env form, θ v = .var v) ∧
    s'.state.store.resolve t = (s.state.store.resolve t).subst θ
  typeOf : ∀ name, (∀ t, s.env.lookup? name = some t →
      ∀ v ∈ (s.state.store.resolve t).vars, v ∉ s.state.footprint s.env form) →
    s'.typeOf? name = s.typeOf? name

/-- What a form that fails leaves alone, in every session and for every form read in it. -/
theorem add_failed (trace : Trace) (moves : List Move) {f : Failure} {s' : Session}
    (hform : form ∈ ((start trace).after moves).forms)
    (hadd : Session.add form ((start trace).after moves).session = .error f s') :
    Spares form ((start trace).after moves).session s' := by
  have h := (ahead_start trace).after moves
  generalize (start trace).after moves = c at h hform hadd
  obtain ⟨hdefs, henv⟩ : s'.definitions = c.session.definitions ∧ s'.env = c.session.env := by
    unfold Session.add at hadd
    split at hadd
    · cases hadd
    · cases hadd
      exact ⟨rfl, rfl⟩
  have hinst := fun name t (ht : c.session.env.lookup? name = some t) =>
    h.instance_of_failed hform hadd (Env.mem_tys ht)
  refine ⟨hdefs, henv, hinst, fun name hout => ?_⟩
  rw [Session.typeOf?, Session.typeOf?, henv]
  cases ht : c.session.env.lookup? name with
  | none => rfl
  | some t =>
    obtain ⟨θ, hθ, he⟩ := hinst name t ht
    rw [Option.map_some, Option.map_some, Store.text, Store.text, he,
      Ty.subst_congr fun v hv => hθ v (hout t ht v hv), Ty.subst_id]

theorem exists_failed {c : Course} {P : Session → Bool}
    (h : (c.forms.any fun form => failsWith (fun _ => P) (Session.add form c.session)) =
      true) :
    ∃ form ∈ c.forms, ∃ f s', Session.add form c.session = .error f s' ∧ P s' = true := by
  obtain ⟨form, hform, hf⟩ := List.any_eq_true.mp h
  exact ⟨form, hform, exists_error hf⟩

/-- The second of two procedures keeps its type while the first is used in a form that
fails. -/
theorem add_failed_pair :
    let moves : List Move :=
      [.read "(define f (lambda (x) x)) (define g (lambda (y) y))", .add 0,
      .add 1, .read "(if (f 1) 2 3)"]
    ∃ form ∈ ((start {}).after moves).forms, ∃ f s',
      Session.add form ((start {}).after moves).session = .error f s' ∧
      Spares form ((start {}).after moves).session s' ∧
      s'.typeOf? "g" = some "(T_6 -> T_6)" := by
  intro moves
  obtain ⟨form, hform, f, s', hadd, hg⟩ := exists_failed (c := (start {}).after moves)
    (P := fun s' => s'.typeOf? "g" == some "(T_6 -> T_6)") (by decide +kernel)
  exact ⟨form, hform, f, s', hadd, add_failed {} moves hform hadd, by simpa using hg⟩

/-- A procedure of any type is defined, and then a form that applies it to a number is read. -/
def branching : Course :=
  (start {}).after [.read "(define f (lambda (x) x))", .add 0, .read "(if (f 1) 2 3)"]

/-- The form fails since a number is no test. By then the procedure takes numbers only. -/
theorem add_failed_narrows : ∃ form ∈ branching.forms, ∃ f s',
    Session.add form branching.session = .error f s' ∧
    branching.session.typeOf? "f" = some "(T_3 -> T_3)" ∧
    s'.typeOf? "f" = some "(number -> number)" := by
  obtain ⟨form, hform, f, s', hadd, hf⟩ := exists_failed (c := branching)
    (P := fun s' => s'.typeOf? "f" == some "(number -> number)") (by decide +kernel)
  have hbefore : branching.session.typeOf? "f" = some "(T_3 -> T_3)" := by decide +kernel
  exact ⟨form, hform, f, s', hadd, hbefore, by simpa using hf⟩

end Course

end TypedL5
