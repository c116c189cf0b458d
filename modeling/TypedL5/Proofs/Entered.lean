import TypedL5.Proofs.Computation
import TypedL5.Session.Repl

/-!
What has come of each form that was entered. A dialogue prints the answers and does nothing
else to the session than entering forms does.
-/
namespace TypedL5

namespace Exp

/-- A form that names something for the forms after it. -/
def Defines (form : Exp) : Prop := ∃ d e, form = .define d e

theorem checkForm_of_not_defines {form : Exp} (h : ¬ form.Defines) (env : Env) :
    form.checkForm env = form.typeOf env >>= fun t => pure (env, some t) :=
  checkForm.eq_2 env form fun d e he => h ⟨d, e, he⟩

end Exp

/-- What has come of one form. -/
structure Answer where
  form : Exp
  /-- The type of the form, unless it is a definition. -/
  result : Except Failure (Option Ty)
  /-- The state right after the check. -/
  state : CheckState

namespace Answer

/-- What is printed for a form. -/
def text (a : Answer) : String :=
  match a.result with
  | .ok (some t) => a.state.store.text t
  | .ok none => "Defined: " ++ ((Session.defined a.form).map Decl.name).headD ""
  | .error f => f.report a.state.trace

def failed (a : Answer) : Bool :=
  match a.result with
  | .ok _ => false
  | .error _ => true

theorem exists_of_not_failed (a : Answer) (h : a.failed = false) :
    ∃ t?, a.result = .ok t? := by
  cases hr : a.result with
  | ok t? => exact ⟨t?, rfl⟩
  | error f =>
    rw [failed, hr] at h
    cases h

end Answer

namespace Session

def withSupply (s : Session) (supply : Supply) : Session :=
  { s with state := { s.state with supply := supply } }

/-- Checks forms in order, until one fails. -/
def enter : List Exp → Session → List Answer × Session
  | [], s => ([], s)
  | form :: forms, s =>
    match add form s with
    | .ok t? s' => (⟨form, .ok t?, s'.state⟩ :: (enter forms s').1, (enter forms s').2)
    | .error f s' => ([⟨form, .error f, s'.state⟩], s')

/-- Reads a text and checks its forms. -/
def input (source : String) (s : Session) : Session :=
  if Text.isBlank source then s
  else
    match read source s with
    | .ok forms s' => (enter forms s').2
    | .error _ s' => s'

variable {form : Exp} {forms later : List Exp} {s s' : Session} {t? : Option Ty} {f : Failure}

theorem read_of_ok {source : String} {g : Supply}
    (h : Exp.readTopLevel source s.state.supply = .ok forms g) :
    read source s = .ok forms (s.withSupply g) := by
  rw [read, h]
  rfl

theorem read_of_error {source : String} {e : ParseError} {g : Supply}
    (h : Exp.readTopLevel source s.state.supply = .error e g) : read source s =
      .error e (s.withSupply g) := by
  rw [read, h]
  rfl

theorem enter_cons_ok (h : add form s = .ok t? s') :
    enter (form :: forms) s =
      (⟨form, .ok t?, s'.state⟩ :: (enter forms s').1, (enter forms s').2) := by
  rw [enter, h]

theorem enter_cons_error (h : add form s = .error f s') :
    enter (form :: forms) s = ([⟨form, .error f, s'.state⟩], s') := by
  rw [enter, h]

/-- Forms of which none fails may be entered before the others are. -/
theorem enter_append (h : ∀ a ∈ (enter forms s).1, a.failed = false) :
    enter (forms ++ later) s =
      ((enter forms s).1 ++ (enter later (enter forms s).2).1,
        (enter later (enter forms s).2).2) := by
  induction forms generalizing s with
  | nil => rfl
  | cons form forms ih =>
    rw [List.cons_append]
    cases hadd : add form s with
    | ok t? s' =>
      rw [enter_cons_ok hadd] at h
      rw [enter_cons_ok hadd, enter_cons_ok hadd, ih (List.forall_mem_cons.mp h).2]
      rfl
    | error f s' =>
      rw [enter_cons_error hadd] at h
      cases (List.forall_mem_cons.mp h).1

/-- Forms are answered in order, as far as they come. -/
theorem isPrefix_enter_forms (forms : List Exp) (s : Session) :
    (enter forms s).1.map Answer.form <+: forms := by
  induction forms generalizing s with
  | nil => exact List.prefix_rfl
  | cons form forms ih =>
    cases hadd : add form s with
    | ok t? s' =>
      rw [enter_cons_ok hadd]
      exact (List.prefix_cons_inj form).mpr (ih s')
    | error f s' =>
      rw [enter_cons_error hadd]
      exact (List.prefix_cons_inj form).mpr List.nil_prefix

theorem enter_forms (h : ∀ a ∈ (enter forms s).1, a.failed = false) :
    (enter forms s).1.map Answer.form = forms := by
  induction forms generalizing s with
  | nil => rfl
  | cons form forms ih =>
    cases hadd : add form s with
    | ok t? s' =>
      rw [enter_cons_ok hadd] at h ⊢
      exact congrArg (form :: ·) (ih (List.forall_mem_cons.mp h).2)
    | error f s' =>
      rw [enter_cons_error hadd] at h
      cases (List.forall_mem_cons.mp h).1

end Session

namespace Repl

/-- The dialogue after texts have been printed. -/
def said (r : Repl) (texts : List String) : Repl :=
  { r with events := r.events ++ texts.map fun text => .printed (Text.printed text) }

def withSession (r : Repl) (s : Session) : Repl :=
  { r with session := s }

@[simp] theorem said_session (r : Repl) (texts : List String) :
    (r.said texts).session = r.session :=
  rfl

@[simp] theorem withSession_session (r : Repl) (s : Session) : (r.withSession s).session = s :=
  rfl

theorem said_said (r : Repl) (texts later : List String) :
    (r.said texts).said later = r.said (texts ++ later) := by
  simp [said]

theorem say_eq (text : String) (r : Repl) : say text r = .ok () (r.said [text]) := rfl

theorem sayAll_eq (texts : List String) (r : Repl) :
    sayAll texts r = .ok () (r.said texts) := by
  induction texts generalizing r with
  | nil => simp [sayAll, said, pure, EStateM.pure]
  | cons text texts ih =>
    rw [sayAll, bind_apply, say_eq]
    exact (ih _).trans (by rw [said_said]; rfl)

theorem get_bind_apply {α : Type} (f : Repl → ReplM α) (r : Repl) :
    ((get : ReplM Repl) >>= f) r = f r r :=
  rfl

/-- Checking forms prints the answers. -/
theorem checkForms_eq (forms : List Exp) (r : Repl) :
    checkForms forms r = .ok () ((r.withSession (Session.enter forms r.session).2).said
      ((Session.enter forms r.session).1.map Answer.text)) := by
  induction forms generalizing r with
  | nil => simp [checkForms, Session.enter, said, withSession, pure, EStateM.pure]
  | cons form forms ih =>
    rw [checkForms, get_bind_apply]
    cases hadd : Session.add form r.session with
    | error f s =>
      rw [Session.enter_cons_error hadd]
      rfl
    | ok t? s =>
      rw [Session.enter_cons_ok hadd]
      cases t? with
      | none => exact (ih _).trans (by simp [said, withSession, Answer.text])
      | some t => exact (ih _).trans (by simp [said, withSession, Answer.text])

variable {source : String} {r : Repl} {forms : List Exp} {s : Session} {e : ParseError}

theorem process_blank (h : Text.isBlank source = true) : process source r = .ok true r := by
  rw [process, if_pos h]
  rfl

/-- A text that is read has its forms entered one by one and their answers printed. -/
theorem process_ok (hb : Text.isBlank source = false)
    (h : Session.read source r.session = .ok forms s) :
    process source r = .ok true
      ((r.withSession (Session.enter forms s).2).said
        ((Session.enter forms s).1.map Answer.text)) := by
  rw [process, if_neg (by simp [hb]), get_bind_apply, h]
  change (checkForms forms >>= fun _ => pure true) (r.withSession s) = _
  rw [bind_apply, checkForms_eq]
  rfl

/-- A text that cannot be read ends the session, is held back or is reported. -/
theorem process_error (hb : Text.isBlank source = false)
    (h : Session.read source r.session = .error e s) :
    process source r =
      if e.isFatal then .error .numeralTooLong (r.withSession s)
      else if e.isIncomplete then .ok false (r.withSession s)
      else .ok true ((r.withSession s).said ["Parse error: " ++ e.message]) := by
  rw [process, if_neg (by simp [hb]), get_bind_apply, h]
  by_cases hf : e.isFatal = true
  · simp only [if_pos hf]
    rfl
  · simp only [if_neg hf]
    by_cases hi : e.isIncomplete = true
    · simp only [if_pos hi]
      rfl
    · simp only [if_neg hi]
      rfl

/-- Processing a text changes the session only as entering the text does. -/
theorem process_session (source : String) (r : Repl) :
    (endState (process source r)).session = Session.input source r.session := by
  rw [Session.input]
  cases hb : Text.isBlank source with
  | true =>
    rw [process_blank hb]
    rfl
  | false =>
    cases hr : Session.read source r.session with
    | ok forms s =>
      rw [process_ok hb hr]
      rfl
    | error e s =>
      rw [process_error hb hr]
      split
      · rfl
      · split <;> rfl

end Repl

end TypedL5
