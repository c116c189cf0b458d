import TypedL5.Proofs.CheckStep
import TypedL5.Proofs.Entered
import TypedL5.Proofs.Grammar

/-! A program comes to what its forms come to when they are entered one by one. -/
namespace TypedL5

namespace Exp

/-- The forms of a program are checked one by one. -/
theorem typeOfForms_eq (env : Env) (last : Option Ty) (form : Exp) (forms : List Exp) :
    typeOfForms env last (form :: forms) =
      form.checkForm env >>= fun p => typeOfForms p.1 (p.2.or last) forms := by
  by_cases h : form.Defines
  · obtain ⟨d, e, rfl⟩ := h
    rw [typeOfForms, checkForm]
    simp
  · rw [typeOfForms_cons fun d e he => h ⟨d, e, he⟩, checkForm_of_not_defines h]
    simp

end Exp

namespace Checked

/-- The report of how a check has ended. -/
def ofResult : EStateM.Result Cause CheckState Ty → Checked
  | .ok t st => ⟨.ok (st.store.text t), st.trace⟩
  | .error c st => ⟨.error (c.failure st.store), st.trace⟩

theorem ofRead_of_ok {read : ParseM Exp} {e : Exp} {g : Supply} (h : read {} = .ok e g)
    (typeOf : Exp → CheckM Ty) (trace : Trace) :
    ofRead read typeOf trace = .ok (ofResult (typeOf e { supply := g, trace := trace })) := by
  rw [ofRead, h]
  dsimp only
  cases typeOf e { supply := g, trace := trace } with
  | ok t st => rfl
  | error c st => rfl

theorem ofProgram_of_read {source : String} {trace : Trace} {e : Exp} {g : Supply}
    (h : Exp.readProgram source {} = .ok e g) :
    ofProgram source trace =
      .ok (ofResult (e.typeOfProgram {} { supply := g, trace := trace })) :=
  ofRead_of_ok h _ _

end Checked

namespace Session

/-- What the answers to forms come to, if `last` is the type of the last form before them: the
first failure, or the last type as it stands in the end. -/
def conclusion (last : Option Ty) (s : Session) : List Answer → Except Failure String
  | [] =>
    match last with
    | some t => .ok (s.state.store.text t)
    | none => .error (Cause.emptyProgram.failure s.state.store)
  | a :: answers =>
    match a.result with
    | .ok t? => conclusion (t?.or last) s answers
    | .error f => .error f

/-- A program checks its forms as a session does. -/
theorem ofResult_typeOfForms (forms : List Exp) (last : Option Ty) (s : Session) :
    Checked.ofResult (Exp.typeOfForms s.env last forms s.state) =
      ⟨conclusion last (enter forms s).2 (enter forms s).1,
        (enter forms s).2.state.trace⟩ := by
  induction forms generalizing last s with
  | nil =>
    cases last with
    | none => rfl
    | some t => rfl
  | cons form forms ih =>
    rw [Exp.typeOfForms_eq, bind_apply, enter, add]
    cases form.checkForm s.env s.state with
    | error c st => rfl
    | ok p st => exact ih (p.2.or last) ⟨st, p.1, s.definitions ++ defined form⟩

/-- Of all forms, exactly the definitions are answered without a type. -/
theorem add_eq_none_iff {form : Exp} {s s' : Session} {t? : Option Ty}
    (h : add form s = .ok t? s') :
    t? = none ↔ form.Defines := by
  rw [add] at h
  cases hc : form.checkForm s.env s.state with
  | error c st =>
    rw [hc] at h
    cases h
  | ok p st =>
    rw [hc] at h
    cases h
    by_cases hd : form.Defines
    · obtain ⟨d, e, rfl⟩ := hd
      rw [Exp.checkForm] at hc
      obtain ⟨_, _, _, hc⟩ := bind_eq_ok_iff.mp hc
      obtain ⟨_, _, _, hc⟩ := bind_eq_ok_iff.mp hc
      cases hc
      exact iff_of_true rfl ⟨d, e, rfl⟩
    · rw [Exp.checkForm_of_not_defines hd] at hc
      obtain ⟨_, _, _, hc⟩ := bind_eq_ok_iff.mp hc
      cases hc
      exact iff_of_false (by simp) hd

/-- A definition has no type to answer with, and other forms have. -/
theorem defines_of_answer {forms : List Exp} {s : Session} {a : Answer} {t? : Option Ty}
    (ha : a ∈ (enter forms s).1) (hr : a.result = .ok t?) : t? = none ↔ a.form.Defines := by
  induction forms generalizing s with
  | nil => cases ha
  | cons form forms ih =>
    cases hadd : add form s with
    | error f s' =>
      rw [enter_cons_error hadd] at ha
      obtain rfl := List.mem_singleton.mp ha
      cases hr
    | ok u? s' =>
      rw [enter_cons_ok hadd] at ha
      rcases List.mem_cons.mp ha with rfl | ha
      · cases hr
        exact add_eq_none_iff hadd
      · exact ih ha

/-- The first failure is what a row of answers comes to. -/
theorem conclusion_of_failed {forms : List Exp} {s s' : Session} {last : Option Ty}
    {a : Answer} {f : Failure} (ha : a ∈ (enter forms s).1) (hf : a.result = .error f) :
    conclusion last s' (enter forms s).1 = .error f := by
  induction forms generalizing s last with
  | nil => cases ha
  | cons form forms ih =>
    cases hadd : add form s with
    | error c s' =>
      rw [enter_cons_error hadd] at ha ⊢
      obtain rfl := List.mem_singleton.mp ha
      cases hf
      rfl
    | ok t? s' =>
      rw [enter_cons_ok hadd] at ha ⊢
      rcases List.mem_cons.mp ha with rfl | ha
      · cases hf
      · exact ih ha

theorem conclusion_of_definitions {answers : List Answer} {s : Session} {last : Option Ty}
    (h : ∀ a ∈ answers, a.result = .ok none) : conclusion last s answers =
      conclusion last s [] := by
  induction answers with
  | nil => rfl
  | cons a answers ih =>
    obtain ⟨ha, hrest⟩ := List.forall_mem_cons.mp h
    rw [conclusion, ha]
    exact ih hrest

/-- The last form that is no definition has the type of the program. -/
theorem conclusion_of_last {pre post : List Answer}
    {a : Answer} {s : Session} {last : Option Ty} {t : Ty} (hpre : ∀ b ∈ pre, b.failed = false)
    (ha : a.result = .ok (some t)) (hpost : ∀ b ∈ post, b.result = .ok none) :
    conclusion last s (pre ++ a :: post) = .ok (s.state.store.text t) := by
  induction pre generalizing last with
  | nil =>
    rw [List.nil_append, conclusion, ha]
    exact conclusion_of_definitions hpost
  | cons b pre ih =>
    obtain ⟨hb, hpre⟩ := List.forall_mem_cons.mp hpre
    obtain ⟨t?, hr⟩ := b.exists_of_not_failed hb
    rw [List.cons_append, conclusion, hr]
    exact ih hpre

end Session

/-- What a program has come to is what its forms came to, one after the other, until `s` was
reached. -/
structure Checked.Agrees (checked : Checked) (forms : List Exp) (answers : List Answer)
    (s : Session) : Prop where
  /-- The forms after one that fails do not matter. -/
  failed : ∀ a ∈ answers, ∀ f, a.result = .error f → checked.result = .error f
  all : (∀ a ∈ answers, a.failed = false) → answers.map Answer.form = forms
  last :
    (∀ a ∈ answers, a.failed = false) → ∀ pre a post, answers = pre ++ a :: post →
      ¬ a.form.Defines →
    (∀ b ∈ post, b.form.Defines) → ∃ t, a.result = .ok (some t) ∧
      checked.result = .ok (s.state.store.text t)
  empty : (∀ a ∈ answers, a.failed = false) → (∀ form ∈ forms, form.Defines) →
    checked.result = .error { kind := .emptyProgram, message := "No expressions in program" }
  trace : checked.trace = s.state.trace

namespace Session

/-- A program and a session give the same forms the same types, and fail at the same one. -/
theorem agrees_enter (forms : List Exp) (s : Session) :
    Checked.Agrees (Checked.ofResult (Exp.typeOfForms s.env none forms s.state)) forms
      (enter forms s).1 (enter forms s).2 := by
  rw [ofResult_typeOfForms]
  have hresult : ∀ a ∈ (enter forms s).1, a.failed = false → a.form.Defines →
      a.result = .ok none := by
    intro a ha hf hd
    obtain ⟨t?, hr⟩ := a.exists_of_not_failed hf
    rw [hr, (defines_of_answer ha hr).mpr hd]
  refine ⟨fun a ha f hf => conclusion_of_failed ha hf, enter_forms, ?_, ?_, rfl⟩
  · intro h pre a post hsplit hdefines hpost
    rw [hsplit] at h hresult
    -- The forms after the last expression are definitions, so what it came to stands in the
    -- end.
    obtain ⟨hpre, ha, hrest⟩ : (∀ b ∈ pre, b.failed = false) ∧ a.failed = false ∧
        ∀ b ∈ post, b.failed = false := by
      simpa [or_imp, forall_and] using h
    have hmem : a ∈ (enter forms s).1 := by simp [hsplit]
    obtain ⟨t?, hr⟩ := a.exists_of_not_failed ha
    have hsome : t? ≠ none := fun hn => hdefines ((defines_of_answer hmem hr).mp hn)
    obtain ⟨t, rfl⟩ := Option.ne_none_iff_exists'.mp hsome
    refine ⟨t, hr, ?_⟩
    rw [hsplit]
    exact conclusion_of_last hpre hr fun b hb =>
      hresult b (by simp [hb]) (hrest b hb) (hpost b hb)
  · intro h hdefines
    refine conclusion_of_definitions fun a ha => hresult a ha (h a ha) (hdefines _ ?_)
    rw [← enter_forms h]
    exact List.mem_map_of_mem ha

end Session

theorem Datum.readAll_of_read {source : String} {d : Datum} (h : read source = .ok d) :
    readAll source = .ok [d] := by
  obtain ⟨ds, hds, h⟩ := except_bind_eq_ok h
  split at h
  · cases h
    exact hds
  · cases h

/-- In a session a program stands for its forms. -/
theorem Exp.readTopLevel_of_readProgram {source : String} {e : Exp} {g g' : Supply}
    (h : readProgram source g = .ok e g') :
    ∃ forms, e = .program forms ∧ readTopLevel source g = .ok forms g' := by
  obtain ⟨d, g₁, hd, h⟩ := bind_eq_ok_iff.mp h
  cases hread : Datum.read source with
  | error e =>
    rw [datumOf, hread] at hd
    cases hd
  | ok d' =>
    rw [datumOf, hread] at hd
    cases hd
    cases hdata : programForms? d with
    | none =>
      rw [ofProgram, hdata] at h
      cases h
    | some data =>
      rw [ofProgram, hdata] at h
      obtain ⟨forms, g₂, hforms, h⟩ := bind_eq_ok_iff.mp h
      cases h
      refine ⟨forms, rfl, ?_⟩
      rw [readTopLevel, Datum.readAll_of_read hread]
      change (ofFormOrProgram d >>= fun es => ofTopLevel [] >>= fun rest =>
        pure (es ++ rest)) g = _
      rw [ofFormOrProgram, hdata]
      refine bind_eq_ok_iff.mpr ⟨forms, g', hforms, ?_⟩
      rw [ofTopLevel, pure_bind, List.append_nil]
      rfl

/-- A text that reads as a program is checked as a session checks its forms: the first failure
is that of the program, and if there is none, the last form that is not a definition has the
type of the program. -/
theorem ofProgram_agrees {source : String} {e : Exp} {g : Supply} (trace : Trace)
    (h : Exp.readProgram source {} = .ok e g) :
    ∃ forms s checked, e = .program forms ∧
      Session.read source { state := { trace := trace } } = .ok forms s ∧
      Checked.ofProgram source trace = .ok checked ∧
      checked.Agrees forms (Session.enter forms s).1 (Session.enter forms s).2 := by
  obtain ⟨forms, rfl, hread⟩ := Exp.readTopLevel_of_readProgram h
  refine ⟨forms, _, _, rfl, Session.read_of_ok hread, Checked.ofProgram_of_read h, ?_⟩
  exact Session.agrees_enter forms (Session.withSupply { state := { trace := trace } } g)

/-- The type of the second form is written as it stands after the third, which applies the
procedure. -/
theorem ofProgram_agrees_refined :
    let source := "(L5 (define f (lambda (x) x)) f (define (n : number) (f 1)))"
    ∃ e g, Exp.readProgram source {} = .ok e g ∧ ∃ forms s checked, e = .program forms ∧
      Session.read source {} = .ok forms s ∧ Checked.ofProgram source = .ok checked ∧
      checked.Agrees forms (Session.enter forms s).1 (Session.enter forms s).2 ∧
      checked.result = .ok "(number -> number)" := by
  intro source
  obtain ⟨e, g, h, _⟩ :=
    exists_ok (r := Exp.readProgram source {}) (P := fun _ _ => true) (by decide +kernel)
  obtain ⟨forms, s, checked, he, hread, hchecked, hagrees⟩ := ofProgram_agrees {} h
  have hresult : (Checked.ofProgram source).map Checked.result =
      .ok (.ok "(number -> number)") := by
    decide +kernel
  rw [hchecked] at hresult
  exact ⟨e, g, h, forms, s, checked, he, hread, hchecked, hagrees, Except.ok.inj hresult⟩

end TypedL5
