import TypedL5.Proofs.Dialogue
import TypedL5.Proofs.FailedForm

/-! What entered forms can reach. In every dialogue the variables yet to be taken are new, and
named after one stem. -/
namespace TypedL5

open CheckState

namespace Course

variable {F : Set TyVar} {c : Course} {forms : List Exp}

/-- Forms that are entered stay where each of them stays. -/
theorem Held.enter (h : c.Held F) (hforms : ∀ form ∈ forms, form ∈ c.forms) :
    Moves F c.session.state (Session.enter forms c.session).2.state ∧
      Held F ⟨(Session.enter forms c.session).2, c.forms⟩ := by
  induction forms generalizing c with
  | nil => exact ⟨.refl h.confined, h⟩
  | cons form forms ih =>
    obtain ⟨hform, hforms⟩ := List.forall_mem_cons.mp hforms
    obtain ⟨hmoves, hheld⟩ := h.add hform
    cases hadd : Session.add form c.session with
    | error f s =>
      rw [hadd] at hmoves hheld
      rw [Session.enter_cons_error hadd]
      exact ⟨hmoves, hheld⟩
    | ok t? s =>
      rw [hadd] at hmoves hheld
      rw [Session.enter_cons_ok hadd]
      obtain ⟨hrest, hheld⟩ := ih hheld hforms
      exact ⟨hmoves.trans hrest, hheld⟩

theorem Ahead.enter (h : c.Ahead) (hforms : ∀ form ∈ forms, form ∈ c.forms) :
    Ahead ⟨(Session.enter forms c.session).2, c.forms⟩ :=
  held_univ_iff.mp ((held_univ_iff.mpr h).enter hforms).2

/-- Forms that are no more to be checked need not be known. -/
theorem Ahead.forget (h : c.Ahead) : Ahead ⟨c.session, []⟩ := ⟨h.state, h.env, by simp⟩

end Course

namespace Session

/-- The variables that the session has yet to take are new to it. -/
def Ahead (s : Session) : Prop := Course.Ahead { session := s }

end Session

theorem CheckStep.stem : CheckStep fun st st' => st'.supply.stem = st.supply.stem where
  refl _ := rfl
  trans h h' := h'.trans h
  note st e t := by simp
  draw st σ := Supply.takeNumbered_stem st.supply σ.vars.length
  unify t u e st := by
    cases hr : CheckM.unify t u e st with
    | ok a st' => exact congrArg Supply.stem (CheckM.unify_eq_ok hr).2
    | error c st' =>
      obtain ⟨_, _, _, hsupply⟩ := CheckM.unify_eq_error hr
      exact congrArg Supply.stem hsupply

namespace Session

theorem add_stem (form : Exp) :
    Keeps (fun s s' => s'.state.supply.stem = s.state.supply.stem) (add form) := by
  intro s
  rw [add_state]
  exact CheckStep.stem.checkForm s.env form s.state

theorem enter_stem (forms : List Exp) (s : Session) :
    (enter forms s).2.state.supply.stem = s.state.supply.stem :=
  keeps_enter (R := fun s s' => s'.state.supply.stem = s.state.supply.stem) (fun _ => rfl)
    (fun h h' => h'.trans h) add_stem forms s

end Session

namespace SessionStep

/-- The supply stays ahead of all that the session knows, whatever is entered. -/
theorem ahead : SessionStep fun s s' => s.Ahead → s'.Ahead where
  refl _ h := h
  trans h h' hs := h' (h hs)
  input source s hs := by
    have hread := Course.Ahead.read hs source
    rw [Session.input]
    split
    · exact hs
    · rw [Course.step] at hread
      cases hr : Session.read source s with
      | ok forms s' =>
        rw [hr] at hread
        have hforms : ∀ form ∈ forms, form ∈ [] ++ forms := by simp
        exact (hread.enter hforms).forget
      | error e s' =>
        rw [hr] at hread
        exact hread

theorem stem : SessionStep fun s s' => s'.state.supply.stem = s.state.supply.stem := by
  refine of_keeps (fun _ => rfl) (fun h h' => h'.trans h) (fun source s => ?_) fun form s => ?_
  · have hlater := (Exp.parses_readTopLevel source).later s.state.supply
    cases hr : Exp.readTopLevel source s.state.supply with
    | ok forms g =>
      rw [Session.read_of_ok hr]
      rw [hr] at hlater
      exact hlater.stem
    | error e g =>
      rw [Session.read_of_error hr]
      rw [hr] at hlater
      exact hlater.stem
  · exact Session.add_stem form s

end SessionStep

namespace Repl

theorem ahead_after (trace : Trace) (entries : List Entry) :
    ((ofTrace trace).after entries).session.Ahead :=
  holds_after SessionStep.ahead (fun s => Course.ahead_start s.state.trace)
    (Course.ahead_start trace)

/-- All numbered variables of a dialogue are named after one letter. -/
theorem stem_after (trace : Trace) (entries : List Entry) :
    ((ofTrace trace).after entries).session.state.supply.stem = "T" := by
  have hstep : SessionStep fun s s' => s.state.supply.stem = "T" →
    s'.state.supply.stem = "T" :=
    ⟨fun _ h => h, fun h h' hs => h' (h hs), fun source s hs =>
      (SessionStep.stem.input source s).trans hs⟩
  exact holds_after hstep (fun _ => rfl) rfl

end Repl

end TypedL5
