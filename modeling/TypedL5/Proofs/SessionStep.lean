import TypedL5.Proofs.CheckStep
import TypedL5.Proofs.Entered

/-! What texts keep in a session is kept by all that a user enters, except for what clears it
away. -/
namespace TypedL5

/-- A relation that holds across each thing that is done to a session while it goes on. -/
structure SessionStep (R : Session → Session → Prop) : Prop where
  refl : ∀ s, R s s
  trans : ∀ {s s' s''}, R s s' → R s' s'' → R s s''
  input : ∀ source s, R s (Session.input source s)

/-- Whether a line makes the session start anew. -/
def Line.clears (r : Repl) : Line → Bool
  | .interrupt => false
  | .text line =>
    r.pending.isEmpty && line.toList.head? == some ':' && Command.ofLine? line == some .clear

namespace Repl

/-- Checks the text of all lines held back, which are let go if the text is complete. -/
def goOn (lines : List String) : ReplM Bool := do
  setPending lines
  if ← process ("\n".intercalate lines) then setPending []
  return true

theorem take_text (files : Files) (line : String) (r : Repl) :
    take files (.text line) r =
      if r.pending.isEmpty && line.toList.head? == some ':' then obeyLine files line r
      else goOn (r.pending ++ [line]) r := by
  have h : take files (.text line) r =
      (if r.pending.isEmpty && line.toList.head? == some ':' then obeyLine files line
        else goOn (r.pending ++ [line])) r := rfl
  rw [h]
  split <;> rfl

/-- A session that is cleared away does not come back. -/
theorem take_clears {files : Files} {line : Line} {r : Repl} (h : line.clears r = true) :
    (endState (take files line r)).session = r.session.restart := by
  cases line with
  | interrupt => cases h
  | text line =>
    simp only [Line.clears, Bool.and_eq_true, beq_iff_eq] at h
    rw [take_text, if_pos (by simp [h]), obeyLine, h.2]
    rfl

end Repl

namespace SessionStep

variable {R : Session → Session → Prop} {α β : Type} {x : ReplM α} {f : α → ReplM β}

/-- The sessions before and after are related. -/
abbrev Goes (R : Session → Session → Prop) (x : ReplM α) : Prop :=
  Keeps (fun r r' => R r.session r'.session) x

theorem bind (h : SessionStep R) (hx : Goes R x) (hf : ∀ a, Goes R (f a)) : Goes R (x >>= f) :=
  keeps_bind h.trans hx hf

theorem pure (h : SessionStep R) (a : α) : Goes R (Pure.pure a : ReplM α) :=
  fun r => h.refl r.session

theorem throw (h : SessionStep R) (a : Abort) : Goes R (throw a : ReplM α) :=
  fun r => h.refl r.session

theorem say (h : SessionStep R) (text : String) : Goes R (Repl.say text) :=
  fun r => h.refl r.session

theorem setPending (h : SessionStep R) (lines : List String) :
    Goes R (Repl.setPending lines) :=
  fun r => h.refl r.session

theorem sayAll (h : SessionStep R) (texts : List String) : Goes R (Repl.sayAll texts) := by
  induction texts with
  | nil => exact h.pure ()
  | cons text texts ih => exact h.bind (h.say text) fun _ => ih

theorem process (h : SessionStep R) (source : String) : Goes R (Repl.process source) := by
  intro r
  rw [Repl.process_session]
  exact h.input source r.session

/-- A file is entered as a text is, if it can be read. -/
theorem load (h : SessionStep R) (files : Files) (file : String) :
    Goes R (Repl.load files file) := by
  unfold Repl.load
  split
  · exact h.say _
  · split
    · exact h.throw _
    · refine h.bind (h.process _) fun complete => ?_
      split
      · exact h.say _
      · exact h.say _

theorem showType (h : SessionStep R) (name : String) : Goes R (Repl.showType name) := by
  unfold Repl.showType
  refine keeps_get fun r => ?_
  cases r.session.typeOf? name with
  | none => exact h.say _ r
  | some text => exact h.say _ r

theorem showAll (h : SessionStep R) : Goes R Repl.showAll := by
  unfold Repl.showAll
  refine keeps_get fun r => ?_
  by_cases hn : r.session.listing.isEmpty = true
  · rw [if_pos hn]
    exact h.say _ r
  · rw [if_neg hn]
    exact h.sayAll _ r

/-- Every command but the clearing one only shows things or enters a file. -/
theorem obey (h : SessionStep R) (files : Files) {c : Command} (hc : c ≠ .clear) :
    Goes R (Repl.obey files c) := by
  cases c with
  | quit => exact h.bind (h.say _) fun _ => h.pure _
  | help => exact h.bind (h.say _) fun _ => h.pure _
  | showType name? =>
    cases name? with
    | none => exact h.bind (h.say _) fun _ => h.pure _
    | some name => exact h.bind (h.showType name) fun _ => h.pure _
  | showAll => exact h.bind h.showAll fun _ => h.pure _
  | clear => exact (hc rfl).elim
  | load file? =>
    cases file? with
    | none => exact h.bind (h.say _) fun _ => h.pure _
    | some file => exact h.bind (h.load files file) fun _ => h.pure _
  | unknown word => exact h.bind (h.sayAll _) fun _ => h.pure _

theorem obeyLine (h : SessionStep R) (files : Files) {line : String}
    (hc : Command.ofLine? line ≠ some .clear) : Goes R (Repl.obeyLine files line) := by
  unfold Repl.obeyLine
  split
  · rename_i c hline
    refine h.obey files ?_
    rintro rfl
    exact hc hline
  · exact h.throw _

theorem goOn (h : SessionStep R) (lines : List String) : Goes R (Repl.goOn lines) := by
  refine h.bind (h.setPending lines) fun _ => h.bind (h.process _) fun complete => ?_
  split
  · exact h.bind (h.setPending []) fun _ => h.pure true
  · exact h.pure true

/-- A line is a command, or text that is held back or entered. -/
theorem take (h : SessionStep R) (files : Files) {line : Line} {r : Repl}
    (hc : line.clears r = false) : R r.session
      (endState (Repl.take files line r)).session := by
  cases line with
  | interrupt =>
    exact h.bind (h.say _) (fun _ => h.bind (h.setPending []) fun _ => h.pure true) r
  | text line =>
    rw [Repl.take_text]
    split
    · rename_i hcolon
      refine h.obeyLine files ?_ r
      intro hline
      rw [Line.clears, hcolon, hline] at hc
      cases hc
    · exact h.goOn _ r

end SessionStep

namespace Session

variable {R : Session → Session → Prop}

/-- What each check keeps is kept by all of them. -/
theorem keeps_enter (hr : ∀ s, R s s) (ht : ∀ {s s' s''}, R s s' → R s' s'' → R s s'')
    (hadd : ∀ form, Keeps R (add form)) (forms : List Exp) (s : Session) :
      R s (enter forms s).2 := by
  induction forms generalizing s with
  | nil => exact hr s
  | cons form forms ih =>
    have hs := hadd form s
    cases h : add form s with
    | ok t? s' =>
      rw [enter_cons_ok h]
      rw [h] at hs
      exact ht hs (ih s')
    | error f s' =>
      rw [enter_cons_error h]
      rw [h] at hs
      exact hs

end Session

namespace SessionStep

/-- What reading and each check keep is kept by a text. -/
theorem of_keeps {R : Session → Session → Prop} (hr : ∀ s, R s s)
    (ht : ∀ {s s' s''}, R s s' → R s' s'' → R s s'')
      (hread : ∀ source, Keeps R (Session.read source))
    (hadd : ∀ form, Keeps R (Session.add form)) : SessionStep R where
  refl := hr
  trans := ht
  input source s := by
    rw [Session.input]
    split
    · exact hr s
    · have hs := hread source s
      cases h : Session.read source s with
      | ok forms s' =>
        rw [h] at hs
        exact ht hs (Session.keeps_enter hr ht hadd forms s')
      | error e s' =>
        rw [h] at hs
        exact hs

end SessionStep

namespace Session

theorem read_store (source : String) (s : Session) :
    (endState (read source s)).state.store = s.state.store := by
  unfold read
  split <;> rfl

/-- Adding a form lets the store grow, whether or not the form is accepted. -/
theorem add_grows (form : Exp) (s : Session) (hs : s.state.store.Acyclic) :
    s.state.store.Grows (endState (add form s)).state.store := by
  have hg := CheckStep.growth.checkForm s.env form s.state hs
  unfold add
  split
  · rename_i hr
    rw [hr] at hg
    exact hg
  · rename_i hr
    rw [hr] at hg
    exact hg

end Session

/-- Reading leaves the store as it is, and checks make it grow. -/
theorem SessionStep.growth : SessionStep fun s s' =>
    s.state.store.Acyclic → s.state.store.Grows s'.state.store := by
  refine of_keeps (fun _ _ => .refl) (fun h h' hs => (h hs).trans (h' ((h hs).acyclic hs)))
    (fun source s _ => ?_) Session.add_grows
  rw [Session.read_store]
  exact .refl

end TypedL5
