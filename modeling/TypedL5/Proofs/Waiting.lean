import TypedL5.Proofs.Entered
import TypedL5.Proofs.Grammar
import TypedL5.Proofs.Parsed
import TypedL5.Proofs.ReadBack

/-!
When a dialogue waits for more lines. It does so for a text that stops early, and also for a
complete one if a type in it is written as a text that stops early.
-/
namespace TypedL5

namespace Datum

def string? : Datum → Option String
  | .atom (.str text) => some text
  | _ => none

mutual

/-- The texts that stand for types in a datum: the strings after a colon. -/
def annotations : Datum → List String
  | .list items => annotationsAmong items
  | _ => []

def annotationsAmong : List Datum → List String
  | [] => []
  | d :: ds =>
    (if d.isSym ":" then (ds.head?.bind string?).toList else []) ++ d.annotations ++
      annotationsAmong ds

end

end Datum

/-- A text of which a parser says that it cannot be read has a property. -/
def Blames {α : Type} (P : String → Prop) (x : ParseM α) : Prop :=
  ∀ g e m, x g = .error (.unreadable e) m → ∃ text, P text ∧ Datum.read text = .error e

namespace Blames

variable {α β : Type} {P : String → Prop} {x : ParseM α}

theorem pure (a : α) : Blames P (Pure.pure a : ParseM α) := by
  rintro _ _ _ ⟨⟩

theorem throw {e : ParseError} (h : ∀ e', e ≠ .unreadable e') :
    Blames P (throw e : ParseM α) := by
  rintro _ e' _ ⟨⟩
  exact (h e' rfl).elim

theorem bind {f : α → ParseM β} (hx : Blames P x) (hf : ∀ a, Blames P (f a)) :
    Blames P (x >>= f) := by
  intro g e m h
  rw [bind_apply] at h
  cases hr : x g with
  | ok a n =>
    rw [hr] at h
    exact hf a n e m h
  | error c n =>
    rw [hr] at h
    cases h
    exact hx g e m hr

theorem numbered : Blames P ParseM.numbered := by
  rintro _ _ _ ⟨⟩

end Blames

namespace Ty

variable {P : String → Prop}

theorem blames (d : Datum) : Blames P (ofDatum d) := by
  refine steps (P := fun {_} x => Blames P x) (fun a => .pure a) (fun h => .throw h)
    (fun hx hf => hx.bind hf) ?_ d
  rintro _ _ _ _ ⟨⟩

/-- Reading an annotation can only blame the text of the annotation. -/
theorem blames_ofWritten {d : Datum} (h : ∀ text ∈ d.string?, P text) :
    Blames P (ofWritten d) := by
  unfold ofWritten
  split
  · rename_i source
    unfold read
    split
    · exact blames _
    · rename_i c hread
      rintro _ _ _ ⟨⟩
      exact ⟨source, h source rfl, hread⟩
  · exact blames _

end Ty

namespace Datum

variable {P : String → Prop} {d : Datum} {ds : List Datum}

/-- What is said of the texts among some data is said of those in the first one, and of those
in the others. -/
theorem forall_annotations_cons (h : ∀ text ∈ annotationsAmong (d :: ds), P text) :
    (∀ text ∈ d.annotations, P text) ∧ ∀ text ∈ annotationsAmong ds, P text := by
  rw [annotationsAmong, List.forall_mem_append, List.forall_mem_append] at h
  exact ⟨h.1.2, h.2⟩

theorem forall_annotations_colon {written : Datum} (hd : d.isSym ":" = true)
    (h : ∀ text ∈ annotationsAmong (d :: written :: ds), P text) : ∀ text ∈ written.string?,
      P text := by
  intro text htext
  refine h text ?_
  rw [annotationsAmong, if_pos hd]
  simp [Option.mem_def.mp htext]

end Datum

/-- The texts that stand for types in a piece of source. -/
def Source.annotations {α : Type} : Source α → List String
  | .decl d | .exp d | .form d | .program d | .entry d => d.annotations
  | .decls ds | .exps ds | .keyword _ _ ds | .bindings _ ds | .body _ ds | .forms ds =>
    Datum.annotationsAmong ds
  | .entries ds => ds.flatMap Datum.annotations

/-- Only types are read from texts of their own, so only these can be blamed. -/
def ReadLaw.blames (P : String → Prop) : ReadLaw where
  Holds s x := (∀ text ∈ s.annotations, P text) → Blames P x
  fault _ he _ := .throw he
  bare _ _ := Blames.numbered.bind fun _ => .pure _
  typed _ hc h := by
    have hrest := (Datum.forall_annotations_cons h).2
    exact (Ty.blames_ofWritten (Datum.forall_annotations_colon hc hrest)).bind fun _ => .pure _
  decls_nil _ := .pure _
  decls_cons hx hy h := by
    obtain ⟨hd, hds⟩ := Datum.forall_annotations_cons h
    exact (hx hd).bind fun _ => (hy hds).bind fun _ => .pure _
  const _ _ := .pure _
  prim _ _ := .pure _
  var _ _ _ := .pure _
  keyword _ hx h := hx (Datum.forall_annotations_cons h).2
  app _ hx hy h := by
    obtain ⟨hhead, hargs⟩ := Datum.forall_annotations_cons h
    exact (hx hhead).bind fun _ => (hy hargs).bind fun _ => .pure _
  exps_nil _ := .pure _
  exps_cons hx hy h := by
    obtain ⟨hd, hds⟩ := Datum.forall_annotations_cons h
    exact (hx hd).bind fun _ => (hy hds).bind fun _ => .pure _
  ite hx hy hz h := by
    obtain ⟨hc, h⟩ := Datum.forall_annotations_cons h
    obtain ⟨ht, h⟩ := Datum.forall_annotations_cons h
    obtain ⟨he, _⟩ := Datum.forall_annotations_cons h
    exact (hx hc).bind fun _ => (hy ht).bind fun _ => (hz he).bind fun _ => .pure _
  lambda hx hy h := by
    obtain ⟨hparams, hrest⟩ := Datum.forall_annotations_cons h
    exact (hx hparams).bind fun _ => (hy hrest).bind fun _ => .pure _
  letIn _ hx hy h := by
    obtain ⟨hbs, hbody⟩ := Datum.forall_annotations_cons h
    exact (hx hbs).bind fun _ => (hy hbody).bind fun _ => .pure _
  letrec _ hx hy h := by
    obtain ⟨hbs, hbody⟩ := Datum.forall_annotations_cons h
    exact (hx hbs).bind fun _ => (hy hbody).bind fun _ => .pure _
  assign hx h := by
    obtain ⟨_, h⟩ := Datum.forall_annotations_cons h
    exact (hx (Datum.forall_annotations_cons h).1).bind fun _ => .pure _
  quote _ _ _ := .pure _
  bindings_nil _ _ := .pure _
  bindings_cons hx hy hz h := by
    obtain ⟨hb, hds⟩ := Datum.forall_annotations_cons h
    obtain ⟨hdecl, hb⟩ := Datum.forall_annotations_cons hb
    refine (hx hdecl).bind fun _ => ?_
    exact (hy (Datum.forall_annotations_cons hb).1).bind fun _ =>
      (hz hds).bind fun _ => .pure _
  bodiless he hd h := (Ty.blames_ofWritten (Datum.forall_annotations_colon hd h)).bind
    fun _ => .throw he
  annotated hd _ hx h := by
    obtain ⟨_, hbody⟩ := Datum.forall_annotations_cons (Datum.forall_annotations_cons h).2
    refine (Ty.blames_ofWritten (Datum.forall_annotations_colon hd h)).bind fun _ => ?_
    exact (hx hbody).bind fun _ => .pure _
  plain _ hx hy h := by
    obtain ⟨hd, hds⟩ := Datum.forall_annotations_cons h
    exact Blames.numbered.bind fun _ => (hx hd).bind fun _ => (hy hds).bind fun _ => .pure _
  exp hx := hx
  define _ hx hy h := by
    obtain ⟨_, hargs⟩ := Datum.forall_annotations_cons h
    obtain ⟨hdecl, hvalue⟩ := Datum.forall_annotations_cons hargs
    refine (hx hdecl).bind fun _ => ?_
    exact (hy (Datum.forall_annotations_cons hvalue).1).bind fun _ => .pure _
  forms_nil _ := .pure _
  forms_cons hx hy h := by
    obtain ⟨hd, hds⟩ := Datum.forall_annotations_cons h
    exact (hx hd).bind fun _ => (hy hds).bind fun _ => .pure _
  program _ hx h := (hx (Datum.forall_annotations_cons h).2).bind fun _ => .pure _
  entry_form hx h := (hx h).bind fun _ => .pure _
  entry_program _ hx h := hx (Datum.forall_annotations_cons h).2
  entries_nil _ := .pure _
  entries_cons hx hy h := by
    rw [Source.annotations, List.flatMap_cons, List.forall_mem_append] at h
    exact (hx h.1).bind fun _ => (hy h.2).bind fun _ => .pure _

theorem Datum.readAll_of_read_endOfInput {text : String} (h : read text = .error .endOfInput) :
    readAll text = .error .endOfInput := by
  rcases except_bind_eq_error h with h | ⟨ds, _, h⟩
  · exact h
  · split at h <;> cases h

/-- Only the end of the text itself calls for more lines. -/
theorem ParseError.isIncomplete_iff {e : ParseError} :
    e.isIncomplete = true ↔ e = .unreadable .endOfInput := by
  constructor
  · intro h
    unfold isIncomplete at h
    split at h
    · rfl
    · cases h
  · rintro rfl
    rfl

/-- A text that cannot be read as forms stops early itself, or one of its types does. -/
theorem Exp.readTopLevel_endOfInput_iff {source : String} (g : Supply) :
    (∃ m, readTopLevel source g = .error (.unreadable .endOfInput) m) ↔
      Datum.readAll source = .error .endOfInput ∨
      ∃ ds, Datum.readAll source = .ok ds ∧
        (∃ text ∈ ds.flatMap Datum.annotations, Datum.readAll text = .error .endOfInput) ∧
        ∃ m, ofTopLevel ds {} = .error (.unreadable .endOfInput) m := by
  rw [readTopLevel]
  cases hread : Datum.readAll source with
  | error e =>
    constructor
    · rintro ⟨_, ⟨⟩⟩
      exact .inl rfl
    · rintro (⟨⟨⟩⟩ | ⟨_, ⟨⟩, _⟩)
      exact ⟨g, rfl⟩
  | ok ds =>
    constructor
    · rintro ⟨m, h⟩
      obtain ⟨text, htext, hend⟩ :=
        (ReadLaw.blames (· ∈ ds.flatMap Datum.annotations)).reads (.entries ds)
          (fun _ ht => ht) g _ m h
      have hfault := (parses_topLevel ds).fault h {}
      exact .inr ⟨ds, rfl, ⟨text, htext, Datum.readAll_of_read_endOfInput hend⟩, hfault⟩
    · rintro (⟨⟨⟩⟩ | ⟨_, ⟨⟩, _, m, h⟩)
      exact (parses_topLevel ds).fault h g

namespace Repl

variable {source : String} {r : Repl}

/-- More lines are asked for exactly when the text ends too early. -/
theorem process_eq_false_iff (hb : Text.isBlank source = false) :
    (∃ r', process source r = .ok false r') ↔
      ∃ m, Exp.readTopLevel source r.session.state.supply =
        .error (.unreadable .endOfInput) m := by
  cases hread : Exp.readTopLevel source r.session.state.supply with
  | ok forms m =>
    rw [process_ok hb (Session.read_of_ok hread)]
    constructor
    · rintro ⟨_, ⟨⟩⟩
    · rintro ⟨_, ⟨⟩⟩
  | error e m =>
    rw [process_error hb (Session.read_of_error hread)]
    constructor
    · rintro ⟨r', h⟩
      split at h
      · cases h
      · split at h
        · rename_i hi
          rw [ParseError.isIncomplete_iff.mp hi]
          exact ⟨m, rfl⟩
        · cases h
    · rintro ⟨m', h⟩
      cases h
      exact ⟨_, rfl⟩

/-- A dialogue waits for more lines if a text stops early. It also waits if the text is
complete, but a type in it is written as a text that stops early, and this is the first fault
of the forms. -/
theorem process_waits_iff (r : Repl) (hb : Text.isBlank source = false) :
    (∃ r', process source r = .ok false r') ↔
      Datum.readAll source = .error .endOfInput ∨
      ∃ ds, Datum.readAll source = .ok ds ∧
        (∃ text ∈ ds.flatMap Datum.annotations, Datum.readAll text = .error .endOfInput) ∧
        ∃ m, Exp.ofTopLevel ds {} = .error (.unreadable .endOfInput) m := by
  rw [process_eq_false_iff hb, Exp.readTopLevel_endOfInput_iff]

/-- The type of the second form stops early, but the first form is at fault before it comes to
that. -/
theorem process_waits_iff_fault :
    let source := "(if 1) (define (x : \"(\") 5)"
    Text.isBlank source = false ∧
      ((∃ r', process source {} = .ok false r') ↔
        Datum.readAll source = .error .endOfInput ∨
        ∃ ds, Datum.readAll source = .ok ds ∧
          (∃ text ∈ ds.flatMap Datum.annotations, Datum.readAll text = .error .endOfInput) ∧
          ∃ m, Exp.ofTopLevel ds {} = .error (.unreadable .endOfInput) m) ∧
      ∃ r', process source {} = .ok true r' := by
  intro source
  have hb : Text.isBlank source = false := by decide +kernel
  obtain ⟨complete, r', h, hc⟩ :=
    exists_ok (r := process source {}) (P := fun complete _ => complete) (by decide +kernel)
  refine ⟨hb, process_waits_iff {} hb, r', ?_⟩
  rw [h, hc]

/-- The text is one complete datum, and still a dialogue waits for more of it. -/
theorem process_waits_for_complete :
    let source := "(define (x : \"(\") 5)"
    Datum.read source = .ok (.list
      [.sym "define", .list [.sym "x", .sym ":", .atom (.str "(")], .atom (.num (.int 5))]) ∧
      ∃ r', process source {} = .ok false r' := by
  intro source
  obtain ⟨complete, r', h, hc⟩ :=
    exists_ok (r := process source {}) (P := fun complete _ => !complete) (by decide +kernel)
  let d : Datum := .list
    [.sym "define", .list [.sym "x", .sym ":", .atom (.str "(")], .atom (.num (.int 5))]
  have hd : d.Readable := ⟨by decide +kernel, by decide +kernel⟩
  have hwritten : d.write = source := by decide +kernel
  refine ⟨hwritten ▸ Datum.read_write hd, r', ?_⟩
  rw [h, (Bool.not_eq_true' complete).mp hc]

end Repl

end TypedL5
