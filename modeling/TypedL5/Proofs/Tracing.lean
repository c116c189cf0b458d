import TypedL5.CommandLine.Outcome
import TypedL5.Proofs.Unseen

/-!
The trace only observes. A check comes to the same whether it is traced or not, so that a run
which shows the trace writes what one without it writes, and then the trace.
-/
namespace TypedL5

namespace Text

/-- What is shown on a line does not depend on the lines before it. -/
theorem expandTabs_append_newline (k : Cursor) (a b : List Char) :
    expandTabs k (a ++ '\n' :: b) = expandTabs k a ++ '\n' :: expandTabs {} b := by
  induction a generalizing k with
  | nil => simp [expandTabs]
  | cons c a ih =>
    simp only [List.cons_append, expandTabs]
    split
    · rw [ih, List.cons_append]
    · split
      · rw [ih, List.append_assoc]
      · rw [ih, List.cons_append]

/-- Two texts in one print, on lines of their own, show as in two prints. -/
theorem printed_append_newline (a b : String) :
    printed (a ++ "\n" ++ b) = printed a ++ printed b := by
  have hdrop : (dropControls (a ++ "\n" ++ b)).toList =
      (dropControls a).toList ++ '\n' :: (dropControls b).toList := by
    simp [dropControls, isControl]
  rw [printed, printed, printed, hdrop, expandTabs_append_newline]
  simp [String.ofList_append, String.append_assoc]

end Text

namespace Trace

/-- The lines that a console shows of a trace, from the headline on. Without steps there are
none. -/
def shown (t : Trace) : String :=
  if t.steps.isEmpty then "" else Text.printed (String.ofList (t.text.toList.drop 1))

/-- A trace begins a line of its own. -/
theorem printed_append_text (t : Trace) (a : String) :
    Text.printed (a ++ t.text) = Text.printed a ++ t.shown := by
  unfold shown
  split
  · rename_i h
    rw [text, if_pos h, String.append_empty, String.append_empty]
  · rename_i h
    have htext : t.text = "\n" ++ String.ofList (t.text.toList.drop 1) := by
      rw [text, if_neg h]
      simp [← String.toList_inj]
    rw [htext, ← String.append_assoc, Text.printed_append_newline]
    simp

theorem printed_text (t : Trace) : Text.printed t.text = "\n" ++ t.shown := by
  have h := printed_append_text t ""
  rwa [String.empty_append, show Text.printed "" = "\n" by decide] at h

end Trace

/-- A trace that takes no steps stays as it is. -/
theorem CheckStep.idle :
    CheckStep fun st st' => st.trace.enabled = false → st'.trace = st.trace where
  refl _ _ := rfl
  trans h h' hst := by
    have he := h hst
    rw [h' (he ▸ hst), he]
  note st e t hst := by simp [CheckState.noteType, hst]
  draw _ _ _ := rfl
  unify t u e st hst := by
    unfold CheckM.unify
    split <;> simp [endState, CheckState.withStore, hst]

namespace Checked

/-- A check that comes to the same whatever the trace is at first, and leaves an empty trace
that takes no steps as it is. -/
inductive Observed (check : Trace → Except Abort Checked) : Prop
  | aborts (a : Abort) (h : ∀ trace, check trace = .error a)
  | ends (result : Except Failure String) (left : Trace → Trace) (hleft : left {} = {})
    (h : ∀ trace, check trace = .ok ⟨result, left trace⟩)

/-- Tracing has no part in reading, nor in what a check comes to. -/
theorem observed_ofRead (read : ParseM Exp) {typeOf : Exp → CheckM Ty}
    (hsame : ∀ e st st', st.untraced = st'.untraced →
      seenThrough CheckState.untraced id (typeOf e st) =
      seenThrough CheckState.untraced id (typeOf e st'))
    (hidle : ∀ e, Keeps (fun st st' => st.trace.enabled = false → st'.trace = st.trace)
      (typeOf e)) :
    Observed (ofRead read typeOf) := by
  unfold ofRead
  cases read {} with
  | error e _ =>
    cases he : e.isFatal with
    | true => exact .aborts .numeralTooLong fun _ => by simp [he]
    | false => exact .ends (.error (.ofParseError e)) id rfl fun _ => by simp [he]
  | ok e g =>
    -- The run without a trace tells how all others end, but for their traces.
    let left (trace : Trace) : Trace :=
      (endState (typeOf e { supply := g, trace := trace })).trace
    have hleft : left {} = {} := hidle e { supply := g, trace := {} } rfl
    have hsame (trace : Trace) :=
      hsame e { supply := g, trace := trace } { supply := g, trace := {} } rfl
    cases hr : typeOf e { supply := g, trace := {} } with
    | ok t st =>
      refine .ends (.ok (st.store.text t)) left hleft fun trace => ?_
      have hsame := hsame trace
      cases hr' : typeOf e { supply := g, trace := trace } with
      | ok t' st' =>
        simp only [hr, hr', seenThrough, EStateM.Result.ok.injEq] at hsame
        obtain ⟨rfl, hst⟩ := hsame
        simp [left, hr', endState, (CheckState.untraced_eq_iff.mp hst).2]
      | error c' st' => simp [hr, hr', seenThrough] at hsame
    | error c st =>
      refine .ends (.error (c.failure st.store)) left hleft fun trace => ?_
      have hsame := hsame trace
      cases hr' : typeOf e { supply := g, trace := trace } with
      | ok t' st' => simp [hr, hr', seenThrough] at hsame
      | error c' st' =>
        simp only [hr, hr', seenThrough, EStateM.Result.error.injEq, id] at hsame
        obtain ⟨rfl, hst⟩ := hsame
        simp [left, hr', endState, (CheckState.untraced_eq_iff.mp hst).2]

theorem observed_ofExp (source : String) : Observed (ofExp source ·) :=
  observed_ofRead _ (fun _ _ _ h => View.untraced.typeOf_eq h rfl fun _ _ => rfl)
    (CheckStep.idle.rules.exp {})

theorem observed_ofProgram (source : String) : Observed (ofProgram source ·) :=
  observed_ofRead _ (fun _ _ _ h => View.untraced.typeOfProgram_eq h rfl fun _ _ => rfl)
    (CheckStep.idle.typeOfProgram {})

end Checked

namespace Outcome

/-- What a run writes with the trace, next to what it writes without it. The trace comes after
the type that has been found, or after the report of a failure. -/
structure Adds (trace? : Option Trace) (quiet verbose : Outcome) : Prop where
  status : verbose.status = quiet.status
  abort : verbose.abort? = quiet.abort?
  output :
    verbose.output = quiet.output ++ if quiet.status = 0 then trace?.elim "" fun t =>
      "\n" ++ t.shown else ""
  errors :
    verbose.errors = quiet.errors ++ if quiet.status = 0 then ""
      else trace?.elim "" Trace.shown

theorem adds_self (o : Outcome) : o.Adds none o := ⟨rfl, rfl, by simp, by simp⟩

/-- The trace that a check leaves, if it was enabled before. -/
def recorded? (check : Trace → Except Abort Checked) : Option Trace :=
  match check { enabled := true } with
  | .ok c => some c.trace
  | .error _ => none

/-- A run that traces prints its record and, apart from that, what a quiet run prints. -/
theorem adds_ofCheck {check : Trace → Except Abort Checked} (h : Checked.Observed check) :
    (observing false (ofCheck false check) {}).Adds (recorded? check)
      (observing true (ofCheck true check) {}) := by
  unfold observing ofCheck recorded?
  cases h with
  | aborts a h =>
    simp only [h]
    exact adds_self _
  | ends result left hleft h =>
    simp only [h, if_neg Bool.false_ne_true, hleft]
    cases result with
    | ok text => exact ⟨rfl, rfl, by simp [Trace.printed_text, Trace.enable], by simp⟩
    | error f =>
      refine ⟨rfl, rfl, by simp, ?_⟩
      have hreport : f.report (left { enabled := true }) =
          f.report {} ++ (left { enabled := true }).text := by
        simp [Failure.report, Trace.text]
      simp [Trace.enable, hreport, Trace.printed_append_text]

variable {files : Files} {inv : Invocation}

/-- The trace of the program in a file, if the file can be read and is text. -/
def traceOfFile? (files : Files) (file : String) : Option Trace :=
  match files.read file with
  | .error _ => none
  | .ok bytes => (Text.decode? bytes).bind fun source => recorded? (Checked.ofProgram source ·)

/-- A file that cannot be read is reported alike, with nothing recorded. -/
theorem adds_ofFile (files : Files) (file : String) :
    (observing false (ofFile files false file) {}).Adds (traceOfFile? files file)
      (observing true (ofFile files true file) {}) := by
  unfold ofFile traceOfFile?
  cases files.read file with
  | error reason => exact adds_self _
  | ok bytes =>
    dsimp only
    cases Text.decode? bytes with
    | none => exact adds_self _
    | some source => exact adds_ofCheck (Checked.observed_ofProgram source)

/-- The trace of the check that an invocation comes to with the file that it names, if it comes
to one. -/
def traceOfCommand? (files : Files) (inv : Invocation) (file? : Option String) :
    Option Trace :=
  if inv.version then none else
    match inv.expression?, file? with
    | some source, _ => recorded? (Checked.ofExp source ·)
    | none, some file => traceOfFile? files file
    | none, none => none

/-- Whatever is asked for short of a session, tracing adds the record and nothing else. -/
theorem adds_ofCommand (files : Files) (input : String) {inv : Invocation}
    {file? : Option String} (h : inv.version || inv.expression?.isSome || file?.isSome) :
    (ofCommand files input { inv with verbose := false } file? {}).Adds
      (traceOfCommand? files inv file?)
      (ofCommand files input { inv with verbose := true } file? {}) := by
  unfold ofCommand traceOfCommand?
  cases hversion : inv.version with
  | true => exact adds_self _
  | false =>
    cases hexp : inv.expression? with
    | some source => exact adds_ofCheck (Checked.observed_ofExp source)
    | none =>
      cases file? with
      | some file => exact adds_ofFile files file
      | none => simp [hversion, hexp] at h

/-- The trace of the check that an invocation comes to, if it comes to one. -/
def traceOf? (files : Files) (inv : Invocation) : Option Trace :=
  if inv.help then none else
    match inv.operands with
    | [] => traceOfCommand? files inv none
    | [file] => if files.admits file then traceOfCommand? files inv (some file) else none
    | _ => none

theorem isSome_of_not_isSession (hs : inv.isSession = false) (hhelp : inv.help = false)
    (hops : inv.operands = []) : inv.version || inv.expression?.isSome := by
  cases hversion : inv.version <;> cases hexp : inv.expression? <;>
    simp_all [Invocation.isSession]

/-- The trace adds to what an invocation writes that asks for no session, and changes nothing
of it. -/
theorem adds_ofInvocation (files : Files) (input : String) (hs : inv.isSession = false) :
    (ofInvocation files input { inv with verbose := false } {}).Adds (traceOf? files inv)
      (ofInvocation files input { inv with verbose := true } {}) := by
  unfold ofInvocation traceOf?
  cases hhelp : inv.help with
  | true => exact adds_self _
  | false =>
    rcases hops : inv.operands with _ | ⟨file, _ | _⟩
    · exact adds_ofCommand files input (by simp [isSome_of_not_isSession hs hhelp hops])
    · dsimp only
      cases files.admits file with
      | true => exact adds_ofCommand files input (by simp)
      | false => exact adds_self _
    · exact adds_self _

/-- Every way out of a command leaves tracing off and its record empty. -/
theorem ofCommand_trace (files : Files) (input : String) {inv : Invocation}
    {file? : Option String} (h : inv.version || inv.expression?.isSome || file?.isSome) :
    (ofCommand files input inv file? {}).trace = {} := by
  unfold ofCommand
  cases hversion : inv.version with
  | true => rfl
  | false =>
    cases hexp : inv.expression? with
    | some source => rfl
    | none =>
      cases file? with
      | some file => rfl
      | none => simp [hversion, hexp] at h

/-- However such an invocation ends, the trace is disabled and empty again. -/
theorem ofInvocation_trace (files : Files) (input : String) (hs : inv.isSession = false) :
    (ofInvocation files input inv {}).trace = {} := by
  unfold ofInvocation
  cases hhelp : inv.help with
  | true => rfl
  | false =>
    rcases hops : inv.operands with _ | ⟨file, _ | _⟩
    · exact ofCommand_trace files input (by simp [isSome_of_not_isSession hs hhelp hops])
    · dsimp only
      cases files.admits file with
      | true => exact ofCommand_trace files input (by simp)
      | false => rfl
    · rfl

end Outcome

namespace Invocation

/-- What an invocation asks for, and the trace with it. -/
def asVerbose (inv : Invocation) : Invocation := { inv with verbose := true }

/-- An option does the same to an invocation whether the trace is asked for or not. -/
def Opt.Apart : Opt → Prop
  | .flag set => ∀ inv, set inv.asVerbose = (set inv).asVerbose
  | .value set => ∀ text inv, set text inv.asVerbose = (set text inv).asVerbose

def Cluster.asVerbose : Cluster → Cluster
  | .done inv => .done inv.asVerbose
  | .needsValue set inv => .needsValue set inv.asVerbose

theorem apart_of_long {name : String} {o : Opt} (h : long? name = some o) : o.Apart := by
  unfold long? at h
  repeat' split at h
  all_goals
    cases h
    try exact fun _ => rfl
  exact fun _ _ => rfl

theorem apart_of_short {c : Char} {o : Opt} (h : short? c = some o) : o.Apart := by
  unfold short? at h
  repeat' split at h
  all_goals cases h
  · exact fun _ _ => rfl
  · exact fun _ => rfl

theorem takeShort_asVerbose (inv : Invocation) (cs : List Char) :
    takeShort inv.asVerbose cs = (takeShort inv cs).map Cluster.asVerbose := by
  induction cs generalizing inv with
  | nil => rfl
  | cons c cs ih =>
    rw [takeShort, takeShort]
    cases h : short? c with
    | none => rfl
    | some o =>
      have ho := apart_of_short h
      cases o with
      | flag set => simp only [ho inv, ih]
      | value set =>
        dsimp only
        split
        · rfl
        · rw [ho, Option.map_some, Cluster.asVerbose]

theorem takeOption_asVerbose (inv : Invocation) (arg : String) :
    takeOption inv.asVerbose arg = (takeOption inv arg).map Cluster.asVerbose := by
  unfold takeOption
  dsimp only
  split
  · rename_i set h _
    exact congrArg (some ∘ Cluster.done) (apart_of_long h inv)
  · rfl
  · rfl
  · rename_i set value h _
    exact congrArg (some ∘ Cluster.done) (apart_of_long h value inv)
  · split
    · rfl
    · exact takeShort_asVerbose inv _

theorem apart_of_takeShort
    {inv inv' : Invocation} {cs : List Char} {set : String → Invocation → Invocation}
    (h : takeShort inv cs = some (.needsValue set inv')) : (Opt.value set).Apart := by
  induction cs generalizing inv with
  | nil => cases h
  | cons c cs ih =>
    rw [takeShort] at h
    split at h
    · cases h
    · exact ih h
    · rename_i ho
      split at h
      · cases h
        exact apart_of_short ho
      · cases h

theorem apart_of_takeOption
    {inv inv' : Invocation} {arg : String} {set : String → Invocation → Invocation}
    (h : takeOption inv arg = some (.needsValue set inv')) : (Opt.value set).Apart := by
  unfold takeOption at h
  dsimp only at h
  split at h
  · cases h
  · cases h
  · rename_i ho _
    cases h
    exact apart_of_long ho
  · cases h
  · split at h
    · cases h
    · exact apart_of_takeShort h

/-- Asking for tracing first does not change how the other arguments are taken. -/
theorem takeArgs_asVerbose (inv : Invocation) (args : List String) :
    takeArgs inv.asVerbose args = (takeArgs inv args).map asVerbose := by
  induction inv, args using takeArgs.induct with
  | case1 inv => rfl
  | case2 inv args =>
    rw [takeArgs, takeArgs, if_pos rfl, if_pos rfl]
    rfl
  | case3 inv arg args hne hopt ho =>
    rw [takeArgs, takeArgs, if_neg hne, if_neg hne, if_pos hopt, if_pos hopt,
      takeOption_asVerbose, ho]
    rfl
  | case4 inv arg args hne hopt inv' ho ih =>
    rw [takeArgs, takeArgs, if_neg hne, if_neg hne, if_pos hopt, if_pos hopt,
      takeOption_asVerbose, ho]
    exact ih
  | case5 inv arg hne hopt set inv' ho =>
    conv_lhs => rw [takeArgs, if_neg hne, if_pos hopt, takeOption_asVerbose, ho]
    conv_rhs => rw [takeArgs, if_neg hne, if_pos hopt, ho]
    rfl
  | case6 inv arg hne hopt set inv' ho value args ih =>
    conv_lhs => rw [takeArgs, if_neg hne, if_pos hopt, takeOption_asVerbose, ho]
    conv_rhs => rw [takeArgs, if_neg hne, if_pos hopt, ho]
    refine Eq.trans ?_ ih
    rw [← apart_of_takeOption ho value inv']
    rfl
  | case7 inv arg args hne hopt ih =>
    rw [takeArgs, takeArgs, if_neg hne, if_neg hne, if_neg hopt, if_neg hopt]
    exact ih

/-- The short option for the trace may come first. -/
theorem ofArgs?_cons_verbose (args : List String) :
    ofArgs? ("-v" :: args) = (ofArgs? args).map asVerbose :=
  takeArgs_asVerbose {} args

end Invocation

/-- The option for the trace may be put before any arguments that ask for no session. -/
theorem Outcome.adds_ofArgs {args : List String} {inv : Invocation} (files : Files)
    (input : String) (hargs : Invocation.ofArgs? args = some inv) (hs : inv.isSession = false)
    (hv : inv.verbose = false) :
    (ofArgs files input args).Adds (traceOf? files inv)
      (ofArgs files input ("-v" :: args)) := by
  have hadds := adds_ofInvocation files input hs
  have hquiet : { inv with verbose := false } = inv := by
    rw [← hv]
  rw [hquiet] at hadds
  rw [ofArgs, ofArgs, Invocation.ofArgs?_cons_verbose, hargs]
  exact hadds

/-- Checks come to the same answer or failure, store and supply, whatever the trace is at
first. So an invocation that asks for no session ends with the same status if the trace is
asked for too, and writes the same, but for the trace after it. No trace is left behind,
whether the check succeeds or fails, the file is refused, cannot be read or is no text, or
there is nothing to check. -/
theorem tracing_only_observes :
    (∀ (env : Env) (e : Exp) (st : CheckState) (trace trace' : Trace),
      seenThrough CheckState.untraced id (e.typeOf env { st with trace := trace }) =
          seenThrough CheckState.untraced id (e.typeOf env { st with trace := trace' }) ∧
        seenThrough CheckState.untraced id (e.typeOfProgram env { st with trace := trace }) =
          seenThrough CheckState.untraced id
            (e.typeOfProgram env { st with trace := trace' })) ∧
    ∀ (files : Files) (input : String) (inv : Invocation), inv.isSession = false →
      (Outcome.ofInvocation files input { inv with verbose := false } {}).Adds
          (Outcome.traceOf? files inv)
          (Outcome.ofInvocation files input { inv with verbose := true } {}) ∧
        (Outcome.ofInvocation files input inv {}).trace = {} := by
  refine ⟨fun env e st trace trace' => ⟨?_, ?_⟩, fun files input inv hs => ⟨?_, ?_⟩⟩
  · exact View.untraced.typeOf_eq rfl rfl fun _ _ => rfl
  · exact View.untraced.typeOfProgram_eq rfl rfl fun _ _ => rfl
  · exact Outcome.adds_ofInvocation files input hs
  · exact Outcome.ofInvocation_trace files input hs

/-- A file that is admitted and then cannot be read, and the report of a name that is not
there, with the two steps of the check before it came upon the name. -/
theorem tracing_only_observes_failing :
    let files : Files :=
      { read := fun _ => .error "Input/output error", admits := fun _ => true }
    let quiet := Outcome.ofInvocation files "" { expression? := some "(+ 1 x)" } {}
    let verbose :=
      Outcome.ofInvocation files "" { expression? := some "(+ 1 x)", verbose := true } {}
    let unread := Outcome.ofInvocation files "" { operands := ["a.l5"], verbose := true } {}
    let steps : List Step :=
      [⟨"PrimOp: +", some "(number * number -> number)"⟩, ⟨"NumExp: 1", some "number"⟩]
    verbose.status = 1 ∧ verbose.output = quiet.output ∧
      verbose.errors = quiet.errors ++ (Trace.mk true steps).shown ∧ verbose.trace = {} ∧
      unread.status = 1 ∧ unread.output = "" ∧
      unread.errors = "Error: cannot read 'a.l5': Input/output error\n" ∧
        unread.trace = {} := by
  intro files quiet verbose unread steps
  obtain ⟨hadds, _⟩ := tracing_only_observes.2 files "" { expression? := some "(+ 1 x)" } rfl
  obtain ⟨_, hleft⟩ :=
    tracing_only_observes.2 files "" { expression? := some "(+ 1 x)", verbose := true } rfl
  obtain ⟨hfile, hfileLeft⟩ :=
    tracing_only_observes.2 files "" { operands := ["a.l5"], verbose := true } rfl
  have hstatus : quiet.status = 1 := by decide +kernel
  have htrace : Outcome.traceOf? files { expression? := some "(+ 1 x)" } =
      some ⟨true, steps⟩ := by
    decide +kernel
  rw [htrace] at hadds
  refine ⟨hadds.status.trans hstatus, hadds.output.trans ?_, hadds.errors.trans ?_, hleft,
    hfile.status, hfile.output, hfile.errors.trans ?_, hfileLeft⟩
  · rw [hstatus, if_neg Nat.one_ne_zero, String.append_empty]
  · rw [hstatus, if_neg Nat.one_ne_zero, Option.elim_some]
  · decide +kernel

end TypedL5
