import Mathlib.Data.List.Dedup
import TypedL5.Proofs.SessionStep

/-!
Dialogues of any length. The environment of a dialogue is made of its definitions, so what is
shown of a name is its latest definition. As long as nothing is cleared away, the type of a
definition only becomes more specific.
-/
namespace TypedL5

/-- What can be done in a dialogue. -/
inductive Entry where
  | input (source : String)
  | command (files : Files) (line : String)
  | load (files : Files) (file : String)
  | enter (files : Files) (line : Line)

namespace Entry

variable {r : Repl} {e : Entry}

/-- What is left after an entry, be its answer what it may. -/
def perform (r : Repl) : Entry → Repl
  | input source => endState (Repl.process source r)
  | command files line => endState (Repl.obeyLine files line r)
  | load files file => endState (Repl.load files file r)
  | enter files line => endState (Repl.take files line r)

/-- Whether an entry makes the session start anew. -/
def clears (r : Repl) : Entry → Bool
  | command _ line => Command.ofLine? line == some .clear
  | enter _ line => line.clears r
  | _ => false

theorem session_of_clears (h : e.clears r = true) :
    (e.perform r).session = r.session.restart := by
  cases e with
  | input source => cases h
  | load files file => cases h
  | command files line =>
    rw [perform, Repl.obeyLine, beq_iff_eq.mp h]
    rfl
  | enter files line => exact Repl.take_clears h

end Entry

theorem SessionStep.perform {R : Session → Session → Prop} (h : SessionStep R) {r : Repl}
    {e : Entry} (hc : e.clears r = false) : R r.session (e.perform r).session := by
  cases e with
  | input source => exact h.process source r
  | load files file => exact h.load files file r
  | command files line => exact h.obeyLine files (by simpa [Entry.clears] using hc) r
  | enter files line => exact h.take files hc

namespace Repl

variable {r : Repl} {entries : List Entry}

def after (r : Repl) (entries : List Entry) : Repl := entries.foldl Entry.perform r

/-- Whether one of the entries makes the session start anew. -/
def clearsIn (r : Repl) : List Entry → Bool
  | [] => false
  | e :: entries => e.clears r || clearsIn (e.perform r) entries

/-- What each text keeps in a session and each new session has is there all along. -/
theorem holds_after {P : Session → Prop} (h : SessionStep fun s s' => P s → P s')
    (hnew : ∀ s, P (Session.restart s)) (hr : P r.session) : P (r.after entries).session := by
  induction entries generalizing r with
  | nil => exact hr
  | cons e entries ih =>
    apply ih
    cases hc : e.clears r with
    | true =>
      rw [Entry.session_of_clears hc]
      exact hnew _
    | false => exact h.perform hc hr

/-- What each text keeps in a session is kept until the session is cleared away. -/
theorem related_after {R : Session → Session → Prop} (h : SessionStep R)
    (hc : r.clearsIn entries = false) : R r.session (r.after entries).session := by
  induction entries generalizing r with
  | nil => exact h.refl _
  | cons e entries ih =>
    rw [clearsIn, Bool.or_eq_false_iff] at hc
    exact h.trans (h.perform hc.1) (ih hc.2)

end Repl

namespace Env

variable {ds : List Decl}

/-- The environment of definitions, each in a frame of its own. -/
def ofDefinitions (ds : List Decl) : Env := ds.foldl (fun env d => env.extend [d]) {}

theorem ofDefinitions_append (ds ds' : List Decl) :
    ofDefinitions (ds ++ ds') = ds'.foldl (fun env d => env.extend [d]) (ofDefinitions ds) :=
  List.foldl_append

theorem ofDefinitions_concat (ds : List Decl) (d : Decl) :
    ofDefinitions (ds ++ [d]) = (ofDefinitions ds).extend [d] :=
  ofDefinitions_append ds [d]

/-- The last definition of a name is the one that is looked up. -/
theorem lookup?_ofDefinitions (ds : List Decl) (name : String) :
    (ofDefinitions ds).lookup? name = ((ds.filter (·.name == name)).getLast?).map (·.ty) := by
  induction ds using List.reverseRecOn with
  | nil => rfl
  | append_singleton ds d ih =>
    rw [ofDefinitions_concat, lookup?_extend, ih, List.filter_append]
    by_cases h : (d.name == name) = true
    · simp [h]
    · simp [h]

theorem flatten_ofDefinitions (ds : List Decl) :
    (ofDefinitions ds).frames.flatten = ds.reverse := by
  induction ds using List.reverseRecOn with
  | nil => rfl
  | append_singleton ds d ih =>
    rw [ofDefinitions_concat, extend, List.flatten_cons, ih, List.reverse_append]
    rfl

theorem dedup_concat (names : List String) (name : String) :
    (names ++ [name]).dedup = (names.filter fun x => !x == name).dedup ++ [name] := by
  induction names with
  | nil => rfl
  | cons x names ih =>
    by_cases hx : x = name
    · rw [List.cons_append, List.dedup_cons_of_mem (by simp [hx]), ih]
      simp [hx]
    · rw [List.filter_cons_of_pos (by simp [hx]), List.cons_append]
      by_cases hmem : x ∈ names
      · rw [List.dedup_cons_of_mem (by simp [hmem]),
          List.dedup_cons_of_mem (by simp [hmem, hx]), ih]
      · rw [List.dedup_cons_of_notMem (by simp [hmem, hx]),
          List.dedup_cons_of_notMem (by simp [hmem]), ih]
        rfl

/-- Keeping the first of each name from the end keeps the last of each name from the start. -/
theorem eraseDups_reverse (names : List String) :
    names.reverse.eraseDups = names.dedup.reverse := by
  -- A name that is dropped drops its equals before it, so the induction is on the length.
  induction hn : names.length using Nat.strong_induction_on generalizing names with
  | h n ih =>
    rcases List.eq_nil_or_concat names with rfl | ⟨init, name, rfl⟩
    · rfl
    · have hlen : (init.filter fun x => !x == name).length < n := by
        have := List.length_filter_le (fun x => !x == name) init
        simp at hn
        omega
      rw [List.concat_eq_append, dedup_concat, List.reverse_append, List.reverse_append,
        List.reverse_singleton, List.singleton_append, List.eraseDups_cons,
          List.filter_reverse,
        ih _ hlen _ rfl]
      rfl

/-- The names are those of the definitions, the one defined last in front. -/
theorem names_ofDefinitions (ds : List Decl) :
    (ofDefinitions ds).names = (ds.map Decl.name).dedup.reverse := by
  rw [names, flatten_ofDefinitions, List.map_reverse, eraseDups_reverse]

end Env

namespace Session

variable {s s' : Session} {form : Exp}

/-- The latest definition of a name. -/
def latest? (s : Session) (name : String) : Option Decl :=
  (s.definitions.filter (·.name == name)).getLast?

/-- A definition with its written type. -/
def line (s : Session) (d : Decl) : String := d.name ++ " : " ++ s.state.store.text d.ty

/-- A form that checks adds its definitions, and nothing else, to the environment. -/
theorem checkForm_env {env env' : Env} {t? : Option Ty} {st st' : CheckState}
    (h : form.checkForm env st = .ok (env', t?) st') :
    env' = (defined form).foldl (fun env d => env.extend [d]) env := by
  unfold Exp.checkForm at h
  split at h
  · obtain ⟨_, _, _, h⟩ := bind_eq_ok_iff.mp h
    obtain ⟨_, _, _, h⟩ := bind_eq_ok_iff.mp h
    cases h
    rfl
  · rename_i hform
    obtain ⟨_, _, _, h⟩ := bind_eq_ok_iff.mp h
    cases h
    cases form with
    | define d e => exact (hform d e rfl).elim
    | _ => rfl

/-- A form that fails changes neither environment nor definitions, and another one both
alike. -/
theorem add_defined (form : Exp) (s : Session) : ∃ ds,
    (endState (add form s)).env = ds.foldl (fun env d => env.extend [d]) s.env ∧
    (endState (add form s)).definitions = s.definitions ++ ds := by
  unfold add
  split
  · rename_i h
    exact ⟨defined form, checkForm_env h, rfl⟩
  · exact ⟨[], rfl, (List.append_nil _).symm⟩

theorem read_env (source : String) (s : Session) : (endState (read source s)).env = s.env := by
  unfold read
  split <;> rfl

theorem read_definitions (source : String) (s : Session) :
    (endState (read source s)).definitions = s.definitions := by
  unfold read
  split <;> rfl

/-- The environment is made of the definitions. -/
def Coherent (s : Session) : Prop := s.env = .ofDefinitions s.definitions

namespace Coherent

theorem withSupply (h : s.Coherent) (g : Supply) : (s.withSupply g).Coherent := h

theorem add (form : Exp) :
    Keeps (fun s s' => s.Coherent → s'.Coherent) (Session.add form) := by
  intro s hs
  obtain ⟨ds, henv, hds⟩ := add_defined form s
  rw [Coherent, henv, hds, hs, Env.ofDefinitions_append]

theorem enter (h : s.Coherent) (forms : List Exp) : (Session.enter forms s).2.Coherent :=
  keeps_enter (R := fun s s' => s.Coherent → s'.Coherent) (fun _ hs => hs)
    (fun h h' hs => h' (h hs)) add forms s h

theorem typeOf? (h : s.Coherent) (name : String) :
    s.typeOf? name = (s.latest? name).map fun d => s.state.store.text d.ty := by
  rw [Session.typeOf?, h, Env.lookup?_ofDefinitions, Option.map_map]
  rfl

theorem names (h : s.Coherent) :
    s.env.names = (s.definitions.map Decl.name).dedup.reverse := by
  rw [h, Env.names_ofDefinitions]

end Coherent

theorem latest?_eq_none_iff (s : Session) (name : String) :
    s.latest? name = none ↔ name ∉ s.definitions.map Decl.name := by
  simp [latest?]

theorem name_of_latest? {name : String} {d : Decl} (h : s.latest? name = some d) :
    d.name = name := by
  have hmem := List.mem_of_getLast? h
  simpa using (List.mem_filter.mp hmem).2

end Session

namespace SessionStep

/-- The environment and the list of definitions stay in step through every entry. -/
theorem coherent : SessionStep fun s s' => s.Coherent → s'.Coherent := by
  refine of_keeps (fun _ h => h) (fun h h' hs => h' (h hs)) (fun source s hs => ?_)
    fun form s hs => ?_
  · rw [Session.Coherent, Session.read_env, Session.read_definitions]
    exact hs
  · exact Session.Coherent.add form s hs

theorem definitions : SessionStep fun s s' => s.definitions <+: s'.definitions := by
  refine of_keeps (fun _ => List.prefix_rfl) (fun h h' => h.trans h') (fun source s => ?_)
    fun form s => ?_
  · rw [Session.read_definitions]
  · obtain ⟨ds, _, hds⟩ := Session.add_defined form s
    rw [hds]
    exact List.prefix_append _ _

theorem acyclic : SessionStep fun s s' => s.state.store.Acyclic → s'.state.store.Acyclic where
  refl _ h := h
  trans h h' hs := h' (h hs)
  input source s hs := (growth.input source s hs).acyclic hs

end SessionStep

namespace Session

/-- What has become of the definitions of a session: all are there, and what has become known
of a variable has become known in every type. -/
structure Narrows (s s' : Session) : Prop where
  definitions : s.definitions <+: s'.definitions
  types : ∃ θ : TyVar → Ty, ∀ d ∈ s.definitions,
    s'.state.store.resolve d.ty = (s.state.store.resolve d.ty).subst θ
  ground : ∀ d ∈ s.definitions, (s.state.store.resolve d.ty).vars = [] →
    s'.state.store.resolve d.ty = s.state.store.resolve d.ty

end Session

namespace Repl

variable {r : Repl}

/-- What can be seen of the definitions of a dialogue. -/
structure Shows (r : Repl) : Prop where
  env : r.session.env = r.session.definitions.foldl (fun env d => env.extend [d]) {}
  /-- Of equal names the last one counts, and the latest name comes first. -/
  names : r.session.env.names = (r.session.definitions.map Decl.name).dedup.reverse
  typeOf :
    ∀ name, r.session.typeOf? name = (r.session.latest? name).map fun d =>
      r.session.state.store.text d.ty
  unknown : ∀ name, r.session.typeOf? name = none ↔ name ∉ r.session.definitions.map Decl.name
  showAll : ∀ files, obey files .showAll r = .ok true (r.said
    (if r.session.definitions = [] then ["No definitions"]
      else "Definitions:" :: r.session.definitions.map fun d => "  " ++ r.session.line d))
  showType : ∀ files name, obey files (.showType (some name)) r = .ok true (r.said
    [match r.session.latest? name with
      | some d => r.session.line d
      | none => "Unknown name: " ++ name])

/-- The listing has one line for each definition, in the order they were made. -/
theorem showAll_eq (r : Repl) : showAll r = .ok () (r.said
    (if r.session.definitions = [] then ["No definitions"]
      else "Definitions:" :: r.session.definitions.map fun d =>
        "  " ++ r.session.line d)) := by
  rw [showAll, get_bind_apply]
  by_cases h : r.session.definitions = []
  · simp [Session.listing, h, say_eq]
  · simp [Session.listing, h, sayAll_eq, Function.comp_def, Session.line, String.append_assoc]

/-- A name is shown with its latest definition. -/
theorem showType_eq (hr : r.session.Coherent) (name : String) :
    showType name r = .ok () (r.said [match r.session.latest? name with
      | some d => r.session.line d
      | none => "Unknown name: " ++ name]) := by
  rw [showType, get_bind_apply, hr.typeOf?]
  cases h : r.session.latest? name with
  | none => rfl
  | some d =>
    change say (name ++ " : " ++ _) r = .ok () (r.said [r.session.line d])
    rw [say_eq, Session.line, Session.name_of_latest? h]

/-- What a coherent session prints is what it has defined. -/
theorem shows_of_coherent (hr : r.session.Coherent) : r.Shows where
  env := hr
  names := hr.names
  typeOf := hr.typeOf?
  unknown name := by rw [hr.typeOf?, Option.map_eq_none_iff, Session.latest?_eq_none_iff]
  showAll files := by
    rw [obey, bind_apply, showAll_eq]
    rfl
  showType files name := by
    rw [obey, bind_apply, showType_eq hr]
    rfl

/-- In every dialogue the environment is made of the definitions, and what is shown of a name
is its latest definition. Until the session is cleared away, its definitions stay, and their
types at most become instances of what they were. -/
theorem definitions_shown (trace : Trace) (entries later : List Entry) :
    let r := (ofTrace trace).after entries
    r.Shows ∧ (r.clearsIn later = false → r.session.Narrows (r.after later).session) := by
  intro r
  have hr : r.session.Coherent := holds_after SessionStep.coherent (fun _ => rfl) rfl
  have hacyclic : r.session.state.store.Acyclic :=
    holds_after SessionStep.acyclic (fun _ => Store.acyclic_empty) Store.acyclic_empty
  refine ⟨shows_of_coherent hr, fun hc => ?_⟩
  have hg := related_after SessionStep.growth hc hacyclic
  exact ⟨related_after SessionStep.definitions hc,
    ⟨_, fun d _ => hg.extends.resolve_eq (hg.acyclic hacyclic) d.ty⟩,
    fun d _ => hg.extends.resolve_ground (hg.acyclic hacyclic)⟩

/-- A session is cleared away, and in the next one a name is defined twice before a text fails
and another one stops early. What is known of the second definition comes from a form that
fails. -/
theorem definitions_shown_narrowed :
    let files : Files := { read := fun _ => .error "No such file" }
    let entries : List Entry := [.input "(define x 1)", .command files ":clear",
      .input "(define f 1) (define g #t) (define f (lambda (x) x)) (y)", .input "(define h"]
    let later : List Entry := [.enter files (.text "(if (f 1) 2 3)"), .load files "missing"]
    let r := (ofTrace {}).after entries
    r.clearsIn later = false ∧ r.Shows ∧ r.session.Narrows (r.after later).session ∧
      r.session.listing = [("f", "number"), ("g", "boolean"), ("f", "(T_5 -> T_5)")] ∧
      (r.after later).session.typeOf? "f" = some "(number -> number)" := by
  intro files entries later r
  have hclear : r.clearsIn later = false := by decide +kernel
  have hlisting : r.session.listing =
      [("f", "number"), ("g", "boolean"), ("f", "(T_5 -> T_5)")] := by
    decide +kernel
  have htype : (r.after later).session.typeOf? "f" = some "(number -> number)" := by
    decide +kernel
  obtain ⟨hshows, hnarrows⟩ := definitions_shown {} entries later
  exact ⟨hclear, hshows, hnarrows hclear, hlisting, htype⟩

end Repl

end TypedL5
