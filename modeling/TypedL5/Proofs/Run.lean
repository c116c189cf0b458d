import TypedL5.Proofs.SessionStep

/-!
Runs of any length. Whether what is done succeeds or fails midway, bindings are made once and
stay, and no cycle arises.
-/
namespace TypedL5

/-- What can be done in a run. Environments and expressions may come from anywhere. -/
inductive Act where
  /-- Takes variables from another supply from now on. -/
  | renew (supply : Supply)
  | readExp (source : String)
  | readForm (source : String)
  | readProgram (source : String)
  | read (source : String)
  | typeOf (env : Env) (e : Exp)
  | typeOfProgram (env : Env) (e : Exp)
  | checkForm (env : Env) (form : Exp)
  | add (form : Exp)
  | enter (files : Files) (line : Line)

namespace Session

def withState (s : Session) (state : CheckState) : Session :=
  { s with state := state }

end Session

namespace Act

/-- What is left after an act, be its answer what it may. -/
def perform (r : Repl) : Act → Repl
  | renew supply => r.withSession (r.session.withSupply supply)
  | readExp source =>
    r.withSession (r.session.withSupply (endState (Exp.read source r.session.state.supply)))
  | readForm source =>
    r.withSession
      (r.session.withSupply (endState (Exp.readForm source r.session.state.supply)))
  | readProgram source =>
    r.withSession
      (r.session.withSupply (endState (Exp.readProgram source r.session.state.supply)))
  | read source => r.withSession (endState (Session.read source r.session))
  | typeOf env e =>
    r.withSession (r.session.withState (endState (e.typeOf env r.session.state)))
  | typeOfProgram env e =>
    r.withSession (r.session.withState (endState (e.typeOfProgram env r.session.state)))
  | checkForm env form =>
    r.withSession (r.session.withState (endState (form.checkForm env r.session.state)))
  | add form => r.withSession (endState (Session.add form r.session))
  | enter files line => endState (Repl.take files line r)

/-- Whether an act makes the session start anew. -/
def clears (r : Repl) : Act → Bool
  | enter _ line => line.clears r
  | _ => false

theorem store_of_clears {a : Act} {r : Repl} (h : a.clears r = true) :
    (a.perform r).session.state.store = {} := by
  cases a with
  | enter files line =>
    rw [perform, Repl.take_clears h]
    rfl
  | _ => cases h

/-- Whatever else is done, the store of the session only grows. -/
theorem store_grows {a : Act} {r : Repl} (h : a.clears r = false)
    (hs : r.session.state.store.Acyclic) :
    r.session.state.store.Grows (a.perform r).session.state.store := by
  cases a with
  | renew supply => exact .refl
  | readExp source => exact .refl
  | readForm source => exact .refl
  | readProgram source => exact .refl
  | read source =>
    rw [perform, Repl.withSession_session, Session.read_store]
    exact .refl
  | typeOf env e => exact CheckStep.growth.rules.exp env e r.session.state hs
  | typeOfProgram env e => exact CheckStep.growth.typeOfProgram env e r.session.state hs
  | checkForm env form => exact CheckStep.growth.checkForm env form r.session.state hs
  | add form => exact Session.add_grows form r.session hs
  | enter files line => exact SessionStep.growth.take files h hs

end Act

structure Run where
  repl : Repl
  /-- The stores of the sessions that were cleared away, in order. -/
  past : List Store := []

namespace Run

variable {run : Run} {k : Nat} {s : Store}

/-- A run about to begin. -/
def ofTrace (trace : Trace) : Run := { repl := .ofTrace trace }

/-- The store of the session that goes on. -/
def store (run : Run) : Store := run.repl.session.state.store

/-- The stores of all sessions of the run, in order. -/
def stores (run : Run) : List Store := run.past ++ [run.store]

def step (run : Run) (a : Act) : Run :=
  ⟨a.perform run.repl, if a.clears run.repl then run.stores else run.past⟩

def after (run : Run) (acts : List Act) : Run := acts.foldl step run

theorem after_append (run : Run) (acts later : List Act) :
    run.after (acts ++ later) = (run.after acts).after later :=
  List.foldl_append

/-- Each store has come from an empty one by binding after binding. -/
def Grown (run : Run) : Prop := ∀ s ∈ run.stores, Store.Grows {} s

theorem grown_ofTrace (trace : Trace) : (ofTrace trace).Grown := by
  intro s hs
  obtain rfl : s = {} := List.mem_singleton.mp hs
  exact .refl

theorem Grown.acyclic (h : run.Grown) (hs : s ∈ run.stores) : s.Acyclic :=
  (h s hs).acyclic Store.acyclic_empty

theorem stores_of_clears {a : Act} (h : a.clears run.repl = true) :
    (run.step a).stores = run.stores ++ [({} : Store)] := by
  rw [step, if_pos h, stores, store, Act.store_of_clears h]

theorem stores_of_grows {a : Act} (h : a.clears run.repl = false) (hr : run.Grown) :
    ∃ s, run.store.Grows s ∧ (run.step a).stores = run.past ++ [s] := by
  refine ⟨_, Act.store_grows h (hr.acyclic (by simp [stores, store])), ?_⟩
  rw [step, if_neg (by simp [h]), stores, store]

theorem Grown.step (h : run.Grown) (a : Act) : (run.step a).Grown := by
  intro s hs
  cases hc : a.clears run.repl with
  | true =>
    rw [stores_of_clears hc] at hs
    rcases List.mem_append.mp hs with hs | hs
    · exact h s hs
    · obtain rfl := List.mem_singleton.mp hs
      exact .refl
  | false =>
    obtain ⟨s', hg, he⟩ := stores_of_grows hc h
    rw [he] at hs
    rcases List.mem_append.mp hs with hs | hs
    · exact h s (List.mem_append_left _ hs)
    · obtain rfl := List.mem_singleton.mp hs
      exact (h _ (by simp [stores])).trans hg

/-- However many acts there are, each store has come from an empty one. -/
theorem Grown.after (h : run.Grown) (acts : List Act) : (run.after acts).Grown := by
  induction acts generalizing run with
  | nil => exact h
  | cons a acts ih => exact ih (h.step a)

/-- No store that has been set aside is changed, and the current one only grows. -/
theorem grows_step (h : run.Grown) (a : Act) (hs : run.stores[k]? = some s) :
    ∃ s', (run.step a).stores[k]? = some s' ∧ s.Grows s' := by
  cases hc : a.clears run.repl with
  | true =>
    refine ⟨s, ?_, .refl⟩
    rw [stores_of_clears hc, List.getElem?_append_left (List.getElem?_eq_some_iff.mp hs).1, hs]
  | false =>
    obtain ⟨s', hg, he⟩ := stores_of_grows hc h
    rw [he]
    rw [stores, List.getElem?_append] at hs
    rw [List.getElem?_append]
    split at hs
    · rename_i hk
      rw [if_pos hk]
      exact ⟨s, hs, .refl⟩
    · rename_i hk
      rw [if_neg hk]
      rw [List.getElem?_singleton] at hs ⊢
      split at hs
      · rename_i hz
        cases hs
        exact ⟨s', if_pos hz, hg⟩
      · cases hs

/-- However far a run goes, each store has grown from what it was. -/
theorem grows_after (h : run.Grown) (acts : List Act) (hs : run.stores[k]? = some s) :
    ∃ s', (run.after acts).stores[k]? = some s' ∧ s.Grows s' := by
  induction acts generalizing run s with
  | nil => exact ⟨s, hs, .refl⟩
  | cons a acts ih =>
    obtain ⟨m, hm, hg⟩ := grows_step h a hs
    obtain ⟨s', hs', hg'⟩ := ih (h.step a) hm
    exact ⟨s', hs', hg.trans hg'⟩

/-- The store of each session is followed from any moment of a run to any later one. The
moments in between, also those within a check, are the stores `m` and `m'` of its history. -/
theorem bindings_stay (trace : Trace) (acts later : List Act) {k : Nat} {s : Store}
    (h : ((ofTrace trace).after acts).stores[k]? = some s) :
    ∃ s', ((ofTrace trace).after (acts ++ later)).stores[k]? = some s' ∧
      s.bindings <:+ s'.bindings ∧ s'.SingleAssignment ∧
      ∀ m m' : Store, m.bindings <:+ m'.bindings → m'.bindings <:+ s'.bindings →
        m'.Acyclic ∧ m.ExtendedBy m' ∧
          ∀ t, m'.resolve t = (m.resolve t).subst fun v => m'.resolve (.var v) := by
  have hr := (grown_ofTrace trace).after acts
  obtain ⟨s', hs', hg⟩ := grows_after hr later h
  rw [← after_append] at hs'
  have hg' := (grown_ofTrace trace).after (acts ++ later) s' (List.mem_of_getElem? hs')
  have hone : s'.SingleAssignment := hg'.singleAssignment Store.singleAssignment_empty
  refine ⟨s', hs', hg.suffix, hone, fun m m' hm hm' => ?_⟩
  have hext := (hone.of_suffix hm').extends hm
  have hm'a := (hone.extends hm').acyclic (hg'.acyclic Store.acyclic_empty)
  exact ⟨hm'a, hext, hext.resolve_eq hm'a⟩

/-- The binding that a failed check has left is there when the session has been cleared
away. -/
theorem bindings_stay_failed :
    let e : Exp := .app (.prim "cons")
      [.const (.bool true), .app (.prim "not") [.const (.str "no")]]
    let acts : List Act := [.typeOf {} e]
    let later : List Act :=
      [.enter { read := fun _ => .error "" } (.text ":clear"), .typeOf {} e]
    let s : Store := ⟨[(⟨0, "T_1"⟩, .boolean)]⟩
    ((ofTrace {}).after acts).stores[0]? = some s ∧
    ∃ s', ((ofTrace {}).after (acts ++ later)).stores[0]? = some s' ∧
      s.bindings <:+ s'.bindings ∧ s'.SingleAssignment ∧
      ∀ m m' : Store, m.bindings <:+ m'.bindings → m'.bindings <:+ s'.bindings →
        m'.Acyclic ∧ m.ExtendedBy m' ∧
          ∀ t, m'.resolve t = (m.resolve t).subst fun v => m'.resolve (.var v) := by
  intro e acts later s
  have h : ((ofTrace {}).after acts).stores[0]? = some s := by
    subst e acts s
    rfl
  exact ⟨h, bindings_stay {} acts later h⟩

end Run

end TypedL5
