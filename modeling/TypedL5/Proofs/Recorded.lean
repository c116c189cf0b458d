import TypedL5.Proofs.Calls
import TypedL5.Proofs.Faultless

/-!
The trace is a faithful record. With the trace enabled, a check notes each binding that it
makes when it makes it, and each call that has an answer when it has it, and nothing else.
-/
namespace TypedL5

open EStateM (Result)

namespace Step

/-- Whether a step is for a binding. -/
def isBinding (step : Step) : Bool := "bind ".toList.isPrefixOf step.description.toList

/-- The step for the type of an expression, with both as they stand in a store. -/
def typed (s : Store) (e : Exp) (t : Ty) : Step :=
  ⟨e.formName ++ ": " ++ e.text s, some (s.text t)⟩

theorem isBinding_typed (s : Store) (e : Exp) (t : Ty) : (typed s e t).isBinding = false := by
  cases e with
  | const a => cases a <;> simp [isBinding, typed, Exp.formName, List.isPrefixOf]
  | _ => simp [isBinding, typed, Exp.formName, List.isPrefixOf]

end Step

namespace Store

variable {s s' : Store} {bs bs' : List (TyVar × Ty)} {v : TyVar}

/-- The store after one binding and another. -/
def bindAll (s : Store) (bs : List (TyVar × Ty)) : Store :=
  bs.foldl (fun s b => s.bind b.1 b.2) s

/-- The steps for one binding and another, each with the name of the variable and with what it
is bound to as that stands right after the binding. -/
def bindingRecord (s : Store) : List (TyVar × Ty) → List Step
  | [] => []
  | (v, t) :: bs =>
    ⟨"bind " ++ v.name, some ((s.bind v t).text t)⟩ :: (s.bind v t).bindingRecord bs

theorem bindAll_append (s : Store) (bs bs' : List (TyVar × Ty)) :
    s.bindAll (bs ++ bs') = (s.bindAll bs).bindAll bs' :=
  List.foldl_append

/-- Each binding is recorded as it stands in the store of that moment. -/
theorem bindingRecord_append (s : Store) (bs bs' : List (TyVar × Ty)) :
    s.bindingRecord (bs ++ bs') = s.bindingRecord bs ++ (s.bindAll bs).bindingRecord bs' := by
  induction bs generalizing s with
  | nil => rfl
  | cons b bs ih => simp [bindingRecord, bindAll, ih]

theorem isBinding_of_mem_bindingRecord {step : Step} (h : step ∈ s.bindingRecord bs) :
    step.isBinding = true := by
  induction bs generalizing s with
  | nil => cases h
  | cons b bs ih =>
    rcases List.mem_cons.mp h with rfl | h
    · simp [Step.isBinding]
    · exact ih h

/-- The steps that are noted for a store that has grown. -/
theorem Grows.bindingSteps_since (h : s.Grows s') :
    ∃ bs, s' = s.bindAll bs ∧ CheckState.bindingSteps (s'.since s) = s.bindingRecord bs := by
  induction h with
  | refl => exact ⟨[], rfl, by simp [since, latest, CheckState.bindingSteps, bindingRecord]⟩
  | @bind s' v t hg _ _ ih =>
    obtain ⟨bs, hs', hsteps⟩ := ih
    refine ⟨bs ++ [(v, t)], by rw [bindAll_append, ← hs']; rfl, ?_⟩
    have hlen : (s'.bind v t).length - s.length = s'.length - s.length + 1 := by
      have hle : s.length ≤ s'.length := hg.suffix.length_le
      have hsucc : (s'.bind v t).length = s'.length + 1 := rfl
      omega
    have hsince : (s'.bind v t).since s = s'.since s ++ [(v, t, s'.bind v t)] := by
      rw [since, hlen]
      rfl
    rw [hsince, bindingRecord_append, ← hs', ← hsteps]
    simp [CheckState.bindingSteps, bindingRecord]

theorem bindings_bindAll (s : Store) (bs : List (TyVar × Ty)) :
    (s.bindAll bs).bindings = bs.reverse ++ s.bindings := by
  induction bs generalizing s with
  | nil => rfl
  | cons b bs ih => simpa [bindAll, bind] using ih (s.bind b.1 b.2)

/-- The bindings that led from one store to another are known from the two. -/
theorem bindAll_injective (s : Store) : Function.Injective s.bindAll := by
  intro bs bs' h
  have hb := congrArg bindings h
  rw [bindings_bindAll, bindings_bindAll, List.append_left_inj] at hb
  exact List.reverse_injective hb

/-- The variables that have been bound on the way to a store, each once, in order. -/
structure Binds (s s' : Store) (bs : List (TyVar × Ty)) : Prop where
  store : s' = s.bindAll bs
  once : (bs.map Prod.fst).Nodup
  contents : ∀ b ∈ bs, s'.contents? b.1 = some b.2
  exactly : ∀ v, v ∈ bs.map Prod.fst ↔ s.contents? v = none ∧ (s'.contents? v).isSome = true

/-- A store that has grown did so by bindings, in one order. -/
theorem Grows.binds (h : s.Grows s') : ∃ bs, s.Binds s' bs := by
  induction h with
  | refl => exact ⟨[], rfl, by simp, by simp, by simp⟩
  | @bind s' v t hg hv _ ih =>
    obtain ⟨bs, hbs⟩ := ih
    have hnew : v ∉ bs.map Prod.fst := fun hm => by simpa [hv] using (hbs.exactly v).mp hm
    have hold : s.contents? v = none := by
      cases hc : s.contents? v with
      | none => rfl
      | some u => simp [hg.extends v u hc] at hv
    refine ⟨bs ++ [(v, t)], ?_, ?_, ?_, fun w => ?_⟩
    · rw [bindAll_append, ← hbs.store]
      rfl
    · simpa [List.nodup_append] using ⟨hbs.once, fun w u hw =>
        by rintro rfl; exact hnew (List.mem_map.mpr ⟨_, hw, rfl⟩)⟩
    · intro b hb
      rcases List.mem_append.mp hb with hb | hb
      · exact bind_extends hv b.1 b.2 (hbs.contents b hb)
      · obtain rfl := List.mem_singleton.mp hb
        simp [contents?_bind]
    · by_cases hw : w = v
      · simp [hw, hold, contents?_bind]
      · simpa [hw, contents?_bind] using hbs.exactly w

end Store

/-- The step for a call that has an answer, with the type as it stands at that moment. -/
def Call.step? (c : Call) : Option Step :=
  match c.result with
  | .ok t m => some (.typed m.store c.exp t)
  | .error _ _ => none

/-- The bindings made on the way from one state to another, and the steps that have been noted
for them and for calls. -/
structure Traced (st st' : CheckState) (cs : List Call) (bs : List (TyVar × Ty))
    (steps : List Step) : Prop where
  store : st'.store = st.store.bindAll bs
  trace : st'.trace = ⟨true, st.trace.steps ++ steps⟩
  bindings : steps.filter Step.isBinding = st.store.bindingRecord bs
  types : steps.filter (!·.isBinding) = cs.filterMap Call.step?

namespace Traced

variable {st st' m : CheckState} {cs cs' : List Call} {bs bs' : List (TyVar × Ty)}
  {steps steps' : List Step}

theorem refl (h : st.trace.enabled = true) : Traced st st [] [] [] where
  store := rfl
  trace := by
    rw [List.append_nil, ← h]
  bindings := rfl
  types := rfl

theorem enabled (h : Traced st st' cs bs steps) : st'.trace.enabled = true := by rw [h.trace]

/-- What is recorded is never taken back, so that records follow each other. -/
theorem trans (h : Traced st m cs bs steps) (h' : Traced m st' cs' bs' steps') :
    Traced st st' (cs ++ cs') (bs ++ bs') (steps ++ steps') where
  store := by rw [h'.store, h.store, Store.bindAll_append]
  trace := by rw [h'.trace, h.trace, List.append_assoc]
  bindings := by
    rw [List.filter_append, h.bindings, h'.bindings, h.store, Store.bindingRecord_append]
  types := by rw [List.filter_append, h.types, h'.types, List.filterMap_append]

/-- A call that fails is not noted. -/
theorem failed {c : Call} (h : Traced st st' cs bs steps) (hc : c.step? = none) :
    Traced st st' (cs ++ [c]) bs steps where
  store := h.store
  trace := h.trace
  bindings := h.bindings
  types := by simpa [hc] using h.types

/-- A call that returns is recorded once, with its type as it stands then. -/
theorem noteType {c : Call} {t : Ty} (h : st.trace.enabled = true)
    (hc : c.step? = some (.typed st.store c.exp t)) :
    Traced st (st.noteType c.exp t) [c] [] [.typed st.store c.exp t] where
  store := CheckState.noteType_store st c.exp t
  trace := by
    rw [CheckState.noteType, if_pos h]
    simp [Trace.add, h, Step.typed]
  bindings := by simp [Step.isBinding_typed, Store.bindingRecord]
  types := by simp [Step.isBinding_typed, hc]

/-- Bindings that are recorded at once are recorded in the order they were made. -/
theorem withStore {s : Store} (h : st.trace.enabled = true) (hs : st.store.Grows s) :
    ∃ bs, Traced st (st.withStore s) [] bs (st.store.bindingRecord bs) := by
  obtain ⟨bs, hbs, hsteps⟩ := hs.bindingSteps_since
  have hall : ∀ step ∈ st.store.bindingRecord bs, step.isBinding = true :=
    fun _ => Store.isBinding_of_mem_bindingRecord
  refine ⟨bs, hbs, ?_, ?_, ?_⟩
  · simp [CheckState.withStore, Trace.add, h, hsteps]
  · exact List.filter_eq_self.mpr hall
  · simpa using hall

end Traced

/-- Whatever a computation does is in the trace, whether it succeeds or fails. -/
def Tracing {α : Type} (cs : Calls) (x : CheckM α) : Prop :=
  ∀ st, st.store.Acyclic → st.trace.enabled = true →
    st.store.Grows (endState (x st)).store ∧
      ∃ bs steps, Traced st (endState (x st)) (cs st) bs steps

namespace Tracing

variable {α β : Type} {cs : Calls} {x : CheckM α} {f : α → CheckM β}

theorem idle
    (h : ∀ st, (endState (x st)).store = st.store ∧ (endState (x st)).trace = st.trace) :
    Tracing .nothing x := by
  intro st _ hon
  obtain ⟨hstore, htrace⟩ := h st
  have hrefl := Traced.refl hon
  refine ⟨by rw [hstore]; exact .refl, [], [], hstore,
    by rw [htrace]; exact hrefl.trace, rfl, rfl⟩

theorem unify (t u : Ty) (e : Exp) : Tracing .nothing (CheckM.unify t u e) := by
  intro st hs hon
  have hgrows := CheckStep.growth.unify t u e st hs
  refine ⟨hgrows, ?_⟩
  have hend : endState (CheckM.unify t u e st) =
      st.withStore (endState (CheckM.unify t u e st)).store := by
    unfold CheckM.unify
    split <;> rfl
  obtain ⟨bs, hbs⟩ := Traced.withStore hon hgrows
  rw [← hend] at hbs
  exact ⟨bs, _, hbs⟩

theorem bind {next : α → Calls} (hx : Tracing cs x) (hf : ∀ a, Tracing (next a) (f a)) :
    Tracing (cs.andThen x next) (x >>= f) := by
  intro st hs hon
  obtain ⟨hgrows, bs, steps, htraced⟩ := hx st hs hon
  rw [bind_apply, Calls.andThen]
  cases h : x st with
  | error c m =>
    rw [h] at hgrows htraced
    rw [List.append_nil]
    exact ⟨hgrows, bs, steps, htraced⟩
  | ok a m =>
    rw [h] at hgrows htraced
    obtain ⟨hgrows', bs', steps', htraced'⟩ := hf a m (hgrows.acyclic hs) htraced.enabled
    exact ⟨hgrows.trans hgrows', bs ++ bs', steps ++ steps', htraced.trans htraced'⟩

/-- The record of a call comes after those of the calls within it. -/
theorem closing {env : Env} {e : Exp} (d? : Option Decl) (h : Tracing cs (e.rule env)) :
    Tracing (cs.closing d? env e) (e.typeOf env) := by
  intro st hs hon
  obtain ⟨hgrows, bs, steps, htraced⟩ := h st hs hon
  cases hr : e.rule env st with
  | error c m =>
    have hself := Exp.typeOf_of_rule_error hr
    rw [hr] at hgrows htraced
    rw [hself]
    exact ⟨hgrows, bs, steps, htraced.failed (by simp [Call.step?, Call.result, hself])⟩
  | ok t m =>
    have hself := Exp.typeOf_of_rule_ok hr
    rw [hr] at hgrows htraced
    rw [hself]
    have hnote : Traced m (m.noteType e t) [⟨d?, env, e, st⟩] [] [.typed m.store e t] :=
      Traced.noteType (c := ⟨d?, env, e, st⟩) htraced.enabled
        (by simp [Call.step?, Call.result, hself])
    exact ⟨by simpa [endState] using hgrows, _, _, htraced.trans hnote⟩

end Tracing

def CallLaw.tracing : CallLaw where
  Holds x cs _ := Tracing cs x
  pure _ := .idle fun _ => ⟨rfl, rfl⟩
  throw _ _ := .idle fun _ => ⟨rfl, rfl⟩
  get := .idle fun _ => ⟨rfl, rfl⟩
  primitive op := by
    refine .idle fun st => ?_
    cases h : Primitive.signature? op with
    | none =>
      rw [Primitive.typeOf, h]
      exact ⟨rfl, rfl⟩
    | some σ =>
      rw [Primitive.typeOf_apply h]
      exact ⟨rfl, rfl⟩
  unify := .unify
  bind := .bind
  note h := h.closing none
  value d whole h := by
    have hunify := (h.closing (some d)).bind fun t => Tracing.unify d.ty t whole
    rwa [Calls.andThen_nothing] at hunify

/-- An answer is noted last. -/
theorem Traced.getLast? {env : Env} {e : Exp} {st m : CheckState}
    {t : Ty} {bs : List (TyVar × Ty)} {steps : List Step} (h : e.typeOf env st = .ok t m)
    (htraced : Traced st m (e.calls none env st) bs steps) :
    steps.getLast? = some (.typed m.store e t) := by
  have hstep : Call.step? ⟨none, env, e, st⟩ = some (.typed m.store e t) := by
    simp [Call.step?, Call.result, h]
  have hmem : Step.typed m.store e t ∈ steps := by
    have hnoted := List.mem_filterMap.mpr ⟨_, Exp.self_mem_calls none env e st, hstep⟩
    rw [← htraced.types] at hnoted
    exact List.mem_of_mem_filter hnoted
  -- The trace in the end is that of the rule and one step more.
  have hlast : m.trace.steps.getLast? = some (.typed m.store e t) := by
    cases hr : e.rule env st with
    | error c m' => cases h.symm.trans (Exp.typeOf_of_rule_error hr)
    | ok t' m' =>
      cases h.symm.trans (Exp.typeOf_of_rule_ok hr)
      have hon : m'.trace.enabled = true := by
        have hon := htraced.enabled
        unfold CheckState.noteType at hon
        split at hon
        · assumption
        · exact hon
      simp [CheckState.noteType, hon, Trace.add, Step.typed]
  rw [htraced.trace] at hlast
  rwa [List.getLast?_append_of_ne_nil _ (List.ne_nil_of_mem hmem)] at hlast

/-- With tracing on, the record of a check is that of its calls and its bindings, in order. -/
theorem exists_traced (env : Env) (e : Exp) {st : CheckState} (hs : st.store.Acyclic)
    (hon : st.trace.enabled = true) :
    ∃ bs steps, Traced st (endState (e.typeOf env st)) (e.calls none env st) bs steps ∧
      st.store.Binds (endState (e.typeOf env st)).store bs := by
  obtain ⟨hgrows, bs, steps, htraced⟩ := CallLaw.tracing.typeOf env e st hs hon
  obtain ⟨bs', hbinds⟩ := hgrows.binds
  obtain rfl : bs = bs' :=
    Store.bindAll_injective st.store (htraced.store.symm.trans hbinds.store)
  exact ⟨bs, steps, htraced, hbinds⟩

/-- A guarded check adds the same steps. It notes each binding at the moment when it makes it,
and so the types in these steps are those of that moment. -/
theorem Guarded.exists_traced (env : Env) (e : Exp) {st : CheckState} (hs : st.store.Acyclic)
    (hon : st.trace.enabled = true) :
    let m := endState (Guarded.typeOf (Guarded.frames env) e st)
    ∃ bs steps, Traced st m (e.calls none env st) bs steps ∧ st.store.Binds m.store bs := by
  have hagree := (Guarded.Agrees.rules.exp env e st hs).1
  have hend : endState (Guarded.typeOf (Guarded.frames env) e st) =
      endState (e.typeOf env st) := by
    rw [hagree]
    cases e.typeOf env st <;> rfl
  rw [hend]
  exact TypedL5.exists_traced env e hs hon

/-- With the trace enabled, the steps that a check adds are those of the variables that it has
bound, in order and each with its type at that moment, and those of the calls that have an
answer, in the order in which they end. That is the order of the parts of the expression, up to
where a failure ends the check. The last step after a success is that of the whole. -/
theorem trace_faithful (env : Env) (e : Exp) {st : CheckState} (hs : st.store.Acyclic)
    (hon : st.trace.enabled = true) :
    ∃ bs steps, Traced st (endState (e.typeOf env st)) (e.calls none env st) bs steps ∧
      st.store.Binds (endState (e.typeOf env st)).store bs ∧
      ((e.calls none env st).filter Call.returned).map Call.visit <+: e.visited none ∧
      ∀ t m, e.typeOf env st = .ok t m →
        (∀ c ∈ e.calls none env st, c.returned = true) ∧ (e.calls none env st).map Call.visit =
          e.visited none ∧ steps.getLast? = some (.typed m.store e t) := by
  obtain ⟨bs, steps, htraced, hbinds⟩ := exists_traced env e hs hon
  have hvisits := CallLaw.visits.typeOf env e st
  refine ⟨bs, steps, htraced, hbinds, hvisits.isPrefix, fun t m h => ?_⟩
  rw [h] at hvisits htraced
  exact ⟨hvisits.1, hvisits.2, htraced.getLast? h⟩

/-- A procedure that is bound recursively is called, and then the check fails. Two variables
are bound on the way, and neither the procedure nor what fails is noted. -/
theorem trace_faithful_failing :
    let v : TyVar := ⟨1, "T_2"⟩
    let w : TyVar := ⟨2, "T_3"⟩
    let e : Exp :=
      .letrec [(⟨"f", .var ⟨0, "T_1"⟩⟩, .lambda [⟨"x", .var v⟩] (.var w) [.var "x"])]
      [.app (.var "f") [.const (.bool true)], .app (.prim "not") [.const (.str "no")]]
    let st : CheckState := { trace := ⟨true, []⟩ }
    let bs : List (TyVar × Ty) := [(v, .var w), (w, .boolean)]
    let steps : List Step :=
      [⟨"VarRef: x", some "T_2"⟩, ⟨"bind T_2", some "T_3"⟩, ⟨"VarRef: f", some "(T_3 -> T_3)"⟩,
        ⟨"BoolExp: #t", some "boolean"⟩, ⟨"bind T_3", some "boolean"⟩,
          ⟨"AppExp: (f #t)", some "boolean"⟩,
        ⟨"PrimOp: not", some "(boolean -> boolean)"⟩, ⟨"StrExp: \"no\"", some "string"⟩]
    Traced st (endState (e.typeOf {} st)) (e.calls none {} st) bs steps ∧
      st.store.Binds (endState (e.typeOf {} st)).store bs := by
  intro v w e st bs steps
  have hs : st.store.Acyclic := Store.acyclic_empty
  obtain ⟨bs', steps', htraced, hbinds, _⟩ := trace_faithful {} e hs rfl
  have hstore : (endState (e.typeOf {} st)).store = st.store.bindAll bs := by decide +kernel
  have htrace : (endState (e.typeOf {} st)).trace = ⟨true, steps⟩ := by decide +kernel
  obtain rfl : bs' = bs := Store.bindAll_injective st.store (htraced.store.symm.trans hstore)
  obtain rfl : steps' = steps := (Trace.mk.inj (htraced.trace.symm.trans htrace)).2
  exact ⟨htraced, hbinds⟩

end TypedL5
