import TypedL5.Proofs.Lockstep

/-!
What a check does not look at. Of an environment it sees the types of free names only, and it
never looks at the trace.
-/
namespace TypedL5

open EStateM (Result)

namespace CheckState

/-- The state with an empty trace. -/
def untraced (st : CheckState) : CheckState := { st with trace := {} }

variable {st st' : CheckState}

theorem untraced_eq_iff :
    st.untraced = st'.untraced ↔ st.supply = st'.supply ∧ st.store = st'.store := by
  simp [untraced]

theorem untraced_noteType (st : CheckState) (e : Exp) (t : Ty) :
    (st.noteType e t).untraced = st.untraced := by
  unfold noteType
  split <;> rfl

theorem untraced_withStore (st : CheckState) (s : Store) :
    (st.withStore s).untraced = { st.untraced with store := s } := rfl

end CheckState

/-- The end of a computation, with its state and its failure seen through functions. -/
def seenThrough {α : Type} (state : CheckState → CheckState) (cause : Cause → Cause) :
    Result Cause CheckState α → Result Cause CheckState α
  | .ok a m => .ok a (state m)
  | .error c m => .error (cause c) (state m)

/-- What is seen of states and failures. States that look the same are the same to a check. -/
structure View where
  state : CheckState → CheckState
  cause : Cause → Cause
  /-- The same names are offered for one that is not there, as far as that is seen. -/
  Offer : Env → Env → Prop
  supply_eq {st st' : CheckState} : state st = state st' → st.supply = st'.supply
  store_eq {st st' : CheckState} : state st = state st' → st.store = st'.store
  noteType {st st' : CheckState} (e : Exp) (t : Ty) :
    state st = state st' → state (st.noteType e t) = state (st'.noteType e t)
  withStore {st st' : CheckState} (s : Store) :
    state st = state st' → state (st.withStore s) = state (st'.withStore s)
  withSupply {st st' : CheckState} (g : Supply) :
    state st = state st' → state { st with supply := g } = state { st' with supply := g }
  offer_extend {env env' : Env} {ds ds' : List Decl} :
    Offer env env' → ds.map Decl.name = ds'.map Decl.name →
      Offer (env.extend ds) (env'.extend ds')
  unbound {env env' : Env} (x : String) : Offer env env' →
    cause (.unbound x (Name.similar x env.names)) =
      cause (.unbound x (Name.similar x env'.names))

namespace View

variable {V : View} {st st' : CheckState} {env env' : Env} {e : Exp} {α β : Type}

/-- The part of an end that is seen. -/
def result (V : View) : Result Cause CheckState α → Result Cause CheckState α :=
  seenThrough V.state V.cause

/-- Two ends look the same, but for answers, of which `Q` holds. -/
def Agrees (V : View) (r r' : Result Cause CheckState α)
    (Q : α → α → CheckState → CheckState → Prop) : Prop :=
  match r, r' with
  | .ok a m, .ok a' m' => V.state m = V.state m' ∧ Q a a' m m'
  | .error c m, .error c' m' => V.state m = V.state m' ∧ V.cause c = V.cause c'
  | _, _ => False

namespace Agrees

variable {Q : α → α → CheckState → CheckState → Prop}
  {P : β → β → CheckState → CheckState → Prop}

theorem result_eq {r r' : Result Cause CheckState α}
    (h : V.Agrees r r' fun a a' _ _ => a = a') :
    V.result r = V.result r' := by
  unfold Agrees at h
  split at h
  · obtain ⟨hm, rfl⟩ := h
    rw [result, seenThrough, seenThrough, hm]
  · obtain ⟨hm, hc⟩ := h
    rw [result, seenThrough, seenThrough, hm, hc]
  · exact h.elim

theorem endAlike_iff {r r' : Result Cause CheckState α} : V.Agrees r r' Q ↔
    EndAlike (fun a a' m m' => V.state m = V.state m' ∧ Q a a' m m')
      (fun c c' m m' => V.state m = V.state m' ∧ V.cause c = V.cause c') r r' := by
  cases r <;> cases r' <;> exact Iff.rfl

theorem throw (c : Cause) (h : V.state st = V.state st') :
    V.Agrees ((throw c : CheckM α) st) ((MonadExcept.throw c : CheckM α) st') Q :=
  ⟨h, rfl⟩

theorem bind {x x' : CheckM α} {k k' : α → CheckM β} (hx : V.Agrees (x st) (x' st') Q)
    (hk : ∀ a a' m m', V.state m = V.state m' → Q a a' m m' → V.Agrees (k a m) (k' a' m') P) :
    V.Agrees ((x >>= k) st) ((x' >>= k') st') P := by
  refine endAlike_iff.mpr ((endAlike_iff.mp hx).bind ?_)
  rintro a a' m m' ⟨hm, hQ⟩
  exact endAlike_iff.mp (hk a a' m m' hm hQ)

theorem unify (t u : Ty) (e : Exp) (h : V.state st = V.state st') :
    V.Agrees (CheckM.unify t u e st) (CheckM.unify t u e st') fun _ _ _ _ => True := by
  unfold CheckM.unify
  rw [← V.store_eq h]
  cases Store.unify t u st.store with
  | ok _ s => exact ⟨V.withStore s h, trivial⟩
  | error c s => exact ⟨V.withStore s h, rfl⟩

theorem primitive (op : String) (h : V.state st = V.state st') :
    V.Agrees (Primitive.typeOf op st) (Primitive.typeOf op st') fun t t' _ _ => t = t' := by
  cases hσ : Primitive.signature? op with
  | none =>
    rw [Primitive.typeOf, hσ]
    exact throw _ h
  | some σ =>
    rw [Primitive.typeOf_apply hσ, Primitive.typeOf_apply hσ, ← V.supply_eq h]
    exact ⟨V.withSupply _ h, rfl⟩

end Agrees

/-- Checks of one expression that look the same from beginning to end. -/
def lockstep (V : View) : Lockstep where
  onTy := id
  Sees := V.Offer
  Linked st st' := V.state st = V.state st'
  Alike _ _ t t' := t = t'
  Follows _ _ m m' := V.state m = V.state m'
  Runs _ _ := V.Agrees
  sees_extend := V.offer_extend
  follows_trans _ h := h
  linked_of_follows h := h
  alike_of_follows _ h := h
  alike_closed _ _ := rfl
  alike_proc hps hr := by
    rw [List.forall₂_eq_eq_eq] at hps
    rw [hps, hr]
  pure h hQ := ⟨h, hQ⟩
  throw c h := by
    have hc : c.mapTy id = c := by cases c <;> simp [Cause.mapTy, Exp.mapTy_id]
    rw [hc]
    exact .throw c h
  bind := .bind
  unbound x h ho := ⟨h, V.unbound x ho⟩
  primitive := .primitive
  derived e h ht := by
    subst ht
    rw [Exp.mapTy_id]
    exact ⟨V.noteType e _ h, rfl⟩
  unify e h ht hu := by
    subst ht hu
    rw [Exp.mapTy_id]
    exact .unify _ _ e h
  headed h ht hd := by
    subst ht
    rw [← V.store_eq h]
    exact ⟨_, _, hd, List.forall₂_same.mpr fun _ _ => rfl, rfl⟩
  stuck h ht hn := by
    subst ht
    rw [← V.store_eq h, Exp.mapTy_id, Exp.mapTyAll_id, Exp.applied_of_not_proc hn,
      Exp.applied_of_not_proc hn]
    exact .throw _ h

/-- Two checks start alike if their free names have the same types. -/
theorem paired (h : V.state st = V.state st') (ho : V.Offer env env')
    (hx : ∀ x ∈ e.free, env.lookup? x = env'.lookup? x) : V.lockstep.Paired env env' e.used
      e.free st st' where
  linked := h
  sees := ho
  tys _ _ := rfl
  names x hfree := by
    rw [hx x hfree]
    cases env'.lookup? x with
    | none => exact .none
    | some t => exact .some rfl

/-- A check depends on its environment only through its free names, as far as is seen. -/
theorem typeOf_eq (V : View) (h : V.state st = V.state st') (ho : V.Offer env env')
    (hx : ∀ x ∈ e.free, env.lookup? x = env'.lookup? x) :
    V.result (e.typeOf env st) = V.result (e.typeOf env' st') := by
  have hrun := V.lockstep.typeOf (paired h ho hx)
  rw [show e.mapTy V.lockstep.onTy = e from e.mapTy_id] at hrun
  exact Agrees.result_eq hrun

theorem typeOfProgram_eq (V : View) (h : V.state st = V.state st') (ho : V.Offer env env')
    (hx : ∀ x ∈ e.free, env.lookup? x = env'.lookup? x) :
    V.result (e.typeOfProgram env st) = V.result (e.typeOfProgram env' st') := by
  have hrun := V.lockstep.typeOfProgram (paired h ho hx)
  rw [show e.mapTy V.lockstep.onTy = e from e.mapTy_id] at hrun
  exact Agrees.result_eq hrun

end View

/-- The failure without the names that it offers for one that is not there. -/
def Cause.bare : Cause → Cause
  | .unbound x _ => .unbound x []
  | c => c

/-- All is seen but the names that are offered. -/
def View.bare : View where
  state := id
  cause := Cause.bare
  Offer _ _ := True
  supply_eq h := congrArg CheckState.supply h
  store_eq h := congrArg CheckState.store h
  noteType e t h := congrArg (CheckState.noteType · e t) h
  withStore s h := congrArg (CheckState.withStore · s) h
  withSupply g h := congrArg (fun st : CheckState => { st with supply := g }) h
  offer_extend _ _ := trivial
  unbound _ _ := rfl

/-- All is seen but the trace. -/
def View.untraced : View where
  state := CheckState.untraced
  cause := id
  Offer env env' := env.frames.flatten.map Decl.name = env'.frames.flatten.map Decl.name
  supply_eq h := (CheckState.untraced_eq_iff.mp h).1
  store_eq h := (CheckState.untraced_eq_iff.mp h).2
  noteType e t h := by rw [CheckState.untraced_noteType, CheckState.untraced_noteType, h]
  withStore s h := by rw [CheckState.untraced_withStore, CheckState.untraced_withStore, h]
  withSupply g h := CheckState.untraced_eq_iff.mpr ⟨rfl, (CheckState.untraced_eq_iff.mp h).2⟩
  offer_extend h hds := by simp [Env.extend, h, hds]
  unbound x h := by rw [Env.names, Env.names, h]

namespace Env

variable {env : Env} {xs : List String} {x : String}

/-- One frame that gives names the types they have in an environment, each name once. -/
def narrowed (env : Env) (xs : List String) : Env :=
  ⟨[xs.eraseDups.filterMap fun x => (env.lookup? x).map (Decl.mk x)]⟩

/-- An environment cut down to some names still has their types. -/
theorem find?_narrowed (env : Env) (hx : x ∈ xs) :
    ((xs.filterMap fun x => (env.lookup? x).map (Decl.mk x)).find? (·.name == x)).map Decl.ty =
      env.lookup? x := by
  induction xs with
  | nil => cases hx
  | cons y xs ih =>
    rw [List.filterMap_cons]
    by_cases hy : y = x
    · subst hy
      cases ht : env.lookup? y with
      | some t => simp
      | none =>
        have hno : ∀ d ∈ xs.filterMap fun x => (env.lookup? x).map (Decl.mk x),
            ¬ (d.name == y) = true := by
          intro d hd he
          obtain ⟨z, _, hz⟩ := List.mem_filterMap.mp hd
          obtain ⟨t, ht', rfl⟩ := Option.map_eq_some_iff.mp hz
          obtain rfl : z = y := beq_iff_eq.mp he
          rw [ht] at ht'
          cases ht'
        simp [List.find?_eq_none.mpr hno]
    · have hx : x ∈ xs := (List.mem_cons.mp hx).resolve_left (Ne.symm hy)
      cases env.lookup? y with
      | some t => simpa [hy] using ih hx
      | none => exact ih hx

theorem lookup?_narrowed (hx : x ∈ xs) : (env.narrowed xs).lookup? x = env.lookup? x := by
  have hfind := find?_narrowed env (List.mem_eraseDups.mpr hx)
  simpa [narrowed, lookup?] using hfind

end Env

/-- A check depends on the types of the free names and on nothing else of the environment, but
for the names that it offers in the place of one that is not there. So it is enough that one
frame declares each of them once. -/
theorem typeOf_depends_on_free {e : Exp} {env env' : Env}
    (h : ∀ x ∈ e.free, env.lookup? x = env'.lookup? x) (st : CheckState) :
    seenThrough id Cause.bare (e.typeOf env st) =
      seenThrough id Cause.bare (e.typeOf env' st) ∧
      seenThrough id Cause.bare (e.typeOf env st) =
        seenThrough id Cause.bare (e.typeOf (env.narrowed e.free) st) :=
  ⟨View.bare.typeOf_eq rfl trivial h, View.bare.typeOf_eq rfl trivial fun _ hx =>
    (Env.lookup?_narrowed hx).symm⟩

/-- An outer declaration, a later one in the same frame and one of another name do not
count. -/
theorem typeOf_depends_on_free_shadowed :
    let e : Exp := .ite (.var "b") (.var "x") (.var "z")
    let env : Env :=
      ⟨[[⟨"x", .number⟩, ⟨"x", .string⟩], [⟨"x", .boolean⟩, ⟨"b", .boolean⟩, ⟨"zz", .string⟩]]⟩
    let env' : Env := ⟨[[⟨"b", .boolean⟩], [⟨"x", .number⟩]]⟩
    seenThrough id Cause.bare (e.typeOf env {}) =
      seenThrough id Cause.bare (e.typeOf env' {}) := by
  intro e env env'
  have hfree : ∀ x ∈ e.free, env.lookup? x = env'.lookup? x := by
    intro x hx
    have hx : x = "b" ∨ x = "x" ∨ x = "z" := by simpa [e] using hx
    rcases hx with rfl | rfl | rfl <;> decide
  exact (typeOf_depends_on_free hfree {}).1

end TypedL5
