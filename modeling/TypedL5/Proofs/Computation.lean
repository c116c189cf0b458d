/-! Computations with a state that outlives failure: how they end, and what every one of their
steps keeps. -/
namespace TypedL5

variable {ε σ α β : Type} {x : EStateM ε σ α} {f : α → EStateM ε σ β} {s s' : σ}
  {b : β} {e : ε}

theorem bind_apply (x : EStateM ε σ α) (f : α → EStateM ε σ β) (s : σ) :
    (x >>= f) s = match x s with
      | .ok a s' => f a s'
      | .error e s' => .error e s' := by
  exact EStateM.run_bind x f

theorem bind_eq_ok_iff :
    (x >>= f) s = .ok b s' ↔ ∃ a t, x s = .ok a t ∧ f a t = .ok b s' := by
  rw [bind_apply]
  cases x s with
  | ok a t =>
    constructor
    · intro h
      exact ⟨a, t, rfl, h⟩
    · rintro ⟨_, _, ⟨⟩, h⟩
      exact h
  | error e t => simp

theorem throw_bind (e : ε) (f : α → EStateM ε σ β) :
    ((throw e : EStateM ε σ α) >>= f) = throw e := rfl

/-- Whether a computation has ended with an answer that passes a test. -/
def okWith (P : α → σ → Bool) : EStateM.Result ε σ α → Bool
  | .ok a s => P a s
  | .error _ _ => false

/-- Whether a computation has failed in a way that passes a test. -/
def failsWith (P : ε → σ → Bool) : EStateM.Result ε σ α → Bool
  | .ok _ _ => false
  | .error e s => P e s

/-- Running the computation is enough to see that it succeeds with a result that passes a test.
-/
theorem exists_ok {r : EStateM.Result ε σ α} {P : α → σ → Bool} (h : okWith P r = true) :
    ∃ a s, r = .ok a s ∧ P a s = true := by
  cases r with
  | ok a s => exact ⟨a, s, rfl, h⟩
  | error e s => cases h

/-- Running the computation is enough to see that it fails with an error that passes a test. -/
theorem exists_error {r : EStateM.Result ε σ α} {P : ε → σ → Bool} (h : failsWith P r = true) :
    ∃ e s, r = .error e s ∧ P e s = true := by
  cases r with
  | ok a s => cases h
  | error e s => exact ⟨e, s, rfl, h⟩

/-- The state in which a computation ends, whether it succeeds or fails. -/
def endState : EStateM.Result ε σ α → σ
  | .ok _ s => s
  | .error _ s => s

/-- The state at the end of a computation is related to the state at its beginning. -/
def Keeps (R : σ → σ → Prop) (x : EStateM ε σ α) : Prop := ∀ s, R s (endState (x s))

variable {R : σ → σ → Prop}

/-- A transitive relation between states holds across a sequence if it holds across its parts.
-/
theorem related_bind (ht : ∀ {a b c}, R a b → R b c → R a c) (hx : R s (endState (x s)))
    (hf : ∀ a, Keeps R (f a)) : R s (endState ((x >>= f) s)) := by
  rw [bind_apply]
  cases hr : x s with
  | ok a s' =>
    rw [hr] at hx
    exact ht hx (hf a s')
  | error e s' =>
    rw [hr] at hx
    exact hx

theorem keeps_bind (ht : ∀ {a b c}, R a b → R b c → R a c) (hx : Keeps R x)
    (hf : ∀ a, Keeps R (f a)) : Keeps R (x >>= f) :=
  fun s => related_bind ht (hx s) hf

/-- A computation that looks at the state first is known once it is known from the state that
it sees. -/
theorem keeps_get {f : σ → EStateM ε σ β} (h : ∀ s, R s (endState (f s s))) :
    Keeps R (get >>= f) :=
  h

/-- Two computations end alike: with answers of which `Q` holds, or with errors of which `E`
holds. -/
def EndAlike (Q : α → α → σ → σ → Prop) (E : ε → ε → σ → σ → Prop) :
    EStateM.Result ε σ α → EStateM.Result ε σ α → Prop
  | .ok a s, .ok a' s' => Q a a' s s'
  | .error e s, .error e' s' => E e e' s s'
  | _, _ => False

namespace EndAlike

variable {x' : EStateM ε σ α} {f' : α → EStateM ε σ β} {r r' : EStateM.Result ε σ α}
  {Q Q' : α → α → σ → σ → Prop} {P : β → β → σ → σ → Prop} {E E' : ε → ε → σ → σ → Prop}

theorem imp (h : EndAlike Q E r r') (hQ : ∀ a a' s s', Q a a' s s' → Q' a a' s s')
    (hE : ∀ e e' s s', E e e' s s' → E' e e' s s') : EndAlike Q' E' r r' := by
  cases r with
  | ok a s =>
    cases r' with
    | ok a' s' => exact hQ a a' s s' h
    | error e' s' => exact h.elim
  | error e s =>
    cases r' with
    | ok a' s' => exact h.elim
    | error e' s' => exact hE e e' s s' h

theorem bind (hx : EndAlike Q E (x s) (x' s'))
    (hf : ∀ a a' m m', Q a a' m m' → EndAlike P E (f a m) (f' a' m')) :
    EndAlike P E ((x >>= f) s) ((x' >>= f') s') := by
  rw [bind_apply, bind_apply]
  generalize x s = r at hx ⊢
  generalize x' s' = r' at hx ⊢
  cases r with
  | ok a m =>
    cases r' with
    | ok a' m' => exact hf a a' m m' hx
    | error e' m' => exact hx.elim
  | error e m =>
    cases r' with
    | ok a' m' => exact hx.elim
    | error e' m' => exact hx

end EndAlike

end TypedL5
