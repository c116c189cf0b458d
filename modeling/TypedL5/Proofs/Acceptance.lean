import TypedL5.ParseError
import TypedL5.Proofs.Grammar
import TypedL5.Proofs.Lexical

/-! Reading accepts exactly what the grammar derives, and reports the first token at which no
derivation goes on. -/
namespace TypedL5

namespace ReadError

/-- The report of the fault begins with the word. -/
def Unexpected (e : ReadError) : Prop := ∃ what, e.reason = "Unexpected " ++ what

theorem unexpected_endOfInput : endOfInput.Unexpected := ⟨"end of input", rfl⟩

theorem unexpected_token (text : String) (p : Position) :
    (unexpectedToken text p).Unexpected := by
  refine ⟨"'" ++ text ++ "'", String.toList_injective ?_⟩
  change ("Unexpected '" ++ text ++ "'").toList = _
  simp

theorem unexpected_character (p : Position) : (unexpectedCharacter p).Unexpected :=
  ⟨"character", rfl⟩

theorem not_unexpected_of_head {e : ReadError} (h : e.reason.toList.head? ≠ some 'U') :
    ¬ e.Unexpected := by
  rintro ⟨what, he⟩
  rw [he, String.toList_append] at h
  exact h rfl

theorem not_unexpected_headless : ¬ headless.Unexpected :=
  not_unexpected_of_head (by decide)

theorem not_unexpected_numeralTooLong : ¬ numeralTooLong.Unexpected :=
  not_unexpected_of_head (by decide)

end ReadError

namespace Derivation

variable {e : ReadError}

/-- Reading values blames no token if no single derivation does. -/
theorem not_unexpected_of_values {ds : List Derivation}
    (h : ∀ d ∈ ds, d.value = .error e → ¬ e.Unexpected) (he : values ds = .error e) :
    ¬ e.Unexpected := by
  induction ds with
  | nil => cases he
  | cons d ds ih =>
    obtain ⟨hd, hds⟩ := List.forall_mem_cons.mp h
    obtain he | ⟨_, _, he⟩ := except_bind_eq_error he
    · exact hd he
    · obtain he | ⟨_, _, he⟩ := except_bind_eq_error he
      · exact ih hds he
      · cases he

/-- What can be wrong with a derivation is not its form. -/
theorem not_unexpected_of_value (d : Derivation) (he : d.value = .error e) :
    ¬ e.Unexpected := by
  induction d with
  | leaf l =>
    cases l with
    | number text =>
      rw [value, Leaf.datum] at he
      split at he
      · cases he
      · cases he
        exact ReadError.not_unexpected_numeralTooLong
    | boolean text => cases he
    | string text => cases he
    | symbol text => cases he
  | combination b items ih =>
    obtain he | ⟨_, _, he⟩ := except_bind_eq_error he
    · exact not_unexpected_of_values ih he
    · cases he
  | dotted items tail ihs ih =>
    obtain he | ⟨_, _, he⟩ := except_bind_eq_error he
    · exact not_unexpected_of_values ihs he
    · obtain he | ⟨_, _, he⟩ := except_bind_eq_error he
      · exact ih he
      · split at he
        · cases he
          exact ReadError.not_unexpected_headless
        · cases he
  | quoted d ih =>
    obtain he | ⟨_, _, he⟩ := except_bind_eq_error he
    · exact ih he
    · cases he

end Derivation

namespace Tree

variable {ts : List Located}

/-- Tokens that the grammar does not derive are refused at the first place where it shows. -/
theorem ofTokens_of_not_derivable (h : ¬ Derivable (ts.map Located.token)) :
    (∃ pre t post, ts = pre ++ t :: post ∧
      ofTokens none ts {} = .error (.unexpectedToken t.token.text t.position) ∧
      Viable (pre.map Located.token) ∧ ¬ Viable ((pre ++ [t]).map Located.token)) ∨
    ofTokens none ts {} = .error .endOfInput ∧ ∀ pre, pre <+: ts.map Located.token →
      Viable pre := by
  cases hrun : Stack.run (ts.map Located.token) {} with
  | none =>
    obtain ⟨pre, t, post, m, hts, hpre, hrefused, herror⟩ := ofTokens_of_refused hrun
    refine .inl ⟨pre, t, post, hts, herror none, Stack.viable_iff.mpr ⟨m, hpre⟩, ?_⟩
    intro hviable
    obtain ⟨s, hs⟩ := Stack.viable_iff.mp hviable
    rw [List.map_append, Stack.run_append, hpre, Option.bind_some, List.map_singleton,
      Stack.run_singleton, hrefused] at hs
    cases hs
  | some m =>
    obtain ⟨frames, trees⟩ := m
    refine .inr ⟨?_, ?_⟩
    · cases frames with
      | nil =>
        obtain ⟨ds, hds, _⟩ := Stack.run_eq_some_iff.mp hrun
        exact absurd ⟨ds, hds⟩ h
      | cons f frames =>
        rw [ofTokens_of_run hrun]
        rfl
    · rintro pre ⟨post, hpost⟩
      have hviable : Viable (pre ++ post) := hpost ▸ Stack.viable_iff.mpr ⟨_, hrun⟩
      exact hviable.of_append

end Tree

namespace Datum

variable {source : String} {ts : List Located}

theorem readAll_of_lexes (h : Lexes {} none source.toList ts) :
    readAll source = Tree.ofTokens none ts {} >>= Tree.data := by
  obtain ⟨hstuck, htokens⟩ := lexes_iff.mp h
  rw [readAll, Tree.readAll, hstuck, htokens]

/-- A derivation of the tokens decides what the text is read as, since the tokens have only
one. -/
theorem readAll_of_words (h : Lexes {} none source.toList ts) {ds : List Derivation}
    (hds : Derivation.words ds = ts.map Located.token) : readAll source =
      Derivation.values ds := by
  have htrees := Tree.ofTokens_eq_ok_iff.mpr ⟨ds, hds, rfl⟩
  rw [readAll_of_lexes h, htrees, ← Derivation.data_trees fun d _ => d.datum_tree]
  rfl

/-- Tokens without a derivation are refused at the first token that cannot go on, or at the
end. -/
theorem readAll_of_not_derivable (h : Lexes {} none source.toList ts)
    (hnot : ¬ Derivable (ts.map Located.token)) :
    (∃ pre t post, ts = pre ++ t :: post ∧
      readAll source = .error (.unexpectedToken t.token.text t.position) ∧
      Viable (pre.map Located.token) ∧ ¬ Viable ((pre ++ [t]).map Located.token)) ∨
    readAll source = .error .endOfInput ∧ ∀ pre, pre <+: ts.map Located.token →
      Viable pre := by
  rw [readAll_of_lexes h]
  rcases Tree.ofTokens_of_not_derivable hnot with ⟨pre, t, post, hts, herror, hfirst⟩
    | ⟨herror, hall⟩
  · exact .inl ⟨pre, t, post, hts, by rw [herror]; rfl, hfirst⟩
  · exact .inr ⟨by rw [herror]; rfl, hall⟩

theorem derivable_of_expected (h : Lexes {} none source.toList ts)
    (hread : ∀ e, readAll source = .error e → ¬ e.Unexpected) : Derivable
      (ts.map Located.token) := by
  by_contra hnot
  rcases readAll_of_not_derivable h hnot with ⟨_, t, _, _, herror, _⟩ | ⟨herror, _⟩
  · exact hread _ herror (ReadError.unexpected_token _ _)
  · exact hread _ herror ReadError.unexpected_endOfInput

/-- A text that is made of tokens is read without an unexpected one exactly if the grammar
derives the tokens. There is one derivation then, and its data are what is read. Else the first
token is reported at which no derivable row of tokens goes on any more, or the end of the text
if there is no such token. -/
theorem readAll_grammar (h : Lexes {} none source.toList ts) :
    ((∀ e, readAll source = .error e → ¬ e.Unexpected) ↔ Derivable (ts.map Located.token)) ∧
    (Derivable (ts.map Located.token) → ∃! ds, Derivation.words ds = ts.map Located.token) ∧
    (∀ ds, Derivation.words ds = ts.map Located.token →
      readAll source = Derivation.values ds) ∧
    (¬ Derivable (ts.map Located.token) →
      (∃ pre t post, ts = pre ++ t :: post ∧
        readAll source = .error (.unexpectedToken t.token.text t.position) ∧
        Viable (pre.map Located.token) ∧ ¬ Viable ((pre ++ [t]).map Located.token)) ∨
      readAll source = .error .endOfInput ∧ ∀ pre, pre <+: ts.map Located.token →
        Viable pre) := by
  refine ⟨⟨derivable_of_expected h, ?_⟩, ?_, fun ds => readAll_of_words h,
    readAll_of_not_derivable h⟩
  · rintro ⟨ds, hds⟩ e he
    rw [readAll_of_words h hds] at he
    exact Derivation.not_unexpected_of_values (fun d _ => d.not_unexpected_of_value) he
  · rintro ⟨ds, hds⟩
    exact ⟨ds, hds, fun ds' hds' => Derivation.words_injective (hds'.trans hds.symm)⟩

/-- The second point is a tail, since it stands after a dot, and the square bracket closes
nothing. -/
theorem readAll_grammar_bracket :
    let source := "('a . .) ]"
    let ts : List Located :=
      [⟨.opening .round, ⟨1, 1⟩⟩, ⟨.quote, ⟨1, 2⟩⟩, ⟨.leaf (.symbol "a"), ⟨1, 3⟩⟩,
        ⟨.dot, ⟨1, 5⟩⟩,
        ⟨.leaf (.symbol "."), ⟨1, 7⟩⟩, ⟨.closing .round, ⟨1, 8⟩⟩, ⟨.closing .square, ⟨1, 10⟩⟩]
    Lexes {} none source.toList ts ∧ ¬ Derivable (ts.map Located.token) ∧
      readAll source = .error (.unexpectedToken "]" ⟨1, 10⟩) := by
  have hread : readAll "('a . .) ]" = .error (.unexpectedToken "]" ⟨1, 10⟩) := by rfl
  intro source ts
  have h : Lexes {} none source.toList ts :=
    lexes_iff.mpr ⟨by decide +kernel, by decide +kernel⟩
  exact ⟨h, fun hd =>
    (readAll_grammar h).1.mpr hd _ hread (ReadError.unexpected_token _ _), hread⟩

end Datum

end TypedL5
