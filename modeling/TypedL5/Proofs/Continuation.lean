import TypedL5.Proofs.Acceptance

/-!
Reading line by line. What is reported of a text holds of every text that goes on with it on a
new line, but for two reports: that the text stops early, and that a string has no end. After
the first there is more text that helps.
-/
namespace TypedL5

namespace Position

variable {p q : Position}

/-- The character that stands at `place`, in a text that begins at `p`. -/
def charAt? (place : Position) : Position → List Char → Option Char
  | _, [] => none
  | p, c :: cs => if p = place then some c else charAt? place (p.next c) cs

/-- The order of places in a text. -/
def Before (p q : Position) : Prop := p.line < q.line ∨ p.line = q.line ∧ p.column < q.column

theorem Before.ne (h : p.Before q) : p ≠ q := by
  rintro rfl
  simp [Before] at h

theorem before_next (p : Position) (c : Char) : p.Before (p.next c) := by
  by_cases hc : c = '\n' <;> simp [Before, next, hc]

theorem Before.next (h : p.Before q) (c : Char) : p.Before (q.next c) := by
  unfold Before at h ⊢
  by_cases hc : c = '\n' <;> simp only [Position.next, hc, if_true, if_false] <;> omega

theorem Before.after (h : p.Before q) (cs : List Char) : p.Before (q.after cs) := by
  induction cs generalizing q with
  | nil => exact h
  | cons c cs ih => exact ih (h.next c)

/-- Counting positions through a text finds the character that stands there. -/
theorem charAt?_after (p : Position) (pre : List Char) (c : Char) (post : List Char) :
    charAt? (p.after pre) p (pre ++ c :: post) = some c := by
  induction pre generalizing p with
  | nil => exact if_pos rfl
  | cons d pre ih =>
    -- Places go up along a text, so no earlier character is taken for this one.
    have hne : p ≠ (p.next d).after pre := ((before_next p d).after pre).ne
    exact (if_neg hne).trans (ih (p.next d))

end Position

namespace Scan

variable {s : Scan} {c : Char} {cs : List Char} {p start : Position}

theorem Begins.tokens {m : Scan} (h : Begins s c m) : s.tokens <:+ m.tokens := by
  cases h with
  | mark => exact List.suffix_cons _ _
  | _ => exact List.suffix_rfl

theorem tokens_take (s : Scan) (c : Char) : s.tokens <:+ (s.take c).tokens := by
  have htook := took s c
  generalize s.take c = m at htook
  cases htook with
  | start _ h => exact h.tokens
  | wordEnd _ _ _ h => exact (List.suffix_cons _ _).trans h.tokens
  | stringEnd => exact List.suffix_cons _ _
  | _ => exact List.suffix_rfl

theorem tokens_finish (s : Scan) : s.tokens <:+ s.finish.tokens := by
  unfold finish
  cases hs : s.mode with
  | word start ls =>
    simp only [endWord_eq]
    split
    · exact List.suffix_cons _ _
    · exact List.suffix_rfl
  | _ => exact List.suffix_rfl

/-- Tokens stay as they are while the text goes on. -/
theorem tokens_reading (s : Scan) (cs : List Char) : s.tokens <:+ (reading s cs).2 := by
  induction cs generalizing s with
  | nil => exact tokens_finish s
  | cons c cs ih => exact (tokens_take s c).trans (ih (s.step c))

theorem stuck?_eq_some_iff : s.stuck? = some p ↔ s.mode = .stuck p := by
  cases hs : s.mode <;> simp [stuck?, hs]

/-- The end of a line ends all that the end of the text ends, but for strings. -/
theorem step_newline (s : Scan) : (s.step '\n').tokens = s.finish.tokens ∧
    (s.finish.stuck? = none → (s.step '\n').mode = .between) := by
  cases hs : s.mode with
  | word start ls =>
    have hdelimiter : isDelimiter '\n' = true := by decide
    rcases mode_endWord s start ls true with hm | hm
    · simp [step, take, finish, hs, hdelimiter, hm, begin, isSkipped]
    · simp [step, take, finish, hs, hdelimiter, hm, stuck?]
  | _ => simp [step, take, finish, hs, begin, isSkipped, stuck?]

/-- Where the string under way begins. -/
def Mode.stringStart? : Mode → Option Position
  | .string start _ | .escape start _ => some start
  | _ => none

/-- A string that has just begun began with its quote. -/
theorem Begins.stringStart? {m : Scan} (h : Begins s c m)
    (hm : m.mode.stringStart? = some start) :
    c = '"' ∧ s.position = start := by
  cases h with
  | string => exact ⟨rfl, Option.some.inj hm⟩
  | _ => cases hm

/-- A string that is under way was so before, or begins here. -/
theorem stringStart?_take (h : (s.take c).mode.stringStart? = some start) :
    c = '"' ∧ s.position = start ∨ s.mode.stringStart? = some start := by
  have htook := took s c
  generalize s.take c = m at htook h
  cases htook with
  | start _ hm => exact .inl (hm.stringStart? h)
  | wordEnd _ _ _ hm => exact .inl (hm.stringStart? h)
  | comment => exact .inr h
  | stuck => exact .inr h
  | plain hs => exact .inr (by rwa [hs])
  | slash hs => exact .inr (by rwa [hs])
  | escaped hs => exact .inr (by rwa [hs])
  | _ => cases h

/-- At the beginning of a string there is a double quote. -/
theorem exists_quote (h : (cs.foldl step s).mode.stringStart? = some start) :
    s.mode.stringStart? = some start ∨
      ∃ pre post, cs = pre ++ '"' :: post ∧ s.position.after pre = start := by
  induction cs generalizing s with
  | nil => exact .inl h
  | cons c cs ih =>
    rcases ih h with hs | ⟨pre, post, rfl, hp⟩
    · rcases stringStart?_take hs with ⟨rfl, hp⟩ | hs
      · exact .inr ⟨[], cs, rfl, hp⟩
      · exact .inl hs
    · exact .inr ⟨c :: pre, post, rfl, hp⟩

/-- Where a scan gets stuck at the end of a text it does so at the end of the line, but for
strings. -/
theorem reading_newline (h : s.finish.stuck? = some p) :
    s.mode.stringStart? = some p ∨ ∀ cs, reading s ('\n' :: cs) =
      (some p, s.finish.tokens) := by
  have hmode := stuck?_eq_some_iff.mp h
  cases hs : s.mode with
  | between => simp [finish, hs] at hmode
  | comment => simp [finish, hs] at hmode
  | string start ls =>
    simp only [finish, hs, Mode.stuck.injEq] at hmode
    exact .inl (congrArg some hmode)
  | escape start ls =>
    simp only [finish, hs, Mode.stuck.injEq] at hmode
    exact .inl (congrArg some hmode)
  | stuck q =>
    have hsame : s.finish = s := by simp only [finish, hs]
    rw [hsame] at hmode ⊢
    exact .inr fun cs => reading_stuck hmode _
  | word start ls =>
    -- The end of a text and the end of a line are delimiters alike.
    refine .inr fun cs => ?_
    have hended : s.finish = s.endWord start ls true := by simp only [finish, hs]
    have hnewline : delimits ('\n' :: cs) = true := by
      have hdelimiter : isDelimiter '\n' = true := by decide
      simpa [delimits] using hdelimiter
    rw [reading_word hs (isLetter_of_delimits hnewline), hnewline, ← hended]
    exact reading_stuck hmode _

end Scan

namespace Tree

variable {stuck? : Option Position} {s : Stack} {ts us : List Located} {p : Position}
  {text : String}

theorem readAll_eq (cs : List Char) :
    readAll cs = ofTokens (Scan.reading {} cs).1 (Scan.reading {} cs).2.reverse {} := rfl

/-- A token that cannot go on is blamed whatever follows it. -/
theorem ofTokens_append (h : ofTokens stuck? ts s = .error (.unexpectedToken text p))
    (stuck?' : Option Position) (us : List Located) :
    ofTokens stuck?' (ts ++ us) s = .error (.unexpectedToken text p) := by
  induction ts generalizing s with
  | nil =>
    obtain ⟨frames, trees⟩ := s
    cases stuck? with
    | some q => cases h
    | none => cases frames <;> cases h
  | cons t ts ih =>
    rw [List.cons_append]
    rw [ofTokens] at h ⊢
    cases hm : s.step? t.token with
    | none => simpa only [hm] using h
    | some m =>
      simp only [hm] at h ⊢
      exact ih h

/-- A token is refused, or all are taken and it is the end that decides. -/
theorem ofTokens_cases (stuck? : Option Position) (ts : List Located) (s : Stack) :
    (∃ text p, ofTokens stuck? ts s = .error (.unexpectedToken text p)) ∨
    (∃ p, stuck? = some p ∧ ofTokens stuck? ts s = .error (.unexpectedCharacter p)) ∨
    stuck? = none ∧ (∃ m, Stack.run (ts.map Located.token) s = some m) ∧
      (ofTokens stuck? ts s = .error .endOfInput ∨ ∃ trees, ofTokens stuck? ts s =
        .ok trees) := by
  cases hrun : Stack.run (ts.map Located.token) s with
  | none =>
    obtain ⟨_, t, _, _, _, _, _, herror⟩ := ofTokens_of_refused hrun
    exact .inl ⟨_, _, herror stuck?⟩
  | some m =>
    obtain ⟨frames, trees⟩ := m
    rw [ofTokens_of_run hrun]
    cases stuck? with
    | some p => exact .inr (.inl ⟨p, rfl, rfl⟩)
    | none =>
      refine .inr (.inr ⟨rfl, ⟨_, rfl⟩, ?_⟩)
      cases frames with
      | nil => exact .inr ⟨_, rfl⟩
      | cons f frames => exact .inl rfl

theorem ofTokens_eq_ok {trees : List Tree} (h : ofTokens stuck? ts s = .ok trees) :
    stuck? = none := by
  rcases ofTokens_cases stuck? ts s with ⟨_, _, he⟩ | ⟨_, _, he⟩ | ⟨hnone, _⟩
  · simp [he] at h
  · simp [he] at h
  · exact hnone

theorem ofTokens_eq_unexpectedCharacter
    (h : ofTokens stuck? ts s = .error (.unexpectedCharacter p)) :
    stuck? = some p := by
  rcases ofTokens_cases stuck? ts s with ⟨_, _, he⟩ | ⟨_, hsome, he⟩ | ⟨_, _, he | ⟨_, he⟩⟩
  · simp [he] at h
  · obtain rfl : _ = p := by simpa [he] using h
    exact hsome
  · simp [he] at h
  · simp [he] at h

/-- Input that ends too early has every token accepted so far. -/
theorem ofTokens_eq_endOfInput (h : ofTokens stuck? ts s = .error .endOfInput) :
    stuck? = none ∧ ∃ m, Stack.run (ts.map Located.token) s = some m := by
  rcases ofTokens_cases stuck? ts s with ⟨_, _, he⟩ | ⟨_, _, he⟩ | ⟨hnone, hrun, _⟩
  · simp [he] at h
  · simp [he] at h
  · exact ⟨hnone, hrun⟩

/-- A token that is refused stays so when the text goes on. -/
theorem readAll_unexpectedToken {cs : List Char}
    (h : readAll cs = .error (.unexpectedToken text p)) (ds : List Char) :
    readAll (cs ++ '\n' :: ds) = .error (.unexpectedToken text p) := by
  rw [readAll_eq, Scan.reading_append]
  have hgrow := Scan.tokens_reading ((cs.foldl Scan.step {}).step '\n') ds
  rw [(Scan.step_newline _).1] at hgrow
  obtain ⟨us, hus⟩ := hgrow
  have htokens : (Scan.reading (cs.foldl Scan.step {}) ('\n' :: ds)).2.reverse =
      (Scan.reading {} cs).2.reverse ++ us.reverse := by
    rw [← List.reverse_append]
    exact congrArg List.reverse hus.symm
  rw [htokens]
  exact ofTokens_append h _ _

/-- A bad character stays bad when lines are added, unless it is an open quote. -/
theorem readAll_unexpectedCharacter
    {cs : List Char} (h : readAll cs = .error (.unexpectedCharacter p))
    (hquote : Position.charAt? p {} cs ≠ some '"') (ds : List Char) :
    readAll (cs ++ '\n' :: ds) = .error (.unexpectedCharacter p) := by
  have hstuck : (cs.foldl Scan.step {}).finish.stuck? = some p :=
    ofTokens_eq_unexpectedCharacter h
  rcases Scan.reading_newline hstuck with hstart | hread
  · obtain hnone | ⟨pre, post, rfl, rfl⟩ := Scan.exists_quote hstart
    · cases hnone
    · exact absurd (Position.charAt?_after {} pre '"' post) hquote
  · rw [readAll_eq, Scan.reading_append, hread ds, ← h, readAll_eq]
    exact congrArg (ofTokens · _ {}) hstuck.symm

namespace Stack

/-- To close what is open takes closing brackets only. -/
theorem exists_closing (frames : List Frame) : ∀ t ∈ brackets frames, ∃ b, t = .closing b := by
  induction frames with
  | nil => simp [brackets]
  | cons f frames ih =>
    cases f with
    | items b items => exact List.forall_mem_cons.mpr ⟨⟨b, rfl⟩, ih⟩
    | beforeTail items => exact List.forall_mem_cons.mpr ⟨⟨.round, rfl⟩, ih⟩
    | afterTail items tail => exact List.forall_mem_cons.mpr ⟨⟨.round, rfl⟩, ih⟩
    | quote => exact ih

end Stack

end Tree

/-- Tokens one right after the other. -/
def Token.texts (ts : List Token) : List Char := ts.flatMap fun t => t.text.toList

/-- Closing brackets are tokens by themselves, whatever they follow. -/
theorem exists_lexes_closing {ts : List Token} (h : ∀ t ∈ ts, ∃ b, t = .closing b)
    (p : Position) (prev : Option Token) :
    ∃ us, Lexes p prev (Token.texts ts) us ∧ us.map Located.token = ts := by
  induction ts generalizing p prev with
  | nil => exact ⟨[], .done p prev, rfl⟩
  | cons t ts ih =>
    obtain ⟨⟨b, rfl⟩, hts⟩ := List.forall_mem_cons.mp h
    obtain ⟨c, hc, hmark⟩ : ∃ c, (Token.closing b).text.toList = [c] ∧ (c, Token.closing b) ∈
        Token.marks := by
      cases b with
      | round => exact ⟨')', rfl, by simp [Token.marks]⟩
      | square => exact ⟨']', rfl, by simp [Token.marks]⟩
    obtain ⟨us, hus, rfl⟩ := ih hts (p.after [c]) (some (.closing b))
    refine ⟨⟨.closing b, p⟩ :: us, ?_, rfl⟩
    have htexts : Token.texts (.closing b :: us.map Located.token) =
        [c] ++ Token.texts (us.map Located.token) := by
      rw [Token.texts, List.flatMap_cons, hc]
      rfl
    rw [htexts]
    exact .token (.mark hmark) hus

/-- The tokens that complete a text can be written. -/
theorem exists_lexes_completion (frames : List Tree.Frame) (p : Position)
    (prev : Option Token) :
    ∃ us, Lexes p prev (Token.texts (Tree.Stack.completion frames)) us ∧
      us.map Located.token = Tree.Stack.completion frames := by
  have hclosing := Tree.Stack.exists_closing frames
  unfold Tree.Stack.completion
  split
  · obtain ⟨us, hus, hbrackets⟩ :=
      exists_lexes_closing hclosing (p.after ['x']) (some (.leaf (.symbol "x")))
    refine ⟨⟨.leaf (.symbol "x"), p⟩ :: us, ?_, congrArg _ hbrackets⟩
    have hend : ∀ c ∈ (Token.texts (Tree.Stack.brackets frames)).head?,
        Scan.isLetter c = false := by
      intro c hc
      cases hrest : Tree.Stack.brackets frames with
      | nil =>
        rw [hrest] at hc
        cases hc
      | cons t ts =>
        obtain ⟨b, rfl⟩ := hclosing t (by rw [hrest]; exact List.mem_cons_self)
        rw [hrest] at hc
        cases b <;> cases hc <;> decide
    have hx : IsToken prev (Token.texts (Tree.Stack.brackets frames)) ['x']
      (.leaf (.symbol "x")) :=
      .symbol (by decide) hend (fun _ => rfl) (by simp)
    exact .token hx hus
  · exact exists_lexes_closing hclosing p prev

namespace Datum

variable {source : String} {e : ReadError}

theorem readAll_of_tree (h : Tree.readAll source.toList = .error e) :
    readAll source = .error e := by
  rw [readAll, h]
  rfl

/-- What a text is made of is faulty in its own way, which is not unexpected. -/
theorem tree_of_readAll (h : readAll source = .error e) (he : e.Unexpected) :
    Tree.readAll source.toList = .error e := by
  obtain hread | ⟨trees, htrees, hdata⟩ := except_bind_eq_error h
  · exact hread
  · have hstuck := Tree.ofTokens_eq_ok htrees
    rw [Tree.readAll, hstuck] at htrees
    obtain ⟨ds, _, rfl⟩ := Tree.ofTokens_eq_ok_iff.mp htrees
    rw [Derivation.data_trees fun d _ => d.datum_tree] at hdata
    exact absurd he
      (Derivation.not_unexpected_of_values (fun d _ => d.not_unexpected_of_value) hdata)

theorem toList_continued (source t : String) :
    (source ++ "\n" ++ t).toList = source.toList ++ '\n' :: t.toList := by
  simp

/-- A text that stops early can be completed on the next line. -/
theorem exists_completion (h : readAll source = .error .endOfInput) :
    ∃ t, ∀ e, readAll (source ++ "\n" ++ t) = .error e → ¬ e.Unexpected := by
  have htree := tree_of_readAll h ReadError.unexpected_endOfInput
  obtain ⟨hstuck, m, hm⟩ := Tree.ofTokens_eq_endOfInput htree
  let s := source.toList.foldl Scan.step {}
  have hat : (s.step '\n').At (s.step '\n').position
    ((s.step '\n').tokens.map Located.token).head? :=
    ⟨(Scan.step_newline s).2 hstuck, rfl, rfl⟩
  obtain ⟨us, hus, hcompletion⟩ := exists_lexes_completion m.frames (s.step '\n').position
    ((s.step '\n').tokens.map Located.token).head?
  obtain ⟨trees, htrees⟩ := Tree.Stack.run_completion m
  -- The new line ends a word or a comment under way, so what completes the text is scanned by
  -- itself.
  refine ⟨String.ofList (Token.texts (Tree.Stack.completion m.frames)),
    fun e he hunexpected => ?_⟩
  have herror := tree_of_readAll he hunexpected
  have hread : Scan.reading s ('\n' :: Token.texts (Tree.Stack.completion m.frames)) =
      (none, us.reverse ++ s.finish.tokens) := by
    rw [← (Scan.step_newline s).1]
    exact hus.reading hat
  have hrun : Tree.Stack.run ((s.finish.tokens.reverse ++ us).map Located.token) {} =
      some ⟨[], trees⟩ := by
    rw [List.map_append, Tree.Stack.run_append, hcompletion]
    exact (congrArg (Option.bind · _) hm).trans htrees
  rw [toList_continued, String.toList_ofList, Tree.readAll_eq, Scan.reading_append, hread,
    List.reverse_append, List.reverse_reverse, Tree.ofTokens_of_run hrun] at herror
  cases herror

/-- A text that is reported as incomplete can go on, on the next line, so that nothing in it is
unexpected. A token or a character that is unexpected stays so, at its place, however the text
goes on, unless a string without an end begins with it. -/
theorem readAll_continued (source : String) :
    (∀ e, readAll source = .error e → (ParseError.unreadable e).isIncomplete = true →
      ∃ t, ∀ e', readAll (source ++ "\n" ++ t) = .error e' → ¬ e'.Unexpected) ∧
    (∀ text place, readAll source = .error (.unexpectedToken text place) →
      ∀ t, readAll (source ++ "\n" ++ t) = .error (.unexpectedToken text place)) ∧
    (∀ place, readAll source = .error (.unexpectedCharacter place) →
      place.charAt? {} source.toList ≠ some '"' →
      ∀ t, readAll (source ++ "\n" ++ t) = .error (.unexpectedCharacter place)) := by
  refine ⟨fun e h hincomplete => ?_, fun text place h t => ?_, fun place h hquote t => ?_⟩
  · cases e with
    | endOfInput => exact exists_completion h
    | _ => cases hincomplete
  · have htree := tree_of_readAll h (ReadError.unexpected_token text place)
    apply readAll_of_tree
    rw [toList_continued]
    exact Tree.readAll_unexpectedToken htree _
  · have htree := tree_of_readAll h (ReadError.unexpected_character place)
    apply readAll_of_tree
    rw [toList_continued]
    exact Tree.readAll_unexpectedCharacter htree hquote _

/-- A text that stops before a tail, one with two tails and one with a word that is no
token. -/
theorem readAll_continued_tails :
    (readAll "('(a . ; b" = .error .endOfInput ∧
      ∃ t, ∀ e, readAll ("('(a . ; b" ++ "\n" ++ t) = .error e → ¬ e.Unexpected) ∧
    (readAll "(a . b c" = .error (.unexpectedToken "c" ⟨1, 8⟩) ∧
      ∀ t, readAll ("(a . b c" ++ "\n" ++ t) = .error (.unexpectedToken "c" ⟨1, 8⟩)) ∧
    readAll "(a #b" = .error (.unexpectedCharacter ⟨1, 4⟩) ∧
      ∀ t, readAll ("(a #b" ++ "\n" ++ t) = .error (.unexpectedCharacter ⟨1, 4⟩) := by
  have hstops : readAll "('(a . ; b" = .error .endOfInput := by rfl
  have htails : readAll "(a . b c" = .error (.unexpectedToken "c" ⟨1, 8⟩) := by rfl
  have hword : readAll "(a #b" = .error (.unexpectedCharacter ⟨1, 4⟩) := by rfl
  exact ⟨⟨hstops, (readAll_continued _).1 _ hstops rfl⟩,
    ⟨htails, (readAll_continued _).2.1 _ _ htails⟩,
    hword, (readAll_continued _).2.2 _ hword (by decide +kernel)⟩

end Datum

end TypedL5
