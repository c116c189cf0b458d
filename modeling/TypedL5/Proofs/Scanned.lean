import TypedL5.Datum.Reader
import TypedL5.Proofs.WholeNumber

/-! What a scan makes of written names and constants, and which names it can come upon. -/
namespace TypedL5

/-- The tokens of one character, each with its character. -/
def Token.marks : List (Char × Token) :=
  [('(', .opening .round), (')', .closing .round), ('[', .opening .square),
    (']', .closing .square), ('\'', .quote)]

/-- Whether a lone point after the token is the dot of a dotted list. At the start of a text it
is not. -/
def Token.takesDot : Option Token → Bool
  | none | some (.opening .square) | some .quote | some .dot => false
  | some _ => true

/-- What a lone point is. -/
def Token.point (prev : Option Token) : Token :=
  if takesDot prev then .dot else .leaf (.symbol ".")

/-- What the written form of a token is scanned as, after the token `prev` and before a
delimiter. -/
def Token.rescanned (prev : Option Token) : Token → Token
  | .dot => point prev
  | .leaf (.symbol x) =>
    if x = "." then point prev
    else if (Numeral.ofChars? x.toList).isSome then .leaf (.number x)
    else .leaf (.symbol x)
  | t => t

@[simp] theorem Token.rescanned_opening (prev : Option Token) (b : Bracket) :
    rescanned prev (.opening b) = .opening b := rfl

@[simp] theorem Token.rescanned_closing (prev : Option Token) (b : Bracket) :
    rescanned prev (.closing b) = .closing b := rfl

@[simp] theorem Token.rescanned_dot (prev : Option Token) : rescanned prev .dot = point prev :=
  rfl

namespace Scan

variable {s : Scan} {ts : List Token} {c : Char} {cs ls : List Char} {start : Position}

/-- The character goes on with a word. -/
def isLetter (c : Char) : Bool := !isDelimiter c && c != '"'

theorem ends_of_isLetter (h : isLetter c = false) :
    (isDelimiter c || decide (c = '"')) = true := by
  simp only [isLetter, Bool.and_eq_false_iff, Bool.not_eq_false', bne_eq_false_iff_eq] at h
  simpa using h

/-- Whether a text has the characters of a symbol. It may still look like a number or a dot. -/
def isSymbol (name : String) : Bool :=
  !name.toList.isEmpty && name.toList.head? != some '#' && name.toList.all isLetter

theorem isSpace_of_isSkipped (h : isSkipped c = true) : Text.isSpace c = true := by
  simp only [isSkipped, Bool.or_eq_true, decide_eq_true_eq] at h
  obtain (((rfl | rfl) | rfl) | rfl) | rfl := h
  all_goals decide

/-- What a character that stands between tokens or begins one leads to. -/
inductive Begins (s : Scan) : Char → Scan → Prop
  | space {c : Char} (h : isSkipped c = true) : Begins s c { s with mode := .between }
  | comment : Begins s ';' { s with mode := .comment }
  | mark {c : Char} {t : Token} (h : (c, t) ∈ Token.marks) : Begins s c (s.emit t s.position)
  | string : Begins s '"' { s with mode := .string s.position ['"'] }
  | stuck {c : Char} (hskip : ¬ isSkipped c = true) (h : Text.isSpace c = true) :
    Begins s c { s with mode := .stuck s.position }
  | word {c : Char} (h : isLetter c = true) :
    Begins s c { s with mode := .word s.position [c] }

/-- A character between tokens leads to one of these scans. -/
theorem begins (s : Scan) (c : Char) : Begins s c (s.begin c) := by
  -- One case for each test, in the order in which they are made. What fails all of them is a
  -- letter.
  rw [begin]
  by_cases hskip : isSkipped c = true
  · rw [if_pos hskip]
    exact .space hskip
  rw [if_neg hskip]
  by_cases hcomment : c = ';'
  · rw [if_pos hcomment, hcomment]
    exact .comment
  rw [if_neg hcomment]
  by_cases hopen : c = '('
  · rw [if_pos hopen]
    exact .mark (by simp [Token.marks, hopen])
  rw [if_neg hopen]
  by_cases hclose : c = ')'
  · rw [if_pos hclose]
    exact .mark (by simp [Token.marks, hclose])
  rw [if_neg hclose]
  by_cases hsquare : c = '['
  · rw [if_pos hsquare]
    exact .mark (by simp [Token.marks, hsquare])
  rw [if_neg hsquare]
  by_cases hend : c = ']'
  · rw [if_pos hend]
    exact .mark (by simp [Token.marks, hend])
  rw [if_neg hend]
  by_cases hquote : c = '\''
  · rw [if_pos hquote]
    exact .mark (by simp [Token.marks, hquote])
  rw [if_neg hquote]
  by_cases hstring : c = '"'
  · rw [if_pos hstring, hstring]
    exact .string
  rw [if_neg hstring]
  by_cases hspace : Text.isSpace c = true
  · rw [if_pos hspace]
    exact .stuck hskip hspace
  · rw [if_neg hspace]
    refine .word ?_
    simp [isLetter, isDelimiter, hcomment, hopen, hclose, hsquare, hend, hquote,
      hstring, hspace]

theorem begin_letter (h : isLetter c = true) :
    s.begin c = { s with mode := .word s.position [c] } := by
  simp only [isLetter, isDelimiter, Bool.and_eq_true, Bool.not_eq_true', Bool.or_eq_false_iff,
    decide_eq_false_iff_not, bne_iff_ne] at h
  obtain ⟨⟨⟨⟨⟨⟨⟨hspace, hopen⟩, hclose⟩, hsquare⟩, hend⟩, hquote⟩, hcomment⟩, hstring⟩ := h
  have hskip : ¬ isSkipped c = true := fun hs => by simp [isSpace_of_isSkipped hs] at hspace
  simp [begin, hskip, hspace, hopen, hclose, hsquare, hend, hquote, hcomment, hstring]

theorem position_foldl (cs : List Char) (s : Scan) :
    (cs.foldl step s).position = cs.foldl Position.next s.position := by
  induction cs generalizing s with
  | nil => rfl
  | cons c cs ih => exact ih (s.step c)

theorem foldl_letters (hs : s.mode = .word start ls) (hcs : ∀ c ∈ cs, isLetter c = true) :
    (cs.foldl step s).mode = .word start (cs.reverse ++ ls) ∧
      (cs.foldl step s).tokens = s.tokens := by
  induction cs generalizing s ls with
  | nil => exact ⟨hs, rfl⟩
  | cons c cs ih =>
    obtain ⟨hc, hcs⟩ := List.forall_mem_cons.mp hcs
    have hgo : ¬ (isDelimiter c || decide (c = '"')) = true := by simpa [isLetter] using hc
    have htake : s.take c = { s with mode := .word start (c :: ls) } := by
      rw [take, hs]
      exact if_neg hgo
    have hstep : (s.step c).mode = .word start (c :: ls) ∧ (s.step c).tokens = s.tokens := by
      simp [step, htake]
    obtain ⟨hmode, htokens⟩ := ih hstep.1 hcs
    rw [List.foldl_cons, hmode, htokens, hstep.2]
    simp

/-- A word from its first letter on. -/
theorem foldl_word (hs : s.mode = .between) (hne : cs ≠ [])
    (hcs : ∀ c ∈ cs, isLetter c = true) :
    (cs.foldl step s).mode = .word s.position cs.reverse ∧ (cs.foldl step s).tokens =
      s.tokens := by
  obtain ⟨c, cs, rfl⟩ := List.exists_cons_of_ne_nil hne
  obtain ⟨hc, hcs⟩ := List.forall_mem_cons.mp hcs
  have htake : s.take c = { s with mode := .word s.position [c] } := by
    rw [take, hs]
    exact begin_letter hc
  have hstep : (s.step c).mode = .word s.position [c] ∧ (s.step c).tokens = s.tokens := by
    simp [step, htake]
  obtain ⟨hmode, htokens⟩ := foldl_letters hstep.1 hcs
  rw [List.foldl_cons, hmode, htokens, hstep.2]
  simp

/-- No word is under way, and these are the tokens, latest first. -/
structure Between (s : Scan) (ts : List Token) : Prop where
  mode : s.mode = .between
  tokens : s.tokens.map Located.token = ts

/-- A word may be under way. With it, these are the tokens, latest first. -/
def Settled (s : Scan) (ts : List Token) : Prop := s.finish.Between ts

theorem Between.settled (h : s.Between ts) : s.Settled ts := by
  have hs : s.finish = s := by rw [finish, h.mode]
  rw [Settled, hs]
  exact h

theorem Between.emit (h : s.tokens.map Located.token = ts) (t : Token) (p : Position) :
    (s.emit t p).Between (t :: ts) :=
  ⟨rfl, by simp [Scan.emit, h]⟩

theorem Between.moved (h : s.Between ts) (p : Position) :
    Between { s with position := p } ts :=
  ⟨h.mode, h.tokens⟩

/-- A delimiter ends the word that is under way and is then looked at by itself. -/
theorem Settled.take_delimiter (h : s.Settled ts) (hc : isDelimiter c = true) (hq : c ≠ '"') :
    s.take c = s.finish.begin c := by
  have hmode := h.mode
  cases hs : s.mode with
  | between => rw [take, finish, hs]
  | word start ls =>
    rw [finish, hs] at hmode ⊢
    have hne : (c != '"') = true := by simpa using hq
    simp only [take, hs, hc, Bool.true_or, if_true, hne, hmode]
  | comment => simp [finish, hs] at hmode
  | string start ls => simp [finish, hs] at hmode
  | escape start ls => simp [finish, hs] at hmode
  | stuck p => simp [finish, hs] at hmode

theorem Settled.space (h : s.Settled ts) : (s.step ' ').Between ts := by
  rw [step, h.take_delimiter (by decide) (by decide)]
  exact ⟨rfl, h.tokens⟩

theorem Settled.closing (h : s.Settled ts) : (s.step ')').Between (.closing .round :: ts) := by
  rw [step, h.take_delimiter (by decide) (by decide)]
  exact (Between.emit h.tokens _ _).moved _

theorem Between.opening (h : s.Between ts) : (s.step '(').Between (.opening .round :: ts) := by
  rw [step, h.settled.take_delimiter (by decide) (by decide)]
  exact (Between.emit h.settled.tokens _ _).moved _

/-- Whether a point is a dot depends on the latest token only. -/
theorem dotFollows_eq (s : Scan) :
    s.dotFollows = Token.takesDot (s.tokens.map Located.token).head? := by
  cases hs : s.tokens with
  | nil => simp [dotFollows, hs, Token.takesDot]
  | cons t ts =>
    obtain ⟨t, p⟩ := t
    rw [dotFollows, hs]
    cases t with
    | opening b => cases b <;> rfl
    | closing b => rfl
    | quote => rfl
    | dot => rfl
    | leaf l => rfl

/-- The token that a word is, if it is one, after the token `prev` and with or without a
delimiter behind it. -/
def wordToken? (prev : Option Token) (word : List Char) (delimited : Bool) : Option Token :=
  if delimited && word == ['.'] then some (.point prev)
  else if delimited && (Numeral.ofChars? word).isSome then
    some (.leaf (.number (String.ofList word)))
  else if delimited && isBoolean word then some (.leaf (.boolean (String.ofList word)))
  else if word.head? == some '#' then none
  else some (.leaf (.symbol (String.ofList word)))

theorem endWord_eq (s : Scan) (start : Position) (ls : List Char) (delimited : Bool) :
    s.endWord start ls delimited =
      match wordToken? (s.tokens.map Located.token).head? ls.reverse delimited with
      | some t => s.emit t start
      | none => { s with mode := .stuck start } := by
  simp only [endWord, wordToken?, dotFollows_eq, Token.point]
  by_cases hdot : (delimited && ls.reverse == ['.']) = true
  · have hword : ls.reverse = ['.'] := by simpa using (Bool.and_eq_true_iff.mp hdot).2
    rw [if_pos hdot, if_pos hdot, hword]
  · simp only [if_neg hdot]
    split_ifs <;> rfl

/-- What a scan can become when it takes a character, the place apart. -/
inductive Took (s : Scan) : Char → Scan → Prop
  | start {c : Char} {m : Scan} (hs : s.mode = .between) (h : Begins s c m) : Took s c m
  | comment {c : Char} (hs : s.mode = .comment) (hc : c ≠ '\n') : Took s c s
  | commentEnd (hs : s.mode = .comment) : Took s '\n' { s with mode := .between }
  | letter {c : Char} {start : Position} {ls : List Char} (hs : s.mode = .word start ls)
    (hc : isLetter c = true) : Took s c { s with mode := .word start (c :: ls) }
  | wordEnd {c : Char} {start : Position} {ls : List Char} {t : Token} {m : Scan}
    (hs : s.mode = .word start ls) (hc : isLetter c = false)
    (ht : wordToken? (s.tokens.map Located.token).head? ls.reverse (c != '"') = some t)
    (h : Begins (s.emit t start) c m) : Took s c m
  | noWord {c : Char} {start : Position} {ls : List Char} (hs : s.mode = .word start ls)
    (hc : isLetter c = false)
    (ht : wordToken? (s.tokens.map Located.token).head? ls.reverse (c != '"') = none) :
    Took s c { s with mode := .stuck start }
  | stringEnd {start : Position} {ls : List Char} (hs : s.mode = .string start ls) :
    Took s '"' (s.emit (.leaf (.string (String.ofList ('"' :: ls).reverse))) start)
  | plain {c : Char} {start : Position} {ls : List Char} (hs : s.mode = .string start ls)
    (hquote : c ≠ '"') (hslash : c ≠ '\\') : Took s c
      { s with mode := .string start (c :: ls) }
  | slash {start : Position} {ls : List Char} (hs : s.mode = .string start ls) :
    Took s '\\' { s with mode := .escape start ('\\' :: ls) }
  | escaped {c : Char} {start : Position} {ls : List Char} (hs : s.mode = .escape start ls)
    (hline : c ≠ '\n') : Took s c { s with mode := .string start (c :: ls) }
  | noEscape {start : Position} {ls : List Char} (hs : s.mode = .escape start ls) :
    Took s '\n' { s with mode := .stuck start }
  | stuck {c : Char} {p : Position} (hs : s.mode = .stuck p) : Took s c s

theorem took_word (hs : s.mode = .word start ls) (c : Char) : Took s c (s.take c) := by
  rw [take, hs]
  by_cases hc : isLetter c = true
  · have hgo : ¬ (isDelimiter c || decide (c = '"')) = true := by simpa [isLetter] using hc
    simp only [if_neg hgo]
    exact .letter hs hc
  · have hc : isLetter c = false := by simpa using hc
    simp only [if_pos (ends_of_isLetter hc), endWord_eq]
    cases ht : wordToken? (s.tokens.map Located.token).head? ls.reverse (c != '"') with
    | none => exact .noWord hs hc ht
    | some t => exact .wordEnd hs hc ht (begins _ c)

/-- Whatever the mode, a character is taken in one of these ways. -/
theorem took (s : Scan) (c : Char) : Took s c (s.take c) := by
  cases hs : s.mode with
  | word start ls => exact took_word hs c
  | between =>
    rw [take, hs]
    exact .start hs (begins s c)
  | comment =>
    by_cases hc : c = '\n'
    · subst hc
      simpa [take, hs] using Took.commentEnd hs
    · simpa [take, hs, hc] using Took.comment hs hc
  | string start ls =>
    by_cases hquote : c = '"'
    · subst hquote
      simpa [take, hs] using Took.stringEnd hs
    by_cases hslash : c = '\\'
    · subst hslash
      simpa [take, hs] using Took.slash hs
    · simpa [take, hs, hquote, hslash] using Took.plain hs hquote hslash
  | escape start ls =>
    by_cases hline : c = '\n'
    · subst hline
      simpa [take, hs] using Took.noEscape hs
    · simpa [take, hs, hline] using Took.escaped hs hline
  | stuck p => simpa [take, hs] using Took.stuck hs

/-- A word that a scan has come to the end of is its token. -/
theorem Between.word {t : Token} (h : s.Between ts) (hne : cs ≠ [])
    (hcs : ∀ c ∈ cs, isLetter c = true) (ht : wordToken? ts.head? cs true = some t) :
    (cs.foldl step s).Settled (t :: ts) := by
  obtain ⟨hmode, htokens⟩ := foldl_word h.mode hne hcs
  have hprev : (cs.foldl step s).tokens.map Located.token = ts := by rw [htokens, h.tokens]
  have hfinish : (cs.foldl step s).finish = (cs.foldl step s).emit t s.position := by
    simp only [finish, hmode, endWord_eq, List.reverse_reverse, hprev, ht]
  rw [Settled, hfinish]
  exact .emit hprev _ _

theorem isBoolean_of_head (h : cs.head? ≠ some '#') : isBoolean cs = false := by
  by_contra hb
  simp only [isBoolean, Bool.not_eq_false, List.contains_iff_mem, List.mem_cons,
    List.not_mem_nil, or_false] at hb
  rcases hb with rfl | rfl | rfl | rfl
  all_goals simp at h

theorem wordToken?_number {x : String} (prev : Option Token)
    (h : (Numeral.ofChars? x.toList).isSome = true) :
    wordToken? prev x.toList true = some (.leaf (.number x)) := by
  have hword : ¬ x.toList = ['.'] := by
    intro he
    rw [he] at h
    cases h
  simp [wordToken?, hword, h]

/-- A name is scanned as a number or a dot if it looks like one there, and else as itself. -/
theorem Between.name {x : String} (h : s.Between ts) (hx : isSymbol x = true) :
    (x.toList.foldl step s).Settled (Token.rescanned ts.head? (.leaf (.symbol x)) :: ts) := by
  simp only [isSymbol, Bool.and_eq_true, Bool.not_eq_true',
    List.isEmpty_eq_false_iff, bne_iff_ne, List.all_eq_true] at hx
  obtain ⟨⟨hne, hhead⟩, hletters⟩ := hx
  refine h.word hne hletters ?_
  by_cases hdot : x = "."
  · subst hdot
    rfl
  · have hword : ¬ x.toList = ['.'] := fun he => hdot (String.toList_injective he)
    by_cases hnum : (Numeral.ofChars? x.toList).isSome = true
    · rw [wordToken?_number _ hnum, Token.rescanned, if_neg hdot, if_pos hnum]
    · rw [Token.rescanned, if_neg hdot, if_neg hnum]
      simp [wordToken?, hword, hnum, isBoolean_of_head hhead, hhead]

theorem Between.number {x : String} (h : s.Between ts) (hne : x.toList ≠ [])
    (hletters : ∀ c ∈ x.toList, isLetter c = true)
    (hnum : (Numeral.ofChars? x.toList).isSome = true) :
    (x.toList.foldl step s).Settled (.leaf (.number x) :: ts) :=
  h.word hne hletters (wordToken?_number _ hnum)

theorem Between.boolean (h : s.Between ts) (b : Bool) :
    ((Atom.write (.bool b)).toList.foldl step s).Settled
      (.leaf (.boolean (Atom.write (.bool b))) :: ts) := by
  have hletters : (Atom.write (.bool b)).toList.all isLetter = true := by
    cases b <;> decide
  refine h.word (by cases b <;> decide) (List.all_eq_true.mp hletters) ?_
  cases b <;> rfl

/-- A point that stands alone. -/
theorem Between.point (h : s.Between ts) : (s.step '.').Settled (.point ts.head? :: ts) :=
  h.word (List.cons_ne_nil '.' []) (List.forall_mem_singleton.mpr rfl) rfl

/-- The body of a string: a backslash takes the character after it along, which is no line
feed. -/
inductive StringBody : List Char → Prop
  | nil : StringBody []
  | plain {c : Char} {cs : List Char} (hquote : c ≠ '"') (hslash : c ≠ '\\')
      (h : StringBody cs) :
    StringBody (c :: cs)
  | escape {c : Char} {cs : List Char} (hline : c ≠ '\n') (h : StringBody cs) :
    StringBody ('\\' :: c :: cs)

/-- Every quote and backslash of a text is escaped. -/
theorem stringBody_escape (cs : List Char) : StringBody (Text.escape cs) := by
  induction cs with
  | nil => exact .nil
  | cons c cs ih =>
    by_cases hc : c = '\\' ∨ c = '"'
    · have hline : c ≠ '\n' := by
        rintro rfl
        simp at hc
      rw [Text.escape, if_pos hc]
      exact .escape hline ih
    · rw [Text.escape, if_neg hc]
      rw [not_or] at hc
      exact .plain hc.2 hc.1 ih

/-- Inside a string nothing but its closing quote ends it. -/
theorem StringBody.foldl (h : StringBody cs) (hs : s.mode = .string start ls) :
    (cs.foldl step s).mode = .string start (cs.reverse ++ ls) ∧ (cs.foldl step s).tokens =
      s.tokens := by
  induction h generalizing s ls with
  | nil => exact ⟨hs, rfl⟩
  | @plain c cs hquote hslash _ ih =>
    have hstep : (s.step c).mode = .string start (c :: ls) ∧ (s.step c).tokens = s.tokens := by
      simp [step, take, hs, hquote, hslash]
    obtain ⟨hmode, htokens⟩ := ih hstep.1
    rw [List.foldl_cons, hmode, htokens, hstep.2]
    simp
  | @escape c cs hline _ ih =>
    have hstep : ((s.step '\\').step c).mode = .string start (c :: '\\' :: ls) ∧
        ((s.step '\\').step c).tokens = s.tokens := by
      simp [step, take, hs, hline]
    obtain ⟨hmode, htokens⟩ := ih hstep.1
    rw [List.foldl_cons, List.foldl_cons, hmode, htokens, hstep.2]
    simp

/-- A string from its first double quote to its last. -/
theorem StringBody.foldl_quoted (h : StringBody cs) (hs : s.mode = .between) :
    (('"' :: (cs ++ ['"'])).foldl step s).mode = .between ∧
      (('"' :: (cs ++ ['"'])).foldl step s).tokens =
        ⟨.leaf (.string (String.ofList ('"' :: (cs ++ ['"'])))), s.position⟩ :: s.tokens := by
  have hopen : (s.step '"').mode = .string s.position ['"'] ∧ (s.step '"').tokens =
      s.tokens := by
    simp [step, take, hs, begin, isSkipped]
  obtain ⟨hmode, htokens⟩ := h.foldl hopen.1
  rw [List.foldl_cons, List.foldl_append, List.foldl_cons, List.foldl_nil, step, take, hmode]
  simp [Scan.emit, htokens, hopen.2]

theorem Between.string (h : s.Between ts) (text : String) :
    ((Text.quote text).toList.foldl step s).Settled
      (.leaf (.string (Text.quote text)) :: ts) := by
  have hquote : (Text.quote text).toList = '"' :: (Text.escape text.toList ++ ['"']) := by
    simp [Text.quote]
  obtain ⟨hmode, htokens⟩ := (stringBody_escape text.toList).foldl_quoted h.mode
  rw [← hquote, String.ofList_toList] at htokens
  rw [← hquote] at hmode
  exact Between.settled ⟨hmode, by rw [htokens, List.map_cons, h.tokens]⟩

/-- The characters that end a word, as blocks of code points. -/
def endBlocks : List (Nat × Nat) :=
  Text.spaceBlocks ++ [(34, 34), (39, 41), (59, 59), (91, 91), (93, 93)]

theorem inBlocks_of_not_isLetter (h : isLetter c = false) :
    Text.inBlocks endBlocks c = true := by
  rw [endBlocks, Text.inBlocks, List.any_append, Bool.or_eq_true]
  simp only [isLetter, isDelimiter, Bool.and_eq_false_iff, Bool.not_eq_false', Bool.or_eq_true,
    decide_eq_true_eq, bne_eq_false_iff_eq] at h
  obtain ((((((hspace | rfl) | rfl) | rfl) | rfl) | rfl) | rfl) | rfl := h
  · exact .inl hspace
  all_goals exact .inr (by decide)

theorem zeros_apart :
    ∀ first ∈ Text.zeros, ∀ b ∈ endBlocks, first + 9 < b.1 ∨ b.2 < first := by
  decide +kernel

/-- A digit of any script goes on with a word. -/
theorem isLetter_of_digit? {d : Nat} (h : Text.digit? c = some d) : isLetter c = true := by
  obtain ⟨first, hfirst, hd⟩ := List.exists_of_findSome?_eq_some h
  split at hd
  · rename_i hrange
    by_contra hletter
    have hblock := inBlocks_of_not_isLetter (Bool.eq_false_of_not_eq_true hletter)
    simp only [Text.inBlocks, List.any_eq_true, Bool.and_eq_true, decide_eq_true_eq] at hblock
    obtain ⟨b, hb, hc⟩ := hblock
    have hapart := zeros_apart first hfirst b hb
    omega
  · cases hd

theorem isLetter_of_isDigit (h : c.isDigit = true) : isLetter c = true :=
  isLetter_of_digit? (Text.digit?_eq h)

theorem isLetter_of_mem_text {n : Int} (h : c ∈ (Number.text (.int n)).toList) :
    isLetter c = true := by
  have htext : Number.text (.int n) = n.repr := rfl
  rw [htext, Int.repr_eq_if] at h
  split at h
  · rw [Nat.repr_eq_ofList_toDigits, String.toList_ofList] at h
    exact isLetter_of_isDigit (Numeral.isDigit_of_mem h)
  · rw [String.toList_append, Nat.repr_eq_ofList_toDigits, String.toList_ofList,
      String.toList_ofList, List.mem_append] at h
    rcases h with h | h
    · obtain rfl : c = '-' := by simpa using h
      decide
    · exact isLetter_of_isDigit (Numeral.isDigit_of_mem h)

/-- Every symbol so far has the characters of one, and so has the word under way. -/
structure Sound (s : Scan) : Prop where
  symbols : ∀ t ∈ s.tokens, ∀ x, t.token = .leaf (.symbol x) → isSymbol x = true
  letters : ∀ start ls, s.mode = .word start ls → ls ≠ [] ∧ ∀ c ∈ ls, isLetter c = true

theorem Sound.emit {t : Token} (h : s.Sound)
    (ht : ∀ x, t = .leaf (.symbol x) → isSymbol x = true) (p : Position) :
    (s.emit t p).Sound where
  symbols := List.forall_mem_cons.mpr ⟨ht, h.symbols⟩
  letters _ _ hm := by cases hm

theorem Sound.mode {m : Mode} (h : s.Sound)
    (hm : ∀ start ls, m = .word start ls → ls ≠ [] ∧ ∀ c ∈ ls, isLetter c = true) :
    Sound { s with mode := m } :=
  ⟨h.symbols, hm⟩

/-- A word that is scanned as a symbol has the characters of one. -/
theorem isSymbol_of_wordToken? {prev : Option Token}
    {delimited : Bool} {x : String} (hne : cs ≠ []) (hcs : ∀ c ∈ cs, isLetter c = true)
    (h : wordToken? prev cs delimited = some (.leaf (.symbol x))) : isSymbol x = true := by
  unfold wordToken? at h
  split_ifs at h with _ _ _ hhead
  · unfold Token.point at h
    split at h
    · cases h
    · cases h
      decide
  · cases h
  · cases h
  · cases h
    simp_all [isSymbol]

theorem Sound.emit_word
    {t : Token} {delimited : Bool} (h : s.Sound) (hs : s.mode = .word start ls)
    (ht : wordToken? (s.tokens.map Located.token).head? ls.reverse delimited = some t) :
    (s.emit t start).Sound := by
  obtain ⟨hne, hls⟩ := h.letters start ls hs
  refine h.emit (fun x hx => ?_) start
  subst hx
  exact isSymbol_of_wordToken? (by simpa using hne) (by simpa using hls) ht

theorem Sound.begins {m : Scan} (h : s.Sound) (hm : Begins s c m) : m.Sound := by
  cases hm with
  | mark hmark =>
    refine h.emit (fun x hx => ?_) _
    subst hx
    simp [Token.marks] at hmark
  | word hc =>
    refine h.mode fun start ls hm => ?_
    cases hm
    exact ⟨by simp, by simpa using hc⟩
  | _ => exact h.mode fun _ _ hm => by cases hm

theorem Sound.take (h : s.Sound) (c : Char) : (s.take c).Sound := by
  have htook := took s c
  generalize s.take c = m at htook
  cases htook with
  | start _ hm => exact h.begins hm
  | comment => exact h
  | letter hs hc =>
    obtain ⟨_, hls⟩ := h.letters _ _ hs
    refine h.mode fun start ls hm => ?_
    cases hm
    exact ⟨by simp, List.forall_mem_cons.mpr ⟨hc, hls⟩⟩
  | wordEnd hs _ ht hm => exact (h.emit_word hs ht).begins hm
  | stringEnd => exact h.emit (fun x hx => by cases hx) _
  | stuck => exact h
  | _ => exact h.mode fun _ _ hm => by cases hm

theorem Sound.step (h : s.Sound) (c : Char) : (s.step c).Sound :=
  ⟨(h.take c).symbols, (h.take c).letters⟩

theorem Sound.finish (h : s.Sound) : s.finish.Sound := by
  unfold Scan.finish
  cases hs : s.mode with
  | word start ls =>
    simp only [endWord_eq]
    cases ht : wordToken? (s.tokens.map Located.token).head? ls.reverse true with
    | none => exact h.mode fun _ _ hm => by cases hm
    | some t => exact h.emit_word hs ht
  | string start ls => exact h.mode fun _ _ hm => by cases hm
  | escape start ls => exact h.mode fun _ _ hm => by cases hm
  | _ => exact h

theorem sound_ofChars (cs : List Char) : (ofChars cs).Sound := by
  have hfold : ∀ s : Scan, s.Sound → (cs.foldl Scan.step s).Sound := by
    induction cs with
    | nil => exact fun _ h => h
    | cons c cs ih => exact fun s h => ih _ (h.step c)
  exact (hfold {} ⟨by simp, fun _ _ hm => by cases hm⟩).finish

end Scan

/-- What stands at the leaves of written syntax: a name or a constant. -/
inductive Lexeme where
  | name (x : String)
  | atom (a : Atom)
deriving DecidableEq, Repr

namespace Lexeme

/-- The written form of a lexeme. -/
def text : Lexeme → String
  | .name x => x
  | .atom a => a.write

/-- The token that the written form of a lexeme is. -/
def leaf : Lexeme → Leaf
  | .name x => .symbol x
  | .atom (.num n) => .number n.text
  | .atom (.bool b) => .boolean (Atom.write (.bool b))
  | .atom (.str s) => .string (Text.quote s)

def datum : Lexeme → Datum
  | .name x => .sym x
  | .atom a => .atom a

/-- A name has the characters of a symbol, and a whole number is within the limit of digits. -/
def isScanned : Lexeme → Bool
  | .name x => Scan.isSymbol x
  | .atom (.num (.int n)) => Numeral.fits n
  | .atom _ => true

def isFloat : Lexeme → Bool
  | .atom (.num (.float _)) => true
  | _ => false

/-- The lexeme is no float, and no name that looks like a number or a dot. -/
def isPlain : Lexeme → Bool
  | .name x => (Numeral.ofChars? x.toList).isNone && x != "."
  | .atom (.num (.float _)) => false
  | .atom _ => true

theorem isFloat_of_isPlain {l : Lexeme} (h : l.isPlain = true) : l.isFloat = false := by
  rcases l with x | a
  · rfl
  · rcases a with n | b | s
    · cases n with
      | int n => rfl
      | float x => cases h
    · rfl
    · rfl

/-- Source text can hold the lexeme. -/
abbrev Scanned (l : Lexeme) : Prop := l.isScanned = true

/-- The lexeme can be read back from its written form. -/
abbrev Readable (l : Lexeme) : Prop := l.Scanned ∧ l.isPlain = true

variable {l : Lexeme} {s : Scan} {ts : List Token}

/-- Scanning a written lexeme gives its token, if that looks like itself there. -/
theorem scanned (h : s.Between ts) (hs : l.isScanned = true) (hfloat : l.isFloat = false) :
    (l.text.toList.foldl Scan.step s).Settled
      (Token.rescanned ts.head? (.leaf l.leaf) :: ts) := by
  cases l with
  | name x => exact h.name hs
  | atom a =>
    cases a with
    | num n =>
      cases n with
      | int n =>
        obtain ⟨m, hm, _⟩ := Numeral.ofChars?_text hs
        have hne : (Number.text (.int n)).toList ≠ [] := by
          intro he
          rw [he] at hm
          cases hm
        exact h.number hne (fun _ hc => Scan.isLetter_of_mem_text hc) (Option.isSome_of_mem hm)
      | float x => cases hfloat
    | bool b => exact h.boolean b
    | str text => exact h.string text

/-- The token of a written lexeme stands for the lexeme. -/
theorem datum_leaf (hs : l.isScanned = true) (hfloat : l.isFloat = false) :
    l.leaf.datum = .ok l.datum := by
  cases l with
  | name x => rfl
  | atom a =>
    cases a with
    | num n =>
      cases n with
      | int n =>
        obtain ⟨m, hm, hvalue⟩ := Numeral.ofChars?_text hs
        simp [leaf, Leaf.datum, hm, hvalue, datum]
      | float x => cases hfloat
    | bool b => cases b <;> rfl
    | str text =>
      have hbody : Leaf.body (Text.quote text) = Text.escape text.toList := by
        simp [Leaf.body, Text.quote]
      simp [leaf, Leaf.datum, hbody, Text.unescape_escape, datum]

end Lexeme

end TypedL5
