import TypedL5.Proofs.Scanned

/-!
The lexical rules, and that scanning follows them.

At each place the text goes on with a character to skip, a comment or a token. Numbers,
booleans and dots come before symbols and need a delimiter behind them, which is only looked
at. A symbol goes on as long as it can.
-/
namespace TypedL5

/-- The place right after a text that begins at a place. -/
def Position.after (p : Position) (cs : List Char) : Position := cs.foldl Position.next p

/-- The text is at its end or goes on with a delimiter. -/
def delimits (rest : List Char) : Bool := rest.head?.all Scan.isDelimiter

/-- The `text` is a token, after the token `prev` and before the text `rest`. -/
inductive IsToken (prev : Option Token) (rest : List Char) : List Char → Token → Prop
  | mark {c : Char} {t : Token} (h : (c, t) ∈ Token.marks) : IsToken prev rest [c] t
  | string {body : List Char} (h : Scan.StringBody body) :
    IsToken prev rest ('"' :: (body ++ ['"']))
      (.leaf (.string (String.ofList ('"' :: (body ++ ['"'])))))
  | dot (hend : delimits rest = true) (hprev : Token.takesDot prev = true) :
    IsToken prev rest ['.'] .dot
  | number {text : List Char} (hend : delimits rest = true)
      (h : (Numeral.ofChars? text).isSome = true) :
    IsToken prev rest text (.leaf (.number (String.ofList text)))
  | boolean {text : List Char} (hend : delimits rest = true) (h : Scan.isBoolean text = true) :
    IsToken prev rest text (.leaf (.boolean (String.ofList text)))
  | symbol {text : List Char} (h : Scan.isSymbol (String.ofList text) = true)
    (hend : ∀ c ∈ rest.head?, Scan.isLetter c = false)
    (hnumber : delimits rest = true → (Numeral.ofChars? text).isSome = false)
    (hdot : delimits rest = true → text = ['.'] → Token.takesDot prev = false) :
    IsToken prev rest text (.leaf (.symbol (String.ofList text)))

/-- The text is made of these tokens, from the place `p` on and after the token `prev`. -/
inductive Lexes : Position → Option Token → List Char → List Located → Prop
  | done (p : Position) (prev : Option Token) : Lexes p prev [] []
  | space {p : Position} {prev : Option Token} {c : Char} {cs : List Char} {ts : List Located}
    (hc : Scan.isSkipped c = true) (h : Lexes (p.next c) prev cs ts) : Lexes p prev
      (c :: cs) ts
  | comment {p : Position} {prev : Option Token} {body rest : List Char} {ts : List Located}
    (hbody : ∀ c ∈ body, c ≠ '\n') (hend : ∀ c ∈ rest.head?, c = '\n')
    (h : Lexes (p.after (';' :: body)) prev rest ts) : Lexes p prev (';' :: (body ++ rest)) ts
  | token {p : Position} {prev : Option Token} {text rest : List Char} {t : Token}
    {ts : List Located}
    (ht : IsToken prev rest text t) (h : Lexes (p.after text) (some t) rest ts) :
    Lexes p prev (text ++ rest) (⟨t, p⟩ :: ts)

/-- Digits are taken off the front of a text, and they are letters of a word. -/
theorem Text.takeDigits_eq_append (cs : List Char) :
    ∃ ds, cs = ds ++ (takeDigits cs).2 ∧ ∀ c ∈ ds, Scan.isLetter c = true := by
  induction cs with
  | nil => exact ⟨[], rfl, by simp⟩
  | cons c cs ih =>
    obtain ⟨ds, he, hds⟩ := ih
    cases hc : digit? c with
    | none => exact ⟨[], by simp [takeDigits, hc], by simp⟩
    | some d =>
      refine ⟨c :: ds, ?_, List.forall_mem_cons.mpr ⟨Scan.isLetter_of_digit? hc, hds⟩⟩
      simpa [takeDigits, hc] using he

namespace Numeral

theorem isLetter_of_ofUnsigned? {negative : Bool} {cs : List Char} {n : Numeral}
    (h : ofUnsigned? negative cs = some n) : ∀ c ∈ cs, Scan.isLetter c = true := by
  obtain ⟨ds, he, hds⟩ := Text.takeDigits_eq_append cs
  unfold ofUnsigned? at h
  split at h
  · rename_i hrest
    rw [he, hrest, List.append_nil]
    exact hds
  · rename_i rest hrest
    obtain ⟨fs, hfs, hletters⟩ := Text.takeDigits_eq_append rest
    split at h
    · rename_i hempty
      rw [hempty, List.append_nil] at hfs
      rw [he, hrest, List.forall_mem_append, List.forall_mem_cons, hfs]
      exact ⟨hds, by decide, hletters⟩
    · cases h
  · cases h

/-- A numeral is made of letters, as a symbol is. -/
theorem isLetter_of_ofChars? {cs : List Char} (h : (ofChars? cs).isSome = true) :
    cs ≠ [] ∧ ∀ c ∈ cs, Scan.isLetter c = true := by
  obtain ⟨n, hn⟩ := Option.isSome_iff_exists.mp h
  constructor
  · rintro rfl
    cases hn
  · unfold ofChars? at hn
    split at hn
    · exact List.forall_mem_cons.mpr ⟨by decide, isLetter_of_ofUnsigned? hn⟩
    · exact List.forall_mem_cons.mpr ⟨by decide, isLetter_of_ofUnsigned? hn⟩
    · exact isLetter_of_ofUnsigned? hn

end Numeral

namespace Scan

variable {s : Scan} {p : Position} {prev : Option Token} {c : Char}
  {cs text body rest ls : List Char} {t : Token} {ts : List Located} {start : Position}

theorem isLetter_of_delimits (h : delimits rest = true) :
    ∀ c ∈ rest.head?, isLetter c = false := by
  cases rest with
  | nil => simp
  | cons c rest =>
    have hc : isDelimiter c = true := by simpa [delimits] using h
    simp [isLetter, hc]

theorem wordToken?_of_isBoolean (prev : Option Token) (h : isBoolean text = true) :
    text ≠ [] ∧ (∀ c ∈ text, isLetter c = true) ∧
      wordToken? prev text true = some (.leaf (.boolean (String.ofList text))) := by
  simp only [isBoolean, List.contains_iff_mem, List.mem_cons, List.not_mem_nil, or_false] at h
  rcases h with rfl | rfl | rfl | rfl
  all_goals exact ⟨by simp, List.all_eq_true.mp (by decide), rfl⟩

theorem isSymbol_iff : isSymbol (String.ofList text) = true ↔
    text ≠ [] ∧ text.head? ≠ some '#' ∧ ∀ c ∈ text, isLetter c = true := by
  simp [isSymbol, and_assoc]

theorem wordToken?_of_isSymbol (h : isSymbol (String.ofList text) = true) {delimited : Bool}
    (hnumber : delimited = true → (Numeral.ofChars? text).isSome = false)
    (hdot : delimited = true → text = ['.'] → Token.takesDot prev = false) :
    wordToken? prev text delimited = some (.leaf (.symbol (String.ofList text))) := by
  obtain ⟨_, hhead, _⟩ := isSymbol_iff.mp h
  cases delimited with
  | false => simp [wordToken?, hhead]
  | true =>
    by_cases hword : text = ['.']
    · subst hword
      simp [wordToken?, Token.point, hdot rfl rfl]
    · simp [wordToken?, hword, hnumber rfl, isBoolean_of_head hhead, hhead]

/-- A word that is a token follows the rules. -/
theorem isToken_of_wordToken? (hne : text ≠ []) (hletters : ∀ c ∈ text, isLetter c = true)
    (hend : ∀ c ∈ rest.head?, isLetter c = false)
    (ht : wordToken? prev text (delimits rest) = some t) : IsToken prev rest text t := by
  -- The tests come in order: a point, a number, a boolean, and what is left is a symbol.
  unfold wordToken? at ht
  split at ht
  · rename_i hdot
    obtain ⟨hdelimits, hword⟩ := Bool.and_eq_true_iff.mp hdot
    obtain rfl : text = ['.'] := by simpa using hword
    cases ht
    cases hprev : Token.takesDot prev with
    | true => simpa [Token.point, hprev] using IsToken.dot hdelimits hprev
    | false =>
      have hsymbol : IsToken prev rest ['.'] (.leaf (.symbol (String.ofList ['.']))) :=
        .symbol (by decide) hend (fun _ => rfl) (fun _ _ => hprev)
      simpa [Token.point, hprev] using hsymbol
  · rename_i hdot
    split at ht
    · rename_i hnumber
      cases ht
      exact .number (Bool.and_eq_true_iff.mp hnumber).1 (Bool.and_eq_true_iff.mp hnumber).2
    · rename_i hnumber
      split at ht
      · rename_i hboolean
        cases ht
        exact .boolean (Bool.and_eq_true_iff.mp hboolean).1
          (Bool.and_eq_true_iff.mp hboolean).2
      · split at ht
        · cases ht
        · rename_i hhead
          cases ht
          refine .symbol (isSymbol_iff.mpr ⟨hne, by simpa using hhead, hletters⟩) hend ?_ ?_
          · intro hdelimits
            simpa [hdelimits] using hnumber
          · intro hdelimits hword
            simp [hdelimits, hword] at hdot

/-- What becomes of the rest of a text: the place where the scan gets stuck, if it does, and
the tokens. -/
def reading (s : Scan) (cs : List Char) : Option Position × List Located :=
  ((cs.foldl step s).finish.stuck?, (cs.foldl step s).finish.tokens)

theorem reading_append (s : Scan) (cs ds : List Char) :
    reading s (cs ++ ds) = reading (cs.foldl step s) ds := by
  simp [reading]

theorem reading_congr {s' : Scan} (h : s.step c = s'.step c) (cs : List Char) :
    reading s (c :: cs) = reading s' (c :: cs) := by
  simp only [reading, List.foldl_cons, h]

/-- Once the scan is stuck, it stays where it is and finds no more tokens. -/
theorem foldl_stuck (h : s.mode = .stuck p) (cs : List Char) :
    (cs.foldl step s).mode = .stuck p ∧ (cs.foldl step s).tokens = s.tokens := by
  induction cs generalizing s with
  | nil => exact ⟨h, rfl⟩
  | cons c cs ih =>
    have hstep : (s.step c).mode = .stuck p ∧ (s.step c).tokens = s.tokens := by
      simp [step, take, h]
    obtain ⟨hmode, htokens⟩ := ih hstep.1
    exact ⟨hmode, htokens.trans hstep.2⟩

/-- What has got stuck stays stuck. -/
theorem reading_stuck (h : s.mode = .stuck p) (cs : List Char) :
    reading s cs = (some p, s.tokens) := by
  obtain ⟨hmode, htokens⟩ := foldl_stuck h cs
  simp [reading, finish, stuck?, hmode, htokens]

theorem mode_endWord (s : Scan) (start : Position) (ls : List Char) (delimited : Bool) :
    (s.endWord start ls delimited).mode = .between ∨ (s.endWord start ls delimited).mode =
      .stuck start := by
  rw [endWord_eq]
  split
  · exact .inl rfl
  · exact .inr rfl

/-- A word has ended where no letter follows. -/
theorem reading_word (hs : s.mode = .word start ls)
    (hend : ∀ c ∈ rest.head?, isLetter c = false) :
    reading s rest = reading (s.endWord start ls (delimits rest)) rest := by
  have hmode := mode_endWord s start ls (delimits rest)
  cases rest with
  | nil =>
    have hfinish : s.finish = s.endWord start ls true := by simp only [finish, hs]
    have hended : ∀ m : Scan, m.mode = .between ∨ m.mode = .stuck start → m.finish = m := by
      rintro m (hm | hm) <;> simp only [finish, hm]
    have hdelimits : delimits [] = true := rfl
    rw [hdelimits] at hmode ⊢
    simp only [reading, List.foldl_nil, hfinish, hended _ hmode]
  | cons c rest =>
    have hc : isLetter c = false := hend c rfl
    have hquote : (c != '"') = isDelimiter c := by
      by_cases hq : c = '"'
      · subst hq
        decide
      · have hd : isDelimiter c = true := by simpa [isLetter, hq] using hc
        simp [hq, hd]
    have hdelimits : delimits (c :: rest) = isDelimiter c := rfl
    rw [hdelimits] at hmode ⊢
    -- The character that ends the word is taken as if the word had ended before it.
    have htake : s.take c = (s.endWord start ls (isDelimiter c)).take c := by
      rw [take, hs]
      simp only [ends_of_isLetter hc, if_true, hquote]
      rcases hmode with hm | hm <;> simp only [take, hm]
    have hposition : (s.endWord start ls (isDelimiter c)).position = s.position := by
      rw [endWord_eq]
      split <;> rfl
    refine reading_congr ?_ rest
    rw [step, step, htake, hposition]

theorem foldl_comment (hs : s.mode = .comment) (hbody : ∀ c ∈ body, c ≠ '\n') :
    (body.foldl step s).mode = .comment ∧ (body.foldl step s).tokens = s.tokens := by
  induction body generalizing s with
  | nil => exact ⟨hs, rfl⟩
  | cons c body ih =>
    obtain ⟨hc, hbody⟩ := List.forall_mem_cons.mp hbody
    have hstep : (s.step c).mode = .comment ∧ (s.step c).tokens = s.tokens := by
      simp [step, take, hs, hc]
    obtain ⟨hmode, htokens⟩ := ih hstep.1 hbody
    exact ⟨hmode, htokens.trans hstep.2⟩

/-- A comment has ended at the end of its line. -/
theorem reading_comment (hs : s.mode = .comment) (hend : ∀ c ∈ rest.head?, c = '\n') :
    reading s rest = reading { s with mode := .between } rest := by
  cases rest with
  | nil => simp [reading, finish, stuck?, hs]
  | cons c rest =>
    obtain rfl : c = '\n' := hend c rfl
    refine reading_congr ?_ rest
    simp [step, take, hs, begin, isSkipped]

/-- A scan stands between tokens, at the place `p` and after the token `prev`. -/
structure At (s : Scan) (p : Position) (prev : Option Token) : Prop where
  mode : s.mode = .between
  position : s.position = p
  prev : (s.tokens.map Located.token).head? = prev

theorem At.moved (hs : s.At p prev) (q : Position) :
    At { position := q, tokens := s.tokens } q prev :=
  ⟨rfl, rfl, hs.prev⟩

/-- A word is scanned as a whole, and what it is depends on the token before and on what
follows. -/
theorem At.word (hs : s.At p prev) (hne : text ≠ []) (hletters : ∀ c ∈ text, isLetter c = true)
    (hend : ∀ c ∈ rest.head?, isLetter c = false) :
    reading s (text ++ rest) =
      match wordToken? prev text (delimits rest) with
      | some t => reading { position := p.after text, tokens := ⟨t, p⟩ :: s.tokens } rest
      | none => (some p, s.tokens) := by
  obtain ⟨hmode, htokens⟩ := foldl_word hs.mode hne hletters
  have hposition : (text.foldl step s).position = p.after text := by
    rw [position_foldl, hs.position, Position.after]
  rw [reading_append, reading_word hmode hend, endWord_eq, List.reverse_reverse, htokens,
    hs.prev, hs.position]
  cases wordToken? prev text (delimits rest) with
  | none => rw [reading_stuck (p := p) rfl]
  | some t => simp [emit, htokens, hposition]

theorem At.mark (hs : s.At p prev) (h : (c, t) ∈ Token.marks) :
    s.step c = { position := p.next c, tokens := ⟨t, p⟩ :: s.tokens } := by
  have htake : s.take c = s.emit t s.position := by
    rw [take, hs.mode]
    simp only [Token.marks, List.mem_cons, Prod.mk.injEq, List.not_mem_nil, or_false] at h
    rcases h with ⟨rfl, rfl⟩ | ⟨rfl, rfl⟩ | ⟨rfl, rfl⟩ | ⟨rfl, rfl⟩ | ⟨rfl, rfl⟩
    all_goals rfl
  rw [step, htake, hs.position]
  rfl

/-- A string is scanned as a whole, with all escapes in it. -/
theorem At.string (hs : s.At p prev) (h : StringBody body) :
    ('"' :: (body ++ ['"'])).foldl step s =
      { position := p.after ('"' :: (body ++ ['"']))
        tokens := ⟨.leaf (.string (String.ofList ('"' :: (body ++ ['"'])))), p⟩ ::
          s.tokens } := by
  obtain ⟨hmode, htokens⟩ := h.foldl_quoted hs.mode
  have hposition := position_foldl ('"' :: (body ++ ['"'])) s
  generalize ('"' :: (body ++ ['"'])).foldl step s = m at hmode htokens hposition
  obtain ⟨position, mode, tokens⟩ := m
  simp only at hmode htokens hposition
  rw [hmode, htokens, hposition, hs.position]
  rfl

/-- A token by the rules is what the scan comes upon. -/
theorem At.token (hs : s.At p prev) (h : IsToken prev rest text t) :
    reading s (text ++ rest) =
      reading { position := p.after text, tokens := ⟨t, p⟩ :: s.tokens } rest := by
  cases h with
  | mark h =>
    rw [reading_append, List.foldl_cons, List.foldl_nil, hs.mark h]
    rfl
  | string h => rw [reading_append, hs.string h]
  | dot hend hprev =>
    have hword : wordToken? prev ['.'] (delimits rest) = some .dot := by
      simp [wordToken?, hend, Token.point, hprev]
    rw [hs.word (by simp) (List.forall_mem_singleton.mpr rfl)
      (isLetter_of_delimits hend), hword]
  | number hend h =>
    obtain ⟨hne, hletters⟩ := Numeral.isLetter_of_ofChars? h
    have hword : wordToken? prev text true = some (.leaf (.number (String.ofList text))) := by
      simpa using wordToken?_number (x := String.ofList text) prev (by simpa using h)
    rw [hs.word hne hletters (isLetter_of_delimits hend), hend, hword]
  | boolean hend h =>
    obtain ⟨hne, hletters, hword⟩ := wordToken?_of_isBoolean prev h
    rw [hs.word hne hletters (isLetter_of_delimits hend), hend, hword]
  | symbol h hend hnumber hdot =>
    obtain ⟨hne, _, hletters⟩ := isSymbol_iff.mp h
    rw [hs.word hne hletters hend, wordToken?_of_isSymbol h hnumber hdot]

theorem At.space (hs : s.At p prev) (hc : isSkipped c = true) :
    s.step c = { position := p.next c, tokens := s.tokens } := by
  have htake : s.take c = { s with mode := .between } := by
    rw [take, hs.mode]
    simp [begin, hc]
  rw [step, htake, hs.position]

/-- A comment leaves the scan where it was, but for the place. -/
theorem At.comment (hs : s.At p prev) (hbody : ∀ c ∈ body, c ≠ '\n')
    (hend : ∀ c ∈ rest.head?, c = '\n') : reading s (';' :: (body ++ rest)) =
      reading { position := p.after (';' :: body), tokens := s.tokens } rest := by
  have hopen : (s.step ';').mode = .comment ∧ (s.step ';').tokens = s.tokens := by
    simp [step, take, hs.mode, begin, isSkipped]
  obtain ⟨hmode, htokens⟩ := foldl_comment hopen.1 hbody
  have hposition : (body.foldl step (s.step ';')).position = p.after (';' :: body) := by
    rw [position_foldl]
    simp [step, hs.position, Position.after]
  have hread := reading_comment hmode hend
  rw [htokens, hopen.2, hposition] at hread
  exact (reading_append s (';' :: body) rest).trans hread

/-- A string that the scan gets to the end of. -/
theorem exists_stringBody (hs : s.mode = .string start ls) (h : (reading s cs).1 = none) :
    ∃ body rest, cs = body ++ '"' :: rest ∧ StringBody body := by
  induction hn : cs.length using Nat.strong_induction_on generalizing s cs ls with
  | h n ih =>
    cases cs with
    | nil => simp [reading, finish, stuck?, hs] at h
    | cons c cs =>
      by_cases hquote : c = '"'
      · exact ⟨[], cs, by rw [hquote]; rfl, .nil⟩
      by_cases hslash : c = '\\'
      · subst hslash
        cases cs with
        | nil => simp [reading, step, take, finish, stuck?, hs] at h
        | cons c cs =>
          by_cases hline : c = '\n'
          · -- No character after this one is looked at.
            have hstuck : ((s.step '\\').step c).mode = .stuck start := by
              simp [step, take, hs, hline]
            have hread := reading_stuck hstuck cs
            simp only [reading, List.foldl_cons] at h hread
            rw [Prod.mk.injEq] at hread
            rw [hread.1] at h
            cases h
          · have hmode : ((s.step '\\').step c).mode = .string start (c :: '\\' :: ls) := by
              simp [step, take, hs, hline]
            obtain ⟨body, rest, rfl, hbody⟩ := ih cs.length (by simp at hn; omega) hmode h rfl
            exact ⟨'\\' :: c :: body, rest, rfl, .escape hline hbody⟩
      · have hmode : (s.step c).mode = .string start (c :: ls) := by
          simp [step, take, hs, hquote, hslash]
        obtain ⟨body, rest, rfl, hbody⟩ := ih cs.length (by simp at hn; omega) hmode h rfl
        exact ⟨c :: body, rest, rfl, .plain hquote hslash hbody⟩

theorem exists_split (q : Char → Bool) (cs : List Char) :
    ∃ body rest, cs = body ++ rest ∧ (∀ c ∈ body, q c = true) ∧ ∀ c ∈ rest.head?,
      q c = false := by
  refine ⟨cs.takeWhile q, cs.dropWhile q, List.takeWhile_append_dropWhile.symm,
    List.all_eq_true.mp List.all_takeWhile, fun c hc => ?_⟩
  have hhead := List.head?_dropWhile_not q cs
  rwa [Option.mem_def.mp hc] at hhead

/-- A scan that is not stuck goes on by the rules. -/
theorem At.goesOn (hs : s.At p prev) (h : (reading s (c :: cs)).1 = none) :
    isSkipped c = true ∨
    (∃ body rest, c :: cs = ';' :: (body ++ rest) ∧ (∀ c ∈ body, c ≠ '\n') ∧
      ∀ c ∈ rest.head?, c = '\n') ∨
    ∃ text rest t, c :: cs = text ++ rest ∧ text ≠ [] ∧ IsToken prev rest text t := by
  have hbegins := begins s c
  have htake : s.take c = s.begin c := by rw [take, hs.mode]
  generalize s.begin c = m at hbegins htake
  cases hbegins with
  | space hc => exact .inl hc
  | comment =>
    obtain ⟨body, rest, rfl, hbody, hrest⟩ := exists_split (· != '\n') cs
    exact .inr (.inl ⟨body, rest, rfl, by simpa using hbody, by simpa using hrest⟩)
  | mark hmark => exact .inr (.inr ⟨[c], cs, _, rfl, by simp, .mark hmark⟩)
  | string =>
    have hmode : (s.step '"').mode = .string s.position ['"'] := by rw [step, htake]
    obtain ⟨body, rest, rfl, hbody⟩ := exists_stringBody hmode h
    exact .inr (.inr ⟨'"' :: (body ++ ['"']), rest, _, by simp, by simp, .string hbody⟩)
  | stuck hskip hspace =>
    have hmode : (s.step c).mode = .stuck s.position := by rw [step, htake]
    have hread := congrArg Prod.fst (reading_stuck hmode cs)
    exact absurd (h.symm.trans hread) (by simp)
  | word hc =>
    obtain ⟨word, rest, rfl, hletters, hrest⟩ := exists_split isLetter cs
    have hword : ∀ d ∈ c :: word, isLetter d = true := List.forall_mem_cons.mpr ⟨hc, hletters⟩
    have hread := hs.word (by simp) hword hrest
    cases ht : wordToken? prev (c :: word) (delimits rest) with
    | none =>
      rw [List.cons_append, ht] at hread
      rw [hread] at h
      cases h
    | some t =>
      exact .inr (.inr
        ⟨c :: word, rest, t, rfl, by simp, isToken_of_wordToken? (by simp) hword hrest ht⟩)

end Scan

variable {s : Scan} {p : Position} {prev : Option Token} {cs : List Char} {ts : List Located}

/-- Scanning finds the tokens that a text is made of. -/
theorem Lexes.reading (h : Lexes p prev cs ts) (hs : s.At p prev) :
    s.reading cs = (none, ts.reverse ++ s.tokens) := by
  induction h generalizing s with
  | done p prev => simp [Scan.reading, Scan.finish, Scan.stuck?, hs.mode]
  | @space p prev c cs ts hc _ ih =>
    change (s.step c).reading cs = _
    rw [hs.space hc]
    exact ih (hs.moved _)
  | comment hbody hend _ ih =>
    rw [hs.comment hbody hend]
    exact ih (hs.moved _)
  | token ht _ ih =>
    rw [hs.token ht, ih ⟨rfl, rfl, rfl⟩]
    simp

/-- A text on which the scan does not get stuck is made of tokens. -/
theorem exists_lexes (hs : s.At p prev) (h : (s.reading cs).1 = none) :
    ∃ ts, Lexes p prev cs ts := by
  induction hn : cs.length using Nat.strong_induction_on generalizing s p prev cs with
  | h n ih =>
    cases cs with
    | nil => exact ⟨[], .done p prev⟩
    | cons c cs =>
      rcases hs.goesOn h with hc | ⟨body, rest, he, hbody, hend⟩ | ⟨text, rest, t, he, hne, ht⟩
      · change ((s.step c).reading cs).1 = none at h
        rw [hs.space hc] at h
        obtain ⟨ts, hts⟩ := ih cs.length (by simp at hn; omega) (hs.moved _) h rfl
        exact ⟨ts, .space hc hts⟩
      · rw [he] at h hn ⊢
        rw [hs.comment hbody hend] at h
        obtain ⟨ts, hts⟩ := ih rest.length (by simp at hn; omega) (hs.moved _) h rfl
        exact ⟨ts, .comment hbody hend hts⟩
      · have hpos := List.length_pos_iff.mpr hne
        rw [he] at h hn ⊢
        rw [hs.token ht] at h
        obtain ⟨ts, hts⟩ := ih rest.length (by simp at hn; omega) ⟨rfl, rfl, rfl⟩ h rfl
        exact ⟨_, .token ht hts⟩

/-- A scan does not get stuck exactly on the texts that are made of tokens, and these are its
tokens. -/
theorem lexes_iff : Lexes {} none cs ts ↔
    (Scan.ofChars cs).stuck? = none ∧ (Scan.ofChars cs).tokens.reverse = ts := by
  have hstart : Scan.At {} {} none := ⟨rfl, rfl, rfl⟩
  constructor
  · intro h
    have hread := h.reading hstart
    rw [List.append_nil, Scan.reading, Prod.mk.injEq] at hread
    exact ⟨hread.1, by rw [Scan.ofChars, hread.2, List.reverse_reverse]⟩
  · rintro ⟨hstuck, rfl⟩
    obtain ⟨ts, hts⟩ := exists_lexes hstart hstuck
    have hread := congrArg Prod.snd (hts.reading hstart)
    rw [List.append_nil] at hread
    have htokens : (Scan.ofChars cs).tokens = ts.reverse := hread
    rwa [htokens, List.reverse_reverse]

end TypedL5
