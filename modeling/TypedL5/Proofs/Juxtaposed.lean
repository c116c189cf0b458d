import TypedL5.Exp.Parser
import TypedL5.Proofs.Computation
import TypedL5.Proofs.Continuation

/-!
Texts on lines of their own. What can be read of each can be read of both together, unless the
second one begins with a point, which is taken for the dot of a pair after a datum.
-/
namespace TypedL5

namespace Scan

/-- The text from its first token on. The flag tells that a comment is under way. -/
def fromToken : Bool → List Char → List Char
  | _, [] => []
  | true, c :: cs => if c = '\n' then fromToken false cs else fromToken true cs
  | false, c :: cs =>
    if isSkipped c then fromToken false cs
    else if c = ';' then fromToken true cs
    else c :: cs

/-- Whether the first token of a text is a lone point. -/
def beginsWithPoint (cs : List Char) : Bool :=
  match fromToken false cs with
  | '.' :: rest => delimits rest
  | _ => false

theorem beginsWithPoint_space {c : Char} (hc : isSkipped c = true) (cs : List Char) :
    beginsWithPoint (c :: cs) = beginsWithPoint cs := by
  simp [beginsWithPoint, fromToken, hc]

theorem fromToken_comment {body rest : List Char} (hbody : ∀ c ∈ body, c ≠ '\n')
    (hend : ∀ c ∈ rest.head?, c = '\n') : fromToken true (body ++ rest) =
      fromToken false rest := by
  induction body with
  | nil =>
    cases rest with
    | nil => rfl
    | cons c rest =>
      obtain rfl : c = '\n' := hend c rfl
      simp [fromToken, isSkipped]
  | cons c body ih =>
    obtain ⟨hc, hbody⟩ := List.forall_mem_cons.mp hbody
    simpa [fromToken, hc] using ih hbody

theorem beginsWithPoint_comment {body rest : List Char} (hbody : ∀ c ∈ body, c ≠ '\n')
    (hend : ∀ c ∈ rest.head?, c = '\n') :
    beginsWithPoint (';' :: (body ++ rest)) = beginsWithPoint rest := by
  rw [beginsWithPoint, beginsWithPoint, ← fromToken_comment hbody hend]
  rfl

end Scan

/-- A word that begins with a lone point is the point. -/
theorem Scan.eq_point_of_word
    {text rest : List Char} (hne : text ≠ []) (hletters : ∀ c ∈ text, isLetter c = true)
    (hpoint : beginsWithPoint (text ++ rest) = true) :
    text = ['.'] ∧ delimits rest = true := by
  have hplain : ∀ {c : Char}, isLetter c = true → isDelimiter c = false := by
    intro c hc
    simp only [isLetter, Bool.and_eq_true, Bool.not_eq_true'] at hc
    exact hc.1
  cases text with
  | nil => exact absurd rfl hne
  | cons c text =>
    obtain ⟨hc, htext⟩ := List.forall_mem_cons.mp hletters
    have hfirst : fromToken false (c :: text ++ rest) = c :: (text ++ rest) := by
      have hdelimiter := hplain hc
      simp only [isDelimiter, Bool.or_eq_false_iff, decide_eq_false_iff_not] at hdelimiter
      have hskipped : ¬ isSkipped c = true :=
        fun h => by simp [isSpace_of_isSkipped h] at hdelimiter
      simp [fromToken, hskipped, hdelimiter]
    rw [beginsWithPoint, hfirst] at hpoint
    split at hpoint
    · rename_i rest' hchars
      obtain ⟨rfl, rfl⟩ := List.cons.inj hchars
      cases text with
      | nil => exact ⟨rfl, hpoint⟩
      | cons d text =>
        have hd : isDelimiter d = true := hpoint
        rw [hplain (htext d List.mem_cons_self)] at hd
        cases hd
    · cases hpoint

namespace IsToken

variable {prev : Option Token} {text rest : List Char} {t : Token}

/-- A token at the start of a text is one anywhere, unless it is a lone point. -/
theorem anywhere (h : IsToken none rest text t) (hpoint : text = ['.'] → delimits rest = false)
    (prev : Option Token) : IsToken prev rest text t := by
  cases h with
  | mark h => exact .mark h
  | string h => exact .string h
  | dot hend hprev => cases hprev
  | number hend h => exact .number hend h
  | boolean hend h => exact .boolean hend h
  | symbol h hend hnumber hdot =>
    refine .symbol h hend hnumber fun hdelimits hword => ?_
    rw [hpoint hword] at hdelimits
    cases hdelimits

/-- A token shows. -/
theorem exists_visible (h : IsToken prev rest text t) :
    ∃ c ∈ text, Text.isSpace c = false := by
  have hletters : ∀ {word : List Char}, word ≠ [] → (∀ c ∈ word, Scan.isLetter c = true) →
      ∃ c ∈ word, Text.isSpace c = false := by
    intro word hne hword
    obtain ⟨c, hc⟩ := List.exists_mem_of_ne_nil word hne
    have hletter := hword c hc
    simp only [Scan.isLetter, Scan.isDelimiter, Bool.and_eq_true, Bool.not_eq_true',
      Bool.or_eq_false_iff] at hletter
    exact ⟨c, hc, hletter.1.1.1.1.1.1.1⟩
  cases h with
  | @mark c t h =>
    have hmarks : ∀ m ∈ Token.marks, Text.isSpace m.1 = false :=
      fun m hm => by
        simpa using List.all_eq_true.mp (by decide : Token.marks.all (!Text.isSpace ·.1)) m hm
    exact ⟨c, by simp, hmarks _ h⟩
  | string h => exact ⟨'"', by simp, by decide⟩
  | dot hend hprev => exact ⟨'.', by simp, by decide⟩
  | number hend h =>
    obtain ⟨hne, hword⟩ := Numeral.isLetter_of_ofChars? h
    exact hletters hne hword
  | boolean hend h =>
    obtain ⟨hne, hword, _⟩ := Scan.wordToken?_of_isBoolean none h
    exact hletters hne hword
  | symbol h hend hnumber hdot =>
    obtain ⟨hne, _, hword⟩ := Scan.isSymbol_iff.mp h
    exact hletters hne hword

/-- A text that begins with a lone point has it for its first token. -/
theorem eq_point (h : IsToken prev rest text t)
    (hpoint : Scan.beginsWithPoint (text ++ rest) = true) :
    text = ['.'] ∧ delimits rest = true := by
  cases h with
  | mark h =>
    simp only [Token.marks, List.mem_cons, Prod.mk.injEq, List.not_mem_nil, or_false] at h
    rcases h with ⟨rfl, rfl⟩ | ⟨rfl, rfl⟩ | ⟨rfl, rfl⟩ | ⟨rfl, rfl⟩ | ⟨rfl, rfl⟩
    all_goals cases hpoint
  | string h => cases hpoint
  | dot hend hprev => exact ⟨rfl, hend⟩
  | number hend h =>
    obtain ⟨hne, hword⟩ := Numeral.isLetter_of_ofChars? h
    exact Scan.eq_point_of_word hne hword hpoint
  | boolean hend h =>
    obtain ⟨hne, hword, _⟩ := Scan.wordToken?_of_isBoolean none h
    exact Scan.eq_point_of_word hne hword hpoint
  | symbol h hend hnumber hdot =>
    obtain ⟨hne, _, hword⟩ := Scan.isSymbol_iff.mp h
    exact Scan.eq_point_of_word hne hword hpoint

end IsToken

namespace Lexes

variable {p : Position} {prev : Option Token} {cs ds : List Char} {ts : List Located}
  {us : List Token}

/-- The same tokens stand at other places if the text does. -/
theorem moved (h : Lexes p prev cs ts) (q : Position) :
    ∃ us, Lexes q prev cs us ∧ us.map Located.token = ts.map Located.token := by
  induction h generalizing q with
  | done p prev => exact ⟨[], .done q prev, rfl⟩
  | space hc _ ih =>
    obtain ⟨us, hus, he⟩ := ih (q.next _)
    exact ⟨us, .space hc hus, he⟩
  | comment hbody hend _ ih =>
    obtain ⟨us, hus, he⟩ := ih (q.after _)
    exact ⟨us, .comment hbody hend hus, he⟩
  | token ht _ ih =>
    obtain ⟨us, hus, he⟩ := ih (q.after _)
    exact ⟨_, .token ht hus, by simp [he]⟩

/-- What a text is made of does not depend on what stands before it, unless it begins with a
lone point. -/
theorem anywhere (h : Lexes p none cs ts) (hpoint : Scan.beginsWithPoint cs = false)
    (q : Position) (prev : Option Token) :
    ∃ us, Lexes q prev cs us ∧ us.map Located.token = ts.map Located.token := by
  generalize hn : (none : Option Token) = start at h
  induction h generalizing q with
  | done p start => exact ⟨[], .done q prev, rfl⟩
  | space hc _ ih =>
    rw [Scan.beginsWithPoint_space hc] at hpoint
    obtain ⟨us, hus, he⟩ := ih hpoint (q.next _) hn
    exact ⟨us, .space hc hus, he⟩
  | comment hbody hend _ ih =>
    rw [Scan.beginsWithPoint_comment hbody hend] at hpoint
    obtain ⟨us, hus, he⟩ := ih hpoint (q.after _) hn
    exact ⟨us, .comment hbody hend hus, he⟩
  | @token p start text rest t ts ht h _ =>
    subst hn
    obtain ⟨us, hus, he⟩ := h.moved (q.after text)
    refine ⟨⟨t, q⟩ :: us, .token (ht.anywhere ?_ prev) hus, by simp [he]⟩
    rintro rfl
    exact hpoint

/-- After the end of a line the scan stands between tokens, and has those of the line. -/
theorem exists_scan (h : Lexes {} none cs ts) :
    ∃ s : Scan, s.At s.position (ts.map Located.token).getLast? ∧ s.tokens = ts.reverse ∧
      ∀ ds, Scan.reading {} (cs ++ '\n' :: ds) = s.reading ds := by
  obtain ⟨hstuck, htokens⟩ := Prod.mk.inj (h.reading (s := {}) ⟨rfl, rfl, rfl⟩)
  obtain ⟨hfinish, hmode⟩ := Scan.step_newline (cs.foldl Scan.step {})
  rw [List.append_nil] at htokens
  have hline := hfinish.trans htokens
  refine ⟨(cs.foldl Scan.step {}).step '\n', ⟨hmode hstuck, rfl, ?_⟩, hline, fun ds =>
    Scan.reading_append _ _ _⟩
  rw [hline, List.map_reverse, List.head?_reverse]

/-- Two texts, one after the other on lines of their own. -/
theorem newline (h : Lexes {} none cs ts)
    (h' : ∀ q, ∃ ts', Lexes q (ts.map Located.token).getLast? ds ts' ∧
      ts'.map Located.token = us) :
    ∃ ts', Lexes {} none (cs ++ '\n' :: ds) (ts ++ ts') ∧ ts'.map Located.token = us := by
  obtain ⟨s, hs, hline, hreading⟩ := h.exists_scan
  obtain ⟨ts', hts', hus⟩ := h' s.position
  have hread := hts'.reading hs
  rw [← hreading, hline, ← List.reverse_append] at hread
  obtain ⟨hstuck, htokens⟩ := Prod.mk.inj hread
  exact ⟨ts', lexes_iff.mpr ⟨hstuck, List.reverse_eq_iff.mpr htokens⟩, hus⟩

/-- A lone point at the start of a text is a dot where a dot may come. -/
theorem dot_tokens {s : Scan} {q : Position} (h : Lexes p prev cs ts)
    (hpoint : Scan.beginsWithPoint cs = true) {before : Option Token} (hs : s.At q before)
    (hbefore : Token.takesDot before = true) :
    ∃ place, (⟨.dot, place⟩ :: s.tokens) <:+ (s.reading cs).2 := by
  induction h generalizing s q with
  | done => cases hpoint
  | @space p prev c cs ts hc _ ih =>
    rw [Scan.beginsWithPoint_space hc] at hpoint
    change ∃ place, _ <:+ ((s.step c).reading cs).2
    rw [hs.space hc]
    exact ih hpoint (hs.moved _)
  | comment hbody hend _ ih =>
    rw [Scan.beginsWithPoint_comment hbody hend] at hpoint
    rw [hs.comment hbody hend]
    exact ih hpoint (hs.moved _)
  | token ht _ _ =>
    obtain ⟨rfl, hend⟩ := ht.eq_point hpoint
    let next : Scan := { position := q.after ['.'], tokens := ⟨.dot, q⟩ :: s.tokens }
    rw [hs.token (.dot hend hbefore)]
    exact ⟨q, next.tokens_reading _⟩

theorem eq_nil_of_blank (h : Lexes p prev cs ts) (hblank : ∀ c ∈ cs, Text.isSpace c = true) :
    ts = [] := by
  induction h with
  | done => rfl
  | space _ _ ih => exact ih (List.forall_mem_cons.mp hblank).2
  | comment =>
    have hmark : Text.isSpace ';' = false := by decide
    rw [hblank ';' (by simp)] at hmark
    cases hmark
  | token ht _ _ =>
    obtain ⟨c, hc, hvisible⟩ := ht.exists_visible
    rw [hblank c (List.mem_append_left _ hc)] at hvisible
    cases hvisible

end Lexes

namespace Derivation

/-- A dot may come after a datum. -/
theorem exists_word_eq_append (d : Derivation) :
    ∃ us t, d.word = us ++ [t] ∧ Token.takesDot (some t) = true := by
  induction d with
  | leaf l => exact ⟨[], .leaf l, rfl, rfl⟩
  | combination b items _ => exact ⟨.opening b :: words items, .closing b, rfl, rfl⟩
  | dotted items tail _ _ =>
    exact ⟨.opening .round :: (words items ++ .dot :: tail.word), .closing .round,
      by simp [word], rfl⟩
  | quoted d ih =>
    obtain ⟨us, t, hword, ht⟩ := ih
    exact ⟨.quote :: us, t, by rw [word, hword, List.cons_append], ht⟩

/-- After a whole datum, a lone point would be the dot of a dotted list. -/
theorem takesDot_words {ds : List Derivation} (h : ds ≠ []) :
    Token.takesDot (words ds).getLast? = true := by
  obtain ⟨before, d, rfl⟩ := (List.eq_nil_or_concat ds).resolve_left h
  obtain ⟨us, t, hword, ht⟩ := d.exists_word_eq_append
  rw [List.concat_eq_append, words_append, words_singleton, hword, ← List.append_assoc,
    List.getLast?_concat]
  exact ht

/-- No datum begins with a dot. -/
theorem words_ne_append_dot (ds ds' : List Derivation) (us : List Token) :
    words ds' ≠ words ds ++ .dot :: us := by
  intro he
  have hend : words ds' ++ [.dot] = words ds ++ .dot :: (us ++ [.dot]) := by rw [he]; simp
  obtain ⟨_, _, hnil⟩ := words_append_inj (fun d _ => d.apart) rfl rfl hend
  simp at hnil

/-- The values of two rows of data are those of the one followed by those of the other. -/
theorem values_append {ds ds' : List Derivation} {xs ys : List Datum} (h : values ds = .ok xs)
    (h' : values ds' = .ok ys) : values (ds ++ ds') = .ok (xs ++ ys) := by
  induction ds generalizing xs with
  | nil =>
    cases h
    exact h'
  | cons d ds ih =>
    obtain ⟨x, hx, h⟩ := except_bind_eq_ok h
    obtain ⟨rest, hrest, h⟩ := except_bind_eq_ok h
    cases h
    rw [List.cons_append, values, hx, ih hrest]
    rfl

end Derivation

namespace Datum

variable {source s₁ s₂ : String} {data ds₁ ds₂ : List Datum}

/-- A text that can be read is made of tokens that derive its data. -/
theorem exists_derivations (h : readAll source = .ok data) :
    ∃ ts ds, Lexes {} none source.toList ts ∧ Derivation.words ds = ts.map Located.token ∧
      Derivation.values ds = .ok data := by
  obtain ⟨trees, htrees, hdata⟩ := except_bind_eq_ok h
  have hstuck := Tree.ofTokens_eq_ok htrees
  rw [Tree.readAll, hstuck] at htrees
  obtain ⟨ds, hds, rfl⟩ := Tree.ofTokens_eq_ok_iff.mp htrees
  rw [Derivation.data_trees fun d _ => d.datum_tree] at hdata
  exact ⟨_, ds, lexes_iff.mpr ⟨hstuck, rfl⟩, hds, hdata⟩

/-- Texts on lines of their own are read one after the other. -/
theorem readAll_newline (h₁ : readAll s₁ = .ok ds₁) (h₂ : readAll s₂ = .ok ds₂)
    (hseam : ds₁ = [] ∨ Scan.beginsWithPoint s₂.toList = false) :
    readAll (s₁ ++ "\n" ++ s₂) = .ok (ds₁ ++ ds₂) := by
  obtain ⟨ts₁, xs₁, hlex₁, hwords₁, hvalues₁⟩ := exists_derivations h₁
  obtain ⟨ts₂, xs₂, hlex₂, hwords₂, hvalues₂⟩ := exists_derivations h₂
  have hsecond : ∀ q, ∃ us, Lexes q (ts₁.map Located.token).getLast? s₂.toList us ∧
      us.map Located.token = ts₂.map Located.token := by
    intro q
    rcases hseam with rfl | hpoint
    · obtain rfl : xs₁ = [] := by simpa using Derivation.isEmpty_of_values hvalues₁
      rw [← hwords₁]
      exact hlex₂.moved q
    · exact hlex₂.anywhere hpoint q _
  obtain ⟨us, hlex, hus⟩ := hlex₁.newline hsecond
  rw [← toList_continued] at hlex
  have hwords : Derivation.words (xs₁ ++ xs₂) = (ts₁ ++ us).map Located.token := by
    rw [Derivation.words_append, hwords₁, hwords₂, List.map_append, hus]
  rw [readAll_of_words hlex hwords]
  exact Derivation.values_append hvalues₁ hvalues₂

/-- A lone point on the line after a datum is a dot, and a dot stands in brackets only. -/
theorem readAll_newline_point (h₁ : readAll s₁ = .ok ds₁) (h₂ : readAll s₂ = .ok ds₂)
    (hne : ds₁ ≠ []) (hpoint : Scan.beginsWithPoint s₂.toList = true) (data : List Datum) :
    readAll (s₁ ++ "\n" ++ s₂) ≠ .ok data := by
  intro hread
  obtain ⟨ts₁, xs₁, hlex₁, hwords₁, hvalues₁⟩ := exists_derivations h₁
  obtain ⟨ts₂, xs₂, hlex₂, _, _⟩ := exists_derivations h₂
  obtain ⟨ts, xs, hlex, hwords, _⟩ := exists_derivations hread
  have hdata : xs₁ ≠ [] := by
    rintro rfl
    cases hvalues₁
    exact hne rfl
  obtain ⟨s, hs, hline, hreading⟩ := hlex₁.exists_scan
  rw [← hwords₁] at hs
  obtain ⟨place, hdot⟩ := hlex₂.dot_tokens hpoint hs (Derivation.takesDot_words hdata)
  rw [← hreading, hline, ← toList_continued, hlex.reading ⟨rfl, rfl, rfl⟩,
    List.append_nil] at hdot
  obtain ⟨us, hus⟩ := List.reverse_prefix.mpr hdot
  rw [List.reverse_reverse, List.reverse_cons, List.reverse_reverse] at hus
  refine Derivation.words_ne_append_dot xs₁ xs (us.map Located.token) ?_
  rw [hwords, hwords₁, ← hus]
  simp

/-- Two texts that can be read can be read on lines of their own, as the data of both, exactly
if there is no datum in the first one or the second one does not begin with a lone point. -/
theorem readAll_newline_iff (h₁ : readAll s₁ = .ok ds₁) (h₂ : readAll s₂ = .ok ds₂) :
    readAll (s₁ ++ "\n" ++ s₂) = .ok (ds₁ ++ ds₂) ↔
      ds₁ = [] ∨ Scan.beginsWithPoint s₂.toList = false := by
  refine ⟨fun h => ?_, readAll_newline h₁ h₂⟩
  by_contra hnot
  obtain ⟨hne, hpoint⟩ := not_or.mp hnot
  exact readAll_newline_point h₁ h₂ hne (Bool.eq_true_of_not_eq_false hpoint) _ h

/-- A comment holds no datum, so a point on the next line begins the text. After a datum it
does not. -/
theorem readAll_newline_iff_comment :
    readAll "; (a" = .ok [] ∧ readAll ". x" = .ok [.sym ".", .sym "x"] ∧
      readAll ("; (a" ++ "\n" ++ ". x") = .ok [.sym ".", .sym "x"] ∧
      readAll "'(a . \"b\") ; c" =
        .ok [.list [.sym "quote", .dotted [.sym "a"] (.atom (.str "b"))]] ∧
      ¬ readAll ("'(a . \"b\") ; c" ++ "\n" ++ ". x") =
        .ok ([.list [.sym "quote", .dotted [.sym "a"] (.atom (.str "b"))]] ++
          [.sym ".", .sym "x"]) := by
  have hcomment : readAll "; (a" = .ok [] := by rfl
  have hpoint : readAll ". x" = .ok [.sym ".", .sym "x"] := by rfl
  have hdatum : readAll "'(a . \"b\") ; c" =
      .ok [.list [.sym "quote", .dotted [.sym "a"] (.atom (.str "b"))]] := by rfl
  refine ⟨hcomment, hpoint, (readAll_newline_iff hcomment hpoint).mpr (.inl rfl), hdatum,
    fun h => ?_⟩
  rcases (readAll_newline_iff hdatum hpoint).mp h with hnil | hplain
  · cases hnil
  · revert hplain
    decide +kernel

theorem eq_nil_of_blank (h : readAll source = .ok data) (hblank : Text.isBlank source = true) :
    data = [] := by
  obtain ⟨ts, ds, hlex, hwords, hvalues⟩ := exists_derivations h
  obtain rfl := hlex.eq_nil_of_blank (by simpa [Text.isBlank] using hblank)
  obtain rfl : ds = [] := Derivation.words_injective hwords
  cases hvalues
  rfl

end Datum

namespace Exp

variable {s₁ s₂ : String} {g g₁ g₂ : Supply} {forms₁ forms₂ : List Exp}

theorem ofTopLevel_append (ds ds' : List Datum) :
    ofTopLevel (ds ++ ds') = (do
      let es ← ofTopLevel ds
      return es ++ (← ofTopLevel ds')) := by
  induction ds with
  | nil => simp [ofTopLevel]
  | cons d ds ih =>
    simp only [List.cons_append, ofTopLevel, ih, bind_assoc, pure_bind, List.append_assoc]

/-- What is read at the top level is data first and forms then. -/
theorem readAll_of_readTopLevel {source : String} {forms : List Exp}
    (h : readTopLevel source g = .ok forms g₁) :
    ∃ ds, Datum.readAll source = .ok ds ∧ ofTopLevel ds g = .ok forms g₁ := by
  rw [readTopLevel] at h
  cases hread : Datum.readAll source with
  | error e =>
    rw [hread] at h
    cases h
  | ok ds =>
    rw [hread] at h
    exact ⟨ds, rfl, h⟩

/-- The forms of texts on lines of their own are read one after the other. -/
theorem readTopLevel_newline
    (h₁ : readTopLevel s₁ g = .ok forms₁ g₁) (h₂ : readTopLevel s₂ g₁ = .ok forms₂ g₂)
    (hpoint : Scan.beginsWithPoint s₂.toList = false) :
    readTopLevel (s₁ ++ "\n" ++ s₂) g = .ok (forms₁ ++ forms₂) g₂ := by
  obtain ⟨ds₁, hread₁, hforms₁⟩ := readAll_of_readTopLevel h₁
  obtain ⟨ds₂, hread₂, hforms₂⟩ := readAll_of_readTopLevel h₂
  rw [readTopLevel, Datum.readAll_newline hread₁ hread₂ (.inr hpoint)]
  change ofTopLevel (ds₁ ++ ds₂) g = _
  rw [ofTopLevel_append]
  refine bind_eq_ok_iff.mpr
    ⟨forms₁, g₁, hforms₁, bind_eq_ok_iff.mpr ⟨forms₂, g₂, hforms₂, rfl⟩⟩

/-- There are no forms in a blank text. -/
theorem eq_nil_of_blank {source : String} {forms : List Exp}
    (h : readTopLevel source g = .ok forms g₁) (hblank : Text.isBlank source = true) :
    forms = [] ∧ g₁ = g := by
  obtain ⟨ds, hread, hforms⟩ := readAll_of_readTopLevel h
  obtain rfl := Datum.eq_nil_of_blank hread hblank
  cases hforms
  exact ⟨rfl, rfl⟩

end Exp

end TypedL5
