import TypedL5.Proofs.Continuation
import TypedL5.Proofs.ReadBack
import TypedL5.Proofs.Waiting

/-!
Texts with no more digits than a whole number may have. What is read from a text has no digits
that the text does not have, and this goes for the types that are written as texts in it, too.
So no number in such a text is too long.
-/
namespace TypedL5

namespace Text

/-- The number of digits in a text, whatever their scripts. -/
def digitCount (cs : List Char) : Nat := cs.countP fun c => (digit? c).isSome

theorem digitCount_cons (c : Char) (cs : List Char) :
    digitCount (c :: cs) = digitCount cs + if (digit? c).isSome then 1 else 0 :=
  List.countP_cons

theorem digitCount_append (cs ds : List Char) :
    digitCount (cs ++ ds) = digitCount cs + digitCount ds :=
  List.countP_append

theorem digitCount_le_of_sublist {cs ds : List Char} (h : cs.Sublist ds) :
    digitCount cs ≤ digitCount ds :=
  h.countP_le

theorem length_takeDigits_le (cs : List Char) : (takeDigits cs).1.length ≤ digitCount cs := by
  induction cs with
  | nil => exact Nat.le_refl 0
  | cons c cs ih =>
    rw [digitCount_cons]
    cases hc : digit? c with
    | none => simp [takeDigits, hc]
    | some d => simpa [takeDigits, hc] using ih

/-- An escape stands for a digit only if it is written with one. -/
theorem digit?_escaped (c : Char) :
    (digit? (escaped c)).isSome = true → (digit? c).isSome = true := by
  unfold escaped
  split_ifs
  · simp [show digit? '\n' = none by decide]
  · simp [show digit? '\r' = none by decide]
  · simp [show digit? '\t' = none by decide]
  · exact id

/-- No digit comes out of a backslash. -/
theorem digitCount_unescape_le (cs : List Char) :
    digitCount (unescape cs) ≤ digitCount cs := by
  fun_induction unescape cs with
  | case1 => exact Nat.le_refl _
  | case2 => exact Nat.le_refl _
  | case3 c cs ih =>
    rw [digitCount_cons, digitCount_cons, digitCount_cons]
    by_cases he : (digit? (escaped c)).isSome = true
    · rw [if_pos he, if_pos (digit?_escaped c he)]
      omega
    · rw [if_neg he]
      omega
  | case4 c cs _ _ ih =>
    rw [digitCount_cons, digitCount_cons]
    omega

end Text

namespace Numeral

open Text (digitCount digitCount_cons)

variable {cs : List Char} {n : Numeral}

/-- The digits of a numeral before the point are digits of its text. -/
theorem length_whole_of_ofUnsigned? {negative : Bool} (h : ofUnsigned? negative cs = some n) :
    n.whole.length ≤ digitCount cs := by
  have hle := Text.length_takeDigits_le cs
  unfold ofUnsigned? at h
  split at h
  · rename_i whole he
    rw [he] at hle
    split at h
    · cases h
    · cases h
      exact hle
  · rename_i whole rest he
    rw [he] at hle
    split at h
    · split at h
      · cases h
      · cases h
        exact hle
    · cases h
  · cases h

theorem length_whole_of_ofChars? (h : ofChars? cs = some n) :
    n.whole.length ≤ digitCount cs := by
  unfold ofChars? at h
  split at h
  · exact Nat.le_trans (length_whole_of_ofUnsigned? h) (by simp [digitCount_cons])
  · exact Nat.le_trans (length_whole_of_ofUnsigned? h) (by simp [digitCount_cons])
  · exact length_whole_of_ofUnsigned? h

theorem exists_value? (h : n.whole.length ≤ digitLimit) : ∃ x, n.value? = some x := by
  unfold value?
  split
  · rw [if_neg (Nat.not_lt.mpr h)]
    exact ⟨_, rfl⟩
  · exact ⟨_, rfl⟩

end Numeral

/-- A number is a numeral, and the text of a leaf has at most so many digits. -/
structure Leaf.Within (n : Nat) (l : Leaf) : Prop where
  numeral : ∀ text, l = .number text → (Numeral.ofChars? text.toList).isSome = true
  digits : Text.digitCount l.text.toList ≤ n

/-- A string has at most so many digits. -/
def Lexeme.Within (n : Nat) (l : Lexeme) : Prop :=
  ∀ text, l = .atom (.str text) → Text.digitCount text.toList ≤ n

theorem IsToken.within {prev : Option Token} {rest text : List Char} {l : Leaf} {n : Nat}
    (h : IsToken prev rest text (.leaf l)) (hn : Text.digitCount text ≤ n) : l.Within n := by
  cases h with
  | mark h => simp [Token.marks] at h
  | string h => exact ⟨by simp, by simpa [Leaf.text] using hn⟩
  | number _ h =>
    refine ⟨?_, by simpa [Leaf.text] using hn⟩
    rintro _ ⟨⟩
    simpa using h
  | boolean _ h => exact ⟨by simp, by simpa [Leaf.text] using hn⟩
  | symbol => exact ⟨by simp, by simpa [Leaf.text] using hn⟩

/-- The tokens of a text share its digits. -/
theorem Lexes.within {p : Position} {prev : Option Token} {cs : List Char} {ts : List Located}
    {n : Nat} (h : Lexes p prev cs ts) (hn : Text.digitCount cs ≤ n) :
    ∀ t ∈ ts, ∀ l, t.token = .leaf l → l.Within n := by
  induction h with
  | done => simp
  | space _ _ ih =>
    rw [Text.digitCount_cons] at hn
    exact ih (by omega)
  | comment _ _ _ ih =>
    rw [Text.digitCount_cons, Text.digitCount_append] at hn
    exact ih (by omega)
  | token ht _ ih =>
    rw [Text.digitCount_append] at hn
    refine List.forall_mem_cons.mpr ⟨?_, ih (by omega)⟩
    rintro l rfl
    exact ht.within (by omega)

namespace Leaf.Within

variable {n : Nat} {l : Leaf} {d : Datum}

/-- A leaf with few enough digits is never refused. -/
theorem exists_datum (h : l.Within n) (hn : n ≤ Numeral.digitLimit) :
    ∃ d, l.datum = .ok d := by
  cases l with
  | number text =>
    obtain ⟨m, hm⟩ := Option.isSome_iff_exists.mp (h.numeral text rfl)
    have hlength : m.whole.length ≤ Numeral.digitLimit :=
      calc m.whole.length ≤ Text.digitCount text.toList := Numeral.length_whole_of_ofChars? hm
        _ ≤ n := h.digits
        _ ≤ Numeral.digitLimit := hn
    obtain ⟨x, hx⟩ := Numeral.exists_value? hlength
    exact ⟨.atom (.num x), by simp [datum, hm, hx]⟩
  | boolean text => exact ⟨_, rfl⟩
  | string text => exact ⟨_, rfl⟩
  | symbol text => exact ⟨_, rfl⟩

theorem made (h : l.Within n) (hd : l.datum = .ok d) : d.Made (Lexeme.Within n) := by
  cases l with
  | number text =>
    rw [datum] at hd
    split at hd
    · cases hd
      exact Datum.made_atom.mpr (by rintro _ ⟨⟩)
    · cases hd
  | boolean text =>
    cases hd
    exact Datum.made_atom.mpr (by rintro _ ⟨⟩)
  | string text =>
    cases hd
    refine Datum.made_atom.mpr ?_
    rintro _ ⟨⟩
    have hbody : (body text).Sublist text.toList :=
      (List.dropLast_sublist _).trans (List.tail_sublist _)
    calc Text.digitCount (String.ofList (Text.unescape (body text))).toList
        = Text.digitCount (Text.unescape (body text)) := by rw [String.toList_ofList]
      _ ≤ Text.digitCount (body text) := Text.digitCount_unescape_le _
      _ ≤ Text.digitCount text.toList := Text.digitCount_le_of_sublist hbody
      _ ≤ n := h.digits
  | symbol text =>
    cases hd
    exact Datum.made_sym.mpr (by rintro _ ⟨⟩)

end Leaf.Within

namespace Tree

theorem exists_of_data_error {ts : List Tree} {e : ReadError} (h : data ts = .error e) :
    ∃ t ∈ ts, t.datum = .error e := by
  induction ts with
  | nil => cases h
  | cons t ts ih =>
    rw [data] at h
    rcases except_bind_eq_error h with h | ⟨d, _, h⟩
    · exact ⟨t, by simp, h⟩
    · rcases except_bind_eq_error h with h | ⟨ds, _, ⟨⟩⟩
      obtain ⟨u, hu, he⟩ := ih h
      exact ⟨u, List.mem_cons_of_mem t hu, he⟩

/-- A tree that stands for nothing has a leaf that does so, or a dotted list without items. -/
theorem exists_leaf_of_datum_error (t : Tree) {e : ReadError} (h : t.datum = .error e) :
    e = .headless ∨ ∃ l ∈ t.leaves, l.datum = .error e := by
  induction t with
  | leaf l => exact .inr ⟨l, by simp [leaves], h⟩
  | list items ih =>
    rw [datum] at h
    rcases except_bind_eq_error h with h | ⟨ds, _, ⟨⟩⟩
    obtain ⟨t, ht, he⟩ := exists_of_data_error h
    refine (ih t ht he).imp_right ?_
    rintro ⟨l, hl, he⟩
    exact ⟨l, by simpa [leaves, leavesAll_eq_flatMap] using ⟨t, ht, hl⟩, he⟩
  | dotted items tail ihs ih =>
    rw [datum] at h
    rcases except_bind_eq_error h with h | ⟨ds, _, h⟩
    · obtain ⟨t, ht, he⟩ := exists_of_data_error h
      refine (ihs t ht he).imp_right ?_
      rintro ⟨l, hl, he⟩
      exact ⟨l, by simpa [leaves, leavesAll_eq_flatMap] using .inl ⟨t, ht, hl⟩, he⟩
    · rcases except_bind_eq_error h with h | ⟨d, _, h⟩
      · refine (ih h).imp_right ?_
        rintro ⟨l, hl, he⟩
        exact ⟨l, by simp [leaves, hl], he⟩
      · split at h
        · cases h
          exact .inl rfl
        · cases h
  | quoted t ih =>
    rw [datum] at h
    rcases except_bind_eq_error h with h | ⟨d, _, ⟨⟩⟩
    exact ih h

theorem every_within {cs : List Char} {ts : List Tree} (h : readAll cs = .ok ts) :
    ∀ t ∈ ts, t.Every (Leaf.Within (Text.digitCount cs)) := by
  have hlexes := lexes_iff.mpr ⟨ofTokens_eq_ok h, rfl⟩
  exact every_ofTokens ⟨by simp, by simp⟩ (hlexes.within (Nat.le_refl _)) h

end Tree

namespace Datum

variable {source : String} {d : Datum} {ds : List Datum} {n : Nat}

theorem made_of_readAll (h : readAll source = .ok ds) :
    ∀ d ∈ ds, d.Made (Lexeme.Within (Text.digitCount source.toList)) := by
  obtain ⟨ts, hts, h⟩ := except_bind_eq_ok h
  have hquote : (Lexeme.name "quote").Within (Text.digitCount source.toList) := by rintro _ ⟨⟩
  exact Tree.made_of_data
    (fun t ht d =>
      t.made_of_datum (fun l d => Leaf.Within.made) hquote (Tree.every_within hts t ht) d) h

/-- A text with few enough digits in all has no numeral that is too long. -/
theorem readAll_ne_tooLong (hn : Text.digitCount source.toList ≤ Numeral.digitLimit) :
    readAll source ≠ .error .numeralTooLong := by
  intro h
  rcases except_bind_eq_error h with h | ⟨ts, hts, h⟩
  · -- Trees are only refused for their tokens.
    rw [Tree.readAll_eq] at h
    rcases Tree.ofTokens_cases (Scan.reading {} source.toList).1 _ {} with
      ⟨_, _, he⟩ | ⟨_, _, he⟩ | ⟨_, _, he | ⟨_, he⟩⟩
    all_goals cases he.symm.trans h
  · obtain ⟨t, ht, he⟩ := Tree.exists_of_data_error h
    rcases t.exists_leaf_of_datum_error he with ⟨⟨⟩⟩ | ⟨l, hl, he⟩
    obtain ⟨d, hd⟩ := (Tree.every_within hts t ht l hl).exists_datum hn
    simp [hd] at he

theorem read_ne_tooLong (hn : Text.digitCount source.toList ≤ Numeral.digitLimit) :
    read source ≠ .error .numeralTooLong := by
  intro h
  rcases except_bind_eq_error h with h | ⟨ds, _, h⟩
  · exact readAll_ne_tooLong hn h
  · split at h <;> cases h

theorem made_of_read (h : read source = .ok d) :
    d.Made (Lexeme.Within (Text.digitCount source.toList)) := by
  obtain ⟨ds, hds, h⟩ := except_bind_eq_ok h
  split at h
  · cases h
    exact made_of_readAll hds d (by simp)
  · cases h

theorem mem_annotationsAmong {text : String} (h : text ∈ annotationsAmong ds) :
    ∃ d ∈ ds, d.string? = some text ∨ text ∈ d.annotations := by
  induction ds with
  | nil => cases h
  | cons d ds ih =>
    rw [annotationsAmong, List.mem_append, List.mem_append] at h
    rcases h with (h | h) | h
    · split_ifs at h
      · obtain ⟨e, he, htext⟩ := Option.bind_eq_some_iff.mp (Option.mem_toList.mp h)
        exact ⟨e, List.mem_cons_of_mem d (List.mem_of_head? he), .inl htext⟩
      · cases h
    · exact ⟨d, by simp, .inr h⟩
    · obtain ⟨e, he, h⟩ := ih h
      exact ⟨e, List.mem_cons_of_mem d he, h⟩

/-- Types that are written as texts are strings of the datum. -/
theorem digitCount_of_annotations (hd : d.Made (Lexeme.Within n)) :
    ∀ text ∈ d.annotations, Text.digitCount text.toList ≤ n := by
  induction d with
  | atom a => simp [annotations]
  | sym x => simp [annotations]
  | list items ih =>
    intro text htext
    obtain ⟨d, hmem, h | h⟩ := mem_annotationsAmong htext
    · have hd := made_list.mp hd d hmem
      unfold string? at h
      split at h
      · cases h
        exact made_atom.mp hd text rfl
      · cases h
    · exact ih d hmem (made_list.mp hd d hmem) text h
  | dotted items tail => simp [annotations]

end Datum

/-- The one error that ends a run is a numeral that is too long. -/
theorem ParseError.isFatal_iff {e : ParseError} :
    e.isFatal = true ↔ e = .unreadable .numeralTooLong := by
  constructor
  · intro h
    unfold isFatal at h
    split at h
    · rfl
    · cases h
  · rintro rfl
    rfl

namespace Exp

variable {source : String} {g m : Supply} {e : ParseError}

/-- A reader that can only blame the text and its annotations does not end the run. -/
theorem not_isFatal_of_blames
    {f : Datum → ParseM Exp} (hn : Text.digitCount source.toList ≤ Numeral.digitLimit)
    (hf : ∀ (P : String → Prop) (d : Datum), (∀ text ∈ d.annotations, P text) → Blames P (f d))
    (h : (datumOf source >>= f) g = .error e m) : e.isFatal = false := by
  rw [Bool.eq_false_iff, ne_eq, ParseError.isFatal_iff]
  rintro rfl
  rw [bind_apply, datumOf] at h
  cases hread : Datum.read source with
  | error c =>
    rw [hread] at h
    cases h
    exact Datum.read_ne_tooLong hn hread
  | ok d =>
    rw [hread] at h
    have hannotations := Datum.digitCount_of_annotations (Datum.made_of_read hread)
    obtain ⟨text, htext, hlong⟩ := hf _ d hannotations g _ m h
    exact Datum.read_ne_tooLong (htext.trans hn) hlong

/-- A text without too many digits is read or is at fault, but is not given up. -/
theorem not_isFatal_of_read (hn : Text.digitCount source.toList ≤ Numeral.digitLimit)
    (h : read source g = .error e m) : e.isFatal = false :=
  not_isFatal_of_blames hn (fun P d => (ReadLaw.blames P).reads (.exp d)) h

theorem not_isFatal_of_readProgram (hn : Text.digitCount source.toList ≤ Numeral.digitLimit)
    (h : readProgram source g = .error e m) : e.isFatal = false :=
  not_isFatal_of_blames hn (fun P d => (ReadLaw.blames P).reads (.program d)) h

end Exp

end TypedL5
