import Mathlib.Data.List.Forall2
import TypedL5.Proofs.ReadBack

/-!
Which data are read back from their written form: exactly the legible ones.

A written datum is scanned token by token, whatever it holds, and a token may turn into another
on the way. What is read from them is the datum again only if none has turned.
-/
namespace TypedL5

namespace Token

variable {ts us vs : List Token} {prev : Option Token}

/-- The token is scanned as itself wherever it stands. -/
def Firm (t : Token) : Prop := ∀ prev, rescanned prev t = t

/-- Scanning tokens again gives as many of them, in their places. -/
theorem exists_rescan (ts us : List Token) :
    ∃ vs : List Token, rescan ts us = vs.reverse ++ ts ∧ vs.length = us.length := by
  induction us generalizing ts with
  | nil => exact ⟨[], rfl, rfl⟩
  | cons u us ih =>
    obtain ⟨vs, hvs, hlength⟩ := ih (rescanned ts.head? u :: ts)
    refine ⟨rescanned ts.head? u :: vs, ?_, by simp [hlength]⟩
    rw [rescan, List.foldl_cons, ← rescan, hvs]
    simp

/-- Tokens of which only firm ones may have turned into others have been kept. -/
theorem kept_of_rescan
    (ts : List Token) (halike : List.Forall₂ (fun v u => v = u ∨ Firm u) vs us)
    (h : rescan ts us = vs.reverse ++ ts) : Kept ts.head? us := by
  induction halike generalizing ts with
  | nil => trivial
  | @cons v u vs us hvu halike ih =>
    rw [rescan, List.foldl_cons, ← rescan] at h
    have hfirst : rescanned ts.head? u = v := by
      obtain ⟨vs', hvs', hlength⟩ := exists_rescan (rescanned ts.head? u :: ts) us
      rw [hvs', List.reverse_cons, List.append_assoc] at h
      have hlengths : vs'.reverse.length = vs.reverse.length := by
        simp [hlength, halike.length_eq]
      exact (List.cons.inj (List.append_inj h hlengths).2).1
    have hkept : rescanned ts.head? u = u := by
      rcases hvu with rfl | hfirm
      · exact hfirst
      · exact hfirm _
    rw [hkept] at h hfirst
    refine ⟨hkept, ih (u :: ts) ?_⟩
    rw [h, ← hfirst]
    simp

/-- The token is neither a quote nor a square bracket. -/
def isRound : Token → Bool
  | .quote | .opening .square | .closing .square => false
  | _ => true

theorem isRound_rescanned (prev : Option Token) (t : Token) :
    (rescanned prev t).isRound = t.isRound := by
  unfold rescanned point
  split
  · split <;> rfl
  · split_ifs <;> rfl
  · rfl

theorem isRound_of_mem_rescan (hts : ∀ t ∈ ts, t.isRound = true)
    (hus : ∀ t ∈ us, t.isRound = true) :
    ∀ t ∈ rescan ts us, t.isRound = true := by
  induction us generalizing ts with
  | nil => exact hts
  | cons u us ih =>
    obtain ⟨hu, hus⟩ := List.forall_mem_cons.mp hus
    refine ih (List.forall_mem_cons.mpr ⟨?_, hts⟩) hus
    rw [isRound_rescanned, hu]

end Token

namespace Datum

variable {d : Datum}

theorem forall_mem_words {p : Token → Prop} {items : List Datum}
    (h : ∀ d ∈ items, ∀ t ∈ d.derivation.word, p t) :
    ∀ t ∈ Derivation.words (derivations items), p t := by
  induction items with
  | nil => simp [derivations, Derivation.words]
  | cons d items ih =>
    obtain ⟨hd, hitems⟩ := List.forall_mem_cons.mp h
    exact List.forall_mem_append.mpr ⟨hd, ih hitems⟩

theorem isRound_of_mem_word (d : Datum) : ∀ t ∈ d.derivation.word, t.isRound = true := by
  induction d with
  | atom a => exact List.forall_mem_singleton.mpr rfl
  | sym x => exact List.forall_mem_singleton.mpr rfl
  | list items ih =>
    simp only [derivation, Derivation.word, List.forall_mem_cons, List.forall_mem_append]
    exact ⟨rfl, forall_mem_words ih, rfl, by simp⟩
  | dotted items tail ihs ih =>
    simp only [derivation, Derivation.word, List.forall_mem_cons, List.forall_mem_append]
    exact ⟨rfl, forall_mem_words ihs, rfl, ih, rfl, by simp⟩

end Datum

namespace Derivation

/-- Data that are written and scanned again have their tokens back, or firm ones in their
place. -/
theorem alike_of_values {es : List Derivation} {ds : List Datum}
    (h : ∀ e ∈ es, ∀ d, e.value = .ok d →
      List.Forall₂ (fun v u => v = u ∨ Token.Firm u) e.word d.derivation.word)
    (hvalues : values es = .ok ds) :
    List.Forall₂ (fun v u => v = u ∨ Token.Firm u) (words es)
      (words (Datum.derivations ds)) := by
  induction es generalizing ds with
  | nil =>
    cases hvalues
    exact .nil
  | cons e es ih =>
    obtain ⟨he, hes⟩ := List.forall_mem_cons.mp h
    obtain ⟨first, hfirst, hvalues⟩ := except_bind_eq_ok hvalues
    obtain ⟨rest, hrest, hvalues⟩ := except_bind_eq_ok hvalues
    cases hvalues
    exact List.rel_append (he first hfirst) (ih hes hrest)

theorem forall_mem_word {p : Token → Prop} {es : List Derivation} {e : Derivation}
    (h : ∀ t ∈ words es, p t) (he : e ∈ es) : ∀ t ∈ e.word, p t := by
  rw [words_eq_flatMap] at h
  exact fun t ht => h t (List.mem_flatMap.mpr ⟨e, he, ht⟩)

/-- What an atom is written as does not depend on the tokens around it. -/
theorem firm_atom (a : Atom) : Token.Firm (.leaf (Lexeme.leaf (.atom a))) := by
  intro prev
  rcases a with n | b | text
  all_goals rfl

/-- A leaf written from its datum is the leaf that was read, or a firm one. -/
theorem alike_of_leaf {l : Leaf} {d : Datum} (h : l.datum = .ok d) :
    List.Forall₂ (fun v u => v = u ∨ Token.Firm u) [.leaf l] d.derivation.word := by
  cases l with
  | number text =>
    rw [Leaf.datum] at h
    split at h
    · cases h
      exact .cons (.inr (firm_atom _)) .nil
    · cases h
  | boolean text =>
    cases h
    exact .cons (.inr (firm_atom _)) .nil
  | string text =>
    cases h
    exact .cons (.inr (firm_atom _)) .nil
  | symbol text =>
    cases h
    exact .cons (.inl rfl) .nil

/-- A derivation with round brackets only has the tokens of its datum, but for the way its
constants are written. -/
theorem alike_of_value (e : Derivation) (hround : ∀ t ∈ e.word, t.isRound = true) (d : Datum)
    (h : e.value = .ok d) :
    List.Forall₂ (fun v u => v = u ∨ Token.Firm u) e.word d.derivation.word := by
  induction e generalizing d with
  | leaf l => exact alike_of_leaf h
  | combination b items ih =>
    simp only [word, List.forall_mem_cons, List.forall_mem_append] at hround
    obtain ⟨hb, hitems, _⟩ := hround
    obtain ⟨data, hdata, h⟩ := except_bind_eq_ok h
    cases h
    cases b with
    | square => cases hb
    | round =>
      have halike := alike_of_values (fun e he => ih e he (forall_mem_word hitems he)) hdata
      exact .cons (.inl rfl) (List.rel_append halike (.cons (.inl rfl) .nil))
  | dotted items tail ihs ih =>
    simp only [word, List.forall_mem_cons, List.forall_mem_append] at hround
    obtain ⟨_, hitems, _, htail, _⟩ := hround
    obtain ⟨data, hdata, h⟩ := except_bind_eq_ok h
    obtain ⟨last, hlast, h⟩ := except_bind_eq_ok h
    split at h
    · cases h
    · cases h
      have halike := alike_of_values (fun e he => ihs e he (forall_mem_word hitems he)) hdata
      have hlast := ih htail last hlast
      exact .cons (.inl rfl)
        (List.rel_append halike
          (.cons (.inl rfl) (List.rel_append hlast (.cons (.inl rfl) .nil))))
  | quoted e ih =>
    have hquote := hround .quote (by simp [word])
    cases hquote

end Derivation

namespace Datum

/-- If a datum is read back, each of its tokens has been scanned as itself. -/
theorem kept_of_read {d : Datum} (hd : d.Exact) (h : read d.write = .ok d) :
    Token.Kept none d.derivation.word := by
  have hscan := scan_write hd
  obtain ⟨data, hdata, h⟩ := except_bind_eq_ok h
  obtain rfl : data = [d] := by
    split at h
    · cases h
      rfl
    · cases h
  obtain ⟨trees, htrees, hdata⟩ := except_bind_eq_ok hdata
  have hstuck : (Scan.ofChars d.write.toList).stuck? = none := by
    rw [Scan.stuck?, hscan.mode]
  rw [Tree.readAll, hstuck] at htrees
  obtain ⟨es, hwords, rfl⟩ := Tree.ofTokens_eq_ok_iff.mp htrees
  rw [List.map_reverse, hscan.tokens] at hwords
  rw [Derivation.data_trees fun e _ => e.datum_tree] at hdata
  have hround : ∀ t ∈ Derivation.words es, t.isRound = true := by
    intro t ht
    rw [hwords, List.mem_reverse] at ht
    exact Token.isRound_of_mem_rescan (by simp) d.isRound_of_mem_word t ht
  -- What has been scanned can differ from what was written in the way constants look, and in
  -- nothing else.
  have halike := Derivation.alike_of_values
    (fun e he => e.alike_of_value (Derivation.forall_mem_word hround he)) hdata
  rw [derivations, derivations, Derivation.words_singleton] at halike
  refine Token.kept_of_rescan [] halike ?_
  rw [hwords, List.reverse_reverse, List.append_nil]

/-- A datum that has been read, without floats, is read back from its written form exactly if
none of its names looks like a number and a point stands in it, if at all, by itself or as the
tail of a dotted list. -/
theorem read_write_iff {source : String} {ds : List Datum} {d : Datum}
    (h : readAll source = .ok ds) (hd : d ∈ ds) (hfloat : ∀ l ∈ d.leaves, l.isFloat = false) :
    read d.write = .ok d ↔
      (∀ x, .name x ∈ d.leaves → (Numeral.ofChars? x.toList).isSome = false) ∧
        ∀ e ∈ d.itemsWithin, e ≠ .sym "." := by
  have hscanned := scanned_of_readAll h d hd
  have hexact : d.Exact := ⟨fun l hl => ⟨hscanned.leaves l hl, hfloat l hl⟩, hscanned.headed⟩
  constructor
  · intro hread
    have hlegible := ((kept_iff d none).mp (kept_of_read hexact hread)).1
    exact ⟨hlegible.names, hlegible.items⟩
  · rintro ⟨hnames, hitems⟩
    exact read_write_of_kept hexact ((kept_iff d none).mpr ⟨⟨hnames, hitems⟩, fun _ => rfl⟩)

/-- A point is lost in a list and kept as a tail. The name `1`, which a string right after it
keeps from being a number, is lost as well. -/
theorem read_write_iff_points :
    let quoted : Datum := .list [.sym "quote", .sym "."]
    let dotted : Datum := .dotted [.sym "a"] (.sym ".")
    let ds : List Datum := [quoted, dotted, .sym "1", .atom (.str "x")]
    readAll "'. (a . .) 1\"x\"" = .ok ds ∧ (∀ d ∈ ds, ∀ l ∈ d.leaves, l.isFloat = false) ∧
      read quoted.write ≠ .ok quoted ∧ read dotted.write = .ok dotted ∧
        read (Datum.sym "1").write ≠ .ok (.sym "1") := by
  intro quoted dotted ds
  have hds : readAll "'. (a . .) 1\"x\"" = .ok ds := by rfl
  have hfloat : ∀ d ∈ ds, ∀ l ∈ d.leaves, l.isFloat = false := by decide
  refine ⟨hds, hfloat, fun hread => ?_, ?_, fun hread => ?_⟩
  · obtain ⟨_, hitems⟩ :=
      (read_write_iff hds (by simp [ds]) (hfloat quoted (by simp [ds]))).mp hread
    exact hitems (.sym ".") (by simp [quoted, itemsWithin, itemsAmong]) rfl
  · refine (read_write_iff hds (by simp [ds]) (hfloat dotted (by simp [ds]))).mpr ⟨?_, ?_⟩
    · intro x hx
      obtain rfl | rfl : x = "a" ∨ x = "." := by simpa [dotted, leaves, leavesAll] using hx
      all_goals rfl
    · simp [dotted, itemsWithin, itemsAmong]
  · obtain ⟨hnames, _⟩ :=
      (read_write_iff hds (by simp [ds]) (hfloat (.sym "1") (by simp [ds]))).mp hread
    exact absurd (hnames "1" (by simp [leaves])) (by decide)

end Datum

end TypedL5
