import TypedL5.Proofs.Grammar
import TypedL5.Proofs.Scanned

/-! Data are read back from their written form, and what is read has only names and constants
that text can hold. -/
namespace TypedL5

namespace Tree

mutual

/-- The leaves of a tree, from left to right. -/
def leaves : Tree → List Leaf
  | .leaf l => [l]
  | .list items => leavesAll items
  | .dotted items tail => leavesAll items ++ tail.leaves
  | .quoted t => t.leaves

def leavesAll : List Tree → List Leaf
  | [] => []
  | t :: ts => t.leaves ++ leavesAll ts

end

/-- The parts of a tree that stand in a list are reached by membership. -/
@[induction_eliminator]
theorem induction {motive : Tree → Prop} (leaf : ∀ l, motive (.leaf l))
    (list : ∀ items, (∀ t ∈ items, motive t) → motive (.list items))
    (dotted : ∀ items tail, (∀ t ∈ items, motive t) → motive tail →
      motive (.dotted items tail))
    (quoted : ∀ t, motive t → motive (.quoted t)) (t : Tree) : motive t := by
  refine (leaves.mutual_induct motive (fun ts => ∀ t ∈ ts, motive t) leaf list dotted quoted
    ?_ ?_).1 t
  · intro t ht
    cases ht
  · intro t ts ht hts
    exact List.forall_mem_cons.mpr ⟨ht, hts⟩

variable {stuck? : Option Position} {s s' : Stack} {p : Leaf → Prop}

/-- All leaves of a tree have a property. -/
def Every (p : Leaf → Prop) (t : Tree) : Prop := ∀ l ∈ t.leaves, p l

theorem leavesAll_eq_flatMap (ts : List Tree) : leavesAll ts = ts.flatMap leaves := by
  induction ts with
  | nil => rfl
  | cons t ts ih => simp [leavesAll, ih]

theorem every_list {ts : List Tree} : (Tree.list ts).Every p ↔ ∀ t ∈ ts, t.Every p := by
  simp only [Every, leaves, leavesAll_eq_flatMap, List.mem_flatMap,
    forall_exists_index, and_imp]
  exact forall_comm.trans (forall_congr' fun t => forall_comm)

theorem every_dotted {ts : List Tree} {tail : Tree} :
    (Tree.dotted ts tail).Every p ↔ (Tree.list ts).Every p ∧ tail.Every p := by
  simp only [Every, leaves, List.forall_mem_append]

/-- The trees that an open form has so far. -/
def Frame.trees : Frame → List Tree
  | .items _ ts | .beforeTail ts => ts
  | .afterTail ts tail => tail :: ts
  | .quote => []

/-- All leaves that have been taken have a property. -/
structure Stack.Holds (p : Leaf → Prop) (s : Stack) : Prop where
  frames : ∀ f ∈ s.frames, ∀ t ∈ f.trees, t.Every p
  trees : ∀ t ∈ s.trees, t.Every p

namespace Stack

theorem Holds.push {frames : List Frame} {trees : List Tree} {t : Tree}
    (h : Holds p ⟨frames, trees⟩) (ht : t.Every p) : Holds p (push trees t frames) := by
  induction frames generalizing t with
  | nil => exact ⟨h.frames, List.forall_mem_cons.mpr ⟨ht, h.trees⟩⟩
  | cons f frames ih =>
    obtain ⟨hf, hframes⟩ := List.forall_mem_cons.mp h.frames
    cases f with
    | items b ts =>
      exact ⟨List.forall_mem_cons.mpr ⟨List.forall_mem_cons.mpr ⟨ht, hf⟩, hframes⟩, h.trees⟩
    | beforeTail ts =>
      exact ⟨List.forall_mem_cons.mpr ⟨List.forall_mem_cons.mpr ⟨ht, hf⟩, hframes⟩, h.trees⟩
    | afterTail ts tail => exact h
    | quote => exact ih ⟨hframes, h.trees⟩ ht

/-- A token brings at most its own leaf onto the stack. -/
theorem Holds.takes {token : Token} (h : s.Holds p) (ht : ∀ l, token = .leaf l → p l)
    (hs : Takes s token s') : s'.Holds p := by
  have hreverse : ∀ ts : List Tree, (∀ t ∈ ts, t.Every p) → (Tree.list ts.reverse).Every p :=
    fun ts hts => every_list.mpr fun t ht => hts t (List.mem_reverse.mp ht)
  cases hs with
  | leaf hopen l => exact h.push (by simpa [Every, leaves] using ht l rfl)
  | opening hopen b =>
    exact ⟨List.forall_mem_cons.mpr ⟨fun t ht => (by cases ht), h.frames⟩, h.trees⟩
  | quote hopen =>
    exact ⟨List.forall_mem_cons.mpr ⟨fun t ht => (by cases ht), h.frames⟩, h.trees⟩
  | dot items frames trees =>
    obtain ⟨hf, hframes⟩ := List.forall_mem_cons.mp h.frames
    exact ⟨List.forall_mem_cons.mpr ⟨hf, hframes⟩, h.trees⟩
  | closing b items frames trees =>
    obtain ⟨hf, hframes⟩ := List.forall_mem_cons.mp h.frames
    exact Holds.push ⟨hframes, h.trees⟩ (hreverse items hf)
  | closingTail items tail frames trees =>
    obtain ⟨hf, hframes⟩ := List.forall_mem_cons.mp h.frames
    obtain ⟨htail, hitems⟩ := List.forall_mem_cons.mp hf
    exact Holds.push ⟨hframes, h.trees⟩ (every_dotted.mpr ⟨hreverse items hitems, htail⟩)

end Stack

/-- The trees that are read have no leaves but those among the tokens. -/
theorem every_ofTokens {ts : List Located} {trees : List Tree} (hs : s.Holds p)
    (hts : ∀ t ∈ ts, ∀ l, t.token = .leaf l → p l) (h : ofTokens stuck? ts s = .ok trees) :
    ∀ t ∈ trees, t.Every p := by
  induction ts generalizing s with
  | nil =>
    unfold ofTokens at h
    split at h
    · cases h
    · cases h
      exact fun t ht => hs.trees t (List.mem_reverse.mp ht)
    · cases h
  | cons t ts ih =>
    obtain ⟨ht, hts⟩ := List.forall_mem_cons.mp hts
    rw [ofTokens] at h
    split at h
    · rename_i s' hstep
      exact ih (hs.takes ht (Stack.takes_of_step? hstep)) hts h
    · cases h

end Tree

namespace Token

variable {prev : Option Token} {us vs : List Token}

/-- What the written forms of tokens are scanned as, one after the other and after the tokens
`ts`. The result is kept latest first, like `ts`. -/
def rescan (ts us : List Token) : List Token :=
  us.foldl (fun ts t => rescanned ts.head? t :: ts) ts

theorem rescan_append (ts us vs : List Token) :
    rescan ts (us ++ vs) = rescan (rescan ts us) vs :=
  List.foldl_append

/-- The written forms of tokens are scanned as the tokens themselves. -/
def Kept : Option Token → List Token → Prop
  | _, [] => True
  | prev, t :: us => rescanned prev t = t ∧ Kept (some t) us

/-- Tokens are kept one after the other, each after the one before it. -/
theorem kept_append : Kept prev (us ++ vs) ↔ Kept prev us ∧ Kept (us.getLast?.or prev) vs := by
  induction us generalizing prev with
  | nil => simp [Kept]
  | cons t us ih =>
    have hlast : (t :: us).getLast?.or prev = us.getLast?.or (some t) := by
      cases us with
      | nil => rfl
      | cons u us => simp [List.getLast?_cons]
    rw [List.cons_append, Kept, Kept, ih, hlast, and_assoc]

/-- Tokens that are kept are scanned as they were written. -/
theorem Kept.rescan (ts : List Token) (h : Kept ts.head? us) :
    rescan ts us = us.reverse ++ ts := by
  induction us generalizing ts with
  | nil => rfl
  | cons t us ih =>
    obtain ⟨ht, hus⟩ := h
    have hrest := ih (t :: ts) hus
    simpa [Token.rescan, ht] using hrest

end Token

namespace Datum

mutual

/-- The names and constants of a datum, from left to right. -/
def leaves : Datum → List Lexeme
  | .atom a => [.atom a]
  | .sym x => [.name x]
  | .list items => leavesAll items
  | .dotted items tail => leavesAll items ++ tail.leaves

def leavesAll : List Datum → List Lexeme
  | [] => []
  | d :: ds => d.leaves ++ leavesAll ds

end

mutual

/-- Every dotted list has an item before the dot. -/
def headed : Datum → Bool
  | .atom _ | .sym _ => true
  | .list items => headedAll items
  | .dotted items tail => !items.isEmpty && headedAll items && tail.headed

def headedAll : List Datum → Bool
  | [] => true
  | d :: ds => d.headed && headedAll ds

end

mutual

/-- The derivation that a datum is written as. -/
def derivation : Datum → Derivation
  | .atom a => .leaf (Lexeme.leaf (.atom a))
  | .sym x => .leaf (.symbol x)
  | .list items => .combination .round (derivations items)
  | .dotted items tail => .dotted (derivations items) tail.derivation

def derivations : List Datum → List Derivation
  | [] => []
  | d :: ds => d.derivation :: derivations ds

end

/-- The parts of a datum that stand in a list are reached by membership. -/
@[induction_eliminator]
theorem induction {motive : Datum → Prop} (atom : ∀ a, motive (.atom a))
    (sym : ∀ x, motive (.sym x)) (list : ∀ items, (∀ d ∈ items, motive d) →
      motive (.list items))
    (dotted : ∀ items tail, (∀ d ∈ items, motive d) → motive tail →
      motive (.dotted items tail))
    (d : Datum) : motive d := by
  refine (leaves.mutual_induct motive (fun ds => ∀ d ∈ ds, motive d) atom sym list
    dotted ?_ ?_).1 d
  · intro d hd
    cases hd
  · intro d ds hd hds
    exact List.forall_mem_cons.mpr ⟨hd, hds⟩

theorem leavesAll_eq_flatMap (ds : List Datum) : leavesAll ds = ds.flatMap leaves := by
  induction ds with
  | nil => rfl
  | cons d ds ih => simp [leavesAll, ih]

theorem headedAll_eq_all (ds : List Datum) : headedAll ds = ds.all headed := by
  induction ds with
  | nil => rfl
  | cons d ds ih => simp [headedAll, ih]

/-- All names and constants of a datum have a property, and dotted lists have items. -/
structure Made (p : Lexeme → Prop) (d : Datum) : Prop where
  leaves : ∀ l ∈ d.leaves, p l
  headed : d.headed = true

/-- A datum that text can hold. -/
abbrev Scanned (d : Datum) : Prop := d.Made Lexeme.Scanned

/-- A datum that text can hold, without floats. -/
abbrev Exact (d : Datum) : Prop := d.Made fun l => l.Scanned ∧ l.isFloat = false

/-- A datum that can be read back from its written form. -/
abbrev Readable (d : Datum) : Prop := d.Made Lexeme.Readable

theorem made_atom {p : Lexeme → Prop} {a : Atom} : (Datum.atom a).Made p ↔ p (.atom a) :=
  ⟨fun h => h.leaves _ (by simp [leaves]), fun h => ⟨by simpa [leaves] using h, rfl⟩⟩

theorem made_sym {p : Lexeme → Prop} {x : String} : (Datum.sym x).Made p ↔ p (.name x) :=
  ⟨fun h => h.leaves _ (by simp [leaves]), fun h => ⟨by simpa [leaves] using h, rfl⟩⟩

theorem made_list {p : Lexeme → Prop} {items : List Datum} :
    (Datum.list items).Made p ↔ ∀ d ∈ items, d.Made p := by
  constructor
  · rintro ⟨hleaves, hheaded⟩ d hd
    rw [leaves, leavesAll_eq_flatMap] at hleaves
    rw [headed, headedAll_eq_all, List.all_eq_true] at hheaded
    exact ⟨fun l hl => hleaves l (List.mem_flatMap.mpr ⟨d, hd, hl⟩), hheaded d hd⟩
  · intro h
    refine ⟨fun l hl => ?_, ?_⟩
    · rw [leaves, leavesAll_eq_flatMap] at hl
      obtain ⟨d, hd, hl⟩ := List.mem_flatMap.mp hl
      exact (h d hd).leaves l hl
    · rw [headed, headedAll_eq_all, List.all_eq_true]
      exact fun d hd => (h d hd).headed

theorem made_dotted {p : Lexeme → Prop} {items : List Datum} {tail : Datum} :
    (Datum.dotted items tail).Made p ↔ items ≠ [] ∧ (∀ d ∈ items, d.Made p) ∧ tail.Made p := by
  rw [← made_list]
  constructor
  · rintro ⟨hleaves, hheaded⟩
    rw [leaves, List.forall_mem_append] at hleaves
    simp only [headed, Bool.and_eq_true, Bool.not_eq_true',
      List.isEmpty_eq_false_iff] at hheaded
    exact ⟨hheaded.1.1, ⟨hleaves.1, hheaded.1.2⟩, hleaves.2, hheaded.2⟩
  · rintro ⟨hne, hitems, htail⟩
    refine ⟨?_, ?_⟩
    · rw [leaves, List.forall_mem_append]
      exact ⟨hitems.leaves, htail.leaves⟩
    · simp only [headed, Bool.and_eq_true, Bool.not_eq_true', List.isEmpty_eq_false_iff]
      exact ⟨⟨hne, hitems.headed⟩, htail.headed⟩

mutual

/-- The data that stand in a list or before the dot of a dotted list, at any depth. -/
def itemsWithin : Datum → List Datum
  | .atom _ | .sym _ => []
  | .list items => itemsAmong items
  | .dotted items tail => itemsAmong items ++ tail.itemsWithin

def itemsAmong : List Datum → List Datum
  | [] => []
  | d :: ds => d :: (d.itemsWithin ++ itemsAmong ds)

end

theorem mem_itemsAmong {e : Datum} {ds : List Datum} :
    e ∈ itemsAmong ds ↔ ∃ d ∈ ds, e = d ∨ e ∈ d.itemsWithin := by
  induction ds with
  | nil => simp [itemsAmong]
  | cons d ds ih => simp [itemsAmong, ih, or_assoc]

/-- No name looks like a number, and no item of a list is a point. -/
structure Legible (d : Datum) : Prop where
  names : ∀ x, .name x ∈ d.leaves → (Numeral.ofChars? x.toList).isSome = false
  items : ∀ e ∈ d.itemsWithin, e ≠ .sym "."

theorem legible_atom (a : Atom) : (Datum.atom a).Legible :=
  ⟨by simp [leaves], by simp [itemsWithin]⟩

theorem legible_sym {x : String} :
    (Datum.sym x).Legible ↔ (Numeral.ofChars? x.toList).isSome = false :=
  ⟨fun h => h.names x (by simp [leaves]), fun h =>
    ⟨by simpa [leaves] using h, by simp [itemsWithin]⟩⟩

/-- A lone point among the items would be taken for the dot of a dotted list. -/
theorem legible_list {items : List Datum} :
    (Datum.list items).Legible ↔ ∀ d ∈ items, d.Legible ∧ d ≠ .sym "." := by
  constructor
  · rintro ⟨hnames, hitems⟩ d hd
    rw [leaves, leavesAll_eq_flatMap] at hnames
    simp only [itemsWithin, mem_itemsAmong] at hitems
    refine ⟨⟨fun x hx => hnames x (List.mem_flatMap.mpr ⟨d, hd, hx⟩), fun e he => ?_⟩, ?_⟩
    · exact hitems e ⟨d, hd, .inr he⟩
    · exact hitems d ⟨d, hd, .inl rfl⟩
  · intro h
    refine ⟨fun x hx => ?_, fun e he => ?_⟩
    · rw [leaves, leavesAll_eq_flatMap] at hx
      obtain ⟨d, hd, hx⟩ := List.mem_flatMap.mp hx
      exact (h d hd).1.names x hx
    · rw [itemsWithin, mem_itemsAmong] at he
      obtain ⟨d, hd, rfl | he⟩ := he
      · exact (h e hd).2
      · exact (h d hd).1.items e he

theorem legible_dotted {items : List Datum} {tail : Datum} :
    (Datum.dotted items tail).Legible ↔ (Datum.list items).Legible ∧ tail.Legible := by
  constructor
  · rintro ⟨hnames, hitems⟩
    rw [itemsWithin, List.forall_mem_append] at hitems
    refine ⟨⟨fun x hx => ?_, hitems.1⟩, ⟨fun x hx => ?_, hitems.2⟩⟩
    · exact hnames x (List.mem_append_left _ hx)
    · exact hnames x (List.mem_append_right _ hx)
  · rintro ⟨hitems, htail⟩
    refine ⟨fun x hx => ?_, ?_⟩
    · rcases List.mem_append.mp hx with hx | hx
      · exact hitems.names x hx
      · exact htail.names x hx
    · rw [itemsWithin, List.forall_mem_append]
      exact ⟨hitems.items, htail.items⟩

section

variable {d tail : Datum} {items : List Datum} {s : Scan} {ts : List Token}

/-- Whatever datum stands before it, a lone point after it is a dot. -/
theorem takesDot_after (d : Datum) (prev : Option Token) :
    Token.takesDot (d.derivation.word.getLast?.or prev) = true := by
  cases d with
  | atom a => rfl
  | sym x => rfl
  | list items => simp [derivation, Derivation.word, List.getLast?_cons, Token.takesDot]
  | dotted items tail => simp [derivation, Derivation.word, List.getLast?_cons, Token.takesDot]

theorem takesDot_after_items (items : List Datum) (prev : Option Token)
    (h : Token.takesDot prev = true) :
    Token.takesDot ((Derivation.words (derivations items)).getLast?.or prev) = true := by
  induction items generalizing prev with
  | nil => exact h
  | cons d items ih =>
    rw [derivations, Derivation.words, List.getLast?_append, Option.or_assoc]
    exact ih _ (d.takesDot_after prev)

theorem kept_items (prev : Option Token)
    (h : ∀ d ∈ items, ∀ prev, Token.Kept prev d.derivation.word ↔ d.Legible ∧
    (d = .sym "." → Token.takesDot prev = false)) (hprev : Token.takesDot prev = true) :
    
    Token.Kept prev (Derivation.words (derivations items)) ↔ (Datum.list items).Legible := by
  rw [legible_list]
  induction items generalizing prev with
  | nil => simp [derivations, Derivation.words, Token.Kept]
  | cons d items ih =>
    obtain ⟨hd, hitems⟩ := List.forall_mem_cons.mp h
    rw [derivations, Derivation.words, Token.kept_append, hd, hprev,
      ih _ hitems (d.takesDot_after prev), List.forall_mem_cons]
    simp

/-- The tokens of a written datum look like themselves exactly if it is legible, but for a
point by itself. -/
theorem kept_iff (d : Datum) (prev : Option Token) : Token.Kept prev d.derivation.word ↔
    d.Legible ∧ (d = .sym "." → Token.takesDot prev = false) := by
  induction d generalizing prev with
  | atom a =>
    have hkept : Token.Kept prev (Datum.atom a).derivation.word := by
      rcases a with n | b | s
      all_goals exact ⟨rfl, trivial⟩
    simp [legible_atom, hkept]
  | sym x =>
    have hkept : Token.Kept prev (Datum.sym x).derivation.word ↔
        Token.rescanned prev (.leaf (.symbol x)) = .leaf (.symbol x) :=
      and_iff_left trivial
    rw [legible_sym, hkept, Token.rescanned]
    by_cases hx : x = "."
    · subst hx
      have hnum : (Numeral.ofChars? ".".toList).isSome = false := rfl
      rw [hnum]
      cases hprev : Token.takesDot prev <;> simp [Token.point, hprev]
    · cases hnum : (Numeral.ofChars? x.toList).isSome <;> simp [hx]
  | list items ih =>
    have hitems := kept_items (some (.opening .round)) ih rfl
    simp [derivation, Derivation.word, Token.Kept, Token.rescanned, Token.kept_append, hitems]
  | dotted items tail ihs ih =>
    have hitems := kept_items (some (.opening .round)) ihs rfl
    have hdot := takesDot_after_items items (some (.opening .round)) rfl
    have htail := ih (some .dot)
    simp only [derivation, Derivation.word, Token.Kept, Token.rescanned,
      Token.kept_append, hitems, Token.point, hdot, htail, legible_dotted]
    simp [Token.takesDot]

/-- Data side by side are scanned one after the other. -/
theorem scanned_items
    (hitems : ∀ d ∈ items, ∀ s ts, s.Between ts →
      (d.write.toList.foldl Scan.step s).Settled (Token.rescan ts d.derivation.word))
    (h : s.Between ts) :
    ((Text.spaced (writeAll items)).toList.foldl Scan.step s).Settled
      (Token.rescan ts (Derivation.words (derivations items))) := by
  induction items generalizing s ts with
  | nil => exact h.settled
  | cons d items ih =>
    obtain ⟨hd, hitems⟩ := List.forall_mem_cons.mp hitems
    cases items with
    | nil => simpa [writeAll, Text.spaced, derivations, Derivation.words] using hd s ts h
    | cons d' items =>
      have hrest := ih hitems (hd s ts h).space
      rw [derivations, Derivation.words, Token.rescan_append]
      simpa [writeAll, Text.spaced] using hrest

/-- Scanning the written form of a datum gives its tokens as far as they look like
themselves. -/
theorem scanned (hd : d.Exact) (h : s.Between ts) :
    (d.write.toList.foldl Scan.step s).Settled (Token.rescan ts d.derivation.word) := by
  induction d generalizing s ts with
  | atom a =>
    obtain ⟨hscanned, hfloat⟩ := made_atom.mp hd
    have hleaf := Lexeme.scanned h hscanned hfloat
    exact hleaf
  | sym x =>
    obtain ⟨hscanned, hfloat⟩ := made_sym.mp hd
    have hleaf := Lexeme.scanned h hscanned hfloat
    exact hleaf
  | list items ih =>
    have hitems :=
      scanned_items (fun d hmem s ts => ih d hmem (made_list.mp hd d hmem)) h.opening
    have hclosed := hitems.closing.settled
    simpa [write, Text.parens, derivation, Derivation.word, Token.rescan] using hclosed
  | dotted items tail ihs ih =>
    obtain ⟨hne, hlist, htail⟩ := made_dotted.mp hd
    have hitems := scanned_items (fun d hmem s ts => ihs d hmem (hlist d hmem)) h.opening
    have hclosed := (ih htail hitems.space.point.space).closing.settled
    simpa [write, Text.parens, derivation, Derivation.word, Token.rescan] using hclosed

theorem scan_write (hd : d.Exact) :
    (Scan.ofChars d.write.toList).Between (Token.rescan [] d.derivation.word) :=
  scanned hd ⟨rfl, rfl⟩

theorem values_derivations {items : List Datum} (h : ∀ d ∈ items, d.derivation.value = .ok d) :
    Derivation.values (derivations items) = .ok items := by
  induction items with
  | nil => rfl
  | cons d items ih =>
    obtain ⟨hd, hitems⟩ := List.forall_mem_cons.mp h
    rw [derivations, Derivation.values, hd, ih hitems]
    rfl

/-- The derivation that a datum is written as stands for the datum. -/
theorem value_derivation (hd : d.Exact) : d.derivation.value = .ok d := by
  induction d with
  | atom a =>
    obtain ⟨hscanned, hfloat⟩ := made_atom.mp hd
    exact Lexeme.datum_leaf hscanned hfloat
  | sym x => rfl
  | list items ih =>
    have hitems := values_derivations fun d hmem => ih d hmem (made_list.mp hd d hmem)
    rw [derivation, Derivation.value, hitems]
    rfl
  | dotted items tail ihs ih =>
    obtain ⟨hne, hlist, htail⟩ := made_dotted.mp hd
    have hitems := values_derivations fun d hmem => ihs d hmem (hlist d hmem)
    have hsome : (derivations items).isEmpty = false := by
      rw [← Derivation.isEmpty_of_values hitems]
      simpa using hne
    rw [derivation, Derivation.value, hitems, ih htail]
    simp [bind, Except.bind, hsome]
    rfl

/-- A datum is read back from its written form if its tokens look like themselves. -/
theorem read_write_of_kept (hd : d.Exact) (hkept : Token.Kept none d.derivation.word) :
    Datum.read d.write = .ok d := by
  have hscan := scan_write hd
  rw [Token.Kept.rescan [] hkept, List.append_nil] at hscan
  have hstuck : (Scan.ofChars d.write.toList).stuck? = none := by
    rw [Scan.stuck?, hscan.mode]
  have htokens : (Scan.ofChars d.write.toList).tokens.reverse.map Located.token =
      d.derivation.word := by
    rw [List.map_reverse, hscan.tokens, List.reverse_reverse]
  have hrun : Tree.Stack.run d.derivation.word {} = some ⟨[], [d.derivation.tree]⟩ :=
    Tree.Stack.run_word d.derivation [] [] trivial
  have htrees : Tree.readAll d.write.toList = .ok [d.derivation.tree] := by
    rw [Tree.readAll, Tree.ofTokens_of_run (htokens ▸ hrun), hstuck]
    rfl
  have hdata : Tree.data [d.derivation.tree] = .ok [d] := by
    rw [Tree.data, Tree.data, Derivation.datum_tree, value_derivation hd]
    rfl
  rw [Datum.read, Datum.readAll, htrees]
  simp [bind, Except.bind, hdata, pure, Except.pure]

theorem Made.exact (hd : d.Readable) : d.Exact :=
  ⟨fun l hl => ⟨(hd.leaves l hl).1, Lexeme.isFloat_of_isPlain (hd.leaves l hl).2⟩, hd.headed⟩

theorem Made.legible (hd : d.Readable) : d.Legible ∧ d ≠ .sym "." := by
  induction d with
  | atom a => exact ⟨legible_atom a, by simp⟩
  | sym x =>
    obtain ⟨hnum, hdot⟩ := Bool.and_eq_true_iff.mp (made_sym.mp hd).2
    exact ⟨legible_sym.mpr (by simpa using hnum), by simpa using hdot⟩
  | list items ih =>
    exact ⟨legible_list.mpr fun d hmem => ih d hmem (made_list.mp hd d hmem), by simp⟩
  | dotted items tail ihs ih =>
    obtain ⟨_, hlist, htail⟩ := made_dotted.mp hd
    have hitems := legible_list.mpr fun d hmem => ihs d hmem (hlist d hmem)
    exact ⟨legible_dotted.mpr ⟨hitems, (ih htail).1⟩, by simp⟩

/-- A datum is read back from its written form. -/
theorem read_write (hd : d.Readable) : Datum.read d.write = .ok d := by
  obtain ⟨hlegible, hdot⟩ := Made.legible hd
  exact read_write_of_kept (Made.exact hd)
    ((kept_iff d none).mpr ⟨hlegible, fun he => absurd he hdot⟩)

end

end Datum

/-- A symbol has the characters of one. -/
def Leaf.Sound (l : Leaf) : Prop := ∀ x, l = .symbol x → Scan.isSymbol x = true

/-- What the scanner accepts can be written so that the scanner accepts it again. -/
theorem Leaf.Sound.scanned {l : Leaf} {d : Datum} (hl : l.Sound) (h : l.datum = .ok d) :
    d.Scanned := by
  cases l with
  | number text =>
    rw [datum] at h
    split at h
    · rename_i n hn
      cases h
      obtain ⟨m, hm, hvalue⟩ := Option.bind_eq_some_iff.mp hn
      cases n with
      | int n => exact Datum.made_atom.mpr (Numeral.fits_of_value? hm hvalue)
      | float x => exact Datum.made_atom.mpr rfl
    · cases h
  | boolean text =>
    cases h
    exact Datum.made_atom.mpr rfl
  | string text =>
    cases h
    exact Datum.made_atom.mpr rfl
  | symbol text =>
    cases h
    exact Datum.made_sym.mpr (hl text rfl)

namespace Tree

variable {p : Leaf → Prop} {q : Lexeme → Prop}

theorem made_of_data {ts : List Tree} {ds : List Datum}
    (hts : ∀ t ∈ ts, ∀ d, t.datum = .ok d → d.Made q) (h : data ts = .ok ds) : ∀ d ∈ ds,
      d.Made q := by
  induction ts generalizing ds with
  | nil =>
    cases h
    simp
  | cons t ts ih =>
    obtain ⟨ht, hts⟩ := List.forall_mem_cons.mp hts
    rw [data] at h
    obtain ⟨d, hd, h⟩ := except_bind_eq_ok h
    obtain ⟨rest, hrest, h⟩ := except_bind_eq_ok h
    cases h
    exact List.forall_mem_cons.mpr ⟨ht d hd, ih hts hrest⟩

/-- What the leaves of a tree stand for is all that its datum is made of, but for the names of
quotes. -/
theorem made_of_datum (hleaf : ∀ l d, p l → l.datum = .ok d → d.Made q)
    (hquote : q (.name "quote")) (t : Tree) (ht : t.Every p) (d : Datum)
    (h : t.datum = .ok d) : d.Made q := by
  induction t generalizing d with
  | leaf l => exact hleaf l d (ht l (by simp [leaves])) h
  | list items ih =>
    rw [datum] at h
    obtain ⟨ds, hds, h⟩ := except_bind_eq_ok h
    cases h
    exact Datum.made_list.mpr
      (made_of_data (fun t hmem d => ih t hmem (every_list.mp ht t hmem) d) hds)
  | dotted items tail ihs ih =>
    obtain ⟨hitems, htail⟩ := every_dotted.mp ht
    rw [datum] at h
    obtain ⟨ds, hds, h⟩ := except_bind_eq_ok h
    obtain ⟨d', hd', h⟩ := except_bind_eq_ok h
    split at h
    · cases h
    · rename_i hne
      cases h
      have hds := made_of_data (fun t hmem d => ihs t hmem (every_list.mp hitems t hmem) d) hds
      exact Datum.made_dotted.mpr ⟨by simpa using hne, hds, ih htail d' hd'⟩
  | quoted t ih =>
    rw [datum] at h
    obtain ⟨d', hd', h⟩ := except_bind_eq_ok h
    cases h
    exact Datum.made_list.mpr (by simpa using ⟨Datum.made_sym.mpr hquote, ih ht d' hd'⟩)

end Tree

namespace Datum

/-- What is read is made of what text can hold. -/
theorem scanned_of_readAll {source : String} {ds : List Datum} (h : readAll source = .ok ds) :
    ∀ d ∈ ds, d.Scanned := by
  rw [readAll] at h
  obtain ⟨ts, hts, h⟩ := except_bind_eq_ok h
  have hsound := Scan.sound_ofChars source.toList
  have hevery : ∀ t ∈ ts, t.Every Leaf.Sound := by
    refine Tree.every_ofTokens ⟨by simp, by simp⟩ (fun t ht l hl x hx => ?_) hts
    exact hsound.symbols t (List.mem_reverse.mp ht) x (hx ▸ hl)
  have hquote : (Lexeme.name "quote").Scanned := by decide
  exact Tree.made_of_data
    (fun t ht d => t.made_of_datum (fun l d => Leaf.Sound.scanned) hquote (hevery t ht) d) h

theorem scanned_of_read {source : String} {d : Datum}
    (h : read source = .ok d) : d.Scanned := by
  rw [read] at h
  obtain ⟨ds, hds, h⟩ := except_bind_eq_ok h
  split at h
  · cases h
    exact scanned_of_readAll hds d (by simp)
  · cases h

end Datum

end TypedL5
