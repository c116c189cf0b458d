import TypedL5.Proofs.Explained
import TypedL5.Report.Hint

/-!
Hints on numbers of arguments. Which hint is given depends on whether the report has `letrec`
in it, and a report quotes the expression that has failed.
-/
namespace TypedL5

namespace Text

variable {needle xs ys : List Char} {c : Char}

theorem occursIn_iff : ∀ {cs : List Char}, occursIn needle cs = true ↔ needle <:+: cs
  | [] => by simp [occursIn]
  | c :: cs => by
    rw [occursIn, Bool.or_eq_true, List.isPrefixOf_iff_prefix, occursIn_iff,
      List.infix_cons_iff]

/-- A text does not reach across a character that is not in it. -/
theorem infix_append_cons_iff (hne : needle ≠ []) (hc : c ∉ needle) :
    needle <:+: xs ++ c :: ys ↔ needle <:+: xs ∨ needle <:+: ys := by
  constructor
  · rintro ⟨before, after, h⟩
    rw [List.append_assoc] at h
    rcases List.append_eq_append_iff.mp h with ⟨zs, rfl, hrest⟩ | ⟨zs, rfl, hrest⟩
    · -- The needle begins in `xs`, and cannot reach `c`.
      rcases List.append_eq_append_iff.mp hrest with ⟨ws, rfl, _⟩ | ⟨ws, rfl, hws⟩
      · exact .inl ⟨before, ws, List.append_assoc _ _ _⟩
      · cases ws with
        | nil => exact .inl ⟨before, [], by simp⟩
        | cons w ws =>
          obtain ⟨rfl, _⟩ := List.cons.inj hws
          simp at hc
    · -- The needle begins at `c` or later, and cannot begin with `c`.
      cases zs with
      | nil =>
        obtain ⟨n, needle, rfl⟩ := List.exists_cons_of_ne_nil hne
        obtain ⟨rfl, _⟩ := List.cons.inj hrest
        simp at hc
      | cons z zs =>
        obtain ⟨_, rfl⟩ := List.cons.inj hrest
        exact .inr ⟨zs, after, List.append_assoc _ _ _⟩
  · rintro (h | h)
    · exact h.trans (List.prefix_append xs _).isInfix
    · exact h.trans ((List.suffix_cons c ys).trans (List.suffix_append xs _)).isInfix

/-- A text without the characters that are written between words. -/
structure Unbroken (needle : List Char) : Prop where
  ne_nil : needle ≠ []
  space : ' ' ∉ needle
  opening : '(' ∉ needle
  closing : ')' ∉ needle
  dot : '.' ∉ needle

namespace Unbroken

/-- Parentheses around a text make no word of it. -/
theorem infix_parens_iff (h : Unbroken needle) (text : String) :
    needle <:+: (parens text).toList ↔ needle <:+: text.toList := by
  have hlist : (parens text).toList = [] ++ '(' :: (text.toList ++ ')' :: []) := by
    simp [parens]
  have hnil : ¬ needle <:+: [] := by simpa using h.ne_nil
  rw [hlist, infix_append_cons_iff h.ne_nil h.opening,
    infix_append_cons_iff h.ne_nil h.closing]
  simp only [hnil, false_or, or_false]

/-- A word with no space in it is found in one of the words that are put together. -/
theorem infix_spaced_iff (h : Unbroken needle) (ws : List String) :
    needle <:+: (spaced ws).toList ↔ ∃ w ∈ ws, needle <:+: w.toList := by
  induction ws with
  | nil => simpa [spaced] using h.ne_nil
  | cons w ws ih =>
    cases ws with
    | nil => simp [spaced]
    | cons w' ws =>
      have hlist : (spaced (w :: w' :: ws)).toList = w.toList ++ ' ' ::
          (spaced (w' :: ws)).toList := by
        simp [spaced, String.intercalate_cons_cons]
      rw [hlist, infix_append_cons_iff h.ne_nil h.space]
      exact (or_congr_right ih).trans (by simp)

end Unbroken

end Text

namespace Datum

mutual

/-- The words that a datum is written with. -/
@[simp] def words : Datum → List String
  | .atom a => [a.write]
  | .sym name => [name]
  | .list items => wordsAll items
  | .dotted items tail => wordsAll items ++ tail.words

@[simp] def wordsAll : List Datum → List String
  | [] => []
  | d :: ds => d.words ++ wordsAll ds

end

/-- What is written without breaks is in one word. -/
theorem infix_write_iff {needle : List Char} (h : Text.Unbroken needle) :
    (∀ d : Datum, needle <:+: d.write.toList ↔ ∃ w ∈ d.words, needle <:+: w.toList) ∧
    (∀ ds : List Datum, (∃ t ∈ writeAll ds, needle <:+: t.toList) ↔
      ∃ w ∈ wordsAll ds, needle <:+: w.toList) := by
  apply words.mutual_induct
  · intro a
    simp [write, words]
  · intro name
    simp [write, words]
  · intro items ih
    rw [write, words, h.infix_parens_iff, h.infix_spaced_iff, ih]
  · intro items tail hitems htail
    have hlist : (Text.spaced (writeAll items) ++ " . " ++ tail.write).toList =
        (Text.spaced (writeAll items)).toList ++ ' ' ::
          ([] ++ '.' :: ([] ++ ' ' :: tail.write.toList)) := by
      simp
    have hnil : ¬ needle <:+: [] := by simpa using h.ne_nil
    rw [write, words, h.infix_parens_iff, hlist, Text.infix_append_cons_iff h.ne_nil h.space,
      Text.infix_append_cons_iff h.ne_nil h.dot, Text.infix_append_cons_iff h.ne_nil h.space,
        h.infix_spaced_iff, hitems,
      htail]
    simp only [hnil, false_or, List.mem_append, or_and_right, exists_or]
  · simp [writeAll, wordsAll]
  · intro d ds hd hds
    simp only [writeAll, wordsAll, List.mem_cons, List.mem_append, or_and_right, exists_or,
      exists_eq_left, hd, hds]

end Datum

/-- Whether the word `letrec` is written somewhere in a text. -/
def Text.hasLetrec (text : String) : Bool := occursIn "letrec".toList text.toList

theorem Text.unbroken_letrec : Unbroken "letrec".toList :=
  ⟨by decide, by decide, by decide, by decide, by decide⟩

namespace Datum

/-- The word letrec is in what a datum is written as exactly if it is in one of its words. -/
theorem hasLetrec_write (d : Datum) : Text.hasLetrec d.write = d.words.any Text.hasLetrec := by
  rw [Bool.eq_iff_iff, List.any_eq_true]
  simp only [Text.hasLetrec, Text.occursIn_iff]
  exact (infix_write_iff Text.unbroken_letrec).1 d

theorem wordsAll_append (ds es : List Datum) :
    wordsAll (ds ++ es) = wordsAll ds ++ wordsAll es := by
  induction ds with
  | nil => rfl
  | cons d ds ih => simp [wordsAll, ih]

theorem words_cons (d e : Datum) : (cons d e).words = d.words ++ e.words := by
  cases e <;> simp [cons, words, wordsAll]

end Datum

theorem Quoted.words_datum (v : Quoted) : v.datum.words = v.leaves.map Lexeme.text := by
  induction v with
  | atom a => rfl
  | sym x => rfl
  | nil => rfl
  | cons first rest ihf ihr => rw [datum, Datum.words_cons, leaves, List.map_append, ihf, ihr]

namespace Ty

/-- Stars and the word Empty do not contain letrec. -/
theorem any_words_paramData (ds : List Datum) :
    (Datum.wordsAll (paramData ds)).any Text.hasLetrec =
      (Datum.wordsAll ds).any Text.hasLetrec := by
  have hstar : Text.hasLetrec "*" = false := by decide
  cases ds with
  | nil => decide
  | cons d ds =>
    change (Datum.wordsAll ((d :: ds).intersperse (.sym "*"))).any Text.hasLetrec = _
    induction ds generalizing d with
    | nil => rfl
    | cons d' ds ih =>
      rw [List.intersperse_cons_cons, Datum.wordsAll, Datum.wordsAll, List.any_append,
        List.any_append, ih d']
      simp [hstar]

theorem any_words_data {ps : List Ty}
    (h : ∀ p ∈ ps, p.datum.words.any Text.hasLetrec = p.leaves.any (Text.hasLetrec ·.text)) :
    (Datum.wordsAll (data ps)).any Text.hasLetrec =
      (ps.flatMap leaves).any (Text.hasLetrec ·.text) := by
  induction ps with
  | nil => rfl
  | cons p ps ih =>
    obtain ⟨hp, hps⟩ := List.forall_mem_cons.mp h
    simp [data, hp, ih hps]

/-- Of the words of a type only the names of variables can be any. -/
theorem any_words_datum (t : Ty) :
    t.datum.words.any Text.hasLetrec = t.leaves.any (Text.hasLetrec ·.text) := by
  induction t with
  | base b => cases b <;> decide
  | var v => simp [datum, leaves, Lexeme.text]
  | pair l r ihl ihr =>
    have hpair : Text.hasLetrec "Pair" = false := by decide
    have hleaves : (Ty.pair l r).leaves = l.leaves ++ r.leaves := List.map_append
    rw [hleaves, List.any_append, ← ihl, ← ihr]
    simp [datum, hpair]
  | proc ps r ihp ihr =>
    have harrow : Text.hasLetrec "->" = false := by decide
    have hleaves : (Ty.proc ps r).leaves = ps.flatMap leaves ++ r.leaves := by
      rw [leaves, vars_proc, List.map_append, List.map_flatMap]
      rfl
    rw [hleaves, List.any_append, ← ihr, ← any_words_data ihp, datum, Datum.words,
      Datum.wordsAll_append, List.any_append, any_words_paramData]
    simp [harrow]

end Ty

theorem Decl.any_words_datum (d : Decl) :
    d.datum.words.any Text.hasLetrec = d.leaves.any (Text.hasLetrec ·.text) := by
  have hcolon : Text.hasLetrec ":" = false := by decide
  simp [datum, leaves, Lexeme.text, hcolon, Ty.any_words_datum]

namespace Exp

@[simp] def isLetrec : Exp → Bool
  | .letrec _ _ => true
  | _ => false

/-- Whether a `letrec` stands in an expression, or a name or a constant that has the word in
it. Names of types are those that stand in a store. -/
@[simp] def mentionsLetrec (s : Store) (e : Exp) : Bool :=
  e.subexps.any isLetrec || (e.mapTy s.resolve).leaves.any (Text.hasLetrec ·.text)

section

variable {s : Store} {es : List Exp} {bs : List (Decl × Exp)} {p : Lexeme → Prop}
  {k : Kind} {e : Exp}

theorem any_words_data
    (h : ∀ e ∈ es, (e.mapTy s.resolve).datum.words.any Text.hasLetrec = e.mentionsLetrec s) :
    (Datum.wordsAll (data (mapTyAll s.resolve es))).any Text.hasLetrec =
      ((subexpsAll es).any isLetrec ||
        (leavesAll (mapTyAll s.resolve es)).any (Text.hasLetrec ·.text)) := by
  induction es with
  | nil => rfl
  | cons e es ih =>
    obtain ⟨he, hes⟩ := List.forall_mem_cons.mp h
    simp only [mapTyAll, data, Datum.wordsAll, subexpsAll, leavesAll, List.any_append, he,
      ih hes, mentionsLetrec]
    ac_rfl

theorem any_words_dataBound
    (h : ∀ b ∈ bs, (b.2.mapTy s.resolve).datum.words.any Text.hasLetrec =
      b.2.mentionsLetrec s) :
    (Datum.wordsAll (dataBound (mapTyBound s.resolve bs))).any Text.hasLetrec =
      ((subexpsBound bs).any isLetrec ||
        (leavesBound (mapTyBound s.resolve bs)).any (Text.hasLetrec ·.text)) := by
  induction bs with
  | nil => rfl
  | cons b bs ih =>
    obtain ⟨hb, hbs⟩ := List.forall_mem_cons.mp h
    simp only [mapTyBound, dataBound, Datum.wordsAll, Datum.words, subexpsBound, leavesBound,
      List.any_append, List.append_nil, Decl.any_words_datum, hb, ih hbs, mentionsLetrec]
    ac_rfl

theorem any_words_decls (ds : List Decl) :
    (Datum.wordsAll (ds.map Decl.datum)).any Text.hasLetrec =
      (ds.flatMap Decl.leaves).any (Text.hasLetrec ·.text) := by
  induction ds with
  | nil => rfl
  | cons d ds ih =>
    simp only [List.map_cons, Datum.wordsAll, List.flatMap_cons, List.any_append,
      Decl.any_words_datum, ih]

theorem hasLetrec_of_isPrimitive {op : String} (h : isPrimitive op = true) :
    Text.hasLetrec op = false := by
  have hall : primitiveNames.all (!Text.hasLetrec ·) = true := by decide +kernel
  simpa using List.all_eq_true.mp hall op (List.contains_iff_mem.mp h)

/-- A well-formed expression is written with the words of the language, and with its names and
constants. -/
theorem Formed.any_words_datum (s : Store) (h : e.Formed p k) :
    (e.mapTy s.resolve).datum.words.any Text.hasLetrec = e.mentionsLetrec s := by
  have hwords : ["if", "lambda", ":", "let", "set!", "quote", "define", "L5"].all
      (!Text.hasLetrec ·) = true := by
    decide +kernel
  simp only [List.all_cons, List.all_nil, Bool.and_true, Bool.and_eq_true,
    Bool.not_eq_true'] at hwords
  -- Of the words of the language `letrec` alone holds the text that is looked for.
  have hletrec : Text.hasLetrec "letrec" = true := by decide
  induction h with
  | const | var => simp [Exp.mapTy, datum, leaves, Lexeme.text]
  | prim hop => simp [Exp.mapTy, datum, leaves, hasLetrec_of_isPrimitive hop]
  | ite _ _ _ hc ht he =>
    simp [Exp.mapTy, datum, leaves, hwords, hc, ht, he]
    ac_rfl
  | @lambda ps r body _ _ _ _ hbody =>
    simp only [Exp.mapTy, datum, leaves, mentionsLetrec]
    generalize ps.map (Decl.mapTy s.resolve) = ds
    simp [hwords, any_words_decls, Ty.any_words_datum, any_words_data hbody]
    ac_rfl
  | app _ _ hf hes =>
    simp [Exp.mapTy, datum, leaves, hf, any_words_data hes]
    ac_rfl
  | letIn _ _ _ _ hbs hbody =>
    simp [Exp.mapTy, datum, leaves, hwords, any_words_dataBound hbs, any_words_data hbody]
    ac_rfl
  | letrec => simp [Exp.mapTy, datum, hletrec]
  | assign _ _ he =>
    simp [Exp.mapTy, datum, leaves, Lexeme.text, hwords, he]
    ac_rfl
  | quote => simp [Exp.mapTy, datum, leaves, hwords, Quoted.words_datum, Function.comp_def]
  | form _ ih => exact ih
  | define _ _ he =>
    simp [Exp.mapTy, datum, leaves, hwords, Decl.any_words_datum, he]
    ac_rfl
  | program _ hes => simp [Exp.mapTy, datum, leaves, hwords, any_words_data hes]

theorem Formed.hasLetrec_text (h : e.Formed p k) (s : Store) :
    Text.hasLetrec (e.text s) = e.mentionsLetrec s := by
  rw [← h.write_datum s, Datum.hasLetrec_write, h.any_words_datum]

end

end Exp

namespace Failure

/-- The advice for `letrec`. -/
def letrecHint : List String :=
  ["letrec can only bind lambda expressions; use let for other values"]

/-- The advice for an application. -/
def countHint : List String :=
  ["Check the number of arguments against the procedure's declared type"]

theorem letrecHint_ne_countHint : letrecHint ≠ countHint := by decide

theorem hints_notLambda (e : Exp) (s : Store) :
    ((Cause.notLambda e).failure s).hints = letrecHint := by
  have hmessage : ((Cause.notLambda e).failure s).message.toList =
      "letrec".toList ++
        (" - only support binding of procedures - ".toList ++ (e.text s).toList) := by
    simp [Cause.failure]
  have hoccurs : Text.occursIn "letrec".toList ((Cause.notLambda e).failure s).message.toList =
      true := by
    rw [Text.occursIn_iff, hmessage]
    exact (List.prefix_append _ _).isInfix
  exact if_pos hoccurs

/-- The hint for a wrong number of arguments is chosen by the text of the application. -/
theorem hints_wrongArity (e : Exp) (s : Store) : ((Cause.wrongArity e).failure s).hints =
    if Text.hasLetrec (e.text s) = true then letrecHint else countHint := by
  have hmessage : ((Cause.wrongArity e).failure s).message.toList =
      "Wrong parameter numbers passed to proc:".toList ++ ' ' :: (e.text s).toList := by
    simp [Cause.failure]
  have hbefore : ¬ "letrec".toList <:+: "Wrong parameter numbers passed to proc:".toList := by
    rw [← Text.occursIn_iff]
    decide
  have hoccurs : Text.hasLetrec ((Cause.wrongArity e).failure s).message =
      Text.hasLetrec (e.text s) := by
    rw [Bool.eq_iff_iff, Text.hasLetrec, Text.hasLetrec, Text.occursIn_iff,
      Text.occursIn_iff, hmessage,
      Text.infix_append_cons_iff Text.unbroken_letrec.ne_nil Text.unbroken_letrec.space]
    simp only [hbefore, false_or]
  rw [← hoccurs]
  rfl

end Failure

/-- The failure is that of a `letrec` in the expression which binds something other than a
procedure. -/
def Refused (e : Exp) (c : Cause) : Prop :=
  ∃ bs body, c = .notLambda (.letrec bs body) ∧ .letrec bs body ∈ e.subexps ∧
    ∃ b ∈ bs, b.2.isLambda = false

/-- The failure is that of an application in the expression whose operator takes another number
of arguments. -/
def Miscounted (e : Exp) (c : Cause) (m : CheckState) (f : Exp) (es : List Exp) : Prop :=
  c = .wrongArity (.app f es) ∧ .app f es ∈ e.subexps ∧
    ∃ env st ps r, f.operatorTy env st = .ok (.proc ps r) m ∧ es.length ≠ ps.length

/-- Which hint is given for a failure, by where the failure comes from. -/
structure Hinted (e : Exp) (c : Cause) (m : CheckState) : Prop where
  letrec : (c.failure m.store).hints = Failure.letrecHint ↔
    Refused e c ∨ ∃ f es, Miscounted e c m f es ∧ (Exp.app f es).mentionsLetrec m.store = true
  count : (c.failure m.store).hints = Failure.countHint ↔
    ∃ f es, Miscounted e c m f es ∧ (Exp.app f es).mentionsLetrec m.store = false

namespace Hinted

variable {e f : Exp} {es : List Exp} {c : Cause} {m : CheckState}

theorem of_refused (h : Refused e c) : Hinted e c m := by
  obtain ⟨bs, body, rfl, hmem, hb⟩ := h
  have hhints := Failure.hints_notLambda (.letrec bs body) m.store
  constructor
  · exact ⟨fun _ => .inl ⟨bs, body, rfl, hmem, hb⟩, fun _ => hhints⟩
  · rw [hhints]
    constructor
    · exact fun h => (Failure.letrecHint_ne_countHint h).elim
    · rintro ⟨f, es, ⟨⟨⟩, _⟩, _⟩

/-- A formed application is hinted at as its own text has it. -/
theorem of_miscounted {p : Lexeme → Prop} {k : Exp.Kind} (h : Miscounted e c m f es)
    (hformed : (Exp.app f es).Formed p k) : Hinted e c m := by
  obtain rfl := h.1
  have hhints := Failure.hints_wrongArity (.app f es) m.store
  rw [hformed.hasLetrec_text] at hhints
  cases hmentions : (Exp.app f es).mentionsLetrec m.store with
  | true =>
    rw [if_pos hmentions] at hhints
    refine ⟨⟨fun _ => .inr ⟨f, es, h, hmentions⟩, fun _ => hhints⟩, ⟨fun hcount => ?_, ?_⟩⟩
    · exact (Failure.letrecHint_ne_countHint (hhints.symm.trans hcount)).elim
    · rintro ⟨_, _, ⟨⟨⟩, _⟩, hnone⟩
      cases hmentions.symm.trans hnone
  | false =>
    rw [if_neg (Bool.eq_false_iff.mp hmentions)] at hhints
    refine ⟨⟨fun hletrec => ?_, ?_⟩, ⟨fun _ => ⟨f, es, h, hmentions⟩, fun _ => hhints⟩⟩
    · exact (Failure.letrecHint_ne_countHint (hletrec.symm.trans hhints)).elim
    · rintro (⟨_, _, ⟨⟩, _⟩ | ⟨_, _, ⟨⟨⟩, _⟩, hsome⟩)
      cases hmentions.symm.trans hsome

end Hinted

/-- Two rules report wrong numbers of arguments. -/
theorem Thrown.arity_inv {env : Env} {e : Exp} {c : Cause} {m : CheckState} {s : Store}
    (h : Thrown env e c m) (hkind : (c.failure s).kind = .arityMismatch) :
    (∃ bs body, e = .letrec bs body ∧ c = .notLambda e ∧ ∃ b ∈ bs, b.2.isLambda = false) ∨
    (∃ f es ps r st, e = .app f es ∧ c = .wrongArity e ∧ f.operatorTy env st =
      .ok (.proc ps r) m ∧ es.length ≠ ps.length) := by
  have hclash : ∀ {e}, ¬ Clashing e c m := fun hc => by
    obtain ⟨k, rfl⟩ := hc.eq_clash
    cases k <;> cases hkind
  cases h with
  | wrongArity ht hlen => exact .inr ⟨_, _, _, _, _, rfl, rfl, ht, hlen⟩
  | notLambda hl => exact .inl ⟨_, _, rfl, rfl, by simpa using hl⟩
  | clash h => exact (hclash h).elim
  | definition _ h => exact (hclash h).elim
  | _ => cases hkind

/-- An arity failure with an origin has the hint that its origin calls for. -/
theorem Origin.hinted {e : Exp} {c : Cause} {m : CheckState} {p : Lexeme → Prop} {k : Exp.Kind}
    (h : Origin {} e c m) (he : e.Formed p k)
      (hkind : (c.failure m.store).kind = .arityMismatch) : Hinted e c m := by
  obtain ⟨env, e', k', hthrown, hmem, hformed, _⟩ := h.located he
  rcases hthrown.arity_inv hkind with ⟨bs, body, rfl, rfl, hb⟩
    | ⟨f, es, ps, r, st, rfl, rfl, ht, hlen⟩
  · exact .of_refused ⟨bs, body, rfl, hmem, hb⟩
  · exact .of_miscounted ⟨rfl, hmem, env, st, ps, r, ht, hlen⟩ hformed

namespace Checked

/-- Of a failure for numbers of arguments in a text that has been read. The hint for `letrec`
is given where a `letrec` binds something other than a procedure, and also for an application
with a wrong number of arguments if a `letrec` stands in it or a name or a constant that has
the word in it. For all other such applications the hint on arguments is given. -/
theorem arity_hints {source : String} {trace : Trace} {checked : Checked} {f : Failure}
    {e : Exp} {g : Supply} (hf : checked.result = .error f) (hkind : f.kind = .arityMismatch) :
    (Exp.read source {} = .ok e g → ofExp source trace = .ok checked →
      ∃ c m, e.typeOf {} { supply := g, trace := trace } = .error c m ∧ f = c.failure m.store ∧
        Hinted e c m) ∧
    (Exp.readProgram source {} = .ok e g → ofProgram source trace = .ok checked →
      ∃ c m, e.typeOfProgram {} { supply := g, trace := trace } = .error c m ∧
        f = c.failure m.store ∧ Hinted e c m) := by
  constructor
  · intro hread h
    obtain ⟨c, m, hfail, rfl, horigin, he⟩ := exists_origin_ofExp hread h hf
    exact ⟨c, m, hfail, rfl, horigin.hinted he hkind⟩
  · intro hread h
    obtain ⟨c, m, hfail, rfl, horigin, he⟩ := exists_origin_ofProgram hread h hf
    exact ⟨c, m, hfail, rfl, horigin.hinted he hkind⟩

/-- An application with too many arguments, under a `letrec` that is not to blame. -/
theorem arity_hints_counted :
    let source := "(L5 (define f (lambda (x) x)) (letrec ((g (lambda (y) (f y 1)))) (g 2)))"
    ∃ e g checked f, Exp.readProgram source {} = .ok e g ∧ ofProgram source = .ok checked ∧
      checked.result = .error f ∧
      f.hints = Failure.countHint ∧ ∃ c m rator rands, f = c.failure m.store ∧
        Miscounted e c m rator rands := by
  intro source
  obtain ⟨e, g, hread, hfails⟩ := exists_ok (r := Exp.readProgram source {})
    (P := fun e g => failsWith (fun c m => (c.failure m.store).kind == .arityMismatch &&
      (c.failure m.store).hints == Failure.countHint) (e.typeOfProgram {} { supply := g }))
        (by decide +kernel)
  obtain ⟨c, m, hfail, hfacts⟩ := exists_error hfails
  simp only [Bool.and_eq_true, beq_iff_eq] at hfacts
  obtain ⟨hkind, hhints⟩ := hfacts
  have hchecked : ofProgram source = .ok ⟨.error (c.failure m.store), m.trace⟩ := by
    simp [ofProgram, ofRead, hread, hfail]
  obtain ⟨c', m', _, heq, hhinted⟩ := (arity_hints rfl hkind).2 hread hchecked
  rw [heq] at hhints
  obtain ⟨rator, rands, hmiscounted, _⟩ := hhinted.count.mp hhints
  exact ⟨e, g, _, c.failure m.store, hread, hchecked, rfl, heq ▸ hhints, c', m', rator, rands,
    heq, hmiscounted⟩

/-- One argument too many, and the first is a text that has `letrec` in it. No `letrec` is
there, but its hint is given. -/
theorem letrec_hint_for_application :
    let source := "((lambda ((x : string)) : string x) \"letrec\" 1)"
    ∃ e g c m rator rands, Exp.read source {} = .ok e g ∧
      (∀ e' ∈ e.subexps, e'.formName ≠ "LetrecExp") ∧
      ofExp source = .ok ⟨.error (c.failure m.store), m.trace⟩ ∧
      Miscounted e c m rator rands ∧ (c.failure m.store).hints = Failure.letrecHint := by
  intro source
  obtain ⟨e, g, hread, hfacts⟩ := exists_ok (r := Exp.read source {})
    (P := fun e g => e.subexps.all (·.formName != "LetrecExp") &&
      failsWith (fun c m => (c.failure m.store).kind == .arityMismatch &&
        (c.failure m.store).hints == Failure.letrecHint) (e.typeOf {} { supply := g }))
    (by decide +kernel)
  obtain ⟨hparts, hfails⟩ := Bool.and_eq_true_iff.mp hfacts
  have hforms : ∀ e' ∈ e.subexps, e'.formName ≠ "LetrecExp" := by simpa using hparts
  obtain ⟨c, m, hfail, hfacts⟩ := exists_error hfails
  simp only [Bool.and_eq_true, beq_iff_eq] at hfacts
  obtain ⟨hkind, hhints⟩ := hfacts
  have hchecked : ofExp source = .ok ⟨.error (c.failure m.store), m.trace⟩ := by
    simp [ofExp, ofRead, hread, hfail]
  obtain ⟨_, _, hfail', _, horigin, he⟩ := exists_origin_ofExp hread hchecked rfl
  obtain ⟨rfl, rfl⟩ := EStateM.Result.error.inj (hfail.symm.trans hfail')
  obtain ⟨bs, body, _, hmem, _⟩ | ⟨rator, rands, hmiscounted, _⟩ :=
    (horigin.hinted he hkind).letrec.mp hhints
  · exact absurd rfl (hforms _ hmem)
  · exact ⟨e, g, c, m, rator, rands, hread, hforms, hchecked, hmiscounted, hhints⟩

end Checked

end TypedL5
