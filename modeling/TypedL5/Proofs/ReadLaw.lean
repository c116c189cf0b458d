import TypedL5.Exp.Parser
import TypedL5.Proofs.Computation

/-!
Laws of reading. What reads a type, an expression or a program is put together from what reads
the parts of its source. So what may be said of each way to put readers together can be said of
all of them.
-/
namespace TypedL5

namespace Ty

/-- A piece of source that stands for types. -/
inductive Source : Type → Type
  | ty (d : Datum) : Source Ty
  /-- The data before an arrow, with what stands between them. -/
  | params (ds : List Datum) : Source (List Ty)
  /-- The last of some data. -/
  | last (ds : List Datum) : Source Ty

def Source.parse {α : Type} : Source α → ParseM α
  | .ty d => ofDatum d
  | .params ds => ofEverySecond ds
  | .last ds => ofLast ds

/-- What may be said of the source of types and of a computation that reads it. -/
structure ReadLaw where
  Holds {α : Type} : Source α → ParseM α → Prop
  /-- A fault of the source itself, and not of a text in it. -/
  fault {α : Type} {e : ParseError} (s : Source α) :
    (∀ e', e ≠ .unreadable e') → Holds s (throw e)
  base {name : String} {b : BaseTy} :
    BaseTy.ofName? name = some b → Holds (.ty (.sym name)) (pure (.base b))
  var {name : String} : BaseTy.ofName? name = none → ¬typeWords.contains name = true →
    Holds (.ty (.sym name)) (do return .var (← modifyGet (Supply.named · name)))
  pair {head left right : Datum} {x y : ParseM Ty} : Holds (.ty left) x → Holds (.ty right) y →
    Holds (.ty (.list [head, left, right])) (do let l ← x; let r ← y; return .pair l r)
  thunk {items : List Datum} {x : ParseM Ty} : Holds (.last items) x →
    Holds (.ty (.list items)) (do return .proc [] (← x))
  proc {items : List Datum} {x : ParseM Ty} {y : ParseM (List Ty)} :
    Holds (.last items) x → Holds (.params items) y →
    Holds (.ty (.list items)) (do let r ← x; return .proc (← y) r)
  /-- The fault of the parameters is only found after the result has been read. -/
  unseparated {items : List Datum} {x : ParseM Ty} {e : ParseError} :
    (∀ e', e ≠ .unreadable e') →
    Holds (.last items) x → Holds (.ty (.list items)) (do let _ ← x; throw e)
  params_nil (ds : List Datum) : Holds (.params ds) (pure [])
  params_cons {d star : Datum} {ds : List Datum} {x : ParseM Ty} {y : ParseM (List Ty)} :
    Holds (.ty d) x →
    Holds (.params ds) y → Holds (.params (d :: star :: ds)) (do let t ← x; return t :: (← y))
  last_one {d : Datum} {x : ParseM Ty} : Holds (.ty d) x → Holds (.last [d]) x
  last_cons {d : Datum} {ds : List Datum} {x : ParseM Ty} :
    Holds (.last ds) x → Holds (.last (d :: ds)) x

theorem ofDatum_arrow {items : List Datum} {i : Nat}
    (h : items.findIdx? (·.isSym "->") = some i) :
    ofDatum (.list items) =
      if i + 2 = items.length then (do
        let r ← ofLast items
        if noParams (items.take i) then return .proc [] r
        else if starred (items.take i) then return .proc (← ofEverySecond items) r
        else throw (.separators (Datum.list items).write))
      else throw (.arrowPlace (Datum.list items).write) := by
  rw [ofDatum.eq_def]
  simp only [h, throw_bind, ne_eq, ite_not]

namespace ReadLaw

/-- A list with an arrow is a procedure type, with every second item before the arrow for a
parameter. -/
theorem arrow (L : ReadLaw) {items : List Datum} {i : Nat}
    (h : items.findIdx? (·.isSym "->") = some i) (hlast : L.Holds (.last items) (ofLast items))
    (hparams : L.Holds (.params items) (ofEverySecond items)) :
    L.Holds (.ty (.list items)) (ofDatum (.list items)) := by
  rw [ofDatum_arrow h]
  split
  · by_cases hn : noParams (items.take i) = true
    · simp only [hn, if_true]
      exact L.thunk hlast
    · by_cases hs : starred (items.take i) = true
      · simp only [hn, hs, if_true]
        exact L.proc hlast hparams
      · simp only [hn, hs]
        exact L.unseparated (by simp) hlast
  · exact L.fault _ (by simp)

/-- The cases are those of the clauses for a datum, for every second one of a row, and for the
last one. -/
theorem reads_all (L : ReadLaw) :
    (∀ d, L.Holds (.ty d) (ofDatum d)) ∧ (∀ ds, L.Holds (.params ds) (ofEverySecond ds)) ∧
      ∀ ds, L.Holds (.last ds) (ofLast ds) := by
  apply ofDatum.mutual_induct
  · intro name b hb
    rw [ofDatum, hb]
    exact L.base hb
  · intro name hb hw
    rw [ofDatum, hb]
    dsimp only
    rw [if_pos hw]
    exact L.fault _ (by simp)
  · intro name hb hw
    rw [ofDatum, hb]
    dsimp only
    rw [if_neg hw]
    exact L.var hb hw
  -- A row with an arrow: whether it has its place or not, the law sees the same parts.
  · intro items i hi _ hlast hparams
    exact L.arrow hi hlast hparams
  · intro items i hi _ hlast hparams
    exact L.arrow hi hlast hparams
  -- A row without an arrow.
  · intro head left right hp hi hl hr
    rw [ofDatum, hi]
    simp only [hp, if_true]
    exact L.pair hl hr
  · intro head left right hp hi _ _
    rw [ofDatum, hi]
    simp only [hp, Bool.false_eq_true, if_false]
    exact L.fault _ (by simp)
  · intro items hi hn
    rw [ofDatum, hi]
    · exact L.fault _ (by simp)
    · exact hn
  · intro d hs hl
    rw [ofDatum]
    · exact L.fault _ (by simp)
    · exact hs
    · exact hl
  -- Parameters, each with the star after it, and then the last datum.
  · intro d star ds hd hds
    rw [ofEverySecond]
    exact L.params_cons hd hds
  · intro ds hn
    rw [ofEverySecond]
    · exact L.params_nil ds
    · exact hn
  · rw [ofLast]
    exact L.fault _ (by simp)
  · intro d hd
    rw [ofLast]
    exact L.last_one hd
  · intro d ds hn hds
    rw [ofLast]
    · exact L.last_cons hds
    · exact hn

theorem reads (L : ReadLaw) {α : Type} (s : Source α) : L.Holds s s.parse := by
  cases s with
  | ty d => exact L.reads_all.1 d
  | params ds => exact L.reads_all.2.1 ds
  | last ds => exact L.reads_all.2.2 ds

end ReadLaw

end Ty

/-- A piece of source that stands for declarations, expressions or forms. -/
inductive Source : Type → Type
  | decl (d : Datum) : Source Decl
  | decls (ds : List Datum) : Source (List Decl)
  | exp (d : Datum) : Source Exp
  | exps (ds : List Datum) : Source (List Exp)
  /-- What follows the keyword of a form. -/
  | keyword (form : String) (k : Keyword) (ds : List Datum) : Source Exp
  | bindings (k : String) (ds : List Datum) : Source (List (Decl × Exp))
  /-- What follows the parameters of a procedure. -/
  | body (form : String) (ds : List Datum) : Source (Ty × List Exp)
  | form (d : Datum) : Source Exp
  | forms (ds : List Datum) : Source (List Exp)
  | program (d : Datum) : Source Exp
  /-- A form, or a program that stands for its forms. -/
  | entry (d : Datum) : Source (List Exp)
  | entries (ds : List Datum) : Source (List Exp)

def Source.parse {α : Type} : Source α → ParseM α
  | .decl d => Decl.ofDatum d
  | .decls ds => Decl.ofData ds
  | .exp d => Exp.ofDatum d
  | .exps ds => Exp.ofData ds
  | .keyword whole k ds => Exp.ofKeyword whole k ds
  | .bindings k ds => Exp.ofBindings k ds
  | .body whole ds => Exp.ofResultAndBody whole ds
  | .form d => Exp.ofForm d
  | .forms ds => Exp.ofForms ds
  | .program d => Exp.ofProgram d
  | .entry d => Exp.ofFormOrProgram d
  | .entries ds => Exp.ofTopLevel ds

/-- What may be said of a piece of source and of a computation that reads it. There is a clause
for each way to put a declaration, an expression or a form together. -/
structure ReadLaw where
  Holds {α : Type} : Source α → ParseM α → Prop
  /-- A fault of the source itself, and not of a text in it. -/
  fault {α : Type} {e : ParseError} (s : Source α) :
    (∀ e', e ≠ .unreadable e') → Holds s (throw e)
  bare {x : String} :
    isReserved x = false → Holds (.decl (.sym x)) (do return ⟨x, ← ParseM.numbered⟩)
  typed {x : String} {colon written : Datum} : isReserved x = false → colon.isSym ":" = true →
    Holds (.decl (.list [.sym x, colon, written])) (do return ⟨x, ← Ty.ofWritten written⟩)
  decls_nil : Holds (.decls []) (pure [])
  decls_cons {d : Datum} {ds : List Datum} {x : ParseM Decl} {y : ParseM (List Decl)} :
    Holds (.decl d) x →
    Holds (.decls ds) y → Holds (.decls (d :: ds)) (do let a ← x; return a :: (← y))
  const (a : Atom) : Holds (.exp (.atom a)) (pure (.const a))
  prim {x : String} : isPrimitive x = true → Holds (.exp (.sym x)) (pure (.prim x))
  var {x : String} :
    isPrimitive x = false → Keyword.ofName? x = none → Holds (.exp (.sym x)) (pure (.var x))
  keyword {form : String} {head : Datum} {args : List Datum} {k : Keyword} {x : ParseM Exp} :
    Exp.keyword? head = some k → Holds (.keyword form k args) x →
      Holds (.exp (.list (head :: args))) x
  app {head : Datum} {args : List Datum} {x : ParseM Exp} {y : ParseM (List Exp)} :
    Exp.keyword? head = none → Holds (.exp head) x → Holds (.exps args) y →
    Holds (.exp (.list (head :: args))) (do let f ← x; return .app f (← y))
  exps_nil : Holds (.exps []) (pure [])
  exps_cons {d : Datum} {ds : List Datum} {x : ParseM Exp} {y : ParseM (List Exp)} :
    Holds (.exp d) x →
    Holds (.exps ds) y → Holds (.exps (d :: ds)) (do let e ← x; return e :: (← y))
  ite {form : String} {c t e : Datum} {x y z : ParseM Exp} :
    Holds (.exp c) x → Holds (.exp t) y → Holds (.exp e) z →
    Holds (.keyword form .ite [c, t, e])
      (do let c ← x; let t ← y; let e ← z; return .ite c t e)
  lambda {form : String} {params rest : List Datum} {x : ParseM (List Decl)}
      {y : ParseM (Ty × List Exp)} :
    Holds (.decls params) x → Holds (.body form rest) y →
    Holds (.keyword form .lambda (.list params :: rest))
      (do let ps ← x; let p ← y; return .lambda ps p.1 p.2)
  letIn {form : String} {bindings body : List Datum} {x : ParseM (List (Decl × Exp))}
      {y : ParseM (List Exp)} :
    ¬body.isEmpty = true → Holds (.bindings "let" bindings) x → Holds (.exps body) y →
    Holds (.keyword form .letIn (.list bindings :: body))
      (do let bs ← x; return .letIn bs (← y))
  letrec {form : String} {bindings body : List Datum} {x : ParseM (List (Decl × Exp))}
      {y : ParseM (List Exp)} :
    ¬body.isEmpty = true → Holds (.bindings "letrec" bindings) x → Holds (.exps body) y →
    Holds (.keyword form .letrec (.list bindings :: body))
      (do let bs ← x; return .letrec bs (← y))
  assign {form v : String} {e : Datum} {x : ParseM Exp} : Holds (.exp e) x →
    Holds (.keyword form .assign [.sym v, e]) (do return .assign v (← x))
  quote (form : String) (d : Datum) :
    Holds (.keyword form .quote [d]) (pure (.quote (.ofDatum d)))
  bindings_nil (k : String) : Holds (.bindings k []) (pure [])
  bindings_cons {k : String} {decl value : Datum} {ds : List Datum} {x : ParseM Decl}
    {y : ParseM Exp}
    {z : ParseM (List (Decl × Exp))} : Holds (.decl decl) x → Holds (.exp value) y →
      Holds (.bindings k ds) z →
    Holds (.bindings k (.list [decl, value] :: ds))
      (do let d ← x; let e ← y; return (d, e) :: (← z))
  /-- The fault of a body is only found after the type before it has been read. -/
  bodiless {form : String} {d written : Datum} {e : ParseError} :
    (∀ e', e ≠ .unreadable e') → d.isSym ":" = true →
    Holds (.body form [d, written]) (do let _ ← Ty.ofWritten written; throw e)
  annotated {form : String} {d written : Datum} {body : List Datum} {x : ParseM (List Exp)} :
    d.isSym ":" = true → ¬body.isEmpty = true → Holds (.exps body) x →
    Holds (.body form (d :: written :: body))
      (do let r ← Ty.ofWritten written; return (r, ← x))
  plain {form : String} {d : Datum} {ds : List Datum} {x : ParseM Exp}
      {y : ParseM (List Exp)} : ¬d.isSym ":" = true →
    Holds (.exp d) x → Holds (.exps ds) y →
    Holds (.body form (d :: ds))
      (do let r ← ParseM.numbered; let e ← x; return (r, e :: (← y)))
  exp {d : Datum} {x : ParseM Exp} : Holds (.exp d) x → Holds (.form d) x
  define {head decl value : Datum} {x : ParseM Decl} {y : ParseM Exp} :
    head.isSym Keyword.define.text = true → Holds (.decl decl) x → Holds (.exp value) y →
    Holds (.form (.list [head, decl, value])) (do let d ← x; return .define d (← y))
  forms_nil : Holds (.forms []) (pure [])
  forms_cons {d : Datum} {ds : List Datum} {x : ParseM Exp} {y : ParseM (List Exp)} :
    Holds (.form d) x →
    Holds (.forms ds) y → Holds (.forms (d :: ds)) (do let e ← x; return e :: (← y))
  program {head : Datum} {ds : List Datum} {x : ParseM (List Exp)} :
    head.isSym Keyword.program.text = true →
    Holds (.forms ds) x → Holds (.program (.list (head :: ds))) (do return .program (← x))
  entry_form {d : Datum} {x : ParseM Exp} :
    Holds (.form d) x → Holds (.entry d) (do return [← x])
  entry_program {head : Datum} {ds : List Datum} {x : ParseM (List Exp)} :
    head.isSym Keyword.program.text = true →
    Holds (.forms ds) x → Holds (.entry (.list (head :: ds))) x
  entries_nil : Holds (.entries []) (pure [])
  entries_cons {d : Datum} {ds : List Datum} {x y : ParseM (List Exp)} :
    Holds (.entry d) x → Holds (.entries ds) y →
    Holds (.entries (d :: ds)) (do let es ← x; return es ++ (← y))

namespace Exp

theorem ofKeyword_lambda (form : String) (params rest : List Datum) :
    ofKeyword form .lambda (.list params :: rest) =
      if rest.isEmpty then throw (.badLambda form) else do
        let params ← Decl.ofData params
        let p ← ofResultAndBody form rest
        return .lambda params p.1 p.2 := by
  rw [ofKeyword]
  rfl

theorem ofResultAndBody_colon {form : String} {d written : Datum} {body : List Datum}
    (h : d.isSym ":" = true) : ofResultAndBody form (d :: written :: body) = (do
      let result ← Ty.ofWritten written
      if body.isEmpty then throw (.emptyBody form) else return (result, ← ofData body)) := by
  rw [ofResultAndBody]
  simp only [h]
  rfl

/-- Without a colon, the result has a numbered variable, taken before the body is read. -/
theorem ofResultAndBody_plain {form : String} {d : Datum} {ds : List Datum}
    (h : ¬ d.isSym ":" = true) : ofResultAndBody form (d :: ds) = (do
      let result ← ParseM.numbered
      let e ← ofDatum d
      return (result, e :: (← ofData ds))) := by
  rw [ofResultAndBody.eq_def]
  simp only [h]
  rfl

/-- A program is a list that begins with its keyword. -/
theorem programForms?_eq_some {d : Datum} {forms : List Datum}
    (h : programForms? d = some forms) :
    ∃ head : Datum, d = .list (head :: forms) ∧ head.isSym Keyword.program.text = true := by
  unfold programForms? at h
  split at h
  · rename_i head args
    split at h
    · rename_i hprogram
      cases h
      exact ⟨head, rfl, hprogram⟩
    · cases h
  · cases h

end Exp

namespace ReadLaw

variable (L : ReadLaw) {form : String}

/-- A declared name is looked at before its type. -/
theorem reads_declarable {d : Datum} {x : String} {y : ParseM Ty}
    (h : isReserved x = false → L.Holds (.decl d) (do return ⟨x, ← y⟩)) :
    L.Holds (.decl d) (do let name ← Decl.declarable x; return Decl.mk name (← y)) := by
  unfold Decl.declarable
  split
  · exact L.fault _ (by simp)
  · rename_i hx
    exact h (by simpa using hx)

theorem reads_decl (d : Datum) : L.Holds (.decl d) (Decl.ofDatum d) := by
  unfold Decl.ofDatum
  split
  · exact L.reads_declarable L.bare
  · rename_i x colon written
    by_cases hc : colon.isSym ":" = true
    · simp only [hc, if_true]
      exact L.reads_declarable fun hx => L.typed hx hc
    · simp only [hc, Bool.false_eq_true, if_false]
      exact L.fault _ (by simp)
  · exact L.fault _ (by simp)

theorem reads_decls (ds : List Datum) : L.Holds (.decls ds) (Decl.ofData ds) := by
  induction ds with
  | nil => exact L.decls_nil
  | cons d ds ih => exact L.decls_cons (L.reads_decl d) ih

/-- A name is an operator if it is one of theirs, and else a variable. -/
theorem reads_name (x : String) : L.Holds (.exp (.sym x)) (Exp.ofName x) := by
  unfold Exp.ofName
  split
  · rename_i hprim
    exact L.prim hprim
  · rename_i hprim
    split
    · exact L.fault _ (by simp)
    · rename_i hkey
      exact L.var (by simpa using hprim) (by simpa using hkey)

theorem reads_lambda (params : List Datum) {rest : List Datum}
    (h : L.Holds (.body form rest) (Exp.ofResultAndBody form rest)) :
    L.Holds (.keyword form .lambda (.list params :: rest))
      (Exp.ofKeyword form .lambda (.list params :: rest)) := by
  rw [Exp.ofKeyword_lambda]
  split
  · exact L.fault _ (by simp)
  · exact L.lambda (L.reads_decls params) h

theorem reads_letIn {bindings body : List Datum}
    (hbs : L.Holds (.bindings "let" bindings) (Exp.ofBindings "let" bindings))
    (hbody : L.Holds (.exps body) (Exp.ofData body)) :
    L.Holds (.keyword form .letIn (.list bindings :: body))
      (Exp.ofKeyword form .letIn (.list bindings :: body)) := by
  rw [Exp.ofKeyword]
  split
  · exact L.fault _ (by simp)
  · rename_i hne
    exact L.letIn hne hbs hbody

theorem reads_letrec {bindings body : List Datum}
    (hbs : L.Holds (.bindings "letrec" bindings) (Exp.ofBindings "letrec" bindings))
    (hbody : L.Holds (.exps body) (Exp.ofData body)) :
    L.Holds (.keyword form .letrec (.list bindings :: body))
      (Exp.ofKeyword form .letrec (.list bindings :: body)) := by
  rw [Exp.ofKeyword]
  split
  · exact L.fault _ (by simp)
  · rename_i hne
    exact L.letrec hne hbs hbody

/-- An annotated result is read before the body. -/
theorem reads_annotated {d : Datum} (hd : d.isSym ":" = true) (written : Datum)
    {body : List Datum} (hbody : L.Holds (.exps body) (Exp.ofData body)) :
    L.Holds (.body form (d :: written :: body))
      (Exp.ofResultAndBody form (d :: written :: body)) := by
  rw [Exp.ofResultAndBody_colon hd]
  by_cases hn : body.isEmpty = true
  · obtain rfl := List.isEmpty_iff.mp hn
    exact L.bodiless (by simp) hd
  · simp only [hn]
    exact L.annotated hd hn hbody

/-- The cases are those of the clauses for a datum, a row of data, a keyword, bindings, and
what follows parameters. -/
theorem reads_exps :
    (∀ d, L.Holds (.exp d) (Exp.ofDatum d)) ∧ (∀ ds, L.Holds (.exps ds) (Exp.ofData ds)) ∧
    (∀ form k ds, L.Holds (.keyword form k ds) (Exp.ofKeyword form k ds)) ∧
    (∀ k ds, L.Holds (.bindings k ds) (Exp.ofBindings k ds)) ∧
    (∀ form ds, L.Holds (.body form ds) (Exp.ofResultAndBody form ds)) := by
  apply Exp.ofDatum.mutual_induct
  · intro a
    rw [Exp.ofDatum]
    exact L.const a
  · intro name
    rw [Exp.ofDatum]
    exact L.reads_name name
  · intro items tail
    rw [Exp.ofDatum]
    exact L.fault _ (by simp)
  · rw [Exp.ofDatum]
    exact L.fault _ (by simp)
  · intro head args k hk h
    rw [Exp.ofDatum, hk]
    exact L.keyword hk h
  · intro head args hk hhead hargs
    rw [Exp.ofDatum, hk]
    exact L.app hk hhead hargs
  -- Rows of data.
  · rw [Exp.ofData]
    exact L.exps_nil
  · intro d ds hd hds
    rw [Exp.ofData]
    exact L.exps_cons hd hds
  -- Keywords, each with the arguments that it takes, and with any others.
  · intro form c t e hc ht he
    rw [Exp.ofKeyword]
    exact L.ite hc ht he
  · intro ds form hn
    rw [Exp.ofKeyword]
    · exact L.fault _ (by simp)
    · exact hn
  · intro form params rest _ h
    exact L.reads_lambda params h
  · intro form params rest _ h
    exact L.reads_lambda params h
  · intro ds form hn
    rw [Exp.ofKeyword]
    · exact L.fault _ (by simp)
    · exact hn
  · intro form bindings body _ hbs hbody
    exact L.reads_letIn hbs hbody
  · intro form bindings body _ hbs hbody
    exact L.reads_letIn hbs hbody
  · intro ds form hn
    rw [Exp.ofKeyword]
    · exact L.fault _ (by simp)
    · exact hn
  · intro form bindings body _ hbs hbody
    exact L.reads_letrec hbs hbody
  · intro form bindings body _ hbs hbody
    exact L.reads_letrec hbs hbody
  · intro ds form hn
    rw [Exp.ofKeyword]
    · exact L.fault _ (by simp)
    · exact hn
  · intro form x e he
    rw [Exp.ofKeyword]
    exact L.assign he
  · intro ds form hn
    rw [Exp.ofKeyword]
    · exact L.fault _ (by simp)
    · exact hn
  · intro form d
    rw [Exp.ofKeyword]
    exact L.quote form d
  · intro ds form hn
    rw [Exp.ofKeyword]
    · exact L.fault _ (by simp)
    · exact hn
  · intro form ds
    rw [Exp.ofKeyword]
    exact L.fault _ (by simp)
  · intro form ds
    rw [Exp.ofKeyword]
    exact L.fault _ (by simp)
  -- Bindings.
  · intro k
    rw [Exp.ofBindings]
    exact L.bindings_nil k
  · intro k decl value ds hvalue hds
    rw [Exp.ofBindings]
    exact L.bindings_cons (L.reads_decl decl) hvalue hds
  · intro k d ds hn
    rw [Exp.ofBindings]
    · exact L.fault _ (by simp)
    · exact hn
  -- What follows the parameters of a procedure.
  · intro form
    rw [Exp.ofResultAndBody]
    exact L.fault _ (by simp)
  · intro form d hd
    rw [Exp.ofResultAndBody, if_pos hd]
    exact L.fault _ (by simp)
  · intro form d hd written body hbody
    exact L.reads_annotated hd written hbody
  · intro form d ds hd he hes
    rw [Exp.ofResultAndBody_plain hd]
    exact L.plain hd he hes

theorem reads_form (d : Datum) : L.Holds (.form d) (Exp.ofForm d) := by
  unfold Exp.ofForm
  split
  · split
    · rename_i hdefine
      split
      · rename_i decl value
        exact L.define hdefine (L.reads_decl decl) (L.reads_exps.1 value)
      · exact L.fault _ (by simp)
    · exact L.exp (L.reads_exps.1 _)
  · exact L.exp (L.reads_exps.1 _)

theorem reads_forms (ds : List Datum) : L.Holds (.forms ds) (Exp.ofForms ds) := by
  induction ds with
  | nil => exact L.forms_nil
  | cons d ds ih => exact L.forms_cons (L.reads_form d) ih

theorem reads_program (d : Datum) : L.Holds (.program d) (Exp.ofProgram d) := by
  unfold Exp.ofProgram
  split
  · rename_i forms hforms
    obtain ⟨head, rfl, hprogram⟩ := Exp.programForms?_eq_some hforms
    exact L.program hprogram (L.reads_forms forms)
  · exact L.fault _ (by simp)

theorem reads_entry (d : Datum) : L.Holds (.entry d) (Exp.ofFormOrProgram d) := by
  unfold Exp.ofFormOrProgram
  split
  · rename_i forms hforms
    obtain ⟨head, rfl, hprogram⟩ := Exp.programForms?_eq_some hforms
    exact L.entry_program hprogram (L.reads_forms forms)
  · exact L.entry_form (L.reads_form d)

theorem reads_entries (ds : List Datum) : L.Holds (.entries ds) (Exp.ofTopLevel ds) := by
  induction ds with
  | nil => exact L.entries_nil
  | cons d ds ih => exact L.entries_cons (L.reads_entry d) ih

/-- A law of reading holds of all that is read. -/
theorem reads {α : Type} (s : Source α) : L.Holds s s.parse := by
  cases s with
  | decl d => exact L.reads_decl d
  | decls ds => exact L.reads_decls ds
  | exp d => exact L.reads_exps.1 d
  | exps ds => exact L.reads_exps.2.1 ds
  | keyword form k ds => exact L.reads_exps.2.2.1 form k ds
  | bindings k ds => exact L.reads_exps.2.2.2.1 k ds
  | body form ds => exact L.reads_exps.2.2.2.2 form ds
  | form d => exact L.reads_form d
  | forms ds => exact L.reads_forms ds
  | program d => exact L.reads_program d
  | entry d => exact L.reads_entry d
  | entries ds => exact L.reads_entries ds

end ReadLaw

end TypedL5
