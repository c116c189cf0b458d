import TypedL5.Proofs.Parsed
import TypedL5.Proofs.WellFormed

/-!
Well-formed syntax is parsed back from the data that it is written as. Its type variables have
new identities, and no numbered variable is taken.
-/
namespace TypedL5

variable {p : Lexeme → Prop}

/-- Parsing succeeds from every supply and takes no numbered variable. -/
def Rereads {α : Type} (x : ParseM α) (Q : α → Prop) : Prop :=
  ∀ g : Supply, ∃ a m, x g = .ok a m ∧ m.stem = g.stem ∧ m.count = g.count ∧ Q a

namespace Rereads

variable {α β : Type} {x : ParseM α} {P : α → Prop} {Q : β → Prop}

theorem pure {a : α} (h : P a) : Rereads (Pure.pure a) P := fun g => ⟨a, g, rfl, rfl, rfl, h⟩

theorem bind {f : α → ParseM β} (hx : Rereads x P) (hf : ∀ a, P a → Rereads (f a) Q) :
    Rereads (x >>= f) Q := by
  intro g
  obtain ⟨a, m, ha, hstem, hcount, hP⟩ := hx g
  obtain ⟨b, n, hb, hstem', hcount', hQ⟩ := hf a hP m
  exact ⟨b, n, bind_eq_ok_iff.mpr ⟨a, m, ha, hb⟩, hstem'.trans hstem, hcount'.trans hcount, hQ⟩

end Rereads

namespace Ty

variable {t r : Ty} {ps : List Ty} {w : String}

/-- The type with the identities of its variables forgotten. -/
def forgetIds (t : Ty) : Ty := t.rename fun v => ⟨0, v.name⟩

@[simp] theorem forgetIds_pair (l r : Ty) :
    (Ty.pair l r).forgetIds = .pair l.forgetIds r.forgetIds := rfl

@[simp] theorem forgetIds_proc (ps : List Ty) (r : Ty) :
    (Ty.proc ps r).forgetIds = .proc (ps.map forgetIds) r.forgetIds :=
  rename_proc _ ps r

theorem ofName?_name (b : BaseTy) : BaseTy.ofName? b.name = some b := by
  cases b <;> rfl

/-- No type is written as a word that has another meaning in types. -/
theorem isSym_datum (h : t.Formed p) (hw : w ∈ typeWords) : t.datum.isSym w = false := by
  cases t with
  | base b =>
    have hall : ∀ b ∈ BaseTy.all, ∀ w ∈ typeWords, b.name ≠ w := by decide
    have hb : b ∈ BaseTy.all := by cases b <;> decide
    simpa [datum, Datum.isSym] using hall b hb w hw
  | var v =>
    obtain ⟨_, hword⟩ := h v (by simp)
    simp only [isWord, Bool.or_eq_false_iff] at hword
    have hne : v.name ≠ w := by
      rintro rfl
      simp [hw] at hword
    simpa [datum, Datum.isSym] using hne
  | pair l r => rfl
  | proc ps r => rfl

theorem ofLast_append (ds : List Datum) (d : Datum) : ofLast (ds ++ [d]) = ofDatum d := by
  induction ds with
  | nil => rw [List.nil_append, ofLast]
  | cons d' ds ih =>
    rw [List.cons_append, ofLast, ih]
    simp

theorem rereads_named {name : String} (h : isWord name = false) (i : Nat) :
    Rereads (ofDatum (.sym name)) fun t => t.forgetIds = (Ty.var ⟨i, name⟩).forgetIds := by
  simp only [isWord, Bool.or_eq_false_iff, Option.isSome_eq_false_iff,
    Option.isNone_iff_eq_none] at h
  rw [ofDatum, h.1]
  simp only [h.2]
  exact fun g => ⟨_, _, rfl, rfl, rfl, rfl⟩

/-- The stars between parameters are skipped, whatever stands behind them. -/
theorem rereads_params
    (hps : ∀ t ∈ ps, Rereads (ofDatum t.datum) fun t' => t'.forgetIds = t.forgetIds)
    (hne : ps ≠ []) (arrow r : Datum) :
    Rereads (ofEverySecond ((ps.map datum).intersperse (.sym "*") ++ [arrow, r])) fun ts =>
      ts.map forgetIds = ps.map forgetIds := by
  induction ps with
  | nil => exact absurd rfl hne
  | cons t ps ih =>
    obtain ⟨ht, hps⟩ := List.forall_mem_cons.mp hps
    cases ps with
    | nil =>
      have hend : ofEverySecond [r] = pure [] := by
        rw [ofEverySecond]
        simp
      rw [List.map_cons, List.map_nil, List.intersperse_singleton, List.singleton_append,
        ofEverySecond, hend]
      exact ht.bind fun t' ht' => .pure (by simpa using ht')
    | cons t' ps =>
      rw [List.map_cons, List.map_cons, List.intersperse_cons_cons, List.cons_append,
        List.cons_append, ofEverySecond]
      refine ht.bind fun t' ht' => (ih hps (by simp)).bind fun ts hts => .pure ?_
      rw [List.map_cons, List.map_cons, ht', hts]

theorem starred_intersperse (d : Datum) (ds : List Datum) :
    starred ((d :: ds).intersperse (.sym "*")) = true := by
  induction ds generalizing d with
  | nil => rfl
  | cons d' ds ih =>
    rw [List.intersperse_cons_cons, starred, ih]
    rfl

/-- No type is written as a string. -/
theorem ofWritten_datum (t : Ty) : ofWritten t.datum = ofDatum t.datum := by
  cases t <;> rfl

/-- The arrow that is found is the one before the result. -/
theorem findIdx?_arrow (hps : ∀ t ∈ ps, t.Formed p) (r : Ty) :
    (paramData (ps.map datum) ++ [.sym "->", r.datum]).findIdx? (·.isSym "->") =
      some (paramData (ps.map datum)).length := by
  have hparams : ∀ d ∈ paramData (ps.map datum), d.isSym "->" = false :=
    forall_paramData (by decide) (by decide)
      (List.forall_mem_map.mpr fun t ht => isSym_datum (hps t ht) (by decide))
  rw [List.findIdx?_append, List.findIdx?_eq_none_iff.mpr hparams]
  simp [List.findIdx?_cons, Datum.isSym]

theorem ofLast_result (ds : List Datum) (r : Ty) :
    ofLast (ds ++ [.sym "->", r.datum]) = ofDatum r.datum := by
  rw [← ofLast_append (ds ++ [.sym "->"]) r.datum, List.append_assoc]
  rfl

/-- No parameter is written as the word for none. -/
theorem not_noParams (ht : t.Formed p) (ps : List Ty) :
    ¬ noParams (paramData ((t :: ps).map datum)) = true := by
  have hempty : t.datum.isSym "Empty" = false := isSym_datum ht (by decide)
  cases ps with
  | nil => simp [paramData, noParams, hempty]
  | cons t' ps => simp [paramData, noParams]

/-- A type is parsed back from the datum that it is written as. -/
theorem rereads (h : t.Formed p) :
    Rereads (ofDatum t.datum) fun t' => t'.forgetIds = t.forgetIds := by
  induction t with
  | base b =>
    rw [datum, ofDatum, ofName?_name]
    exact .pure rfl
  | var v => exact rereads_named (h v (by simp)).2 v.id
  | pair l r ihl ihr =>
    obtain ⟨hl, hr⟩ := formed_pair.mp h
    have hidx : [.sym "Pair", l.datum, r.datum].findIdx? (·.isSym "->") = none := by
      have hpair : Datum.isSym "->" (.sym "Pair") = false := by decide
      have hw : "->" ∈ typeWords := by decide
      simp [List.findIdx?_cons, hpair, isSym_datum hl hw, isSym_datum hr hw]
    have hpair : Datum.isSym "Pair" (.sym "Pair") = true := by decide
    rw [datum, ofDatum, hidx]
    simp only [hpair, if_true]
    refine (ihl hl).bind fun l' hl' => (ihr hr).bind fun r' hr' => .pure ?_
    rw [forgetIds_pair, forgetIds_pair, hl', hr']
  | proc ps r ihp ihr =>
    obtain ⟨hps, hr⟩ := formed_proc.mp h
    rw [datum, data_eq_map, ofDatum_arrow (findIdx?_arrow hps r), if_pos (by simp),
      ofLast_result, List.take_left]
    refine (ihr hr).bind fun r' hr' => ?_
    cases ps with
    | nil =>
      have hnone : noParams (paramData ([].map datum)) = true := by decide
      rw [if_pos hnone]
      exact .pure (by simpa using hr')
    | cons t ps =>
      have hstarred : starred (paramData ((t :: ps).map datum)) = true :=
        starred_intersperse t.datum (ps.map datum)
      rw [if_neg (not_noParams (hps t (by simp)) ps), if_pos hstarred]
      have hall :=
        rereads_params (fun t ht => ihp t ht (hps t ht)) (by simp) (.sym "->") r.datum
      refine Rereads.bind hall fun ts hts => .pure ?_
      rw [forgetIds_proc, forgetIds_proc, hr', hts]

end Ty

namespace Decl

theorem rereads {d : Decl} (h : d.Formed p) :
    Rereads (ofDatum d.datum) fun d' => d'.mapTy Ty.forgetIds = d.mapTy Ty.forgetIds := by
  have hcolon : Datum.isSym ":" (.sym ":") = true := by decide
  rw [datum, ofDatum]
  simp only [hcolon, if_true, declarable, h.free, Bool.false_eq_true, if_false,
    Ty.ofWritten_datum]
  refine (Ty.rereads h.ty).bind fun t ht => .pure ?_
  rw [mapTy, mapTy, ht]

theorem rereads_all {ds : List Decl} (h : ∀ d ∈ ds, d.Formed p) :
    Rereads (ofData (ds.map datum)) fun ds' =>
      ds'.map (mapTy Ty.forgetIds) = ds.map (mapTy Ty.forgetIds) := by
  induction ds with
  | nil => exact .pure rfl
  | cons d ds ih =>
    obtain ⟨hd, hds⟩ := List.forall_mem_cons.mp h
    refine (rereads hd).bind fun d' hd' => (ih hds).bind fun ds' hds' => .pure ?_
    rw [List.map_cons, List.map_cons, hd', hds']

end Decl

namespace Exp

variable {e : Exp} {es : List Exp} {bs : List (Decl × Exp)}

/-- Parsing a datum gives an expression, up to the identities of its type variables. -/
abbrev RereadsAs (e : Exp) (d : Datum) : Prop :=
  Rereads (ofDatum d) fun e' => e'.mapTy Ty.forgetIds = e.mapTy Ty.forgetIds

theorem rereads_all (h : ∀ e ∈ es, e.RereadsAs e.datum) :
    Rereads (ofData (es.map datum)) fun es' =>
      es'.map (mapTy Ty.forgetIds) = es.map (mapTy Ty.forgetIds) := by
  induction es with
  | nil => exact .pure rfl
  | cons e es ih =>
    obtain ⟨he, hes⟩ := List.forall_mem_cons.mp h
    rw [List.map_cons, ofData]
    refine he.bind fun e' he' => (ih hes).bind fun es' hes' => .pure ?_
    rw [List.map_cons, List.map_cons, he', hes']

theorem rereads_result {r : Ty} (form : String) (hr : r.Formed p) (hne : es ≠ [])
    (h : ∀ e ∈ es, e.RereadsAs e.datum) :
    Rereads (ofResultAndBody form (.sym ":" :: r.datum :: es.map datum)) fun q =>
      q.1.forgetIds = r.forgetIds ∧
        q.2.map (mapTy Ty.forgetIds) = es.map (mapTy Ty.forgetIds) := by
  rw [ofResultAndBody_colon (by decide), Ty.ofWritten_datum]
  refine (Ty.rereads hr).bind fun r' hr' => ?_
  rw [if_neg (by simpa using hne)]
  exact (rereads_all h).bind fun es' hes' => .pure ⟨hr', hes'⟩

theorem rereads_bindings (k : String) (hds : ∀ b ∈ bs, b.1.Formed p)
    (hes : ∀ b ∈ bs, b.2.RereadsAs b.2.datum) :
    Rereads (ofBindings k (dataBound bs)) fun bs' =>
      mapTyBound Ty.forgetIds bs' = mapTyBound Ty.forgetIds bs := by
  induction bs with
  | nil =>
    rw [dataBound, ofBindings]
    exact .pure rfl
  | cons b bs ih =>
    obtain ⟨hd, hds⟩ := List.forall_mem_cons.mp hds
    obtain ⟨he, hes⟩ := List.forall_mem_cons.mp hes
    rw [dataBound, ofBindings]
    refine (Decl.rereads hd).bind fun d' hd' => he.bind fun e' he' =>
      (ih hds hes).bind fun bs' hbs' => .pure ?_
    rw [mapTyBound, mapTyBound, hd', he', hbs']

/-- No well-formed expression is written as a keyword. -/
theorem keyword?_datum (h : e.Formed p .expression) : keyword? e.datum = none := by
  cases h with
  | prim hop =>
    have hall : ∀ op ∈ primitiveNames, Keyword.ofName? op = none := by decide
    exact hall _ (by simpa [isPrimitive] using hop)
  | var _ _ hkey => exact hkey
  | _ => rfl

/-- No expression is written as the word that begins a definition. -/
theorem isSym_define (h : e.Formed p .expression) : e.datum.isSym "define" = false := by
  have hkey := keyword?_datum h
  cases hd : e.datum with
  | sym x =>
    rw [hd] at hkey
    have hne : x ≠ "define" := by
      rintro rfl
      cases hkey
    simpa [Datum.isSym] using hne
  | _ => rfl

/-- No well-formed expression is written as a definition. -/
theorem ofForm_datum (h : e.Formed p .expression) : ofForm e.datum = ofDatum e.datum := by
  cases h with
  | app hf _ =>
    rw [datum, ofForm.eq_def]
    simp only [Keyword.text, isSym_define hf, Bool.false_eq_true, if_false]
  | _ => rfl

theorem rereads_forms
    (h : ∀ e ∈ es, Rereads (ofForm e.datum) fun e' => e'.mapTy Ty.forgetIds =
      e.mapTy Ty.forgetIds) :
    Rereads (ofForms (es.map datum)) fun es' =>
      es'.map (mapTy Ty.forgetIds) = es.map (mapTy Ty.forgetIds) := by
  induction es with
  | nil => exact .pure rfl
  | cons e es ih =>
    obtain ⟨he, hes⟩ := List.forall_mem_cons.mp h
    refine he.bind fun e' he' => (ih hes).bind fun es' hes' => .pure ?_
    rw [List.map_cons, List.map_cons, he', hes']

/-- Parses a datum as one of a kind. -/
def Kind.ofDatum : Kind → Datum → ParseM Exp
  | .expression => Exp.ofDatum
  | .form => ofForm
  | .program => ofProgram

/-- Well-formed syntax is parsed back from the datum that it is written as. -/
theorem rereads {k : Kind} (h : e.Formed p k) :
    Rereads (k.ofDatum e.datum) fun e' => e'.mapTy Ty.forgetIds = e.mapTy Ty.forgetIds := by
  induction h with
  | const _ =>
    rw [Kind.ofDatum, datum, ofDatum]
    exact .pure rfl
  | prim hop =>
    rw [Kind.ofDatum, datum, ofDatum, ofName, if_pos hop]
    exact .pure rfl
  | var _ hprim hkey =>
    rw [Kind.ofDatum, datum, ofDatum, ofName, if_neg (by simp [hprim]),
      if_neg (by simp [hkey])]
    exact .pure rfl
  | ite _ _ _ hc ht he =>
    have hkey : keyword? (.sym "if") = some .ite := by decide
    rw [Kind.ofDatum, datum, ofDatum, hkey]
    simp only [ofKeyword]
    refine hc.bind fun c' hc' => ht.bind fun t' ht' => he.bind fun e' he' => .pure ?_
    rw [mapTy, mapTy, hc', ht', he']
  | lambda hps hr hne _ hbody =>
    have hkey : keyword? (.sym "lambda") = some .lambda := by decide
    rw [Kind.ofDatum, datum, ofDatum, hkey, data_eq_map]
    simp only []
    rw [ofKeyword_lambda, if_neg (by simp)]
    refine (Decl.rereads_all hps).bind fun ps' hps' =>
      (rereads_result _ hr hne hbody).bind fun p hp => .pure ?_
    rw [mapTy, mapTy, hps', hp.1, mapTyAll_eq_map, mapTyAll_eq_map, hp.2]
  | app hf _ hf' hes =>
    rw [Kind.ofDatum, datum, ofDatum, keyword?_datum hf, data_eq_map]
    refine hf'.bind fun f' hf' => (rereads_all hes).bind fun es' hes' => .pure ?_
    rw [mapTy, mapTy, hf', mapTyAll_eq_map, mapTyAll_eq_map, hes']
  | @letIn bs body hds _ hne _ hbs hbody =>
    have hkey : keyword? (.sym "let") = some .letIn := by decide
    have hbody' : ¬ (body.map datum).isEmpty = true := by simpa using hne
    rw [Kind.ofDatum, datum, ofDatum, hkey, data_eq_map]
    simp only [ofKeyword, hbody']
    refine Rereads.bind (rereads_bindings "let" hds hbs) fun bs' hbs' =>
      (rereads_all hbody).bind fun es' hes' => .pure ?_
    rw [mapTy, mapTy, hbs', mapTyAll_eq_map, mapTyAll_eq_map, hes']
  | @letrec bs body hds _ hne _ hbs hbody =>
    have hkey : keyword? (.sym "letrec") = some .letrec := by decide
    have hbody' : ¬ (body.map datum).isEmpty = true := by simpa using hne
    rw [Kind.ofDatum, datum, ofDatum, hkey, data_eq_map]
    simp only [ofKeyword, hbody']
    refine Rereads.bind (rereads_bindings "letrec" hds hbs) fun bs' hbs' =>
      (rereads_all hbody).bind fun es' hes' => .pure ?_
    rw [mapTy, mapTy, hbs', mapTyAll_eq_map, mapTyAll_eq_map, hes']
  | assign _ _ he =>
    have hkey : keyword? (.sym "set!") = some .assign := by decide
    rw [Kind.ofDatum, datum, ofDatum, hkey]
    simp only [ofKeyword]
    refine he.bind fun e' he' => .pure ?_
    rw [mapTy, mapTy, he']
  | @quote v _ =>
    have hkey : keyword? (.sym "quote") = some .quote := by decide
    rw [Kind.ofDatum, datum, ofDatum, hkey]
    simp only [ofKeyword]
    exact .pure (by rw [Quoted.ofDatum_datum v])
  | form he ih =>
    rw [Kind.ofDatum, ofForm_datum he]
    exact ih
  | define hd _ he =>
    have hkey : Datum.isSym Keyword.define.text (.sym "define") = true := by decide
    rw [Kind.ofDatum, datum, ofForm]
    simp only [hkey, if_true]
    refine (Decl.rereads hd).bind fun d' hd' => Rereads.bind he fun e' he' => .pure ?_
    rw [mapTy, mapTy, hd', he']
  | @program es _ hes =>
    have hforms : programForms? (Exp.program es).datum = some (es.map datum) := by
      rw [datum, data_eq_map]
      rfl
    rw [Kind.ofDatum, ofProgram, hforms]
    refine Rereads.bind (rereads_forms hes) fun es' hes' => .pure ?_
    rw [mapTy, mapTy, mapTyAll_eq_map, mapTyAll_eq_map, hes']

end Exp

end TypedL5
