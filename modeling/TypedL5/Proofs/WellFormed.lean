import TypedL5.Exp.Parser
import TypedL5.Proofs.Written

/-! Well-formed syntax: each name stands where it can be told from the words of the
language. -/
namespace TypedL5

variable {p q : Lexeme → Prop}

/-- Whether a word has a meaning of its own in types. -/
def Ty.isWord (name : String) : Bool := (BaseTy.ofName? name).isSome || typeWords.contains name

/-- The names of the variables of a type. -/
def Ty.leaves (t : Ty) : List Lexeme := t.vars.map fun v => .name v.name

/-- No variable is named by a word of types, and all names have a property. -/
def Ty.Formed (p : Lexeme → Prop) (t : Ty) : Prop :=
  ∀ v ∈ t.vars, p (.name v.name) ∧ Ty.isWord v.name = false

/-- The names of a declaration. -/
def Decl.leaves (d : Decl) : List Lexeme := .name d.name :: d.ty.leaves

structure Decl.Formed (p : Lexeme → Prop) (d : Decl) : Prop where
  name : p (.name d.name)
  free : isReserved d.name = false
  ty : d.ty.Formed p

/-- The names and constants of a value, from left to right. -/
def Quoted.leaves : Quoted → List Lexeme
  | .atom a => [.atom a]
  | .sym x => [.name x]
  | .nil => []
  | .cons first rest => first.leaves ++ rest.leaves

namespace Exp

mutual

/-- The names and constants of an expression, from left to right. -/
def leaves : Exp → List Lexeme
  | .const a => [.atom a]
  | .prim _ => []
  | .var x => [.name x]
  | .ite c t e => c.leaves ++ (t.leaves ++ e.leaves)
  | .lambda ps r body => ps.flatMap Decl.leaves ++ (r.leaves ++ leavesAll body)
  | .app f es => f.leaves ++ leavesAll es
  | .letIn bs body | .letrec bs body => leavesBound bs ++ leavesAll body
  | .assign x e => .name x :: e.leaves
  | .quote v => v.leaves
  | .define d e => d.leaves ++ e.leaves
  | .program es => leavesAll es

def leavesAll : List Exp → List Lexeme
  | [] => []
  | e :: es => e.leaves ++ leavesAll es

def leavesBound : List (Decl × Exp) → List Lexeme
  | [] => []
  | (d, e) :: bs => d.leaves ++ (e.leaves ++ leavesBound bs)

end

theorem leavesAll_eq_flatMap (es : List Exp) : leavesAll es = es.flatMap leaves := by
  induction es with
  | nil => rfl
  | cons e es ih => simp [leavesAll, ih]

theorem leavesBound_eq_flatMap (bs : List (Decl × Exp)) :
    leavesBound bs = bs.flatMap fun b => b.1.leaves ++ b.2.leaves := by
  induction bs with
  | nil => rfl
  | cons b bs ih => simp [leavesBound, ih]

/-- What a text may be read as. -/
inductive Kind where
  | expression
  | form
  | program
deriving DecidableEq, Repr

/-- Well-formed expressions, forms and programs. All their names and constants have a
property. -/
inductive Formed (p : Lexeme → Prop) : Kind → Exp → Prop
  | const {a : Atom} : p (.atom a) → Formed p .expression (.const a)
  | prim {op : String} : isPrimitive op = true → Formed p .expression (.prim op)
  | var {x : String} : p (.name x) → isPrimitive x = false → Keyword.ofName? x = none →
    Formed p .expression (.var x)
  | ite {c t e : Exp} :
    Formed p .expression c → Formed p .expression t → Formed p .expression e →
    Formed p .expression (.ite c t e)
  | lambda {ps : List Decl} {r : Ty} {body : List Exp} : (∀ d ∈ ps, d.Formed p) → r.Formed p →
    body ≠ [] → (∀ e ∈ body, Formed p .expression e) → Formed p .expression (.lambda ps r body)
  | app {f : Exp} {es : List Exp} :
    Formed p .expression f → (∀ e ∈ es, Formed p .expression e) →
    Formed p .expression (.app f es)
  | letIn {bs : List (Decl × Exp)} {body : List Exp} : (∀ b ∈ bs, b.1.Formed p) →
    (∀ b ∈ bs, Formed p .expression b.2) → body ≠ [] → (∀ e ∈ body, Formed p .expression e) →
    Formed p .expression (.letIn bs body)
  | letrec {bs : List (Decl × Exp)} {body : List Exp} : (∀ b ∈ bs, b.1.Formed p) →
    (∀ b ∈ bs, Formed p .expression b.2) → body ≠ [] → (∀ e ∈ body, Formed p .expression e) →
    Formed p .expression (.letrec bs body)
  | assign {x : String} {e : Exp} : p (.name x) → Formed p .expression e →
    Formed p .expression (.assign x e)
  | quote {v : Quoted} : (∀ l ∈ v.leaves, p l) → Formed p .expression (.quote v)
  | form {e : Exp} : Formed p .expression e → Formed p .form e
  | define {d : Decl} {e : Exp} : d.Formed p → Formed p .expression e →
    Formed p .form (.define d e)
  | program {es : List Exp} : (∀ e ∈ es, Formed p .form e) → Formed p .program (.program es)

end Exp

theorem Ty.Formed.and {t : Ty} (h : t.Formed p) (hq : ∀ l ∈ t.leaves, q l) :
    t.Formed fun l => p l ∧ q l :=
  fun v hv => ⟨⟨(h v hv).1, hq _ (List.mem_map_of_mem hv)⟩, (h v hv).2⟩

theorem Decl.Formed.and {d : Decl} (h : d.Formed p) (hq : ∀ l ∈ d.leaves, q l) :
    d.ty.Formed fun l => p l ∧ q l :=
  h.ty.and (List.forall_mem_cons.mp hq).2

theorem Decl.Formed.mapTy {d : Decl} {f : Ty → Ty} (h : d.Formed p) (hq : ∀ l ∈ d.leaves, q l)
    (hf : (f d.ty).Formed fun l => p l ∧ q l) : (d.mapTy f).Formed fun l => p l ∧ q l :=
  ⟨⟨h.name, hq _ (List.mem_cons_self ..)⟩, h.free, hf⟩

namespace Exp

variable {k : Kind} {e : Exp} {es : List Exp} {bs : List (Decl × Exp)} {f : Ty → Ty}

theorem forall_leavesAll :
    (∀ l ∈ leavesAll es, q l) ↔ ∀ e ∈ es, ∀ l ∈ e.leaves, q l := by
  rw [leavesAll_eq_flatMap, List.forall_mem_flatMap]

theorem forall_leavesBound :
    (∀ l ∈ leavesBound bs, q l) ↔
      ∀ b ∈ bs, (∀ l ∈ b.1.leaves, q l) ∧ ∀ l ∈ b.2.leaves, q l := by
  simp only [leavesBound_eq_flatMap, List.forall_mem_flatMap, List.forall_mem_append]

theorem forall_tysAll {P : Ty → Prop} :
    (∀ t ∈ tysAll es, P t) ↔ ∀ e ∈ es, ∀ t ∈ e.tys, P t := by
  rw [tysAll_eq_flatMap, List.forall_mem_flatMap]

theorem forall_tysBound {P : Ty → Prop} :
    (∀ t ∈ tysBound bs, P t) ↔ ∀ b ∈ bs, P b.1.ty ∧ ∀ t ∈ b.2.tys, P t := by
  simp only [tysBound_eq_flatMap, List.forall_mem_flatMap, List.forall_mem_cons]

/-- The types in well-formed syntax. -/
theorem Formed.formed_tys (h : e.Formed p k) (hq : ∀ l ∈ e.leaves, q l) :
    ∀ t ∈ e.tys, t.Formed fun l => p l ∧ q l := by
  induction h with
  | const _ => simp [tys]
  | prim _ => simp [tys]
  | var _ _ _ => simp [tys]
  | ite _ _ _ hc ht he =>
    simp only [leaves, tys, List.forall_mem_append] at hq ⊢
    exact ⟨hc hq.1, ht hq.2.1, he hq.2.2⟩
  | lambda hps hr _ _ hbody =>
    simp only [leaves, tys, List.forall_mem_append, List.forall_mem_flatMap,
      List.forall_mem_cons, List.forall_mem_map, forall_leavesAll, forall_tysAll] at hq ⊢
    exact ⟨fun d hd => (hps d hd).and (hq.1 d hd), hr.and hq.2.1,
      fun e he => hbody e he (hq.2.2 e he)⟩
  | app _ _ hf hes =>
    simp only [leaves, tys, List.forall_mem_append, forall_leavesAll, forall_tysAll] at hq ⊢
    exact ⟨hf hq.1, fun e he => hes e he (hq.2 e he)⟩
  | letIn hds _ _ _ hbs hbody =>
    simp only [leaves, tys, List.forall_mem_append, forall_leavesAll, forall_leavesBound,
      forall_tysAll, forall_tysBound] at hq ⊢
    exact ⟨fun b hb => ⟨(hds b hb).and (hq.1 b hb).1, hbs b hb (hq.1 b hb).2⟩,
      fun e he => hbody e he (hq.2 e he)⟩
  | letrec hds _ _ _ hbs hbody =>
    simp only [leaves, tys, List.forall_mem_append, forall_leavesAll, forall_leavesBound,
      forall_tysAll, forall_tysBound] at hq ⊢
    exact ⟨fun b hb => ⟨(hds b hb).and (hq.1 b hb).1, hbs b hb (hq.1 b hb).2⟩,
      fun e he => hbody e he (hq.2 e he)⟩
  | assign _ _ he => exact he (List.forall_mem_cons.mp hq).2
  | quote _ => simp [tys]
  | form _ he => exact he hq
  | define hd _ he =>
    simp only [leaves, tys, List.forall_mem_append, List.forall_mem_cons] at hq ⊢
    exact ⟨hd.and hq.1, he hq.2⟩
  | program _ hes =>
    simp only [leaves, tys, forall_leavesAll, forall_tysAll] at hq ⊢
    exact fun e he => hes e he (hq e he)

theorem formed_mapTyAll {P : Exp → Prop} (h : ∀ e ∈ es, P (e.mapTy f)) :
    ∀ e ∈ mapTyAll f es, P e := by
  rw [mapTyAll_eq_map]
  exact List.forall_mem_map.mpr h

theorem formed_mapTyBound {P : Decl × Exp → Prop}
    (h : ∀ b ∈ bs, P (b.1.mapTy f, b.2.mapTy f)) :
    ∀ b ∈ mapTyBound f bs, P b := by
  rw [mapTyBound_eq_map]
  exact List.forall_mem_map.mpr h

theorem mapTyAll_ne_nil (h : es ≠ []) : mapTyAll f es ≠ [] := by
  simpa [mapTyAll_eq_map] using h

/-- Other types, and a second property of the names and constants that stay. -/
theorem Formed.mapTy (h : e.Formed p k) (hq : ∀ l ∈ e.leaves, q l)
    (hf : ∀ t ∈ e.tys, (f t).Formed fun l => p l ∧ q l) :
    (e.mapTy f).Formed (fun l => p l ∧ q l) k := by
  induction h with
  | const ha => exact .const ⟨ha, hq _ (by simp [leaves])⟩
  | prim hop => exact .prim hop
  | var hx hp hk => exact .var ⟨hx, hq _ (by simp [leaves])⟩ hp hk
  | ite _ _ _ hc ht he =>
    simp only [leaves, tys, List.forall_mem_append] at hq hf
    exact .ite (hc hq.1 hf.1) (ht hq.2.1 hf.2.1) (he hq.2.2 hf.2.2)
  | lambda hps hr hne _ hbody =>
    simp only [leaves, tys, List.forall_mem_append, List.forall_mem_flatMap,
      List.forall_mem_cons,
      List.forall_mem_map, forall_leavesAll, forall_tysAll] at hq hf
    refine .lambda ?_ hf.2.1 (mapTyAll_ne_nil hne) ?_
    · exact List.forall_mem_map.mpr fun d hd => (hps d hd).mapTy (hq.1 d hd) (hf.1 d hd)
    · exact formed_mapTyAll fun e he => hbody e he (hq.2.2 e he) (hf.2.2 e he)
  | app _ _ hf' hes =>
    simp only [leaves, tys, List.forall_mem_append, forall_leavesAll, forall_tysAll] at hq hf
    exact .app (hf' hq.1 hf.1) (formed_mapTyAll fun e he => hes e he (hq.2 e he) (hf.2 e he))
  | letIn hds _ hne _ hbs hbody =>
    simp only [leaves, tys, List.forall_mem_append, forall_leavesAll, forall_leavesBound,
      forall_tysAll, forall_tysBound] at hq hf
    refine .letIn ?_ ?_ (mapTyAll_ne_nil hne) ?_
    · exact formed_mapTyBound fun b hb => (hds b hb).mapTy (hq.1 b hb).1 (hf.1 b hb).1
    · exact formed_mapTyBound fun b hb => hbs b hb (hq.1 b hb).2 (hf.1 b hb).2
    · exact formed_mapTyAll fun e he => hbody e he (hq.2 e he) (hf.2 e he)
  | letrec hds _ hne _ hbs hbody =>
    simp only [leaves, tys, List.forall_mem_append, forall_leavesAll, forall_leavesBound,
      forall_tysAll, forall_tysBound] at hq hf
    refine .letrec ?_ ?_ (mapTyAll_ne_nil hne) ?_
    · exact formed_mapTyBound fun b hb => (hds b hb).mapTy (hq.1 b hb).1 (hf.1 b hb).1
    · exact formed_mapTyBound fun b hb => hbs b hb (hq.1 b hb).2 (hf.1 b hb).2
    · exact formed_mapTyAll fun e he => hbody e he (hq.2 e he) (hf.2 e he)
  | assign hx _ he =>
    obtain ⟨hqx, hqe⟩ := List.forall_mem_cons.mp hq
    exact .assign ⟨hx, hqx⟩ (he hqe hf)
  | quote hv => exact .quote fun l hl => ⟨hv l hl, hq l hl⟩
  | form _ he => exact .form (he hq hf)
  | define hd _ he =>
    simp only [leaves, tys, List.forall_mem_append, List.forall_mem_cons] at hq hf
    exact .define (hd.mapTy hq.1 hf.1) (he hq.2 hf.2)
  | program _ hes =>
    simp only [leaves, tys, forall_leavesAll, forall_tysAll] at hq hf
    exact .program (formed_mapTyAll fun e he => hes e he (hq e he) (hf e he))

end Exp

namespace Ty

theorem formed_base (b : BaseTy) : (Ty.base b).Formed p := fun _ hv => by cases hv

theorem formed_pair {l r : Ty} : (Ty.pair l r).Formed p ↔ l.Formed p ∧ r.Formed p := by
  simp only [Formed, vars_pair, List.forall_mem_append]

theorem formed_proc {ps : List Ty} {r : Ty} :
    (Ty.proc ps r).Formed p ↔ (∀ t ∈ ps, t.Formed p) ∧ r.Formed p := by
  simp only [Formed, vars_proc, List.forall_mem_append, List.forall_mem_flatMap]

end Ty

theorem Text.spaced_nested (xs : List String) {ys : List String} (hy : ys ≠ []) :
    Text.spaced (xs ++ ys) = Text.spaced (xs ++ [Text.spaced ys]) := by
  by_cases hx : xs = []
  · simp [hx, Text.spaced]
  · rw [Text.spaced, Text.spaced, String.intercalate_append_of_ne_nil hx hy,
      String.intercalate_append_of_ne_nil hx (by simp), String.intercalate_singleton,
        Text.spaced]

namespace Exp

variable {k : Kind} {e : Exp} {es : List Exp} {bs : List (Decl × Exp)}

theorem write_data {s : Store} (h : ∀ e ∈ es, (e.mapTy s.resolve).datum.write = e.text s) :
    (data (mapTyAll s.resolve es)).map Datum.write = es.map (text s) := by
  rw [data_eq_map, mapTyAll_eq_map, List.map_map, List.map_map]
  exact List.map_congr_left h

theorem write_dataBound {s : Store}
    (h : ∀ b ∈ bs, (b.2.mapTy s.resolve).datum.write = b.2.text s) :
    (dataBound (mapTyBound s.resolve bs)).map Datum.write = bindingTexts s bs := by
  rw [dataBound_eq_map, mapTyBound_eq_map, bindingTexts_eq_map, List.map_map, List.map_map]
  refine List.map_congr_left fun b hb => ?_
  simp [Datum.write, Datum.writeAll_eq_map, Decl.write_datum, h b hb]

/-- A well-formed expression is written as its datum is, its types as they stand in a store. -/
theorem Formed.write_datum (s : Store) (h : e.Formed p k) :
    (e.mapTy s.resolve).datum.write = e.text s := by
  induction h with
  | const _ => rfl
  | prim _ => rfl
  | var _ _ _ => rfl
  | ite _ _ _ hc ht he =>
    simp [Exp.mapTy, datum, text, Datum.write, Datum.writeAll_eq_map, hc, ht, he]
  | @lambda ps r body _ _ hne _ hbody =>
    have htexts : body.map (text s) ≠ [] := by simpa using hne
    have hnested := Text.spaced_nested
      ["lambda", Text.parens (Text.spaced (ps.map s.declText)), ":", s.text r] htexts
    simp only [List.cons_append, List.nil_append] at hnested
    rw [text, texts_eq_map, ← hnested]
    simp [Exp.mapTy, datum, Datum.write, Datum.writeAll_eq_map, write_data hbody,
      Ty.write_datum, Store.text, Function.comp_def, Decl.write_datum]
  | app _ _ hf hes =>
    simp [Exp.mapTy, datum, text, Datum.write, Datum.writeAll_eq_map, hf, write_data hes,
      texts_eq_map]
  | @letIn bs body _ _ hne _ hbs hbody =>
    have htexts : body.map (text s) ≠ [] := by simpa using hne
    have hnested :=
      Text.spaced_nested ["let", Text.parens (Text.spaced (bindingTexts s bs))] htexts
    simp only [List.cons_append, List.nil_append] at hnested
    rw [text, texts_eq_map, ← hnested]
    simp [Exp.mapTy, datum, Datum.write, Datum.writeAll_eq_map, write_data hbody,
      write_dataBound hbs]
  | @letrec bs body _ _ hne _ hbs hbody =>
    have htexts : body.map (text s) ≠ [] := by simpa using hne
    have hnested :=
      Text.spaced_nested ["letrec", Text.parens (Text.spaced (bindingTexts s bs))] htexts
    simp only [List.cons_append, List.nil_append] at hnested
    rw [text, texts_eq_map, ← hnested]
    simp [Exp.mapTy, datum, Datum.write, Datum.writeAll_eq_map, write_data hbody,
      write_dataBound hbs]
  | assign _ _ he => simp [Exp.mapTy, datum, text, Datum.write, Datum.writeAll_eq_map, he]
  | @quote v _ =>
    simp [Exp.mapTy, datum, text, Datum.write, Datum.writeAll_eq_map, v.write_datum.1]
  | form _ he => exact he
  | define _ _ he =>
    simp [Exp.mapTy, datum, text, Datum.write, Datum.writeAll_eq_map, Decl.write_datum, he]
  | program _ hes =>
    simp [Exp.mapTy, datum, text, Datum.write, Datum.writeAll_eq_map, texts_eq_map,
      write_data hes]

end Exp

/-- The words of the language. -/
def words : List String :=
  ":" :: (Keyword.all.map Keyword.text ++ primitiveNames ++ BaseTy.all.map BaseTy.name ++
    Ty.typeWords)

/-- No word of the language is taken for anything else. -/
theorem readable_of_mem_words {w : String} (h : w ∈ words) : (Datum.sym w).Readable := by
  have hall : ∀ w ∈ words, Lexeme.Readable (.name w) := by decide +kernel
  exact Datum.made_sym.mpr (hall w h)

theorem mem_words_of_isPrimitive {op : String} (h : isPrimitive op = true) : op ∈ words := by
  have hop : op ∈ primitiveNames := by simpa [isPrimitive] using h
  simp [words, hop]

/-- A type that is formed can be written so that it is read back. -/
theorem Ty.Formed.readable {t : Ty} (h : t.Formed Lexeme.Readable) : t.datum.Readable := by
  induction t with
  | base b => exact readable_of_mem_words (by cases b <;> decide)
  | var v => exact Datum.made_sym.mpr (h v (by simp)).1
  | pair l r ihl ihr =>
    obtain ⟨hl, hr⟩ := formed_pair.mp h
    refine Datum.made_list.mpr ?_
    simp only [List.forall_mem_cons]
    exact ⟨readable_of_mem_words (by decide), ihl hl, ihr hr, by simp⟩
  | proc ps r ihp ihr =>
    obtain ⟨hps, hr⟩ := formed_proc.mp h
    refine Datum.made_list.mpr (List.forall_mem_append.mpr ⟨?_, ?_⟩)
    · rw [data_eq_map]
      exact forall_paramData (readable_of_mem_words (by decide))
        (readable_of_mem_words (by decide))
        (List.forall_mem_map.mpr fun t ht => ihp t ht (hps t ht))
    · simp only [List.forall_mem_cons]
      exact ⟨readable_of_mem_words (by decide), ihr hr, by simp⟩

theorem Decl.Formed.readable {d : Decl} (h : d.Formed Lexeme.Readable) : d.datum.Readable := by
  refine Datum.made_list.mpr ?_
  simp only [List.forall_mem_cons]
  exact ⟨Datum.made_sym.mpr h.name, readable_of_mem_words (by decide), h.ty.readable, by simp⟩

theorem Datum.Made.cons {d e : Datum} (hd : d.Made p) (he : e.Made p) :
    (Datum.cons d e).Made p := by
  cases e with
  | atom a => exact made_dotted.mpr ⟨by simp, by simpa using hd, he⟩
  | sym x => exact made_dotted.mpr ⟨by simp, by simpa using hd, he⟩
  | list items => exact made_list.mpr (List.forall_mem_cons.mpr ⟨hd, made_list.mp he⟩)
  | dotted items tail =>
    obtain ⟨_, hitems, htail⟩ := made_dotted.mp he
    exact made_dotted.mpr ⟨by simp, List.forall_mem_cons.mpr ⟨hd, hitems⟩, htail⟩

theorem Quoted.made_datum {v : Quoted} (h : ∀ l ∈ v.leaves, p l) : v.datum.Made p := by
  induction v with
  | atom a => exact Datum.made_atom.mpr (by simpa [leaves] using h)
  | sym x => exact Datum.made_sym.mpr (by simpa [leaves] using h)
  | nil => exact Datum.made_list.mpr (by simp)
  | cons first rest ihf ihr =>
    rw [leaves, List.forall_mem_append] at h
    exact (ihf h.1).cons (ihr h.2)

namespace Exp

variable {k : Kind} {e : Exp} {bs : List (Decl × Exp)}

theorem readable_bindings (hds : ∀ b ∈ bs, b.1.Formed Lexeme.Readable)
    (hes : ∀ b ∈ bs, b.2.datum.Readable) : ∀ d ∈ dataBound bs, d.Readable := by
  rw [dataBound_eq_map]
  refine List.forall_mem_map.mpr fun b hb => Datum.made_list.mpr ?_
  simp only [List.forall_mem_cons]
  exact ⟨(hds b hb).readable, hes b hb, by simp⟩

/-- A well-formed expression of readable names and constants can be read back from its written
form. -/
theorem Formed.readable (h : e.Formed Lexeme.Readable k) : e.datum.Readable := by
  induction h with
  | const ha => exact Datum.made_atom.mpr ha
  | prim hop => exact readable_of_mem_words (mem_words_of_isPrimitive hop)
  | var hx _ _ => exact Datum.made_sym.mpr hx
  | ite _ _ _ hc ht he =>
    refine Datum.made_list.mpr ?_
    simp only [List.forall_mem_cons]
    exact ⟨readable_of_mem_words (by decide), hc, ht, he, by simp⟩
  | lambda hps hr _ _ hbody =>
    refine Datum.made_list.mpr ?_
    simp only [data_eq_map, List.forall_mem_cons, List.forall_mem_map, Datum.made_list]
    exact ⟨readable_of_mem_words (by decide), fun d hd => (hps d hd).readable,
      readable_of_mem_words (by decide), hr.readable, hbody⟩
  | app _ _ hf hes =>
    refine Datum.made_list.mpr ?_
    simp only [data_eq_map, List.forall_mem_cons, List.forall_mem_map]
    exact ⟨hf, hes⟩
  | letIn hds _ _ _ hbs hbody =>
    refine Datum.made_list.mpr ?_
    simp only [data_eq_map, List.forall_mem_cons, List.forall_mem_map, Datum.made_list]
    exact ⟨readable_of_mem_words (by decide), readable_bindings hds hbs, hbody⟩
  | letrec hds _ _ _ hbs hbody =>
    refine Datum.made_list.mpr ?_
    simp only [data_eq_map, List.forall_mem_cons, List.forall_mem_map, Datum.made_list]
    exact ⟨readable_of_mem_words (by decide), readable_bindings hds hbs, hbody⟩
  | assign hx _ he =>
    refine Datum.made_list.mpr ?_
    simp only [List.forall_mem_cons]
    exact ⟨readable_of_mem_words (by decide), Datum.made_sym.mpr hx, he, by simp⟩
  | quote hv =>
    refine Datum.made_list.mpr ?_
    simp only [List.forall_mem_cons]
    exact ⟨readable_of_mem_words (by decide), Quoted.made_datum hv, by simp⟩
  | form _ he => exact he
  | define hd _ he =>
    refine Datum.made_list.mpr ?_
    simp only [List.forall_mem_cons]
    exact ⟨readable_of_mem_words (by decide), hd.readable, he, by simp⟩
  | program _ hes =>
    refine Datum.made_list.mpr ?_
    simp only [data_eq_map, List.forall_mem_cons, List.forall_mem_map]
    exact ⟨readable_of_mem_words (by decide), hes⟩

end Exp

end TypedL5
