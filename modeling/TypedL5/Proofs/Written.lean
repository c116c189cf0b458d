import TypedL5.Exp.Printer
import TypedL5.Proofs.ReadBack
import TypedL5.Proofs.Renaming

/-! Written types, quoted values and expressions are written data. -/
namespace TypedL5

namespace Ty

/-- What stands before the arrow of a procedure type. -/
def paramData (params : List Datum) : List Datum :=
  if params.isEmpty then [.sym "Empty"] else params.intersperse (.sym "*")

mutual

/-- The datum that a type is written as. -/
def datum : Ty → Datum
  | .base b => .sym b.name
  | .var v => .sym v.name
  | .pair l r => .list [.sym "Pair", l.datum, r.datum]
  | .proc ps r => .list (paramData (data ps) ++ [.sym "->", r.datum])

def data : List Ty → List Datum
  | [] => []
  | t :: ts => t.datum :: data ts

end

theorem data_eq_map (ts : List Ty) : data ts = ts.map datum := by
  induction ts with
  | nil => rfl
  | cons t ts ih => simp [data, ih]

theorem paramData_ne_nil (ds : List Datum) : paramData ds ≠ [] := by
  cases ds with
  | nil => simp [paramData]
  | cons d ds => cases ds <;> simp [paramData]

theorem forall_intersperse {P : Datum → Prop} {star : Datum} {ds : List Datum} (hstar : P star)
    (hds : ∀ d ∈ ds, P d) : ∀ d ∈ ds.intersperse star, P d := by
  induction ds with
  | nil => exact hds
  | cons d ds ih =>
    obtain ⟨hd, htail⟩ := List.forall_mem_cons.mp hds
    cases ds with
    | nil => exact hds
    | cons d' ds =>
      simp only [List.intersperse_cons_cons, List.forall_mem_cons]
      exact ⟨hd, hstar, ih htail⟩

theorem forall_paramData {P : Datum → Prop} {ds : List Datum} (hempty : P (.sym "Empty"))
    (hstar : P (.sym "*")) (hds : ∀ d ∈ ds, P d) : ∀ d ∈ paramData ds, P d := by
  unfold paramData
  split
  · simpa using hempty
  · exact forall_intersperse hstar hds

/-- Stars between parameters are written with a space on either side. -/
theorem spaced_stars (d : Datum) (ds : List Datum) :
    Text.spaced (((d :: ds).intersperse (.sym "*")).map Datum.write) =
      " * ".intercalate ((d :: ds).map Datum.write) := by
  induction ds generalizing d with
  | nil => simp [Text.spaced]
  | cons d' ds ih =>
    have hne : ((d' :: ds).intersperse (.sym "*")).map Datum.write ≠ [] := by
      cases ds <;> simp
    have hrest := ih d'
    rw [Text.spaced] at hrest ⊢
    calc
      " ".intercalate (((d :: d' :: ds).intersperse (.sym "*")).map Datum.write)
        = d.write ++ " " ++ ("*" ++ " " ++
            " ".intercalate (((d' :: ds).intersperse (.sym "*")).map Datum.write)) := by
          rw [List.intersperse_cons_cons, List.map_cons, List.map_cons,
            String.intercalate_cons_cons, String.intercalate_cons_of_ne_nil hne, Datum.write]
      _ = d.write ++ (" " ++ "*" ++ " ") ++
        " * ".intercalate ((d' :: ds).map Datum.write) := by
          rw [hrest]
          simp only [String.append_assoc]
      _ = " * ".intercalate ((d :: d' :: ds).map Datum.write) := by
          simp only [List.map_cons, String.intercalate_cons_cons]
          rfl

theorem spaced_paramData (ds : List Datum) :
    Text.spaced ((paramData ds).map Datum.write) = paramsText (ds.map Datum.write) := by
  cases ds with
  | nil => simp [paramData, paramsText, Text.spaced, Datum.write]
  | cons d ds => simpa [paramData, paramsText] using spaced_stars d ds

theorem write_datum (t : Ty) : t.datum.write = t.text := by
  induction t with
  | base b => rfl
  | var v => rfl
  | pair l r ihl ihr => simp [datum, text, Datum.write, Datum.writeAll_eq_map, ihl, ihr]
  | proc ps r ihp ihr =>
    have hps : (ps.map datum).map Datum.write = ps.map text := by
      rw [List.map_map]
      exact List.map_congr_left ihp
    have hne : (paramData (ps.map datum)).map Datum.write ≠ [] := by
      simpa using paramData_ne_nil _
    rw [datum, text, Datum.write, Datum.writeAll_eq_map, data_eq_map, texts_eq_map,
      List.map_append, Text.spaced, String.intercalate_append_of_ne_nil hne (by simp)]
    have hparams := spaced_paramData (ps.map datum)
    rw [hps, Text.spaced] at hparams
    rw [hparams]
    simp [Text.spaced, String.intercalate_cons_cons, Datum.write, ihr]

end Ty

namespace Datum

/-- The datum that a pair is written as, from those of its parts. -/
def cons (first : Datum) : Datum → Datum
  | .list items => .list (first :: items)
  | .dotted items tail => .dotted (first :: items) tail
  | rest => .dotted [first] rest

/-- What is written after the first item of a pair. -/
def writeAfter : Datum → String
  | .list [] => ")"
  | .list items => " " ++ Text.spaced (writeAll items) ++ ")"
  | .dotted [] tail => " . " ++ tail.write ++ ")"
  | .dotted items tail => " " ++ Text.spaced (writeAll items) ++ " . " ++ tail.write ++ ")"
  | rest => " . " ++ rest.write ++ ")"

/-- A pair is written as a list goes on, whatever its second half is. -/
theorem write_cons (d e : Datum) : (cons d e).write = "(" ++ d.write ++ e.writeAfter := by
  cases e with
  | atom a =>
    simp [cons, write, writeAll, writeAfter, Text.parens, Text.spaced, String.append_assoc]
  | sym x =>
    simp [cons, write, writeAll, writeAfter, Text.parens, Text.spaced, String.append_assoc]
  | list items =>
    cases items <;>
      simp [cons, write, writeAll, writeAfter, Text.parens, Text.spaced, String.append_assoc,
        String.intercalate_cons_cons]
  | dotted items tail =>
    cases items <;>
      simp [cons, write, writeAll, writeAfter, Text.parens, Text.spaced, String.append_assoc,
        String.intercalate_cons_cons]

theorem writeAfter_cons (d e : Datum) :
    (cons d e).writeAfter = " " ++ d.write ++ e.writeAfter := by
  cases e with
  | atom a => simp [cons, write, writeAll, writeAfter, Text.spaced, String.append_assoc]
  | sym x => simp [cons, write, writeAll, writeAfter, Text.spaced, String.append_assoc]
  | list items =>
    cases items <;>
      simp [cons, writeAll, writeAfter, Text.spaced, String.append_assoc,
        String.intercalate_cons_cons]
  | dotted items tail =>
    cases items <;>
      simp [cons, writeAll, writeAfter, Text.spaced, String.append_assoc,
        String.intercalate_cons_cons]

end Datum

namespace Quoted

/-- The datum that a value is written as. -/
def datum : Quoted → Datum
  | .atom a => .atom a
  | .sym x => .sym x
  | .nil => .list []
  | .cons first rest => .cons first.datum rest.datum

theorem write_datum (q : Quoted) :
    q.datum.write = q.write ∧ q.datum.writeAfter = q.writeRest := by
  induction q with
  | atom a => exact ⟨rfl, rfl⟩
  | sym x => exact ⟨rfl, rfl⟩
  | nil => exact ⟨rfl, rfl⟩
  | cons first rest ihf ihr =>
    rw [datum, Datum.write_cons, Datum.writeAfter_cons, ihf.1, ihr.2]
    exact ⟨rfl, rfl⟩

theorem ofDatum_cons (d e : Datum) : ofDatum (.cons d e) = .cons (ofDatum d) (ofDatum e) := by
  cases e with
  | atom a => rfl
  | sym x => rfl
  | list items => rfl
  | dotted items tail => rfl

/-- A value is read back from the datum that it is written as. -/
theorem ofDatum_datum (q : Quoted) : ofDatum q.datum = q := by
  induction q with
  | atom a => rfl
  | sym x => rfl
  | nil => rfl
  | cons first rest ihf ihr => rw [datum, ofDatum_cons, ihf, ihr]

end Quoted

/-- The datum that a declaration is written as. -/
def Decl.datum (d : Decl) : Datum := .list [.sym d.name, .sym ":", d.ty.datum]

theorem Decl.write_datum (s : Store) (d : Decl) :
    (d.mapTy s.resolve).datum.write = s.declText d := by
  simp [Decl.datum, Store.declText, Store.text, Datum.write, Datum.writeAll_eq_map,
    Ty.write_datum]

namespace Exp

mutual

/-- The datum that an expression is written as. -/
def datum : Exp → Datum
  | .const a => .atom a
  | .prim op => .sym op
  | .var x => .sym x
  | .ite c t e => .list [.sym "if", c.datum, t.datum, e.datum]
  | .lambda ps r body =>
    .list (.sym "lambda" :: .list (ps.map Decl.datum) :: .sym ":" :: r.datum :: data body)
  | .app f es => .list (f.datum :: data es)
  | .letIn bs body => .list (.sym "let" :: .list (dataBound bs) :: data body)
  | .letrec bs body => .list (.sym "letrec" :: .list (dataBound bs) :: data body)
  | .assign x e => .list [.sym "set!", .sym x, e.datum]
  | .quote v => .list [.sym "quote", v.datum]
  | .define d e => .list [.sym "define", d.datum, e.datum]
  | .program es => .list (.sym "L5" :: data es)

def data : List Exp → List Datum
  | [] => []
  | e :: es => e.datum :: data es

def dataBound : List (Decl × Exp) → List Datum
  | [] => []
  | (d, e) :: bs => .list [d.datum, e.datum] :: dataBound bs

end

theorem data_eq_map (es : List Exp) : data es = es.map datum := by
  induction es with
  | nil => rfl
  | cons e es ih => simp [data, ih]

theorem dataBound_eq_map (bs : List (Decl × Exp)) :
    dataBound bs = bs.map fun b => .list [b.1.datum, b.2.datum] := by
  induction bs with
  | nil => rfl
  | cons b bs ih => simp [dataBound, ih]

theorem bindingTexts_eq_map (s : Store) (bs : List (Decl × Exp)) :
    bindingTexts s bs =
      bs.map fun b => Text.parens (Text.spaced [s.declText b.1, b.2.text s]) := by
  induction bs with
  | nil => rfl
  | cons b bs ih => simp [bindingTexts, ih]

end Exp

end TypedL5
