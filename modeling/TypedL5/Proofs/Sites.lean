import TypedL5.Proofs.RoundTrip

/-!
Where the type variables of what is read come from.

The source of an expression has sites for types, each with an annotation or without. Reading
fills them from left to right. A site without an annotation gets the next numbered variable,
and an annotation is read with a new variable for each name of one in it.
-/
namespace TypedL5

open HasVars

/-- A place for a type in the source of an expression, with the annotation there, if there is
one. -/
inductive Site where
  /-- Behind a name that is declared. -/
  | name (written? : Option Datum)
  /-- Behind the parameters of a procedure. -/
  | result (written? : Option Datum)

namespace Site

def written? : Site → Option Datum
  | .name a => a
  | .result a => a

/-- A declaration without a type. -/
def isBareName : Site → Bool
  | .name none => true
  | _ => false

/-- A procedure without the type of its result. -/
def isBareResult : Site → Bool
  | .result none => true
  | _ => false

def isBare (s : Site) : Bool := s.isBareName || s.isBareResult

/-- The type for a site: what is written there, or a numbered variable. -/
def fill (s : Site) : ParseM Ty :=
  match s.written? with
  | some d => Ty.ofWritten d
  | none => ParseM.numbered

def fillAll : List Site → ParseM (List Ty)
  | [] => return []
  | s :: ss => do
    let t ← s.fill
    return t :: (← fillAll ss)

/-- Of the types for some sites, those for the sites without an annotation. -/
def bareTys : List Site → List Ty → List Ty
  | s :: ss, t :: ts => if s.isBare then t :: bareTys ss ts else bareTys ss ts
  | _, _ => []

/-- The site of a declaration. -/
def ofDecl : Datum → Site
  | .list [_, _, written] => .name (some written)
  | _ => .name none

end Site

namespace Datum

mutual

/-- The sites in the source of an expression, a form or a program, in the order of the text.
The site of a result stands between the parameters and the body, and that of a bound name
before its value. -/
def sites : Datum → List Site
  | .atom _ | .sym _ | .dotted _ _ | .list [] => []
  | .list (head :: args) =>
    match Exp.keyword? head with
    | some keyword => sitesOfForm keyword args
    | none => head.sites ++ sitesAll args

def sitesOfForm : Keyword → List Datum → List Site
  | .lambda, .list params :: rest => params.map Site.ofDecl ++ sitesOfBody rest
  | .letIn, .list bindings :: body => sitesOfBindings bindings ++ sitesAll body
  | .letrec, .list bindings :: body => sitesOfBindings bindings ++ sitesAll body
  | .define, decl :: value => Site.ofDecl decl :: sitesAll value
  | .quote, _ => []
  | _, [] => []
  | _, d :: ds => d.sites ++ sitesAll ds

def sitesAll : List Datum → List Site
  | [] => []
  | d :: ds => d.sites ++ sitesAll ds

/-- The sites of what follows the parameters of a procedure. -/
def sitesOfBody : List Datum → List Site
  | [] => []
  | d :: ds =>
    if d.isSym ":" then
      match ds with
      | [] => []
      | written :: body => .result (some written) :: sitesAll body
    else .result none :: (d.sites ++ sitesAll ds)

def sitesOfBindings : List Datum → List Site
  | [] => []
  | .list [decl, value] :: ds => Site.ofDecl decl :: (value.sites ++ sitesOfBindings ds)
  | _ :: ds => sitesOfBindings ds

end

theorem sitesOfBody_plain {d : Datum} (h : ¬d.isSym ":" = true) (ds : List Datum) :
    sitesOfBody (d :: ds) = .result none :: (d.sites ++ sitesAll ds) := by
  rw [sitesOfBody.eq_def]
  exact if_neg h

end Datum

/-- What is read has the types that its sites are filled with. -/
def Fills {α : Type} (x : ParseM α) (ss : List Site) (tys : α → List Ty) : Prop :=
  ∀ g a m, x g = .ok a m → Site.fillAll ss g = .ok (tys a) m

theorem Site.fillAll_append {ss us : List Site} {ts vs : List Ty} {g m n : Supply}
    (h : fillAll ss g = .ok ts m) (h' : fillAll us m = .ok vs n) : fillAll (ss ++ us) g =
      .ok (ts ++ vs) n := by
  induction ss generalizing ts g with
  | nil =>
    cases h
    exact h'
  | cons s ss ih =>
    obtain ⟨t, p, ht, h⟩ := bind_eq_ok_iff.mp h
    obtain ⟨ts, q, hts, h⟩ := bind_eq_ok_iff.mp h
    cases h
    exact bind_eq_ok_iff.mpr ⟨t, p, ht, bind_eq_ok_iff.mpr ⟨ts ++ vs, n, ih hts, rfl⟩⟩

namespace Fills

variable {α β γ δ : Type} {x : ParseM α} {y : ParseM β} {z : ParseM γ} {ss us vs : List Site}
  {p : α → List Ty} {q : β → List Ty} {r : γ → List Ty}

theorem throw (e : ParseError) : Fills (throw e : ParseM α) ss p := by
  rintro _ _ _ ⟨⟩

theorem pure {a : α} (h : p a = []) : Fills (Pure.pure a) [] p := by
  rintro g _ _ ⟨⟩
  rw [h]
  rfl

theorem bind_throw (e : ParseError) :
    Fills (x >>= fun _ => (MonadExcept.throw e : ParseM β)) ss q := by
  intro g b m h
  obtain ⟨a, n, _, h⟩ := bind_eq_ok_iff.mp h
  cases h

theorem map {h : α → β} (hx : Fills x ss p) (hh : ∀ a, q (h a) = p a) :
    Fills (x >>= fun a => Pure.pure (h a)) ss q := by
  intro g b m hb
  obtain ⟨a, n, ha, hb⟩ := bind_eq_ok_iff.mp hb
  cases hb
  rw [hh]
  exact hx g a m ha

theorem map₂ {h : α → β → γ} (hx : Fills x ss p) (hy : Fills y us q)
    (hh : ∀ a b, r (h a b) = p a ++ q b) :
    Fills (x >>= fun a => y >>= fun b => Pure.pure (h a b)) (ss ++ us) r := by
  intro g c m hc
  obtain ⟨a, n, ha, hc⟩ := bind_eq_ok_iff.mp hc
  obtain ⟨b, n', hb, hc⟩ := bind_eq_ok_iff.mp hc
  cases hc
  rw [hh]
  exact Site.fillAll_append (hx g a n ha) (hy n b m hb)

theorem map₃ {h : α → β → γ → δ} {t : δ → List Ty} (hx : Fills x ss p) (hy : Fills y us q)
    (hz : Fills z vs r) (hh : ∀ a b c, t (h a b c) = p a ++ (q b ++ r c)) :
    Fills (x >>= fun a => y >>= fun b => z >>= fun c => Pure.pure (h a b c))
      (ss ++ (us ++ vs)) t := by
  intro g d m hd
  obtain ⟨a, n, ha, hd⟩ := bind_eq_ok_iff.mp hd
  obtain ⟨b, n', hb, hd⟩ := bind_eq_ok_iff.mp hd
  obtain ⟨c, n'', hc, hd⟩ := bind_eq_ok_iff.mp hd
  cases hd
  rw [hh]
  exact Site.fillAll_append (hx g a n ha) (Site.fillAll_append (hy n b n' hb) (hz n' c m hc))

/-- One site. -/
theorem fill (s : Site) : Fills s.fill [s] fun t => [t] := by
  intro g t m ht
  exact bind_eq_ok_iff.mpr ⟨t, m, ht, rfl⟩

end Fills

namespace Exp

open Datum

/-- The word of a keyword is that keyword wherever it heads a list. -/
theorem keyword?_of_isSym {d : Datum} {k : Keyword} (h : d.isSym k.text = true) :
    keyword? d = some k := by
  cases d with
  | sym x =>
    obtain rfl : x = k.text := by simpa [isSym] using h
    cases k <;> rfl
  | atom a => cases h
  | list items => cases h
  | dotted items tail => cases h

theorem sites_program {head : Datum} (h : head.isSym Keyword.program.text = true)
    (forms : List Datum) :
    (Datum.list (head :: forms)).sites = sitesAll forms := by
  rw [sites, keyword?_of_isSym h]
  cases forms <;> rfl

end Exp

namespace Source

/-- The sites in a piece of source. -/
def sites {α : Type} : Source α → List Site
  | .decl d => [Site.ofDecl d]
  | .decls ds => ds.map Site.ofDecl
  | .exp d | .form d | .program d | .entry d => d.sites
  | .exps ds | .forms ds | .entries ds => Datum.sitesAll ds
  | .keyword _ k ds => Datum.sitesOfForm k ds
  | .bindings _ ds => Datum.sitesOfBindings ds
  | .body _ ds => Datum.sitesOfBody ds

/-- The types of what is read from a piece of source. -/
def tys {α : Type} : Source α → α → List Ty
  | .decl _, d => [d.ty]
  | .decls _, ds => ds.map Decl.ty
  | .exp _, e => e.tys
  | .exps _, es => Exp.tysAll es
  | .keyword _ _ _, e => e.tys
  | .bindings _ _, bs => Exp.tysBound bs
  | .body _ _, p => p.1 :: Exp.tysAll p.2
  | .form _, e => e.tys
  | .forms _, es => Exp.tysAll es
  | .program _, e => e.tys
  | .entry _, es => Exp.tysAll es
  | .entries _, es => Exp.tysAll es

end Source

/-- The sites of the parts, one part after the other, are those of the whole, and so are the
types. -/
def ReadLaw.fills : ReadLaw where
  Holds s x := Fills x s.sites s.tys
  fault _ _ := .throw _
  bare _ := (Fills.fill (.name none)).map fun _ => rfl
  typed _ _ := (Fills.fill (.name (some _))).map fun _ => rfl
  decls_nil := .pure rfl
  decls_cons hx hy := Fills.map₂ hx hy fun _ _ => rfl
  const _ := by
    rw [Source.sites, Datum.sites]
    exact .pure rfl
  prim _ := by
    rw [Source.sites, Datum.sites]
    exact .pure rfl
  var _ _ := by
    rw [Source.sites, Datum.sites]
    exact .pure rfl
  keyword hk hx := by
    rw [Source.sites, Datum.sites, hk]
    exact hx
  app hk hx hy := by
    rw [Source.sites, Datum.sites, hk]
    exact Fills.map₂ hx hy fun _ _ => rfl
  exps_nil := by
    rw [Source.sites, Datum.sitesAll]
    exact .pure rfl
  exps_cons hx hy := by
    rw [Source.sites, Datum.sitesAll]
    exact Fills.map₂ hx hy fun _ _ => rfl
  ite {_ c t e} _ _ _ hx hy hz := by
    have hsites : Datum.sitesOfForm .ite [c, t, e] = c.sites ++ (t.sites ++ e.sites) := by
      simp [Datum.sitesOfForm, Datum.sitesAll]
    rw [Source.sites, hsites]
    exact Fills.map₃ hx hy hz fun _ _ _ => rfl
  lambda hx hy := by
    rw [Source.sites, Datum.sitesOfForm]
    exact Fills.map₂ hx hy fun _ _ => rfl
  letIn _ hx hy := by
    rw [Source.sites, Datum.sitesOfForm]
    exact Fills.map₂ hx hy fun _ _ => rfl
  letrec _ hx hy := by
    rw [Source.sites, Datum.sitesOfForm]
    exact Fills.map₂ hx hy fun _ _ => rfl
  assign {_ v e} _ hx := by
    have hsites : Datum.sitesOfForm .assign [.sym v, e] = e.sites := by
      simp [Datum.sitesOfForm, Datum.sitesAll, Datum.sites]
    rw [Source.sites, hsites]
    exact Fills.map hx fun _ => rfl
  quote _ _ := by
    rw [Source.sites, Datum.sitesOfForm]
    exact .pure rfl
  bindings_nil _ := by
    rw [Source.sites, Datum.sitesOfBindings]
    exact .pure rfl
  bindings_cons hx hy hz := by
    rw [Source.sites, Datum.sitesOfBindings]
    exact Fills.map₃ hx hy hz fun _ _ _ => rfl
  bodiless _ _ := .bind_throw _
  annotated {_ _ written} _ _ hd _ hx := by
    rw [Source.sites, Datum.sitesOfBody, if_pos hd]
    exact Fills.map₂ (Fills.fill (.result (some written))) hx fun _ _ => rfl
  plain hd hx hy := by
    rw [Source.sites, Datum.sitesOfBody_plain hd]
    exact Fills.map₃ (Fills.fill (.result none)) hx hy fun _ _ _ => rfl
  exp hx := hx
  define {_ decl value} _ _ hdefine hx hy := by
    have hsites : Datum.sitesOfForm .define [decl, value] = [Site.ofDecl decl] ++
        value.sites := by
      simp [Datum.sitesOfForm, Datum.sitesAll]
    rw [Source.sites, Datum.sites, Exp.keyword?_of_isSym hdefine]
    dsimp only
    rw [hsites]
    exact Fills.map₂ hx hy fun _ _ => rfl
  forms_nil := by
    rw [Source.sites, Datum.sitesAll]
    exact .pure rfl
  forms_cons hx hy := by
    rw [Source.sites, Datum.sitesAll]
    exact Fills.map₂ hx hy fun _ _ => rfl
  program hprogram hx := by
    rw [Source.sites, Exp.sites_program hprogram]
    exact Fills.map hx fun _ => rfl
  entry_form hx := Fills.map hx fun _ => by simp [Source.tys, Exp.tysAll]
  entry_program hprogram hx := by
    rw [Source.sites, Exp.sites_program hprogram]
    exact hx
  entries_nil := by
    rw [Source.sites, Datum.sitesAll]
    exact .pure rfl
  entries_cons hx hy := by
    rw [Source.sites, Datum.sitesAll]
    exact Fills.map₂ hx hy fun _ _ => by simp [Source.tys, Exp.tysAll_eq_flatMap]

theorem Exp.Kind.fills (k : Kind) (d : Datum) : Fills (k.ofDatum d) d.sites tys := by
  cases k with
  | expression => exact ReadLaw.fills.reads (.exp d)
  | form => exact ReadLaw.fills.reads (.form d)
  | program => exact ReadLaw.fills.reads (.program d)

/-- Reading an annotation takes no numbered variable. -/
theorem Ty.keeps_count (d : Datum) :
    Keeps (fun g m : Supply => m.count = g.count) (ofWritten d) := by
  have hdatum : ∀ d, Keeps (fun g m : Supply => m.count = g.count) (ofDatum d) :=
    steps (P := fun {_} x => Keeps (fun g m : Supply => m.count = g.count) x) (fun _ _ => rfl)
      (fun _ _ => rfl) (keeps_bind fun h h' => h'.trans h) fun _ _ => rfl
  unfold ofWritten
  split
  · unfold read
    split
    · exact hdatum _
    · exact fun _ => rfl
  · exact hdatum _

/-- The names of the numbered variables that come next. -/
def Supply.nextNames (g : Supply) (n : Nat) : List String :=
  (List.range' (g.count + 1) n).map fun i => g.stem ++ "_" ++ toString i

namespace Site

variable {s : Site} {ss : List Site} {t : Ty} {ts : List Ty} {g m : Supply}

theorem fill_of_isBare (h : s.isBare = true) (g : Supply) :
    s.fill g = .ok (.var g.numbered.1) g.numbered.2 := by
  rcases s with (_ | _) | (_ | _)
  · rfl
  · cases h
  · rfl
  · cases h

/-- A site with an annotation takes no number. -/
theorem fill_of_annotated (h : ¬s.isBare = true) (ht : s.fill g = .ok t m) :
    m.count = g.count ∧ m.stem = g.stem := by
  have hread : ∀ d, Ty.ofWritten d g = .ok t m → m.count = g.count ∧ m.stem = g.stem := by
    intro d hd
    have hcount := Ty.keeps_count d g
    obtain ⟨vs, htaken, _⟩ := (Ty.parses_ofWritten d).taken hd
    rw [hd] at hcount
    exact ⟨hcount, htaken.stem⟩
  rcases s with (_ | d) | (_ | d)
  · exact (h rfl).elim
  · exact hread d ht
  · exact (h rfl).elim
  · exact hread d ht

theorem countP_isBare (ss : List Site) :
    ss.countP isBare = ss.countP isBareName + ss.countP isBareResult := by
  induction ss with
  | nil => rfl
  | cons s ss ih =>
    rw [List.countP_cons, List.countP_cons, List.countP_cons, ih]
    rcases s with (_ | _) | (_ | _) <;> simp [isBare, isBareName, isBareResult] <;> omega

/-- The sites have a type each, and those without an annotation have the numbered variables
that came next. -/
structure Filled (g : Supply) (ss : List Site) (ts : List Ty) (m : Supply) : Prop where
  length : ts.length = ss.length
  count : m.count = g.count + ss.countP isBare
  numbered :
    ∃ vs : List TyVar, bareTys ss ts = vs.map Ty.var ∧
      vs.map TyVar.name = g.nextNames (ss.countP isBare)

/-- The first site takes its number before the others do. -/
theorem filled_cons {n : Supply} (ht : s.fill g = .ok t m) (h : Filled m ss ts n) :
    Filled g (s :: ss) (t :: ts) n := by
  obtain ⟨vs, hvs, hnames⟩ := h.numbered
  have hlength : (t :: ts).length = (s :: ss).length := congrArg (· + 1) h.length
  by_cases hs : s.isBare = true
  · rw [fill_of_isBare hs] at ht
    cases ht
    refine ⟨hlength, ?_, g.numbered.1 :: vs, ?_, ?_⟩
    · rw [h.count, List.countP_cons_of_pos hs]
      exact Nat.add_right_comm g.count 1 _
    · rw [bareTys, if_pos hs, hvs, List.map_cons]
    · rw [List.map_cons, hnames, List.countP_cons_of_pos hs, Supply.nextNames,
        Supply.nextNames, List.range'_succ]
      rfl
  · obtain ⟨hcount, hstem⟩ := fill_of_annotated hs ht
    refine ⟨hlength, ?_, vs, ?_, ?_⟩
    · rw [h.count, hcount, List.countP_cons_of_neg hs]
    · rw [bareTys, if_neg hs, hvs]
    · rw [hnames, List.countP_cons_of_neg hs, Supply.nextNames, Supply.nextNames,
        hcount, hstem]

/-- Sites without annotations are numbered in the order of the text. -/
theorem filled_of_fillAll (h : fillAll ss g = .ok ts m) : Filled g ss ts m := by
  induction ss generalizing ts g with
  | nil =>
    cases h
    exact ⟨rfl, rfl, [], rfl, rfl⟩
  | cons s ss ih =>
    obtain ⟨t, n, ht, h⟩ := bind_eq_ok_iff.mp h
    obtain ⟨ts, _, hts, h⟩ := bind_eq_ok_iff.mp h
    cases h
    exact filled_cons ht (ih hts)

end Site

namespace Exp

/-- How the variables of an expression come from a supply when it is read from a datum. Each is
new and stands in one place. The supply counts the declarations without a type and the
procedures without the type of a result. The variables for them are numbered one after the
other in the order of their sites. -/
structure Supplied (g : Supply) (d : Datum) (e : Exp) (m : Supply) : Prop where
  nodup : (vars e).Nodup
  fresh : ∀ v ∈ vars e, g.next ≤ v.id ∧ v.id < m.next
  unbound :
    ∀ s : Store, (∀ v : TyVar, g.next ≤ v.id → s.contents? v = none) →
      ∀ v ∈ vars e, s.contents? v = none
  filled : Site.fillAll d.sites g = .ok e.tys m
  length : e.tys.length = d.sites.length
  count :
    m.count = g.count + (d.sites.countP Site.isBareName + d.sites.countP Site.isBareResult)
  numbered : ∃ vs : List TyVar, Site.bareTys d.sites e.tys = vs.map Ty.var ∧
    vs.map TyVar.name =
      g.nextNames (d.sites.countP Site.isBareName + d.sites.countP Site.isBareResult)

/-- Reading a datum takes no variables. -/
theorem read_of_datumOf {source : String} {g n : Supply} {d : Datum}
    (h : datumOf source g = .ok d n) :
    Datum.read source = .ok d ∧ g = n := by
  unfold datumOf at h
  cases hr : Datum.read source with
  | ok d' =>
    rw [hr] at h
    cases h
    exact ⟨rfl, rfl⟩
  | error e =>
    rw [hr] at h
    cases h

/-- Every expression, form or program that is read takes its variables from the supply in this
way. -/
theorem supplied_of_read {k : Kind} {source : String} {g m : Supply} {e : Exp}
    (h : k.read source g = .ok e m) :
    ∃ d, Datum.read source = .ok d ∧ Supplied g d e m := by
  obtain ⟨vs, htaken, hperm⟩ := (k.parses source).taken h
  have hfresh : ∀ v ∈ vars e, g.next ≤ v.id ∧ v.id < m.next :=
    fun v hv => htaken.id_of_mem (hperm.mem_iff.mpr hv)
  rw [Kind.read_eq] at h
  obtain ⟨d, n, hd, h⟩ := bind_eq_ok_iff.mp h
  obtain ⟨hsource, rfl⟩ := read_of_datumOf hd
  have hfill := k.fills d g e m h
  have hfilled := Site.filled_of_fillAll hfill
  have hbare := Site.countP_isBare d.sites
  exact ⟨d, hsource, hperm.nodup_iff.mp htaken.nodup, hfresh, fun s hs v hv =>
    hs v (hfresh v hv).1, hfill,
    hfilled.length, hbare ▸ hfilled.count, hbare ▸ hfilled.numbered⟩

/-- Three names are declared without a type, and one procedure has no type for the result. The
name `a` stands for three variables. -/
theorem supplied_of_read_definition :
    let g : Supply := { next := 7, stem := "U", count := 3 }
    let m : Supply := { next := 14, stem := "U", count := 7 }
    let names := ["U_4", "a", "a", "U_5", "U_6", "a", "U_7"]
    let source :=
      "(L5 (define f (lambda ((x : (a -> a)) y) x)) (lambda () : a (let ((k 1)) k)))"
    ∃ d e, Kind.program.read source g = .ok e m ∧ (vars e).map TyVar.name = names ∧
      Datum.read source = .ok d ∧
      d.sites.countP Site.isBareName = 3 ∧ d.sites.countP Site.isBareResult = 1 ∧
        Supplied g d e m := by
  intro g m names source
  obtain ⟨e, m', hread, hfacts⟩ := exists_ok (r := Kind.program.read source g)
    (P := fun e m' => decide (m' = m) && decide ((vars e).map TyVar.name = names))
      (by decide +kernel)
  obtain ⟨rfl, hnames⟩ : m' = m ∧ (vars e).map TyVar.name = names := by simpa using hfacts
  obtain ⟨d, hd, hsupplied⟩ := supplied_of_read hread
  have hcounts : (Datum.read source).toOption.map
      (fun d => (d.sites.countP Site.isBareName, d.sites.countP Site.isBareResult)) =
        some (3, 1) := by decide +kernel
  rw [hd] at hcounts
  obtain ⟨hbare, hresults⟩ : d.sites.countP Site.isBareName = 3 ∧
      d.sites.countP Site.isBareResult = 1 := by
    simpa [Except.toOption] using hcounts
  exact ⟨d, e, hread, hnames, hd, hbare, hresults, hsupplied⟩

end Exp

end TypedL5
