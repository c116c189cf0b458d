import TypedL5.Proofs.Accepted
import TypedL5.Proofs.CheckReach
import TypedL5.Proofs.Reparse

/-!
What is parsed is read back from its written form, before it is checked and on the way through
a check. Its types are then those that stand in the store.
-/
namespace TypedL5

open HasVars CheckState

variable {k : Exp.Kind} {e : Exp} {s s' : Store} {env : Env} {st m : CheckState}

/-- The name of a variable is not lost when a type that mentions it is written. -/
def TyVar.Writable (v : TyVar) : Prop :=
  Lexeme.Readable (.name v.name) ∧ Ty.isWord v.name = false

instance (v : TyVar) : Decidable v.Writable :=
  inferInstanceAs (Decidable (Lexeme.Readable (.name v.name) ∧ Ty.isWord v.name = false))

theorem Supply.writable_of_upcoming {g : Supply} {v : TyVar} (hg : g.stem = "T")
    (hv : v ∈ g.upcoming) : v.Writable := by
  obtain ⟨i, rfl⟩ := hv
  obtain ⟨hscanned, hplain, hword⟩ := isScanned_numbered (g.count + i + 1)
  rw [← hg] at hscanned hplain hword
  exact ⟨⟨hscanned, hplain⟩, hword⟩

theorem Ty.text_forgetIds (t : Ty) : t.forgetIds.text = t.text := by
  induction t with
  | base b => rfl
  | var v => rfl
  | pair l r hl hr => simp [text, hl, hr]
  | proc ps r hps hr =>
    have htexts : texts (ps.map forgetIds) = texts ps := by
      rw [texts_eq_map, texts_eq_map, List.map_map]
      exact List.map_congr_left hps
    simp [text, htexts, hr]

/-- A type is written alike in all stores that bind none of its variables. -/
theorem Store.text_of_unbound {t : Ty} (hs : s.Acyclic)
    (ht : ∀ v ∈ t.vars, s.contents? v = none) :
    s.text t = t.text := by
  rw [text, resolve_of_unbound hs ht]

namespace Exp

/-- Types that are written alike may stand for each other. -/
theorem text_mapTy {f : Ty → Ty} (h : ∀ t ∈ e.tys, s'.text (f t) = s.text t) :
    (e.mapTy f).text s' = e.text s := by
  have hdecl : ∀ d : Decl, s'.text (f d.ty) = s.text d.ty →
      s'.declText (d.mapTy f) = s.declText d := by
    intro d hd
    rw [Store.declText, Store.declText, Decl.ty_mapTy, Decl.name_mapTy, hd]
  have hall : ∀ es : List Exp, (∀ e ∈ es, (e.mapTy f).text s' = e.text s) →
      texts s' (mapTyAll f es) = texts s es := by
    intro es hes
    rw [texts_eq_map, texts_eq_map, mapTyAll_eq_map, List.map_map]
    exact List.map_congr_left hes
  have hbound : ∀ bs : List (Decl × Exp), (∀ b ∈ bs, s'.text (f b.1.ty) = s.text b.1.ty) →
      (∀ b ∈ bs, (b.2.mapTy f).text s' = b.2.text s) →
      bindingTexts s' (mapTyBound f bs) = bindingTexts s bs := by
    intro bs hds hbs
    rw [bindingTexts_eq_map, bindingTexts_eq_map, mapTyBound_eq_map, List.map_map]
    refine List.map_congr_left fun b hb => ?_
    simp only [Function.comp_apply, hdecl b.1 (hds b hb), hbs b hb]
  induction e with
  | const a => rfl
  | prim op => rfl
  | var x => rfl
  | ite c t e hc ht he =>
    simp only [tys, List.forall_mem_append] at h
    simp [mapTy, text, hc h.1, ht h.2.1, he h.2.2]
  | lambda ps r body hbody =>
    simp only [tys, List.forall_mem_append, List.forall_mem_map, List.forall_mem_cons,
      forall_tysAll] at h
    obtain ⟨hps, hr, hes⟩ := h
    have hps : ps.map (s'.declText ∘ Decl.mapTy f) = ps.map s.declText :=
      List.map_congr_left fun d hd => hdecl d (hps d hd)
    simp [mapTy, text, hps, hr, hall body fun e he => hbody e he (hes e he)]
  | app f' es hf hes =>
    simp only [tys, List.forall_mem_append, forall_tysAll] at h
    simp [mapTy, text, hf h.1, hall es fun e he => hes e he (h.2 e he)]
  | letIn bs body hbs hbody =>
    simp only [tys, List.forall_mem_append, forall_tysAll, forall_tysBound] at h
    have hbs := hbound bs (fun b hb => (h.1 b hb).1) fun b hb => hbs b hb (h.1 b hb).2
    simp [mapTy, text, hbs, hall body fun e he => hbody e he (h.2 e he)]
  | letrec bs body hbs hbody =>
    simp only [tys, List.forall_mem_append, forall_tysAll, forall_tysBound] at h
    have hbs := hbound bs (fun b hb => (h.1 b hb).1) fun b hb => hbs b hb (h.1 b hb).2
    simp [mapTy, text, hbs, hall body fun e he => hbody e he (h.2 e he)]
  | assign x e he => simp [mapTy, text, he h]
  | quote v => rfl
  | define d e he =>
    simp only [tys, List.forall_mem_cons] at h
    simp [mapTy, text, hdecl d h.1, he h.2]
  | program es hes =>
    simp only [tys, forall_tysAll] at h
    simp [mapTy, text, hall es fun e he => hes e he (h e he)]

namespace Kind

/-- Reads a text that holds one of a kind. -/
def read : Kind → String → ParseM Exp
  | .expression => Exp.read
  | .form => readForm
  | .program => readProgram

theorem read_eq (k : Kind) (source : String) :
    k.read source = datumOf source >>= k.ofDatum := by
  cases k <;> rfl

theorem parses (k : Kind) (source : String) : Parses (k.read source) := by
  cases k with
  | expression => exact parses_read source
  | form => exact parses_readForm source
  | program => exact parses_readProgram source

theorem gives (k : Kind) {d : Datum} (h : d.Scanned) :
    Gives (k.ofDatum d) (Exp.Formed Lexeme.Scanned k) := by
  cases k with
  | expression => exact ReadLaw.gives.reads (.exp d) h
  | form => exact ReadLaw.gives.reads (.form d) h
  | program => exact ReadLaw.gives.reads (.program d) h

end Kind

/-- Text can be read as the expression, or as forms of which it is one. Declarations without a
type get the usual variables. -/
inductive Parsed : Kind → Exp → Prop
  | read {k : Kind} {source : String} {g m : Supply} {e : Exp} :
    g.stem = "T" → k.read source g = .ok e m → Parsed k e
  | form {source : String} {g m : Supply} {es : List Exp} {e : Exp} :
    g.stem = "T" → readTopLevel source g = .ok es m → e ∈ es → Parsed .form e

theorem Parsed.formed (h : Parsed k e) : e.Formed Lexeme.Scanned k := by
  cases h with
  | read hg he =>
    rw [Kind.read_eq] at he
    exact (gives_datumOf (fun _ hd => k.gives hd) _ _ _ _ hg he).2
  | form hg hes he => exact (gives_readTopLevel _ _ _ _ hg hes).2 _ he

/-- What is read, from one supply to another, when an expression is written as it stands in a
store. Its types are the resolved ones, with a new variable of the same name at each place of
an unbound one. No numbered variable is taken. It is written as the same text again. -/
structure Restored (s : Store) (e : Exp) (g : Supply) (e' : Exp) (g' : Supply) : Prop where
  resolved : e'.mapTy Ty.forgetIds = (e.mapTy s.resolve).mapTy Ty.forgetIds
  nodup : (vars e').Nodup
  fresh : ∀ v ∈ vars e', g.next ≤ v.id ∧ v.id < g'.next
  stem : g'.stem = g.stem
  count : g'.count = g.count
  text : ∀ s' : Store, s'.Acyclic → (∀ v ∈ vars e', s'.contents? v = none) →
    e'.text s' = e.text s

theorem text_of_resolved {e' : Exp}
    (h : e'.mapTy Ty.forgetIds = (e.mapTy s.resolve).mapTy Ty.forgetIds) (hs' : s'.Acyclic)
    (hvars : ∀ v ∈ vars e', s'.contents? v = none) : e'.text s' = e.text s := by
  have hplain : ∀ t : Ty, Store.text {} t = t.text :=
    fun t => Store.text_of_unbound Store.acyclic_empty fun _ _ => rfl
  calc e'.text s'
      = (e'.mapTy Ty.forgetIds).text {} := (text_mapTy fun t ht => by
          rw [hplain, Ty.text_forgetIds, Store.text_of_unbound hs' fun v hv =>
            hvars v (List.mem_flatMap.mpr ⟨t, ht, hv⟩)]).symm
    _ = ((e.mapTy s.resolve).mapTy Ty.forgetIds).text {} := by rw [h]
    _ = (e.mapTy s.resolve).text {} := text_mapTy fun t _ => by
          rw [hplain, hplain, Ty.text_forgetIds]
    _ = e.text s := text_mapTy fun t _ => hplain (s.resolve t)

/-- Well-formed syntax is read back from its written form if the names in its types are not
lost. -/
theorem Formed.restored
    (h : e.Formed Lexeme.Scanned k) (hplain : ∀ l ∈ e.leaves, l.isPlain = true)
    (htys : ∀ t ∈ e.tys, ∀ v ∈ (s.resolve t).vars, v.Writable) (g : Supply) :
    ∃ e' g', k.read (e.text s) g = .ok e' g' ∧ Restored s e g e' g' := by
  have hformed : (e.mapTy s.resolve).Formed Lexeme.Readable k := h.mapTy hplain htys
  have hdatum : Datum.read (e.text s) = .ok (e.mapTy s.resolve).datum := by
    rw [← h.write_datum s]
    exact Datum.read_write hformed.readable
  obtain ⟨e', g', he', hstem, hcount, hresolved⟩ := rereads hformed g
  have hread : k.read (e.text s) g = .ok e' g' := by
    rw [Kind.read_eq, datumOf, hdatum]
    exact he'
  obtain ⟨vs, htaken, hperm⟩ := (k.parses _).taken hread
  exact ⟨e', g', hread,
    { resolved := hresolved
      nodup := hperm.nodup_iff.mp htaken.nodup
      fresh := fun v hv => htaken.id_of_mem (hperm.mem_iff.mpr hv)
      stem := hstem
      count := hcount
      text := fun _ hs' hvars => text_of_resolved hresolved hs' hvars }⟩

end Exp

/-- On the way through a check, the types of an expression mention only what could be come to
before it and what it has taken. -/
theorem mem_footprint_of_resolve {t : Ty} {v : TyVar} (hst : st.Ahead)
    (htys : ∀ t ∈ e.tys ++ env.tys, st.supply.Covers t) (hend : m ∈ e.ends env st)
    (hs : st.store.bindings <:+ s.bindings) (hs' : s.bindings <:+ m.store.bindings)
    (ht : t ∈ e.tys) (hv : v ∈ (s.resolve t).vars) :
    v ∈ st.footprint env e ∨ v ∈ st.supply.upcoming := by
  have hgiven := given_footprint hst (fun t ht => htys t (List.mem_append_left _ ht))
    fun x _ t ht => htys t (List.mem_append_right _ (Env.mem_tys ht))
  have hlogged := Exp.logged_ends hgiven hend
  have hext : s.ExtendedBy m.store := (hlogged.grown.between hs hs').extends
  have hreach := ((Store.mem_vars_resolve (hext.acyclic hlogged.confined.acyclic)).mp hv).1
  have hwithin := hlogged.within (hgiven.tys t ht)
  exact ((hlogged.confined.closed.earlier hext).mem_of_reaches hwithin hreach).1

/-- What has been parsed is read back from its written form, in every store from the start of a
check to its end. -/
theorem parsed_reads_back (he : Exp.Parsed k e) (hplain : ∀ l ∈ e.leaves, l.isPlain = true)
    (hst : st.Ahead) (hstem : st.supply.stem = "T")
    (htys : ∀ t ∈ e.tys ++ env.tys, st.supply.Covers t)
    (hnames : ∀ v ∈ st.footprint env e, v ∈ vars e ∨ v.Writable) (hend : m ∈ e.ends env st)
    (hs : st.store.bindings <:+ s.bindings) (hs' : s.bindings <:+ m.store.bindings)
      (g : Supply) :
    ∃ e' g', k.read (e.text s) g = .ok e' g' ∧ Exp.Restored s e g e' g' := by
  refine he.formed.restored hplain (fun t ht v hv => ?_) g
  rcases mem_footprint_of_resolve hst htys hend hs hs' ht hv with hfoot | hnew
  · rcases hnames v hfoot with hown | hwritable
    · obtain ⟨u, hu, hv⟩ := List.mem_flatMap.mp hown
      exact he.formed.formed_tys hplain u hu v hv
    · exact hwritable
  · exact Supply.writable_of_upcoming hstem hnew

/-- By the time that this check fails, both parameters have got the type that the environment
says. When they are read back, each has a variable of its own again. -/
theorem parsed_reads_back_failed :
    let env : Env := ⟨[[⟨"f", .proc [.var ⟨0, "A"⟩] (.base .boolean)⟩]]⟩
    ∃ e g, Exp.read "(lambda (x z) (if (f x) (f z) 1))" { next := 1 } = .ok e g ∧
      ∃ c m, e.typeOf env { supply := g } = .error c m ∧
        e.text {} = "(lambda ((x : T_1) (z : T_2)) : T_3 (if (f x) (f z) 1))" ∧
        e.text m.store = "(lambda ((x : A) (z : A)) : T_3 (if (f x) (f z) 1))" ∧
        ∀ s : Store, s.bindings <:+ m.store.bindings →
          ∃ e' g', Exp.read (e.text s) m.supply = .ok e' g' ∧ e.Restored s m.supply e' g' := by
  intro env
  obtain ⟨e, g, he, hfail⟩ :=
    exists_ok (r := Exp.read "(lambda (x z) (if (f x) (f z) 1))" { next := 1 })
    (P := fun e g => failsWith (fun _ m =>
        g.stem == "T" && e.leaves.all Lexeme.isPlain &&
        (e.tys ++ env.tys).all (fun t => decide (g.Covers t)) &&
        e.text {} == "(lambda ((x : T_1) (z : T_2)) : T_3 (if (f x) (f z) 1))" &&
        e.text m.store == "(lambda ((x : A) (z : A)) : T_3 (if (f x) (f z) 1))")
      (e.typeOf env { supply := g })) (by decide +kernel)
  obtain ⟨c, m, hcheck, hfacts⟩ := exists_error hfail
  simp only [Bool.and_eq_true, beq_iff_eq, List.all_eq_true, decide_eq_true_eq] at hfacts
  obtain ⟨⟨⟨⟨hstem, hplain⟩, htys⟩, hbefore⟩, hafter⟩ := hfacts
  refine ⟨e, g, he, c, m, hcheck, hbefore, hafter, fun s hs => ?_⟩
  have hend : m ∈ e.ends env { supply := g } := by simp [Exp.ends, hcheck, endState]
  have hnames : ∀ v ∈ footprint { supply := g } env e, v ∈ vars e ∨ v.Writable := by
    have hreach : ∀ {t : Ty} {v : TyVar}, Store.Reaches {} t v → v ∈ t.vars := fun h =>
      Store.ClosedOn.mem_of_reaches (fun _ _ _ hw => by cases hw) (fun _ hv => hv) h
    rintro v (⟨t, ht, hv⟩ | ⟨x, _, t, ht, hv⟩)
    · exact .inl (List.mem_flatMap.mpr ⟨t, ht, hreach hv⟩)
    · have hdeclared := Env.mem_tys ht
      obtain rfl : t = .proc [.var ⟨0, "A"⟩] (.base .boolean) := by
        simpa [Env.tys, env] using hdeclared
      obtain rfl : v = ⟨0, "A"⟩ := by simpa using hreach hv
      exact .inr (by decide)
  have hparsed : Exp.Parsed .expression e := .read (k := .expression) rfl he
  exact parsed_reads_back hparsed hplain (ahead_initial g _) hstem htys hnames hend
    List.nil_suffix hs _

end TypedL5
