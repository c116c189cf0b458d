import TypedL5.Proofs.Parsed
import TypedL5.Proofs.WellFormed

/-! What parsing gives is well-formed, and made of names and constants that text can hold. -/
namespace TypedL5

variable {p : Lexeme → Prop}

/-- Whatever is read from a supply with the usual stem has a property. -/
def Gives {α : Type} (x : ParseM α) (Q : α → Prop) : Prop :=
  ∀ g a m, g.stem = "T" → x g = .ok a m → m.stem = "T" ∧ Q a

namespace Gives

variable {α β : Type} {x : ParseM α} {P : α → Prop} {Q : β → Prop}

theorem pure {a : α} (h : P a) : Gives (Pure.pure a) P := by
  rintro g _ _ hg ⟨⟩
  exact ⟨hg, h⟩

theorem throw (e : ParseError) : Gives (throw e : ParseM α) P := by
  rintro _ _ _ _ ⟨⟩

theorem bind {f : α → ParseM β} (hx : Gives x P) (hf : ∀ a, P a → Gives (f a) Q) :
    Gives (x >>= f) Q := by
  intro g b m hg h
  obtain ⟨a, n, ha, hb⟩ := bind_eq_ok_iff.mp h
  obtain ⟨hn, hP⟩ := hx g a n hg ha
  exact hf a hP n b m hn hb

end Gives

namespace Supply

/-- Numbered names can be told from words and numbers. -/
theorem isScanned_numbered (n : Nat) :
    Lexeme.isScanned (.name ("T" ++ "_" ++ toString n)) = true ∧
      Lexeme.isPlain (.name ("T" ++ "_" ++ toString n)) = true ∧
      Ty.isWord ("T" ++ "_" ++ toString n) = false := by
  have hlist : ("T" ++ "_" ++ toString n).toList = 'T' :: '_' :: Nat.toDigits 10 n := by
    simp [String.toList_append, Nat.toString_eq_repr, Nat.repr_eq_ofList_toDigits]
  generalize "T" ++ "_" ++ toString n = name at hlist
  have hne : ∀ w : String, w.toList.head? ≠ some 'T' → w ≠ name := by
    rintro w hw rfl
    rw [hlist] at hw
    exact hw rfl
  refine ⟨?_, ?_, ?_⟩
  · have hdigits : ∀ c ∈ Nat.toDigits 10 n, Scan.isLetter c = true :=
      fun c hc => Scan.isLetter_of_isDigit (Numeral.isDigit_of_mem hc)
    have hT : Scan.isLetter 'T' = true ∧ Scan.isLetter '_' = true := by decide
    simpa [Lexeme.isScanned, Scan.isSymbol, hlist, hT] using hdigits
  · have hnumber : Numeral.ofChars? name.toList = none := by
      rw [hlist]
      rfl
    have hdot : name ≠ "." := (hne "." (by decide)).symm
    simp [Lexeme.isPlain, hnumber, hdot]
  · have hwords : ∀ w ∈ BaseTy.all.map BaseTy.name ++ Ty.typeWords, w ≠ name :=
      fun w hw => hne w ((by decide : ∀ w ∈ BaseTy.all.map BaseTy.name ++ Ty.typeWords,
        w.toList.head? ≠ some 'T') w hw)
    rw [List.forall_mem_append, List.forall_mem_map] at hwords
    have hbase : BaseTy.ofName? name = none := by
      rw [BaseTy.ofName?, List.find?_eq_none]
      intro b hb
      simpa using hwords.1 b hb
    have hword : name ∉ Ty.typeWords := fun hmem => hwords.2 name hmem rfl
    simp [Ty.isWord, hbase, hword]

end Supply

theorem gives_numbered : Gives ParseM.numbered (Ty.Formed Lexeme.Scanned) := by
  rintro g _ _ hg ⟨⟩
  refine ⟨hg, fun v hv => ?_⟩
  obtain rfl : v = g.numbered.1 := List.mem_singleton.mp hv
  obtain ⟨hscanned, _, hword⟩ := Supply.isScanned_numbered (g.count + 1)
  simp only [Supply.numbered, hg]
  exact ⟨hscanned, hword⟩

namespace Ty

/-- A name that no type is written with is a variable that can be written. -/
theorem gives_named {name : String} (hname : Scan.isSymbol name = true)
    (hword : isWord name = false) :
    Gives (do return .var (← modifyGet (Supply.named · name)) : ParseM Ty)
      (Formed Lexeme.Scanned) := by
  rintro g _ _ hg ⟨⟩
  refine ⟨hg, fun v hv => ?_⟩
  obtain rfl : v = (g.named name).1 := List.mem_singleton.mp hv
  exact ⟨hname, hword⟩

/-- What a piece of source must be made of. -/
def Source.Scanned {α : Type} : Source α → Prop
  | .ty d => d.Scanned
  | .params ds | .last ds => ∀ d ∈ ds, d.Scanned

/-- What is read from a piece of source is well-formed. -/
def Source.Formed {α : Type} : Source α → α → Prop
  | .ty _, t => t.Formed Lexeme.Scanned
  | .params _, ts => ∀ t ∈ ts, t.Formed Lexeme.Scanned
  | .last _, t => t.Formed Lexeme.Scanned

def ReadLaw.gives : ReadLaw where
  Holds s x := s.Scanned → Gives x s.Formed
  fault _ _ _ := .throw _
  base _ _ := .pure (formed_base _)
  var hb hw hd := gives_named (Datum.made_sym.mp hd) (by simpa [isWord, hb] using hw)
  pair hl hr hd := by
    have hitems := Datum.made_list.mp hd
    simp only [List.forall_mem_cons] at hitems
    exact (hl hitems.2.1).bind fun l hl => (hr hitems.2.2.1).bind fun r hr =>
      .pure (formed_pair.mpr ⟨hl, hr⟩)
  thunk hr hd := (hr (Datum.made_list.mp hd)).bind fun r hr =>
    .pure (formed_proc.mpr ⟨by simp, hr⟩)
  proc hr hps hd := by
    have hitems := Datum.made_list.mp hd
    exact (hr hitems).bind fun r hr => (hps hitems).bind fun ps hps =>
      .pure (formed_proc.mpr ⟨hps, hr⟩)
  unseparated _ hr hd := (hr (Datum.made_list.mp hd)).bind fun _ _ => .throw _
  params_nil _ _ := .pure (by simp [Source.Formed])
  params_cons ht hts h := by
    obtain ⟨hd, hds⟩ := List.forall_mem_cons.mp h
    refine (ht hd).bind fun t ht => (hts (List.forall_mem_cons.mp hds).2).bind
      fun ts hts => .pure ?_
    exact List.forall_mem_cons.mpr ⟨ht, hts⟩
  last_one ht h := ht (h _ (by simp))
  last_cons ht h := ht (List.forall_mem_cons.mp h).2

theorem gives {d : Datum} (hd : d.Scanned) : Gives (ofDatum d) (Formed Lexeme.Scanned) :=
  ReadLaw.gives.reads (.ty d) hd

/-- Types read from an annotation are made of symbols that the scanner accepts. -/
theorem gives_ofWritten {d : Datum} (hd : d.Scanned) :
    Gives (ofWritten d) (Formed Lexeme.Scanned) := by
  unfold ofWritten
  split
  · rename_i source
    unfold read
    split
    · rename_i d hread
      exact gives (Datum.scanned_of_read hread)
    · exact .throw _
  · exact gives hd

end Ty

namespace Quoted

theorem forall_leaves_ofItems {last : Quoted} {ds : List Datum}
    (hlast : ∀ l ∈ last.leaves, p l) (hds : ∀ d ∈ ds, ∀ l ∈ (ofDatum d).leaves, p l) :
    ∀ l ∈ (ofItems last ds).leaves, p l := by
  induction ds with
  | nil => exact hlast
  | cons d ds ih =>
    obtain ⟨hd, hds⟩ := List.forall_mem_cons.mp hds
    rw [ofItems, leaves, List.forall_mem_append]
    exact ⟨hd, ih hds⟩

theorem forall_leaves {d : Datum} (h : d.Made p) : ∀ l ∈ (ofDatum d).leaves, p l := by
  induction d with
  | atom a => simpa [ofDatum, leaves] using Datum.made_atom.mp h
  | sym x => simpa [ofDatum, leaves] using Datum.made_sym.mp h
  | list items ih =>
    have hitems := Datum.made_list.mp h
    exact forall_leaves_ofItems (by simp [leaves]) fun d hd => ih d hd (hitems d hd)
  | dotted items tail ihs ih =>
    obtain ⟨_, hitems, htail⟩ := Datum.made_dotted.mp h
    exact forall_leaves_ofItems (ih htail) fun d hd => ihs d hd (hitems d hd)

end Quoted

namespace Exp

/-- As many expressions are read as there are data. -/
abbrev FormedAll (ds : List Datum) (es : List Exp) : Prop :=
  es.length = ds.length ∧ ∀ e ∈ es, e.Formed Lexeme.Scanned .expression

theorem FormedAll.ne_nil {ds : List Datum} {es : List Exp} (h : FormedAll ds es)
    (hds : ¬ ds.isEmpty = true) : es ≠ [] := by
  rintro rfl
  have hlen : ds.length = 0 := h.1.symm
  simp_all

abbrev FormedBindings (bs : List (Decl × Exp)) : Prop :=
  (∀ b ∈ bs, b.1.Formed Lexeme.Scanned) ∧ ∀ b ∈ bs, b.2.Formed Lexeme.Scanned .expression

abbrev FormedResult (r : Ty × List Exp) : Prop :=
  r.1.Formed Lexeme.Scanned ∧ r.2 ≠ [] ∧ ∀ e ∈ r.2, e.Formed Lexeme.Scanned .expression

end Exp

namespace Source

/-- What a piece of source must be made of. -/
def Scanned {α : Type} : Source α → Prop
  | .decl d | .exp d | .form d | .program d | .entry d => d.Scanned
  | .decls ds | .exps ds | .keyword _ _ ds | .bindings _ ds | .body _ ds | .forms ds
      | .entries ds =>
    ∀ d ∈ ds, d.Scanned

/-- What is read from a piece of source is well-formed. -/
def Formed {α : Type} : Source α → α → Prop
  | .decl _, d => d.Formed Lexeme.Scanned
  | .decls _, ds => ∀ d ∈ ds, d.Formed Lexeme.Scanned
  | .exp _, e => e.Formed Lexeme.Scanned .expression
  | .exps ds, es => Exp.FormedAll ds es
  | .keyword _ _ _, e => e.Formed Lexeme.Scanned .expression
  | .bindings _ _, bs => Exp.FormedBindings bs
  | .body _ _, r => Exp.FormedResult r
  | .form _, e => e.Formed Lexeme.Scanned .form
  | .forms _, es => ∀ e ∈ es, e.Formed Lexeme.Scanned .form
  | .program _, e => e.Formed Lexeme.Scanned .program
  | .entry _, es => ∀ e ∈ es, e.Formed Lexeme.Scanned .form
  | .entries _, es => ∀ e ∈ es, e.Formed Lexeme.Scanned .form

end Source

/-- Well-formed parts make a well-formed whole. -/
def ReadLaw.gives : ReadLaw where
  Holds s x := s.Scanned → Gives x s.Formed
  fault _ _ _ := .throw _
  bare hx hd := gives_numbered.bind fun t ht => .pure ⟨Datum.made_sym.mp hd, hx, ht⟩
  typed hx _ hd := by
    have hitems := Datum.made_list.mp hd
    simp only [List.forall_mem_cons] at hitems
    exact (Ty.gives_ofWritten hitems.2.2.1).bind fun t ht =>
      .pure ⟨Datum.made_sym.mp hitems.1, hx, ht⟩
  decls_nil _ := .pure (by simp [Source.Formed])
  decls_cons hx hy h := by
    obtain ⟨hd, hds⟩ := List.forall_mem_cons.mp h
    refine (hx hd).bind fun d hd => (hy hds).bind fun ds hds => .pure ?_
    exact List.forall_mem_cons.mpr ⟨hd, hds⟩
  const _ h := .pure (.const (Datum.made_atom.mp h))
  prim hprim _ := .pure (.prim hprim)
  var hprim hkey h := .pure (.var (Datum.made_sym.mp h) hprim hkey)
  keyword _ hx h := hx (List.forall_mem_cons.mp (Datum.made_list.mp h)).2
  app _ hx hy h := by
    obtain ⟨hhead, hargs⟩ := List.forall_mem_cons.mp (Datum.made_list.mp h)
    exact (hx hhead).bind fun f hf => (hy hargs).bind fun es hes => .pure (.app hf hes.2)
  exps_nil _ := .pure ⟨rfl, by simp⟩
  exps_cons hx hy h := by
    obtain ⟨hd, hds⟩ := List.forall_mem_cons.mp h
    refine (hx hd).bind fun e he => (hy hds).bind fun es hes => .pure ⟨?_, ?_⟩
    · rw [List.length_cons, List.length_cons, hes.1]
    · exact List.forall_mem_cons.mpr ⟨he, hes.2⟩
  ite hx hy hz h := by
    simp only [Source.Scanned, List.forall_mem_cons] at h
    refine (hx h.1).bind fun c hc => (hy h.2.1).bind fun t ht => ?_
    exact (hz h.2.2.1).bind fun e he => .pure (.ite hc ht he)
  lambda hx hy h := by
    obtain ⟨hparams, hrest⟩ := List.forall_mem_cons.mp h
    refine (hx (Datum.made_list.mp hparams)).bind fun ps hps =>
      (hy hrest).bind fun r hr => .pure ?_
    exact .lambda hps hr.1 hr.2.1 hr.2.2
  letIn hne hx hy h := by
    obtain ⟨hbs, hbody⟩ := List.forall_mem_cons.mp h
    refine (hx (Datum.made_list.mp hbs)).bind fun bs hbs =>
      (hy hbody).bind fun es hes => .pure ?_
    exact .letIn hbs.1 hbs.2 (hes.ne_nil hne) hes.2
  letrec hne hx hy h := by
    obtain ⟨hbs, hbody⟩ := List.forall_mem_cons.mp h
    refine (hx (Datum.made_list.mp hbs)).bind fun bs hbs =>
      (hy hbody).bind fun es hes => .pure ?_
    exact .letrec hbs.1 hbs.2 (hes.ne_nil hne) hes.2
  assign hx h := by
    simp only [Source.Scanned, List.forall_mem_cons] at h
    exact (hx h.2.1).bind fun e he => .pure (.assign (Datum.made_sym.mp h.1) he)
  quote _ d h := .pure (.quote (Quoted.forall_leaves (h d (by simp))))
  bindings_nil _ _ := .pure ⟨by simp, by simp⟩
  bindings_cons hx hy hz h := by
    obtain ⟨hb, hds⟩ := List.forall_mem_cons.mp h
    have hb := Datum.made_list.mp hb
    simp only [List.forall_mem_cons] at hb
    refine (hx hb.1).bind fun d hd => (hy hb.2.1).bind fun e he => (hz hds).bind fun bs hbs =>
      .pure ⟨?_, ?_⟩
    · exact List.forall_mem_cons.mpr ⟨hd, hbs.1⟩
    · exact List.forall_mem_cons.mpr ⟨he, hbs.2⟩
  bodiless _ _ h := by
    simp only [Source.Scanned, List.forall_mem_cons] at h
    exact (Ty.gives_ofWritten h.2.1).bind fun _ _ => .throw _
  annotated _ hne hx h := by
    simp only [Source.Scanned, List.forall_mem_cons] at h
    refine (Ty.gives_ofWritten h.2.1).bind fun r hr => (hx h.2.2).bind fun es hes => .pure ?_
    exact ⟨hr, hes.ne_nil hne, hes.2⟩
  plain _ hx hy h := by
    obtain ⟨hd, hds⟩ := List.forall_mem_cons.mp h
    refine gives_numbered.bind fun r hr => (hx hd).bind fun e he =>
      (hy hds).bind fun es hes => .pure ?_
    exact ⟨hr, by simp, List.forall_mem_cons.mpr ⟨he, hes.2⟩⟩
  exp hx h g e m hg he := by
    obtain ⟨hm, he⟩ := hx h g e m hg he
    exact ⟨hm, .form he⟩
  define _ hx hy h := by
    have hitems := Datum.made_list.mp h
    simp only [List.forall_mem_cons] at hitems
    exact (hx hitems.2.1).bind fun d hd => (hy hitems.2.2.1).bind fun e he =>
      .pure (.define hd he)
  forms_nil _ := .pure (by simp [Source.Formed])
  forms_cons hx hy h := by
    obtain ⟨hd, hds⟩ := List.forall_mem_cons.mp h
    refine (hx hd).bind fun e he => (hy hds).bind fun es hes => .pure ?_
    exact List.forall_mem_cons.mpr ⟨he, hes⟩
  program _ hx h := by
    obtain ⟨_, hforms⟩ := List.forall_mem_cons.mp (Datum.made_list.mp h)
    exact (hx hforms).bind fun es hes => .pure (.program hes)
  entry_form hx h := (hx h).bind fun e he => .pure (List.forall_mem_singleton.mpr he)
  entry_program _ hx h := hx (List.forall_mem_cons.mp (Datum.made_list.mp h)).2
  entries_nil _ := .pure (by simp [Source.Formed])
  entries_cons hx hy h := by
    obtain ⟨hd, hds⟩ := List.forall_mem_cons.mp h
    refine (hx hd).bind fun es hes => (hy hds).bind fun es' hes' => .pure ?_
    exact List.forall_mem_append.mpr ⟨hes, hes'⟩

namespace Exp

theorem gives_datumOf {β : Type} {f : Datum → ParseM β} {Q : β → Prop}
    (hf : ∀ d : Datum, d.Scanned → Gives (f d) Q) (source : String) :
    Gives (datumOf source >>= f) Q := by
  unfold datumOf
  split
  · rename_i d hd
    exact hf d (Datum.scanned_of_read hd)
  · exact .throw _

theorem gives_readTopLevel (source : String) :
    Gives (readTopLevel source) fun es => ∀ e ∈ es, e.Formed Lexeme.Scanned .form := by
  unfold readTopLevel
  split
  · rename_i ds hds
    exact ReadLaw.gives.reads (.entries ds) (Datum.scanned_of_readAll hds)
  · exact .throw _

end Exp

end TypedL5
