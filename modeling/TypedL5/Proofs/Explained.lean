import TypedL5.Check.Source
import TypedL5.Proofs.Accepted
import TypedL5.Proofs.Origin

/-!
What the kind of a failure says about a text. What has been read is well-formed, so that a part
of it whose own rule fails can be of few shapes.
-/
namespace TypedL5

namespace Exp

mutual

/-- The expressions within an expression, and the expression. -/
@[simp] def subexps : Exp → List Exp
  | .const a => [.const a]
  | .prim op => [.prim op]
  | .var x => [.var x]
  | .ite c t e => .ite c t e :: (c.subexps ++ (t.subexps ++ e.subexps))
  | .lambda ps r body => .lambda ps r body :: subexpsAll body
  | .app f es => .app f es :: (f.subexps ++ subexpsAll es)
  | .letIn bs body => .letIn bs body :: (subexpsBound bs ++ subexpsAll body)
  | .letrec bs body => .letrec bs body :: (subexpsBound bs ++ subexpsAll body)
  | .assign x e => .assign x e :: e.subexps
  | .quote v => [.quote v]
  | .define d e => .define d e :: e.subexps
  | .program es => .program es :: subexpsAll es

def subexpsAll : List Exp → List Exp
  | [] => []
  | e :: es => e.subexps ++ subexpsAll es

def subexpsBound : List (Decl × Exp) → List Exp
  | [] => []
  | (_, e) :: bs => e.subexps ++ subexpsBound bs

end

variable {env : Env} {q : Env × Exp} {es : List Exp} {bs : List (Decl × Exp)} {e : Exp}

theorem self_mem_subexps (e : Exp) : e ∈ e.subexps := by
  cases e <;> simp [subexps]

theorem subexpsAll_eq_flatMap (es : List Exp) : subexpsAll es = es.flatMap subexps := by
  induction es with
  | nil => rfl
  | cons e es ih => rw [subexpsAll, ih, List.flatMap_cons]

theorem subexpsBound_eq_flatMap (bs : List (Decl × Exp)) :
    subexpsBound bs = bs.flatMap (·.2.subexps) := by
  induction bs with
  | nil => rfl
  | cons b bs ih => rw [subexpsBound, ih, List.flatMap_cons]

theorem subexps_subset_all (he : e ∈ es) : e.subexps ⊆ subexpsAll es := by
  rw [subexpsAll_eq_flatMap]
  exact fun x hx => List.mem_flatMap.mpr ⟨e, he, hx⟩

theorem subexps_subset_bound {b : Decl × Exp} (hb : b ∈ bs) :
    b.2.subexps ⊆ subexpsBound bs := by
  rw [subexpsBound_eq_flatMap]
  exact fun x hx => List.mem_flatMap.mpr ⟨b, hb, hx⟩

theorem subexps_of_formParts (hq : q ∈ formParts env es) : q.2.subexps ⊆ subexpsAll es := by
  fun_induction formParts env es with
  | case1 => cases hq
  | case2 env d e es ih =>
    rcases List.mem_cons.mp hq with rfl | hq
    · exact fun x hx => List.mem_append_left _ (List.mem_cons_of_mem _ hx)
    · exact fun x hx => List.mem_append_right _ (ih hq hx)
  | case3 env e es hd ih =>
    rcases List.mem_cons.mp hq with rfl | hq
    · exact List.subset_append_left _ _
    · exact fun x hx => List.mem_append_right _ (ih hq hx)

theorem subexps_of_procParts {b : Decl × Exp} (hq : q ∈ procParts env b) :
    q.2.subexps ⊆ b.2.subexps := by
  obtain ⟨d, e⟩ := b
  cases e with
  | lambda ps r body =>
    obtain ⟨e, he, rfl⟩ := List.mem_map.mp hq
    exact fun x hx => List.mem_cons_of_mem _ (subexps_subset_all he hx)
  | _ => cases hq

/-- What is checked for an expression stands in it. -/
theorem subexps_of_parts (hq : q ∈ e.parts env) : q.2.subexps ⊆ e.subexps := by
  cases e with
  | const | prim | var | assign | quote => cases hq
  | ite c t e =>
    simp only [parts, List.mem_cons, List.not_mem_nil, or_false] at hq
    intro x hx
    rcases hq with rfl | rfl | rfl <;> simp [subexps, hx]
  | lambda ps r body =>
    obtain ⟨e, he, rfl⟩ := List.mem_map.mp hq
    exact fun x hx => List.mem_cons_of_mem _ (subexps_subset_all he hx)
  | app f es =>
    refine List.Subset.trans ?_ (List.subset_cons_self _ _)
    rcases List.mem_cons.mp hq with rfl | hq
    · exact List.subset_append_left _ _
    · obtain ⟨e, he, rfl⟩ := List.mem_map.mp hq
      exact fun x hx => List.mem_append_right _ (subexps_subset_all he hx)
  | letIn bs body =>
    refine List.Subset.trans ?_ (List.subset_cons_self _ _)
    rcases List.mem_append.mp hq with hq | hq
    · obtain ⟨b, hb, rfl⟩ := List.mem_map.mp hq
      exact fun x hx => List.mem_append_left _ (subexps_subset_bound hb hx)
    · obtain ⟨e, he, rfl⟩ := List.mem_map.mp hq
      exact fun x hx => List.mem_append_right _ (subexps_subset_all he hx)
  | letrec bs body =>
    refine List.Subset.trans ?_ (List.subset_cons_self _ _)
    rcases List.mem_append.mp hq with hq | hq
    · obtain ⟨b, hb, hq⟩ := List.mem_flatMap.mp hq
      exact fun x hx =>
        List.mem_append_left _ (subexps_subset_bound hb (subexps_of_procParts hq hx))
    · obtain ⟨e, he, rfl⟩ := List.mem_map.mp hq
      exact fun x hx => List.mem_append_right _ (subexps_subset_all he hx)
  | define d e =>
    obtain rfl := List.mem_singleton.mp hq
    exact List.subset_cons_self _ _
  | program es => exact fun x hx => List.mem_cons_of_mem _ (subexps_of_formParts hq hx)

variable {p : Lexeme → Prop} {k : Kind}

theorem formed_of_procParts {b : Decl × Exp} (h : b.2.Formed p .expression)
    (hq : q ∈ procParts env b) :
    q.2.Formed p .expression := by
  obtain ⟨d, e⟩ := b
  cases e with
  | lambda ps r body =>
    obtain ⟨e, he, rfl⟩ := List.mem_map.mp hq
    cases h with
    | lambda _ _ _ hbody => exact hbody e he
  | _ => cases hq

/-- The value of a definition is an expression even where a form is expected. -/
theorem formed_of_formParts (h : ∀ e ∈ es, e.Formed p .form) (hq : q ∈ formParts env es) :
    q.2.Formed p .expression := by
  fun_induction formParts env es with
  | case1 => cases hq
  | case2 env d e es ih =>
    obtain ⟨he, hes⟩ := List.forall_mem_cons.mp h
    rcases List.mem_cons.mp hq with rfl | hq
    · cases he with
      | form he => cases he
      | define _ he => exact he
    · exact ih hes hq
  | case3 env e es hd ih =>
    obtain ⟨he, hes⟩ := List.forall_mem_cons.mp h
    rcases List.mem_cons.mp hq with rfl | hq
    · cases he with
      | form he => exact he
      | define => exact (hd _ _ rfl).elim
    · exact ih hes hq

/-- Only a program has definitions, and nothing has programs, among its parts. -/
theorem Formed.parts (h : e.Formed p k) (hq : q ∈ e.parts env) : q.2.Formed p .expression := by
  induction h with
  | const | prim | var | assign | quote => cases hq
  | ite hc ht he =>
    simp only [Exp.parts, List.mem_cons, List.not_mem_nil, or_false] at hq
    rcases hq with rfl | rfl | rfl
    · exact hc
    · exact ht
    · exact he
  | lambda _ _ _ hbody =>
    obtain ⟨e, he, rfl⟩ := List.mem_map.mp hq
    exact hbody e he
  | app hf hes =>
    rcases List.mem_cons.mp hq with rfl | hq
    · exact hf
    · obtain ⟨e, he, rfl⟩ := List.mem_map.mp hq
      exact hes e he
  | letIn _ hbs _ hbody =>
    rcases List.mem_append.mp hq with hq | hq
    · obtain ⟨b, hb, rfl⟩ := List.mem_map.mp hq
      exact hbs b hb
    · obtain ⟨e, he, rfl⟩ := List.mem_map.mp hq
      exact hbody e he
  | letrec _ hbs _ hbody =>
    rcases List.mem_append.mp hq with hq | hq
    · obtain ⟨b, hb, hq⟩ := List.mem_flatMap.mp hq
      exact formed_of_procParts (hbs b hb) hq
    · obtain ⟨e, he, rfl⟩ := List.mem_map.mp hq
      exact hbody e he
  | form _ ih => exact ih hq
  | define _ he =>
    obtain rfl := List.mem_singleton.mp hq
    exact he
  | program hes => exact formed_of_formParts hes hq

/-- What the parser accepts has bodies that are not empty. -/
theorem Formed.not_bodiless (h : e.Formed p k) : ¬ e.Bodiless := by
  intro hb
  induction h with
  | lambda _ _ hne => cases hb; exact hne rfl
  | letIn _ _ hne => cases hb; exact hne rfl
  | letrec _ hbs hne =>
    cases hb with
    | letrec => exact hne rfl
    | procedure hmem =>
      cases hbs _ hmem with
      | lambda _ _ hne => exact hne rfl
  | form _ ih => exact ih hb
  | _ => cases hb

/-- The parser makes primitives only of the names that have signatures. -/
theorem Formed.isPrimitive {op : String} (h : (Exp.prim op).Formed p k) :
    isPrimitive op = true := by
  cases h with
  | prim h => exact h
  | form h =>
    cases h with
    | prim h => exact h

/-- All operators have a type but one. -/
theorem eq_list_of_signature? {op : String} (h : isPrimitive op = true)
    (hop : Primitive.signature? op = none) :
    op = "list" := by
  have hall : primitiveNames.all (fun op => (Primitive.signature? op).isSome || op == "list") =
    true := by decide
  simpa [hop] using List.all_eq_true.mp hall op (List.contains_iff_mem.mp h)

end Exp

/-- The expression whose own rule fails stands in the whole and is well-formed. -/
theorem Origin.located {env : Env} {e : Exp} {c : Cause} {m : CheckState}
    (h : Origin env e c m) {p : Lexeme → Prop} {k : Exp.Kind} (he : e.Formed p k) :
    ∃ env' e' k', Thrown env' e' c m ∧ e' ∈ e.subexps ∧ e'.Formed p k' ∧
      (e' = e ∨ k' = .expression) := by
  induction h generalizing k with
  | own h => exact ⟨_, _, k, h, Exp.self_mem_subexps _, he, .inl rfl⟩
  | part hp _ ih =>
    obtain ⟨env', e', k', hthrown, hmem, hformed, hwhich⟩ := ih (he.parts hp)
    refine ⟨env', e', .expression, hthrown, Exp.subexps_of_parts hp hmem, ?_, .inr rfl⟩
    rcases hwhich with rfl | rfl
    · exact he.parts hp
    · exact hformed

/-- What the kind of a failure says about the expression or the program that was checked, with
types as they stand in the store at the end. -/
structure Explained (s : Store) (e : Exp) (f : Failure) : Prop where
  parsed : f.kind ≠ .parseError
  unbound : f.kind = .unboundVariable → ∃ x ∈ e.free, f.name? = some x
  unknownPrimitive : f.kind = .unknownPrimitive → .prim "list" ∈ e.subexps
  /-- An assignment is reported, and never a body without expressions. -/
  unsupported : f.kind = .unsupportedForm →
    ∃ x v, .assign x v ∈ e.subexps ∧ f.message = "Unsupported form: " ++
      (Exp.assign x v).text s
  emptyProgram : f.kind = .emptyProgram → ∃ es, e = .program es ∧ ∀ form ∈ es, form.Defines

theorem Clashing.explained {e e' : Exp} {c : Cause} {m : CheckState} (h : Clashing e' c m)
    (s : Store) :
    Explained s e (c.failure s) := by
  obtain ⟨k, rfl⟩ := h.eq_clash
  cases k <;> constructor <;> simp [Cause.failure, Failure.ofClash]

/-- The kinds of failures, each with its cause in the expression whose own rule fails. -/
theorem Origin.explained {e : Exp} {c : Cause} {m : CheckState} {p : Lexeme → Prop}
    {k : Exp.Kind} (h : Origin {} e c m) (he : e.Formed p k) (s : Store) :
    Explained s e (c.failure s) := by
  obtain ⟨env, e', k', hthrown, hmem, hformed, hwhich⟩ := h.located he
  cases hthrown with
  | unbound =>
    -- Where the name stands does not tell that it is free: that takes the environments on the
    -- way.
    have hx := (h.free rfl).1
    constructor <;> simp [Cause.failure, hx]
  | unknownPrimitive hop =>
    obtain rfl := Exp.eq_list_of_signature? hformed.isPrimitive hop
    constructor <;> simp [Cause.failure, hmem]
  | notProcedure | wrongArity | notLambda => constructor <;> simp [Cause.failure]
  | clash hclash => exact hclash.explained s
  | definition _ hclash => exact hclash.explained s
  | @unsupported x v =>
    refine ⟨?_, ?_, ?_, fun _ => ⟨x, v, hmem, rfl⟩, ?_⟩ <;> simp [Cause.failure]
  | emptyBody hbody => exact (hformed.not_bodiless hbody).elim
  | @emptyProgram es _ hes =>
    rcases hwhich with rfl | rfl
    · refine ⟨?_, ?_, ?_, ?_, fun _ => ⟨es, rfl, hes⟩⟩ <;> simp [Cause.failure]
    · cases hformed

/-- Without free names, assignments and `list`, few kinds of failure are left. -/
theorem Explained.kind_of_closed {s : Store} {e : Exp} {f : Failure}
    (h : Explained s e f) (hfree : e.free = []) (hassign : ∀ x v, .assign x v ∉ e.subexps)
    (hlist : .prim "list" ∉ e.subexps) :
    f.kind ∈ [.typeMismatch, .arityMismatch, .occursCheck, .emptyProgram] := by
  cases hk : f.kind with
  | parseError => exact (h.parsed hk).elim
  | unboundVariable =>
    obtain ⟨x, hx, _⟩ := h.unbound hk
    rw [hfree] at hx
    cases hx
  | unknownPrimitive => exact (hlist (h.unknownPrimitive hk)).elim
  | unsupportedForm =>
    obtain ⟨x, v, hmem, _⟩ := h.unsupported hk
    exact (hassign x v hmem).elim
  | _ => simp

namespace Checked

variable {e : Exp} {g : Supply} {trace : Trace} {checked : Checked} {f : Failure}

/-- The report on what has been read is that of the failed check. -/
theorem exists_failed {read : ParseM Exp} {typeOf : Exp → CheckM Ty}
    (hread : read {} = .ok e g) (h : ofRead read typeOf trace = .ok checked)
    (hf : checked.result = .error f) :
    ∃ c m, typeOf e { supply := g, trace := trace } = .error c m ∧ f = c.failure m.store := by
  rw [ofRead, hread] at h
  dsimp only at h
  cases hr : typeOf e { supply := g, trace := trace } with
  | ok t m =>
    rw [hr] at h
    cases h
    cases hf
  | error c m =>
    rw [hr] at h
    cases h
    cases hf
    exact ⟨c, m, rfl, rfl⟩

/-- A failure that is reported for an expression has an origin in it. -/
theorem exists_origin_ofExp {source : String} (hread : Exp.read source {} = .ok e g)
    (h : ofExp source trace = .ok checked) (hf : checked.result = .error f) :
    ∃ c m, e.typeOf {} { supply := g, trace := trace } = .error c m ∧ f = c.failure m.store ∧
      Origin {} e c m ∧ e.Formed Lexeme.Scanned .expression := by
  obtain ⟨c, m, hfail, rfl⟩ := exists_failed hread h hf
  exact ⟨c, m, hfail, rfl, RuleLaw.fails.exp {} e _ c m hfail,
    (Exp.gives_datumOf (fun d => ReadLaw.gives.reads (.exp d)) source {} e g rfl hread).2⟩

/-- A failure that is reported for a program has an origin in it. -/
theorem exists_origin_ofProgram {source : String} (hread : Exp.readProgram source {} = .ok e g)
    (h : ofProgram source trace = .ok checked) (hf : checked.result = .error f) :
    ∃ c m, e.typeOfProgram {} { supply := g, trace := trace } = .error c m ∧
      f = c.failure m.store ∧ Origin {} e c m ∧ e.Formed Lexeme.Scanned .program := by
  obtain ⟨c, m, hfail, rfl⟩ := exists_failed hread h hf
  exact ⟨c, m, hfail, rfl, Exp.fails_program {} e _ c m hfail,
    (Exp.gives_datumOf (fun d => ReadLaw.gives.reads (.program d)) source {} e g rfl hread).2⟩

/-- A failure to find a type of what has been read has a cause in the text: a name that is not
there is free, an operator without a type is `list`, a form that is not supported is the
reported assignment, and a program without a value has definitions only. -/
theorem failures_explained (source : String) (hf : checked.result = .error f) :
    (Exp.read source {} = .ok e g → ofExp source trace = .ok checked →
      Explained (endState (e.typeOf {} { supply := g, trace := trace })).store e f ∧
      (e.free = [] → (∀ x v, .assign x v ∉ e.subexps) → .prim "list" ∉ e.subexps →
        f.kind ∈ [.typeMismatch, .arityMismatch, .occursCheck, .emptyProgram])) ∧
    (Exp.readProgram source {} = .ok e g → ofProgram source trace = .ok checked →
      Explained (endState (e.typeOfProgram {} { supply := g, trace := trace })).store e f ∧
      (e.free = [] → (∀ x v, .assign x v ∉ e.subexps) → .prim "list" ∉ e.subexps →
        f.kind ∈ [.typeMismatch, .arityMismatch, .occursCheck, .emptyProgram])) := by
  constructor
  · intro hread h
    obtain ⟨c, m, hfail, rfl, horigin, he⟩ := exists_origin_ofExp hread h hf
    rw [hfail]
    have hexplained := horigin.explained he m.store
    exact ⟨hexplained, hexplained.kind_of_closed⟩
  · intro hread h
    obtain ⟨c, m, hfail, rfl, horigin, he⟩ := exists_origin_ofProgram hread h hf
    rw [hfail]
    have hexplained := horigin.explained he m.store
    exact ⟨hexplained, hexplained.kind_of_closed⟩

/-- A name that is defined only after it has been used is free. -/
theorem failures_explained_defined_later :
    let source := "(L5 (define x y) (define y 1) x)"
    ∃ e g checked f, Exp.readProgram source {} = .ok e g ∧ ofProgram source = .ok checked ∧
      checked.result = .error f ∧
      f.message = "Unbound variable: y" ∧ f.name? = some "y" ∧ "y" ∈ e.free := by
  intro source
  obtain ⟨e, g, hread, hfails⟩ := exists_ok (r := Exp.readProgram source {})
    (P := fun e g => failsWith (fun c m =>
      let f := c.failure m.store
      f.kind == .unboundVariable && f.message == "Unbound variable: y" && f.name? == some "y")
      (e.typeOfProgram {} { supply := g })) (by decide +kernel)
  obtain ⟨c, m, hfail, hfacts⟩ := exists_error hfails
  simp only [Bool.and_eq_true, beq_iff_eq] at hfacts
  obtain ⟨⟨hkind, hmessage⟩, hname⟩ := hfacts
  have hchecked : ofProgram source = .ok ⟨.error (c.failure m.store), m.trace⟩ := by
    simp [ofProgram, ofRead, hread, hfail]
  obtain ⟨x, hx, hx'⟩ := ((failures_explained source rfl).2 hread hchecked).1.unbound hkind
  rw [hname] at hx'
  cases hx'
  exact ⟨e, g, _, c.failure m.store, hread, hchecked, rfl, hmessage, hname, hx⟩

end Checked

end TypedL5
