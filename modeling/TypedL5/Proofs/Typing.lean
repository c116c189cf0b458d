import TypedL5.Check.Rules
import TypedL5.Proofs.Ground

/-!
The typing rules as a relation between expressions and ground types. The types written in an
expression are read through an assignment.
-/
namespace TypedL5

/-- The ground types of names. -/
abbrev Context := String → Option Ground

/-- Names with their declared types come before the others. The first declaration of a name
counts. -/
def Context.extend (ρ : Assignment) (Γ : Context) (ds : List Decl) : Context :=
  fun x => ((ds.find? (·.name == x)).map fun d => d.ty.eval ρ).or (Γ x)

/-- An environment read through an assignment. -/
def Env.read (ρ : Assignment) (env : Env) : Context :=
  fun x => (env.lookup? x).map (Ty.eval ρ)

/-- Declarations mean to the rules what they mean to the checker. -/
theorem Env.read_extend (ρ : Assignment) (env : Env) (ds : List Decl) :
    (env.extend ds).read ρ = (env.read ρ).extend ρ ds := by
  funext x
  rw [Env.read, Env.lookup?_extend, Context.extend, Env.read]
  cases ds.find? (·.name == x) <;> simp

namespace Quoted

/-- The type of a part of a quoted pair. -/
inductive PartType : Quoted → Ground → Prop
  | num (n : Number) : PartType (.atom (.num n)) (.base .number)
  | bool (b : Bool) : PartType (.atom (.bool b)) (.base .boolean)
  | str (s : String) : PartType (.atom (.str s)) (.base .literal)
  | sym (name : String) : PartType (.sym name) (.base .literal)
  | nil : PartType .nil (.base .void)
  | cons {first rest : Quoted} {τ τ' : Ground} :
    PartType first τ → PartType rest τ' → PartType (.cons first rest) (.pair τ τ')

/-- The type of a quoted value. Outside of a pair nothing is looked into. -/
inductive HasType : Quoted → Ground → Prop
  | atom (a : Atom) : HasType (.atom a) (.base .literal)
  | sym (name : String) : HasType (.sym name) (.base .literal)
  | nil : HasType .nil (.base .void)
  | cons {first rest : Quoted} {τ τ' : Ground} :
    PartType first τ → PartType rest τ' → HasType (.cons first rest) (.pair τ τ')

theorem partType_iff {v : Quoted} {τ : Ground} (ρ : Assignment) :
    PartType v τ ↔ τ = (v.ty true).eval ρ := by
  induction v generalizing τ with
  | atom a =>
    cases a with
    | num n => exact ⟨fun h => by cases h; rfl, fun h => h ▸ .num n⟩
    | bool b => exact ⟨fun h => by cases h; rfl, fun h => h ▸ .bool b⟩
    | str s => exact ⟨fun h => by cases h; rfl, fun h => h ▸ .str s⟩
  | sym name => exact ⟨fun h => by cases h; rfl, fun h => h ▸ .sym name⟩
  | nil => exact ⟨fun h => by cases h; rfl, fun h => h ▸ .nil⟩
  | cons first rest ihf ihr =>
    constructor
    · rintro (_ | _ | _ | _ | _ | ⟨hf, hr⟩)
      simp [ty, ihf.mp hf, ihr.mp hr]
    · rintro rfl
      exact .cons (ihf.mpr rfl) (ihr.mpr rfl)

/-- A quoted value has one type, which is the one computed for it. -/
theorem hasType_iff {v : Quoted} {τ : Ground} (ρ : Assignment) :
    HasType v τ ↔ τ = (v.ty false).eval ρ := by
  cases v with
  | atom a =>
    cases a <;> exact ⟨fun h => by cases h; rfl, fun h => h ▸ .atom _⟩
  | sym name => exact ⟨fun h => by cases h; rfl, fun h => h ▸ .sym name⟩
  | nil => exact ⟨fun h => by cases h; rfl, fun h => h ▸ .nil⟩
  | cons first rest =>
    constructor
    · rintro (_ | _ | _ | ⟨hf, hr⟩)
      simp [ty, (partType_iff ρ).mp hf, (partType_iff ρ).mp hr]
    · rintro rfl
      exact .cons ((partType_iff ρ).mpr rfl) ((partType_iff ρ).mpr rfl)

theorem vars_ty (v : Quoted) (inPair : Bool) : (v.ty inPair).vars = [] := by
  induction v generalizing inPair with
  | atom a => cases a <;> cases inPair <;> rfl
  | sym name => rfl
  | nil => rfl
  | cons first rest ihf ihr => simp [ty, ihf, ihr]

end Quoted

mutual

/-- An expression has a type. Each use of a primitive operator is at an instance of its own. -/
inductive HasType (ρ : Assignment) : Context → Exp → Ground → Prop
  | num {Γ : Context} (n : Number) : HasType ρ Γ (.const (.num n)) (.base .number)
  | bool {Γ : Context} (b : Bool) : HasType ρ Γ (.const (.bool b)) (.base .boolean)
  | str {Γ : Context} (s : String) : HasType ρ Γ (.const (.str s)) (.base .string)
  | prim {Γ : Context} {op : String} {σ : Scheme} (θ : Assignment) :
    Primitive.signature? op = some σ → HasType ρ Γ (.prim op) (σ.body.eval θ)
  | var {Γ : Context} {x : String} {τ : Ground} : Γ x = some τ → HasType ρ Γ (.var x) τ
  | ite {Γ : Context} {c t e : Exp} {τ : Ground} :
    HasType ρ Γ c (.base .boolean) → HasType ρ Γ t τ → HasType ρ Γ e τ →
      HasType ρ Γ (.ite c t e) τ
  | lambda {Γ : Context} {ps : List Decl} {r : Ty} {body : List Exp} :
    BodyHasType ρ (Γ.extend ρ ps) body (r.eval ρ) →
    HasType ρ Γ (.lambda ps r body) (.proc (ps.map fun d => d.ty.eval ρ) (r.eval ρ))
  | app {Γ : Context} {f : Exp} {es : List Exp} {τs : List Ground} {τ : Ground} :
    HasType ρ Γ f (.proc τs τ) → ArgsHaveTypes ρ Γ es τs → HasType ρ Γ (.app f es) τ
  | letIn {Γ : Context} {bs : List (Decl × Exp)} {body : List Exp} {τ : Ground} :
    (∀ b ∈ bs, HasType ρ Γ b.2 (b.1.ty.eval ρ)) →
    BodyHasType ρ (Γ.extend ρ (bs.map Prod.fst)) body τ → HasType ρ Γ (.letIn bs body) τ
  /-- The types written at the names that are bound do not matter. -/
  | letrec {Γ : Context} {bs : List (Decl × Exp)} {body : List Exp} {τ : Ground} :
    (∀ b ∈ bs, b.2.isLambda = true) →
    (∀ d ps r pbody, (d, .lambda ps r pbody) ∈ bs →
      BodyHasType ρ ((Γ.extend ρ (bs.map Exp.procDecl)).extend ρ ps) pbody (r.eval ρ)) →
    BodyHasType ρ (Γ.extend ρ (bs.map Exp.procDecl)) body τ → HasType ρ Γ (.letrec bs body) τ
  | quote {Γ : Context} {v : Quoted} {τ : Ground} : v.HasType τ → HasType ρ Γ (.quote v) τ
  | define {Γ : Context} {d : Decl} {e : Exp} :
    HasType ρ Γ e (d.ty.eval ρ) → HasType ρ Γ (.define d e) (.base .void)
  | program {Γ : Context} {es : List Exp} {τ : Ground} :
    FormsHaveType ρ Γ es (some τ) → HasType ρ Γ (.program es) τ

/-- All expressions of a body have a type, the last of them that of the body. -/
inductive BodyHasType (ρ : Assignment) : Context → List Exp → Ground → Prop
  | last {Γ : Context} {e : Exp} {τ : Ground} : HasType ρ Γ e τ → BodyHasType ρ Γ [e] τ
  | cons {Γ : Context} {e : Exp} {es : List Exp} {τ τ' : Ground} :
    HasType ρ Γ e τ' → BodyHasType ρ Γ es τ → BodyHasType ρ Γ (e :: es) τ

/-- Arguments have types, one for each. -/
inductive ArgsHaveTypes (ρ : Assignment) : Context → List Exp → List Ground → Prop
  | nil {Γ : Context} : ArgsHaveTypes ρ Γ [] []
  | cons {Γ : Context} {e : Exp} {es : List Exp} {τ : Ground} {τs : List Ground} :
    HasType ρ Γ e τ → ArgsHaveTypes ρ Γ es τs → ArgsHaveTypes ρ Γ (e :: es) (τ :: τs)

/-- Forms in order, each definition being seen by the forms after it, with the type of the last
that is none. -/
inductive FormsHaveType (ρ : Assignment) : Context → List Exp → Option Ground → Prop
  | nil {Γ : Context} : FormsHaveType ρ Γ [] none
  | define {Γ : Context} {d : Decl} {e : Exp} {es : List Exp} {τ? : Option Ground} :
    HasType ρ Γ e (d.ty.eval ρ) → FormsHaveType ρ (Γ.extend ρ [d]) es τ? →
    FormsHaveType ρ Γ (.define d e :: es) τ?
  | cons {Γ : Context} {e : Exp} {es : List Exp} {τ : Ground} {τ? : Option Ground} :
    (∀ d e', e = .define d e' → False) → HasType ρ Γ e τ → FormsHaveType ρ Γ es τ? →
    FormsHaveType ρ Γ (e :: es) (some (τ?.getD τ))

end

section

variable {ρ : Assignment} {Γ : Context} {τ : Ground} {τ? : Option Ground} {τs : List Ground}
  {e : Exp} {es body : List Exp}

theorem hasType_const_iff {a : Atom} : HasType ρ Γ (.const a) τ ↔ τ = a.ty.eval ρ := by
  cases a with
  | num n => exact ⟨fun h => by cases h; rfl, fun h => h ▸ .num n⟩
  | bool b => exact ⟨fun h => by cases h; rfl, fun h => h ▸ .bool b⟩
  | str s => exact ⟨fun h => by cases h; rfl, fun h => h ▸ .str s⟩

theorem hasType_prim_iff {op : String} : HasType ρ Γ (.prim op) τ ↔
    ∃ σ θ, Primitive.signature? op = some σ ∧ τ = σ.body.eval θ := by
  constructor
  · rintro (_ | _ | _ | @⟨_, _, σ, θ, hσ⟩)
    exact ⟨σ, θ, hσ, rfl⟩
  · rintro ⟨σ, θ, hσ, rfl⟩
    exact .prim θ hσ

theorem hasType_var_iff {x : String} : HasType ρ Γ (.var x) τ ↔ Γ x = some τ :=
  ⟨fun h => by cases h; assumption, .var⟩

theorem hasType_ite_iff {c t : Exp} : HasType ρ Γ (.ite c t e) τ ↔
    HasType ρ Γ c (.base .boolean) ∧ HasType ρ Γ t τ ∧ HasType ρ Γ e τ := by
  constructor
  · intro h
    cases h with
    | ite hc ht he => exact ⟨hc, ht, he⟩
  · rintro ⟨hc, ht, he⟩
    exact .ite hc ht he

theorem hasType_lambda_iff {ps : List Decl} {r : Ty} : HasType ρ Γ (.lambda ps r body) τ ↔
    BodyHasType ρ (Γ.extend ρ ps) body (r.eval ρ) ∧
      τ = .proc (ps.map fun d => d.ty.eval ρ) (r.eval ρ) := by
  constructor
  · intro h
    cases h with
    | lambda h => exact ⟨h, rfl⟩
  · rintro ⟨h, rfl⟩
    exact .lambda h

theorem hasType_app_iff {f : Exp} : HasType ρ Γ (.app f es) τ ↔
    ∃ τs, HasType ρ Γ f (.proc τs τ) ∧ ArgsHaveTypes ρ Γ es τs := by
  constructor
  · intro h
    cases h with
    | app hf hes => exact ⟨_, hf, hes⟩
  · rintro ⟨τs, hf, hes⟩
    exact .app hf hes

/-- An operator is applied at an instance of its own. -/
theorem hasType_operator_iff {op : String} {σ : Scheme} {ps : List Ty} {r : Ty}
    (hσ : Primitive.signature? op = some σ) (hbody : σ.body = .proc ps r) :
    HasType ρ Γ (.app (.prim op) es) τ ↔
      ∃ θ, τ = r.eval θ ∧ ArgsHaveTypes ρ Γ es (ps.map (Ty.eval θ)) := by
  simp only [hasType_app_iff, hasType_prim_iff, hσ, Option.some.injEq]
  constructor
  · rintro ⟨τs, ⟨_, θ, rfl, he⟩, hargs⟩
    rw [hbody, Ty.eval_proc, Ground.proc.injEq] at he
    exact ⟨θ, he.2, he.1 ▸ hargs⟩
  · rintro ⟨θ, rfl, hargs⟩
    exact ⟨_, ⟨σ, θ, rfl, by rw [hbody, Ty.eval_proc]⟩, hargs⟩

theorem hasType_letIn_iff {bs : List (Decl × Exp)} : HasType ρ Γ (.letIn bs body) τ ↔
    (∀ b ∈ bs, HasType ρ Γ b.2 (b.1.ty.eval ρ)) ∧
      BodyHasType ρ (Γ.extend ρ (bs.map Prod.fst)) body τ := by
  constructor
  · intro h
    cases h with
    | letIn hbs hbody => exact ⟨hbs, hbody⟩
  · rintro ⟨hbs, hbody⟩
    exact .letIn hbs hbody

theorem hasType_letrec_iff {bs : List (Decl × Exp)} : HasType ρ Γ (.letrec bs body) τ ↔
    (∀ b ∈ bs, b.2.isLambda = true) ∧
    (∀ d ps r pbody, (d, .lambda ps r pbody) ∈ bs →
      BodyHasType ρ ((Γ.extend ρ (bs.map Exp.procDecl)).extend ρ ps) pbody (r.eval ρ)) ∧
    BodyHasType ρ (Γ.extend ρ (bs.map Exp.procDecl)) body τ := by
  constructor
  · intro h
    cases h with
    | letrec hl hbs hbody => exact ⟨hl, hbs, hbody⟩
  · rintro ⟨hl, hbs, hbody⟩
    exact .letrec hl hbs hbody

theorem hasType_quote_iff {v : Quoted} :
    HasType ρ Γ (.quote v) τ ↔ τ = (v.ty false).eval ρ := by
  rw [← Quoted.hasType_iff]
  exact ⟨fun h => by cases h; assumption, .quote⟩

theorem hasType_define_iff {d : Decl} : HasType ρ Γ (.define d e) τ ↔
    HasType ρ Γ e (d.ty.eval ρ) ∧ τ = .base .void := by
  constructor
  · intro h
    cases h with
    | define he => exact ⟨he, rfl⟩
  · rintro ⟨he, rfl⟩
    exact .define he

theorem hasType_program_iff : HasType ρ Γ (.program es) τ ↔ FormsHaveType ρ Γ es (some τ) :=
  ⟨fun h => by cases h; assumption, .program⟩

theorem bodyHasType_singleton_iff : BodyHasType ρ Γ [e] τ ↔ HasType ρ Γ e τ := by
  constructor
  · intro h
    cases h with
    | last he => exact he
    | cons _ h => cases h
  · exact .last

theorem bodyHasType_cons_iff (hn : es ≠ []) : BodyHasType ρ Γ (e :: es) τ ↔
    (∃ τ', HasType ρ Γ e τ') ∧ BodyHasType ρ Γ es τ := by
  constructor
  · intro h
    cases h with
    | last he => exact (hn rfl).elim
    | cons he hes => exact ⟨⟨_, he⟩, hes⟩
  · rintro ⟨⟨_, he⟩, hes⟩
    exact .cons he hes

theorem argsHaveTypes_nil_iff : ArgsHaveTypes ρ Γ [] τs ↔ τs = [] :=
  ⟨fun h => by cases h; rfl, fun h => h ▸ .nil⟩

theorem argsHaveTypes_cons_iff : ArgsHaveTypes ρ Γ (e :: es) τs ↔
    ∃ τ τs', τs = τ :: τs' ∧ HasType ρ Γ e τ ∧ ArgsHaveTypes ρ Γ es τs' := by
  constructor
  · intro h
    cases h with
    | cons he hes => exact ⟨_, _, rfl, he, hes⟩
  · rintro ⟨τ, τs', rfl, he, hes⟩
    exact .cons he hes

theorem length_of_argsHaveTypes (h : ArgsHaveTypes ρ Γ es τs) : es.length = τs.length := by
  induction es generalizing τs with
  | nil =>
    cases h
    rfl
  | cons e es ih =>
    cases h with
    | cons _ hes => rw [List.length_cons, ih hes, List.length_cons]

theorem formsHaveType_nil_iff : FormsHaveType ρ Γ [] τ? ↔ τ? = none :=
  ⟨fun h => by cases h; rfl, fun h => h ▸ .nil⟩

theorem formsHaveType_define_iff {d : Decl} : FormsHaveType ρ Γ (.define d e :: es) τ? ↔
    HasType ρ Γ e (d.ty.eval ρ) ∧ FormsHaveType ρ (Γ.extend ρ [d]) es τ? := by
  constructor
  · intro h
    cases h with
    | define he hes => exact ⟨he, hes⟩
    | cons hd => exact (hd d e rfl).elim
  · rintro ⟨he, hes⟩
    exact .define he hes

theorem formsHaveType_cons_iff (hd : ∀ d e', e = .define d e' → False) :
    FormsHaveType ρ Γ (e :: es) τ? ↔
      ∃ τ τ?', τ? = some (τ?'.getD τ) ∧ HasType ρ Γ e τ ∧ FormsHaveType ρ Γ es τ?' := by
  constructor
  · intro h
    cases h with
    | define => exact (hd _ _ rfl).elim
    | cons _ he hes => exact ⟨_, _, rfl, he, hes⟩
  · rintro ⟨τ, τ?', rfl, he, hes⟩
    exact .cons hd he hes

end

end TypedL5
