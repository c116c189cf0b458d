import Mathlib.Data.List.Basic
import Mathlib.Data.List.Induction
import TypedL5.Check.Rules
import TypedL5.Proofs.Suggestion

/-!
The names that can be seen in an environment. Looking a name up, listing the names and offering
names like one that is not there all go from the innermost frame outwards, and they agree.
-/
namespace TypedL5.Env

variable {env : Env} {x : String} {t : Ty} {c : Cause} {st m : CheckState}

/-- The names of all declarations, from the innermost frame outwards. -/
def declared (env : Env) : List String := env.frames.flatMap fun frame => frame.map Decl.name

/-- The first declaration of a name in a frame gives it the type. -/
def First (frame : List Decl) (x : String) (t : Ty) : Prop :=
  ∃ before after, frame = before ++ ⟨x, t⟩ :: after ∧ x ∉ before.map Decl.name

/-- The innermost frame that declares a name gives it the type. -/
def Innermost (env : Env) (x : String) (t : Ty) : Prop :=
  ∃ inner frame outer, env.frames = inner ++ frame :: outer ∧ First frame x t ∧ ∀ f ∈ inner,
    x ∉ f.map Decl.name

/-- The names that have been declared, each once, in the order of their first declarations. -/
structure Lists (env : Env) (names : List String) : Prop where
  nodup : names.Nodup
  mem_iff : ∀ x, x ∈ names ↔ x ∈ env.declared
  ordered : names.Pairwise fun x y => env.declared.idxOf x < env.declared.idxOf y

theorem names_eq (env : Env) : env.names = env.declared.eraseDups := by
  rw [names, declared, List.map_flatten, List.flatMap_def]

theorem mem_names : x ∈ env.names ↔ x ∈ env.declared := by
  rw [names_eq, List.mem_eraseDups]

/-- One more name comes to the end of the list, unless it is there already. -/
theorem eraseDups_concat (names : List String) (x : String) :
    (names ++ [x]).eraseDups = if x ∈ names then names.eraseDups
      else names.eraseDups ++ [x] := by
  rw [List.eraseDups_append]
  by_cases hx : x ∈ names <;> simp [List.removeAll, List.eraseDups_cons, hx]

/-- Leaving out repetitions keeps the order of first occurrences. -/
theorem pairwise_eraseDups (names : List String) :
    names.eraseDups.Pairwise fun x y => names.idxOf x < names.idxOf y := by
  induction names using List.reverseRecOn with
  | nil => simp
  | append_singleton names z ih =>
    -- The names listed so far keep their places.
    have hkept : names.eraseDups.Pairwise fun x y => (names ++ [z]).idxOf x <
        (names ++ [z]).idxOf y := by
      refine ih.imp_of_mem fun hx hy hlt => ?_
      rwa [List.idxOf_append_of_mem (List.mem_eraseDups.mp hx),
        List.idxOf_append_of_mem (List.mem_eraseDups.mp hy)]
    rw [eraseDups_concat]
    split
    case isTrue => exact hkept
    case isFalse hz =>
      refine List.pairwise_append.mpr ⟨hkept, List.pairwise_singleton _ _, fun x hx y hy => ?_⟩
      obtain rfl := List.mem_singleton.mp hy
      have hx : x ∈ names := List.mem_eraseDups.mp hx
      rw [List.idxOf_append_of_mem hx, List.idxOf_append_of_notMem hz]
      exact Nat.lt_add_right _ (List.idxOf_lt_length_of_mem hx)

theorem lists_names (env : Env) : env.Lists env.names := by
  have hordered := pairwise_eraseDups env.declared
  rw [← names_eq] at hordered
  refine ⟨hordered.imp fun hlt he => ?_, fun _ => mem_names, hordered⟩
  subst he
  exact Nat.lt_irrefl _ hlt

theorem find?_eq_some_iff {frame : List Decl} :
    (frame.find? (·.name == x)).map Decl.ty = some t ↔ First frame x t := by
  rw [Option.map_eq_some_iff]
  constructor
  · rintro ⟨⟨y, u⟩, hfind, rfl⟩
    obtain ⟨hname, before, after, hframe, hbefore⟩ := List.find?_eq_some_iff_append.mp hfind
    obtain rfl : y = x := beq_iff_eq.mp hname
    exact ⟨before, after, hframe, by simpa using hbefore⟩
  · rintro ⟨before, after, hframe, hbefore⟩
    have hbefore : ∀ d ∈ before, d.name ≠ x := by simpa using hbefore
    exact ⟨⟨x, t⟩, List.find?_eq_some_iff_append.mpr
      ⟨by simp, before, after, hframe, by simpa using hbefore⟩, rfl⟩

theorem find?_eq_none_iff {frame : List Decl} :
    (frame.find? (·.name == x)).map Decl.ty = none ↔ x ∉ frame.map Decl.name := by
  simp

theorem lookup?_eq_some_iff : env.lookup? x = some t ↔ env.Innermost x t := by
  simp only [lookup?, List.findSome?_eq_some_iff, find?_eq_some_iff,
    find?_eq_none_iff, Innermost]

theorem lookup?_eq_none_iff : env.lookup? x = none ↔ x ∉ env.names := by
  simp only [lookup?, List.findSome?_eq_none_iff, find?_eq_none_iff, mem_names, declared,
    List.mem_flatMap, not_exists, not_and]

/-- A name has the type of its innermost declaration, and looking it up changes nothing. -/
theorem typeOf_eq_ok_iff : env.typeOf x st = .ok t m ↔ env.Innermost x t ∧ m = st := by
  rw [← lookup?_eq_some_iff, typeOf]
  cases env.lookup? x with
  | some u =>
    constructor
    · rintro ⟨⟩
      exact ⟨rfl, rfl⟩
    · rintro ⟨⟨⟩, rfl⟩
      rfl
  | none =>
    constructor
    · rintro ⟨⟩
    · rintro ⟨⟨⟩, _⟩

/-- A name that is not declared is refused with the names that are like it. -/
theorem typeOf_eq_error_iff :
    env.typeOf x st = .error c m ↔ x ∉ env.names ∧ m = st ∧
      c = .unbound x (Name.similar x env.names) := by
  rw [← lookup?_eq_none_iff, typeOf]
  cases env.lookup? x with
  | some u =>
    constructor
    · rintro ⟨⟩
    · rintro ⟨⟨⟩, _⟩
  | none =>
    constructor
    · rintro ⟨⟩
      exact ⟨rfl, rfl, rfl⟩
    · rintro ⟨_, rfl, rfl⟩
      rfl

theorem mem_names_iff_ok : x ∈ env.names ↔ ∃ t, env.typeOf x st = .ok t st := by
  constructor
  · intro hx
    cases hlookup : env.lookup? x with
    | some t => exact ⟨t, typeOf_eq_ok_iff.mpr ⟨lookup?_eq_some_iff.mp hlookup, rfl⟩⟩
    | none => exact absurd hx (lookup?_eq_none_iff.mp hlookup)
  · rintro ⟨t, ht⟩
    by_contra hx
    rw [typeOf_eq_error_iff.mpr ⟨hx, rfl, rfl⟩] at ht
    cases ht

/-- A name has a type exactly if it is listed, and then that of its first declaration in the
innermost frame that has one. Each name is listed once, in the order of the first declarations.
If a name is not there, the failure offers those at most three of the listed ones that are
nearest to it. The state stays as it is. -/
theorem typeOf_agrees (env : Env) (x : String) (st : CheckState) :
    env.Lists env.names ∧ (x ∈ env.names ↔ ∃ t, env.typeOf x st = .ok t st) ∧
    (∀ t m, env.typeOf x st = .ok t m ↔ env.Innermost x t ∧ m = st) ∧
    ∀ c m, env.typeOf x st = .error c m ↔ x ∉ env.names ∧ m = st ∧
      ∃ similar, c = .unbound x similar ∧
      c.failure m.store = ⟨.unboundVariable, "Unbound variable: " ++ x, some x, similar⟩ ∧
      Name.Nearest x env.names 3 similar := by
  have hlists := lists_names env
  refine ⟨hlists, mem_names_iff_ok, fun t m => typeOf_eq_ok_iff, fun c m => ?_⟩
  rw [typeOf_eq_error_iff]
  refine and_congr_right fun hx => and_congr_right fun _ => ?_
  constructor
  · rintro rfl
    exact ⟨_, rfl, rfl, Name.nearest_similar hlists.nodup hx 3⟩
  · rintro ⟨similar, rfl, _, hnearest⟩
    rw [hnearest.eq_similar hlists.nodup hx]
    rfl

/-- An outer declaration and a later one in the same frame do not count, and a frame without
declarations changes nothing. Three names are one edit away, so that `fooo` is not offered,
though it is listed first. -/
theorem typeOf_agrees_shadowed :
    let outer : Env := Env.extend {} [⟨"fo", .void⟩, ⟨"foo", .number⟩, ⟨"bar", .number⟩]
    let env : Env := (outer.extend []).extend
      [⟨"fooo", .void⟩, ⟨"foo", .string⟩, ⟨"foo", .boolean⟩, ⟨"fob", .void⟩]
    env.Lists ["fooo", "foo", "fob", "fo", "bar"] ∧
      env.typeOf "foo" {} = .ok .string {} ∧ env.Innermost "foo" .string ∧
      env.typeOf "fop" {} = .error (.unbound "fop" ["foo", "fob", "fo"]) {} ∧
      Name.Nearest "fop" env.names 3 ["foo", "fob", "fo"] := by
  intro outer env
  have hnames : env.names = ["fooo", "foo", "fob", "fo", "bar"] := by decide +kernel
  obtain ⟨hlists, _, hfound, _⟩ := typeOf_agrees env "foo" {}
  obtain ⟨_, _, _, hmissing⟩ := typeOf_agrees env "fop" {}
  have hok : env.typeOf "foo" {} = .ok .string {} := by rfl
  have herror : env.typeOf "fop" {} = .error (.unbound "fop" ["foo", "fob", "fo"]) {} := by rfl
  obtain ⟨_, _, similar, hcause, _, hnearest⟩ := (hmissing _ _).mp herror
  obtain ⟨_, rfl⟩ := Cause.unbound.inj hcause
  exact ⟨hnames ▸ hlists, hok, ((hfound _ _).mp hok).1, herror, hnearest⟩

end TypedL5.Env
