import TypedL5.Check.Source
import TypedL5.Proofs.Independence
import TypedL5.Proofs.Settled
import TypedL5.Proofs.WrittenType

/-!
A printed type can be declared in place of the one that it was printed from.

Where the type has one variable in several places, a variable of the same name is read at each
of them. These variables are bound to the one when both types are made equal, and nothing else
is.
-/
namespace TypedL5

open CheckState HasVars

namespace Ty

variable {t : Ty}

theorem forgetIds_rename {f : TyVar → TyVar} (h : ∀ v ∈ t.vars, (f v).name = v.name) :
    (t.rename f).forgetIds = t.forgetIds := by
  rw [forgetIds, rename, rename, subst_subst]
  exact subst_congr fun v hv => by rw [subst_var, h v hv]

theorem eval_forgetIds (t : Ty) (τ : Ground) :
    (t.forgetIds.eval fun _ => τ) = t.eval fun _ => τ :=
  eval_subst _ _ t

theorem exists_var_of_forgetIds {v : TyVar} (h : t.forgetIds = (Ty.var v).forgetIds) :
    ∃ w, t = .var w := by
  cases t with
  | var w => exact ⟨w, rfl⟩
  | base b => cases h
  | pair l r => cases h
  | proc ps r =>
    rw [forgetIds_proc] at h
    cases h

end Ty

namespace Store

variable {s s' : Store} {p u w : Ty} {v x : TyVar} {eqs ds : List (Ty × Ty)}
  {r : EStateM.Result Clash Store Unit}

/-- A binding is not seen by types that do not mention its variable. -/
theorem resolve_bind_of_not_mem (hs : s.Acyclic) (hv : s.contents? v = none)
    (ho : ¬ s.Reaches w v) (h : v ∉ (s.resolve u).vars) :
    (s.bind v w).resolve u = s.resolve u := by
  rw [resolve_bind hs hv ho]
  refine (Ty.subst_congr fun x hx => if_neg ?_).trans (Ty.subst_id _)
  rintro rfl
  exact h hx

/-- Each left side has the shape and the names of its right side. It has other variables, each
of them in one place. -/
structure Matching (s : Store) (eqs : List (Ty × Ty)) : Prop where
  linear : (s.openVars (eqs.map Prod.fst)).Nodup
  apart : ∀ e ∈ eqs, ∀ v ∈ (s.resolve e.2).vars, v ∉ s.openVars (eqs.map Prod.fst)
  shape : ∀ e ∈ eqs, (s.resolve e.1).forgetIds = (s.resolve e.2).forgetIds

theorem openVars_cons (s : Store) (t : Ty) (ts : List Ty) :
    s.openVars (t :: ts) = (s.resolve t).vars ++ s.openVars ts := List.flatMap_cons

namespace Matching

/-- A variable on the left is the one that is bound. -/
theorem bind_left (h : Matching s ((p, u) :: eqs)) (hs : s.Acyclic)
    (hm : (s.deref p).meet (s.deref u) = .bind v w) : s.resolve p = .var v ∧
      w = s.deref u := by
  have hv := resolve_unbound (unbound_of_meet hs hm)
  rcases Ty.meet_bind hm with ⟨hd, rfl⟩ | ⟨hd, rfl⟩
  · rw [← resolve_deref hs p, hd, hv]
    exact ⟨rfl, rfl⟩
  · have hshape := h.shape (p, u) List.mem_cons_self
    rw [← resolve_deref hs u, hd, hv] at hshape
    obtain ⟨x, hx⟩ := Ty.exists_var_of_forgetIds hshape
    rw [deref_of_resolve_eq_var hs hx, hd] at hm
    cases hm
    exact ⟨hx, by rw [deref_of_resolve_eq_var hs hx, hd]⟩

/-- The variable of a pattern does not occur in what it is matched with. -/
theorem not_reaches (h : Matching s ((p, u) :: eqs)) (hs : s.Acyclic)
    (hp : s.resolve p = .var v) :
    ¬ s.Reaches (s.deref u) v := by
  intro hr
  have hmem : v ∈ (s.resolve u).vars := by
    rw [← resolve_deref hs, mem_vars_resolve hs]
    exact ⟨hr, unbound_of_resolve_var hs hp⟩
  exact h.apart (p, u) List.mem_cons_self v hmem (by simp [openVars_cons, hp])

theorem openVars_bind (hp : s.resolve p = .var v) (u : Ty) (eqs : List (Ty × Ty)) :
    s.openVars (((p, u) :: eqs).map Prod.fst) = v :: s.openVars (eqs.map Prod.fst) := by
  rw [List.map_cons, openVars_cons, hp, Ty.vars_var, List.singleton_append]

/-- The variable of the first left side is in none of the other types. -/
theorem resolve_bind (h : Matching s ((p, u) :: eqs)) (hs : s.Acyclic)
    (hp : s.resolve p = .var v) :
    ∀ e ∈ eqs, (s.bind v (s.deref u)).resolve e.1 = s.resolve e.1 ∧
      (s.bind v (s.deref u)).resolve e.2 = s.resolve e.2 := by
  intro e he
  have hv := unbound_of_resolve_var hs hp
  have hr := h.not_reaches hs hp
  obtain ⟨hlinear, hapart, _⟩ := h
  rw [openVars_bind hp] at hlinear hapart
  refine ⟨resolve_bind_of_not_mem hs hv hr fun hmem => ?_, resolve_bind_of_not_mem hs hv hr
    fun hmem => ?_⟩
  · exact (List.nodup_cons.mp hlinear).1
      (List.mem_flatMap.mpr ⟨e.1, List.mem_map_of_mem he, hmem⟩)
  · exact hapart e (List.mem_cons_of_mem _ he) v hmem List.mem_cons_self

theorem openVars_eq (h : Matching s ((p, u) :: eqs)) (hs : s.Acyclic)
    (hp : s.resolve p = .var v) :
    (s.bind v (s.deref u)).openVars (eqs.map Prod.fst) = s.openVars (eqs.map Prod.fst) := by
  refine List.flatMap_congr fun t ht => ?_
  obtain ⟨e, he, rfl⟩ := List.mem_map.mp ht
  rw [(h.resolve_bind hs hp e he).1]

theorem bind (h : Matching s ((p, u) :: eqs)) (hs : s.Acyclic) (hp : s.resolve p = .var v) :
    Matching (s.bind v (s.deref u)) eqs := by
  have hsame := h.resolve_bind hs hp
  have hvars := h.openVars_eq hs hp
  obtain ⟨hlinear, hapart, hshape⟩ := h
  rw [openVars_bind hp] at hlinear hapart
  refine ⟨?_, fun e he x hx hmem => ?_, fun e he => ?_⟩
  · rw [hvars]
    exact (List.nodup_cons.mp hlinear).2
  · rw [(hsame e he).2] at hx
    rw [hvars] at hmem
    exact hapart e (List.mem_cons_of_mem _ he) x hx (List.mem_cons_of_mem _ hmem)
  · rw [(hsame e he).1, (hsame e he).2]
    exact hshape e (List.mem_cons_of_mem _ he)

theorem openVars_parts (hs : s.Acyclic) (hm : (s.deref p).meet (s.deref u) = .parts ds)
    (eqs : List (Ty × Ty)) :
    s.openVars ((ds ++ eqs).map Prod.fst) = s.openVars (((p, u) :: eqs).map Prod.fst) := by
  have hds := vars_parts (s := s) hm
  rw [resolve_deref hs] at hds
  rw [List.map_cons, openVars_cons, ← hds, openVars, openVars, List.flatMap_map,
    List.flatMap_map, List.flatMap_append]

theorem parts (h : Matching s ((p, u) :: eqs)) (hs : s.Acyclic)
    (hm : (s.deref p).meet (s.deref u) = .parts ds) : Matching s (ds ++ eqs) := by
  obtain ⟨hlinear, hapart, hshape⟩ := h
  rw [← openVars_parts hs hm] at hlinear hapart
  obtain ⟨hu, hapart⟩ := List.forall_mem_cons.mp hapart
  obtain ⟨hpu, hshape⟩ := List.forall_mem_cons.mp hshape
  refine ⟨hlinear, List.forall_mem_append.mpr ⟨fun d hd x hx => ?_, hapart⟩,
    List.forall_mem_append.mpr ⟨?_, hshape⟩⟩
  · exact hu x ((vars_resolve_subset_of_meet hs hm hd).2 hx)
  · refine subst_parts_eq hm ?_
    rw [resolve_deref hs, resolve_deref hs]
    exact hpu

/-- A pattern and its instance begin alike wherever neither is a variable. -/
theorem not_clash (h : Matching s ((p, u) :: eqs)) (hs : s.Acyclic) :
    (s.deref p).meet (s.deref u) ≠ .clash := by
  intro hm
  have hsat := solution_satisfies hs fun _ => .base .void
  have hne := Ty.meet_clash hm (s.solution fun _ => .base .void)
  rw [eval_deref hs hsat, eval_deref hs hsat, eval_solution, eval_solution] at hne
  refine hne ?_
  rw [← Ty.eval_forgetIds, h.shape (p, u) List.mem_cons_self, Ty.eval_forgetIds]

end Matching

/-- Left sides that match can be made equal to the right sides. Only variables of left sides
are bound. -/
theorem Solve.matching (h : Solve s eqs r) (hs : s.Acyclic) (hm : Matching s eqs) :
    ∃ s', r = .ok () s' ∧ ∀ x, x ∉ s.openVars (eqs.map Prod.fst) →
      s'.contents? x = s.contents? x := by
  induction h with
  | done s => exact ⟨s, rfl, fun _ _ => rfl⟩
  | @bind s p u v w eqs r hmeet ho _ ih =>
    obtain ⟨hp, rfl⟩ := hm.bind_left hs hmeet
    obtain ⟨s', rfl, hkept⟩ := ih ((grows_of_meet hs hmeet ho).acyclic hs) (hm.bind hs hp)
    refine ⟨s', rfl, fun x hx => ?_⟩
    rw [Matching.openVars_bind hp, List.mem_cons, not_or] at hx
    rw [hkept x (by rw [hm.openVars_eq hs hp]; exact hx.2), contents?_bind, if_neg hx.1]
  | cycle _ hmeet ho =>
    obtain ⟨hp, rfl⟩ := hm.bind_left hs hmeet
    exact absurd ((occurs_iff hs).mp ho) (hm.not_reaches hs hp)
  | parts hmeet _ ih =>
    obtain ⟨s', rfl, hkept⟩ := ih hs (hm.parts hs hmeet)
    refine ⟨s', rfl, fun x hx => hkept x ?_⟩
    rwa [Matching.openVars_parts hs hmeet]
  | clash _ hmeet => exact absurd hmeet (hm.not_clash hs)

/-- A type that matches another one becomes the same, and the other one stays as it is. -/
theorem unify_matching (hs : s.Acyclic) (hm : Matching s [(p, u)]) :
    ∃ s', unify p u s = .ok () s' ∧ s'.resolve p = s.resolve u := by
  have hsolve := unify_solve hs p u
  obtain ⟨s', hok, hkept⟩ := hsolve.matching hs hm
  rw [hok] at hsolve
  have hgrows := hsolve.grows hs
  have hs' := hgrows.acyclic hs
  refine ⟨s', hok, ?_⟩
  calc s'.resolve p
      = s'.resolve u := hsolve.resolve_eq hs (p, u) List.mem_cons_self
    _ = (s.resolve u).subst fun x => s'.resolve (.var x) := hgrows.extends.resolve_eq hs' u
    _ = s.resolve u := by
      refine (Ty.subst_congr fun x hx => resolve_unbound ?_).trans (Ty.subst_id _)
      rw [hkept x (hm.apart (p, u) List.mem_cons_self x hx)]
      exact unbound_of_mem_resolve hs hx

end Store

variable {source : String} {env : Env} {e e' : Exp} {st m : CheckState} {a a' g g' : Supply}
  {vs vs' : List TyVar} {t ty p : Ty} {v : TyVar}

/-- An expression may be bound to a name with a type that matches its own. The name then has
the type of the expression. -/
theorem typeOf_declared (h : e.typeOf env st = .ok t m) (hm : m.store.Acyclic)
    (hmatch : m.store.Matching [(p, t)]) (x : String) :
    ∃ n, (Exp.letIn [(⟨x, p⟩, e)] [.var x]).typeOf env st = .ok p n ∧
      n.store.resolve p = m.store.resolve t := by
  obtain ⟨s', hunify, hsame⟩ := Store.unify_matching hm hmatch
  let whole := Exp.letIn [(⟨x, p⟩, e)] [.var x]
  have hbound : Exp.checkBindings env whole [(⟨x, p⟩, e)] st = .ok () (m.withStore s') := by
    rw [Exp.checkBindings]
    refine bind_eq_ok_iff.mpr ⟨t, m, h, bind_eq_ok_iff.mpr ⟨(), m.withStore s', ?_, rfl⟩⟩
    rw [CheckM.unify, hunify]
  have hname : (env.extend [⟨x, p⟩]).typeOf x = pure p := by
    simp [Env.typeOf, Env.lookup?_extend]
  have hbody (n : CheckState) :
      Exp.typeOfBody (env.extend [⟨x, p⟩]) [.var x] n = .ok p (n.noteType (.var x) p) := by
    rw [Exp.typeOfBody, Exp.typeOf, hname]
    rfl
  refine ⟨((m.withStore s').noteType (.var x) p).noteType whole p, ?_, ?_⟩
  · rw [Exp.typeOf]
    exact bind_eq_ok_iff.mpr ⟨(), _, hbound, bind_eq_ok_iff.mpr ⟨p, _, hbody _, rfl⟩⟩
  · rw [noteType_store, noteType_store]
    exact hsame

/-- The renaming of one supply to another that gives the same names keeps all names. -/
theorem Supply.name_across (h : TakenAlike a g a' g' vs vs') (hstem : a.stem = a'.stem)
    (hcount : a.count = a'.count) (hv : v ∈ g.span vs) :
    (across g g' vs vs' v).name = v.name := by
  obtain ⟨hnames, hg⟩ := h.names hstem hcount
  rcases hv with hmem | ⟨i, rfl⟩
  · have hmap : vs.map (across g g' vs vs') = vs' :=
      map_across h.left.nodup h.sorts.length_eq fun v hv => (h.left.id_of_mem hv).2
    rw [← hmap, List.map_map] at hnames
    exact (List.map_inj_left.mp hnames v hmem).symm
  · have hgg : g.stem = g'.stem := by rw [h.left.stem, h.right.stem, hstem]
    rw [across_nth, nth, nth, hgg, hg]

/-- What is read twice is checked alike if nothing else has been checked. -/
theorem exists_alike_check (h : ReadAlike a g a' g' e e' vs vs')
    (hcheck : e.typeOf {} { supply := g } = .ok ty m) :
    ∃ ty' m', e'.typeOf {} { supply := g' } = .ok ty' m' ∧
      Alike (Supply.across g g' vs vs') (g.span vs) m m' ty ty' := by
  have hmirrors := mirrors_of_read (ahead_initial g {}).toValid (ahead_initial g' {}).toValid h
    (Nat.le_refl _)
    (Nat.le_refl _) (fun _ _ => rfl) (fun _ _ => rfl)
      fun x t (ht : Env.lookup? {} x = some t) => by cases ht
  rw [hcheck] at hmirrors
  exact hmirrors.of_ok

/-- A text has the same type again when it is read from another supply that gives the same
names. -/
theorem checks_again (hread : Exp.read source a = .ok e g)
    (hcheck : e.typeOf {} { supply := g } = .ok ty m)
    (hstem : a.stem = a'.stem) (hcount : a.count = a'.count) :
    ∃ e' g' ty' m', Exp.read source a' = .ok e' g' ∧ e'.typeOf {} { supply := g' } =
      .ok ty' m' ∧ (m'.store.resolve ty').forgetIds = (m.store.resolve ty).forgetIds := by
  obtain ⟨e', g', vs, vs', hread', halike⟩ := (Exp.parses_read source).counterpart hread a'
  obtain ⟨ty', m', hcheck', hty⟩ := exists_alike_check halike hcheck
  refine ⟨e', g', ty', m', hread', hcheck', ?_⟩
  rw [hty.resolved]
  exact Ty.forgetIds_rename fun v hv =>
    Supply.name_across halike.toTakenAlike hstem hcount (hty.within v hv).1

/-- The variables in the type of an expression are its own and those that have been taken for
it. -/
theorem mem_vars_of_check (hread : Exp.read source a = .ok e g)
    (hcheck : e.typeOf {} { supply := g } = .ok ty m)
    (hv : v ∈ (m.store.resolve ty).vars) : v ∈ vars e ∨ v ∈ g.upcoming := by
  obtain ⟨_, _, vs, _, _, halike⟩ := (Exp.parses_read source).counterpart hread a
  obtain ⟨_, _, _, hty⟩ := exists_alike_check halike hcheck
  exact (hty.within v hv).1.imp_left halike.twin.perm.mem_iff.mp

theorem writable_of_check (hread : Exp.read source {} = .ok e g)
    (hcheck : e.typeOf {} { supply := g } = .ok ty m)
    (hv : v ∈ (m.store.resolve ty).vars) (hplain : (Lexeme.name v.name).isPlain = true) :
      v.Writable := by
  rcases mem_vars_of_check hread hcheck hv with hown | hnew
  · have hformed : e.Formed Lexeme.Scanned .expression :=
      (Exp.Parsed.read (k := .expression) rfl hread).formed
    obtain ⟨t, ht, hvt⟩ := List.mem_flatMap.mp hown
    obtain ⟨⟨hscanned, _⟩, hword⟩ := hformed.formed_tys (fun _ _ => trivial) t ht v hvt
    exact ⟨⟨hscanned, hplain⟩, hword⟩
  · obtain ⟨_, htaken, _⟩ := (Exp.parses_read source).taken hread
    exact Supply.writable_of_upcoming htaken.stem hnew

/-- A type that was read before an expression, and has the shape of its type, matches it. -/
theorem matching_of_check (hread : Exp.read source a = .ok e g)
    (hcheck : e.typeOf {} { supply := g } = .ok ty m) (hp : ∀ v ∈ p.vars, v.id < a.next)
      (hlinear : p.vars.Nodup)
    (hshape : p.forgetIds = (m.store.resolve ty).forgetIds) : m.store.Acyclic ∧
      m.store.Matching [(p, ty)] := by
  have hown := fun v hv => (Exp.parses_read source).id_of_mem (v := v) hread hv
  have hle : a.next ≤ g.next := (Exp.parses_read source).next_le_of_ok hread
  obtain ⟨hvalid, _, _, hun⟩ := unbound_after_check (e := e) (g := g) (ahead_initial {} {})
    (fun x t (ht : Env.lookup? {} x = some t) => by cases ht) (Nat.zero_le _) fun v hv =>
      ⟨Nat.zero_le _, (hown v hv).2⟩
  rw [hcheck] at hvalid hun
  have hfree : ∀ v ∈ p.vars, m.store.contents? v = none := fun v hv =>
    hun v (Nat.zero_le _) (Nat.lt_of_lt_of_le (hp v hv) hle) fun hmem =>
      absurd (hp v hv) (Nat.not_lt.mpr (hown v hmem).1)
  have hresolve : m.store.resolve p = p := Store.resolve_of_unbound hvalid.acyclic hfree
  have hvars : m.store.openVars [p] = p.vars := by simp [Store.openVars, hresolve]
  refine ⟨hvalid.acyclic, ?_, ?_, ?_⟩
  · rwa [List.map_singleton, hvars]
  · rw [List.map_singleton, hvars, List.forall_mem_singleton]
    intro v hv hmem
    have hlt := hp v hmem
    rcases mem_vars_of_check hread hcheck hv with hv | hv
    · have := (hown v hv).1
      omega
    · have := Supply.next_le_of_upcoming hv
      omega
  · rwa [List.forall_mem_singleton, hresolve]

/-- The expression in a text, bound to a name that is declared with the type in another text.
The body is the name. -/
def Exp.readDeclared (x type source : String) : ParseM Exp := do
  let t ← Ty.read type
  let e ← Exp.read source
  return .letIn [(⟨x, t⟩, e)] [.var x]

/-- The printed type of an expression can be read. The expression may be bound to a name that
is declared with it, and the printed type of the name is the same text. -/
theorem printed_type_declares (hread : Exp.read source {} = .ok e g)
    (hcheck : e.typeOf {} { supply := g } = .ok ty m)
    (hnames : ∀ v ∈ (m.store.resolve ty).vars, v.name ≠ "." ∧
      Numeral.ofChars? v.name.toList = none) :
    let text := m.store.text ty
    Checked.ofExp source = .ok ⟨.ok text, m.trace⟩ ∧ (∀ a, ∃ t b, Ty.read text a = .ok t b) ∧
      ∀ x, ∃ trace, Checked.ofRead (Exp.readDeclared x text source) (Exp.typeOf {}) {} =
        .ok ⟨.ok text, trace⟩ := by
  intro text
  have hformed : (m.store.resolve ty).Formed Lexeme.Readable := fun v hv =>
    writable_of_check hread hcheck hv (by simp [Lexeme.isPlain, hnames v hv])
  obtain ⟨p, b, hp, hstem, hcount, hshape⟩ := Ty.exists_read hformed {}
  obtain ⟨ws, htaken, hperm⟩ := (Ty.parses_read _).taken hp
  obtain ⟨e', g', ty', m', hread', hcheck', hsame⟩ :=
    checks_again hread hcheck hstem.symm hcount.symm
  obtain ⟨hm', hmatch⟩ :=
    matching_of_check hread' hcheck' (fun v hv => (htaken.id_of_mem (hperm.mem_iff.mpr hv)).2)
    (hperm.nodup_iff.mp htaken.nodup) (hshape.trans hsame.symm)
  refine ⟨by simp [Checked.ofExp, Checked.ofRead, hread, hcheck, text], fun a => ?_,
    fun x => ?_⟩
  · obtain ⟨t, b, ht, _⟩ := Ty.exists_read hformed a
    exact ⟨t, b, ht⟩
  obtain ⟨n, hlet, hdeclared⟩ := typeOf_declared hcheck' hm' hmatch x
  have hbound : Exp.readDeclared x text source {} = .ok (.letIn [(⟨x, p⟩, e')] [.var x]) g' :=
    bind_eq_ok_iff.mpr ⟨p, b, hp, bind_eq_ok_iff.mpr ⟨e', g', hread', rfl⟩⟩
  have htext : n.store.text p = text := by
    rw [Store.text, hdeclared, ← Ty.text_forgetIds, hsame, Ty.text_forgetIds]
    rfl
  refine ⟨n.trace, ?_⟩
  simp [Checked.ofRead, hbound, hlet, htext]

/-- Four variables are read where the type has two. -/
theorem printed_type_declares_repeated :
    let source := "(lambda ((f : (a -> b)) (x : c)) (f x))"
    let text := "((a -> T_1) * a -> T_1)"
    (∃ trace, Checked.ofExp source = .ok ⟨.ok text, trace⟩) ∧
      (∀ a, ∃ t b, Ty.read text a = .ok t b) ∧
      ∀ x, ∃ trace, Checked.ofRead (Exp.readDeclared x text source) (Exp.typeOf {}) {} =
        .ok ⟨.ok text, trace⟩ := by
  intro source text
  obtain ⟨e, g, hread, hok⟩ := exists_ok (r := Exp.read source {})
    (P := fun e g => okWith (fun ty m => m.store.text ty == text &&
        (m.store.resolve ty).vars.all fun v => v.name !=
          "." && (Numeral.ofChars? v.name.toList).isNone)
      (e.typeOf {} { supply := g })) (by decide +kernel)
  obtain ⟨ty, m, hcheck, hfacts⟩ := exists_ok hok
  simp only [Bool.and_eq_true, beq_iff_eq, bne_iff_ne, List.all_eq_true,
    Option.isNone_iff_eq_none] at hfacts
  obtain ⟨htext, hnames⟩ := hfacts
  obtain ⟨hprinted, hdeclared⟩ := printed_type_declares hread hcheck hnames
  rw [htext] at hprinted hdeclared
  exact ⟨⟨_, hprinted⟩, hdeclared⟩

end TypedL5
