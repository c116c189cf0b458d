import TypedL5.Proofs.RoundTrip

/-!
Types are read back from their written form. A bound variable is written as what it is bound
to, so what is read is the type as it stands in the store. Each place of an unbound variable
gets a variable of its own.
-/
namespace TypedL5

variable {s : Store} {g g' : Supply} {t t' : Ty}

namespace Ty

/-- What is read, from one supply to another, from the text of a type. -/
theorem exists_read (h : t.Formed Lexeme.Readable) (g : Supply) :
    ∃ t' g', read t.text g = .ok t' g' ∧ g'.stem = g.stem ∧ g'.count = g.count ∧
      t'.forgetIds = t.forgetIds := by
  have hdatum : Datum.read t.text = .ok t.datum := by
    rw [← write_datum]
    exact Datum.read_write h.readable
  unfold read
  rw [hdatum]
  exact rereads h g

/-- What is read, from one supply to another, when a type is written as it stands in a store.
It is the resolved type, with a new variable of the same name at each place of an unbound one,
and it is written as the same text. -/
structure Renewed (s : Store) (t : Ty) (g : Supply) (t' : Ty) (g' : Supply) : Prop where
  resolved : t'.forgetIds = (s.resolve t).forgetIds
  nodup : t'.vars.Nodup
  fresh : ∀ v ∈ t'.vars, g.next ≤ v.id ∧ v.id < g'.next
  unbound : ∀ v ∈ t'.vars, s.contents? v = none
  stem : g'.stem = g.stem
  count : g'.count = g.count
  text : s.text t' = s.text t

/-- A type is read back in a store that binds no variable yet to come. -/
theorem exists_renewed
    (hs : s.Acyclic) (hg : ∀ v : TyVar, g.next ≤ v.id → s.contents? v = none)
    (ht : ∀ v ∈ (s.resolve t).vars, v.Writable) :
    ∃ t' g', read (s.text t) g = .ok t' g' ∧ t.Renewed s g t' g' := by
  obtain ⟨t', g', hread, hstem, hcount, hresolved⟩ := exists_read ht g
  obtain ⟨vs, htaken, hperm⟩ := (parses_read _).taken hread
  have hfresh : ∀ v ∈ t'.vars, g.next ≤ v.id ∧ v.id < g'.next :=
    fun v hv => htaken.id_of_mem (hperm.mem_iff.mpr hv)
  have hunbound : ∀ v ∈ t'.vars, s.contents? v = none := fun v hv => hg v (hfresh v hv).1
  refine ⟨t', g', hread, hresolved, hperm.nodup_iff.mp htaken.nodup, hfresh, hunbound,
    hstem, hcount, ?_⟩
  calc s.text t'
      = t'.text := Store.text_of_unbound hs hunbound
    _ = t'.forgetIds.text := (text_forgetIds t').symm
    _ = (s.resolve t).forgetIds.text := by rw [hresolved]
    _ = s.text t := text_forgetIds (s.resolve t)

end Ty

/-- In a store that binds no variable yet to come, a type is read back from its written form as
it stands there. What has been read as a type is read back as the same type, up to the
identities of its variables. -/
theorem types_read_back (hs : s.Acyclic)
    (hg : ∀ v : TyVar, g.next ≤ v.id → s.contents? v = none) :
    (∀ t : Ty, (∀ v ∈ (s.resolve t).vars, v.Writable) →
      ∃ t' g', Ty.read (s.text t) g = .ok t' g' ∧ t.Renewed s g t' g') ∧
    ∀ source t m, Ty.read source g = .ok t m → (∀ v ∈ t.vars, v.Writable) →
      ∃ t' m', Ty.read (s.text t) m = .ok t' m' ∧ t.Renewed s m t' m' ∧
        t'.forgetIds = t.forgetIds := by
  refine ⟨fun t ht => Ty.exists_renewed hs hg ht, fun source t m hread ht => ?_⟩
  have hnew : ∀ v ∈ t.vars, s.contents? v = none :=
    fun v hv => hg v ((Ty.parses_read source).id_of_mem hread hv).1
  have hresolve : s.resolve t = t := Store.resolve_of_unbound hs hnew
  have hm : ∀ v : TyVar, m.next ≤ v.id → s.contents? v = none :=
    fun v hv => hg v (Nat.le_trans ((Ty.parses_read source).next_le_of_ok hread) hv)
  rw [← hresolve] at ht
  obtain ⟨t', m', hread', hrenewed⟩ := Ty.exists_renewed hs hm ht
  exact ⟨t', m', hread', hrenewed, by rw [hrenewed.resolved, hresolve]⟩

/-- The bound variables are written as a pair in both places, and `a` is read three times. A
procedure without parameters may be written in another way than it is printed. -/
theorem types_read_back_chain :
    let a : TyVar := ⟨0, "a"⟩
    let x : TyVar := ⟨1, "x"⟩
    let y : TyVar := ⟨2, "y"⟩
    let s : Store := ⟨[(y, .var x), (x, .pair (.var a) .number)]⟩
    let t : Ty := .proc [.proc [] (.var y), .var a] (.proc [.var x] .void)
    let u : Ty := .proc [] (.pair (.var ⟨3, "b"⟩) (.var ⟨4, "b"⟩))
    s.Acyclic ∧ s.text t = "((Empty -> (Pair a number)) * a -> ((Pair a number) -> void))" ∧
      (∃ t' g', Ty.read (s.text t) { next := 3 } = .ok t' g' ∧
        t.Renewed s { next := 3 } t' g') ∧
      Ty.read "[-> (Pair b b)]" { next := 3 } = .ok u { next := 5 } ∧
        s.text u = "(Empty -> (Pair b b))" ∧
      ∃ u' m', Ty.read (s.text u) { next := 5 } = .ok u' m' ∧ u.Renewed s { next := 5 } u' m' ∧
        u'.forgetIds = u.forgetIds := by
  intro a x y s t u
  have hx : Store.Acyclic ⟨[(x, .pair (.var a) .number)]⟩ :=
    Store.bind_acyclic Store.acyclic_empty rfl
      (Store.not_reaches_of_occurs Store.acyclic_empty rfl)
  have hs : s.Acyclic := Store.bind_acyclic hx rfl (Store.not_reaches_of_occurs hx rfl)
  have hnew : ∀ v : TyVar, 3 ≤ v.id → s.contents? v = none := by
    intro v hv
    have hne : ∀ w : TyVar, w.id < 3 → v ≠ w := by
      rintro w hw rfl
      omega
    change ((Store.bind {} x (.pair (.var a) .number)).bind y (.var x)).contents? v = none
    rw [Store.contents?_bind, if_neg (hne y (by decide)), Store.contents?_bind,
      if_neg (hne x (by decide))]
    rfl
  obtain ⟨u', m, hread, hfacts⟩ := exists_ok (r := Ty.read "[-> (Pair b b)]" { next := 3 })
    (P := fun u' m => decide (u' = u) && decide (m = { next := 5 })) (by decide +kernel)
  obtain ⟨rfl, rfl⟩ : u' = u ∧ m = { next := 5 } := by simpa using hfacts
  have htext : s.text t = "((Empty -> (Pair a number)) * a -> ((Pair a number) -> void))" := by
    decide +kernel
  have hnames : ∀ v ∈ (s.resolve t).vars, v.Writable := by decide +kernel
  obtain ⟨htypes, hsources⟩ := types_read_back (g := { next := 3 }) hs hnew
  exact ⟨hs, htext, htypes t hnames, hread, by decide +kernel,
    hsources _ _ _ hread (by decide +kernel)⟩

end TypedL5
