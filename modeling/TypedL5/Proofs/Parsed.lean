import Mathlib.Data.List.Nodup
import TypedL5.Proofs.ReadLaw
import TypedL5.Proofs.Renaming

/-!
What is read from one supply and what is read from another differ in their variables only. Each
variable in it is new, and stands in one place.
-/
namespace TypedL5

open HasVars

/-- Variables have been taken on the way from one supply to another. -/
structure Supply.Later (g g' : Supply) : Prop where
  next_le : g.next ≤ g'.next
  stem : g'.stem = g.stem

/-- The variables taken on the way from one supply to another, in order. -/
structure Supply.Taken (g g' : Supply) (vs : List TyVar) : Prop where
  next : g'.next = g.next + vs.length
  ids : vs.map TyVar.id = List.range' g.next vs.length
  stem : g'.stem = g.stem

namespace Supply

variable {g g' m m' : Supply} {v v' : TyVar}

theorem Later.refl (g : Supply) : g.Later g := ⟨Nat.le_refl _, rfl⟩

theorem Later.trans {g'' : Supply} (h : g.Later g') (h' : g'.Later g'') : g.Later g'' :=
  ⟨Nat.le_trans h.next_le h'.next_le, h'.stem.trans h.stem⟩

/-- The variable has the name of a numbered one. -/
def Numbers (g : Supply) (v : TyVar) : Prop := ∃ n : Nat, v.name = g.stem ++ "_" ++ toString n

/-- Two variables from two supplies have one name, or both have a number in its place. -/
def SameSort (g g' : Supply) (v v' : TyVar) : Prop :=
  v.name = v'.name ∨ g.Numbers v ∧ g'.Numbers v'

/-- The variables taken on the way from two supplies to two others. Supplies that give the same
names have given the same names, and still do. -/
structure TakenAlike (g m g' m' : Supply) (vs vs' : List TyVar) : Prop where
  left : g.Taken m vs
  right : g'.Taken m' vs'
  sorts : List.Forall₂ (g.SameSort g') vs vs'
  names : g.stem = g'.stem → g.count = g'.count →
    vs.map TyVar.name = vs'.map TyVar.name ∧ m.count = m'.count

theorem SameSort.earlier (hs : m.stem = g.stem) (hs' : m'.stem = g'.stem)
    (h : SameSort m m' v v') :
    SameSort g g' v v' := by
  rwa [SameSort, Numbers, Numbers, hs, hs'] at h

end Supply

namespace Supply.Taken

variable {g g' g'' : Supply} {vs ws : List TyVar} {v : TyVar}

theorem nil (g : Supply) : g.Taken g [] := ⟨rfl, rfl, rfl⟩

theorem append (h : g.Taken g' vs) (h' : g'.Taken g'' ws) : g.Taken g'' (vs ++ ws) where
  next := by
    have hv := h.next
    have hw := h'.next
    simp only [List.length_append]
    omega
  ids := by
    rw [List.map_append, h.ids, h'.ids, h.next, List.length_append]
    simp
  stem := h'.stem.trans h.stem

theorem later (h : g.Taken g' vs) : g.Later g' := by
  refine ⟨?_, h.stem⟩
  rw [h.next]
  exact Nat.le_add_right _ _

theorem id_of_mem (h : g.Taken g' vs) (hv : v ∈ vs) : g.next ≤ v.id ∧ v.id < g'.next := by
  have hid := List.mem_map_of_mem (f := TyVar.id) hv
  rw [h.ids, List.mem_range'_1] at hid
  rw [h.next]
  exact hid

theorem nodup (h : g.Taken g' vs) : vs.Nodup := by
  refine List.Nodup.of_map TyVar.id ?_
  rw [h.ids]
  exact List.nodup_range'

end Supply.Taken

namespace Supply.TakenAlike

variable {g g' m m' n n' : Supply} {vs vs' ws ws' : List TyVar}

theorem nil (g g' : Supply) : TakenAlike g g g' g' [] [] where
  left := .nil g
  right := .nil g'
  sorts := .nil
  names _ hcount := ⟨rfl, hcount⟩

theorem append (h : TakenAlike g m g' m' vs vs') (h' : TakenAlike m n m' n' ws ws') :
    TakenAlike g n g' n' (vs ++ ws) (vs' ++ ws') where
  left := h.left.append h'.left
  right := h.right.append h'.right
  sorts := List.rel_append h.sorts (h'.sorts.imp fun _ _ => .earlier h.left.stem h.right.stem)
  names hstem hcount := by
    obtain ⟨hvs, hm⟩ := h.names hstem hcount
    obtain ⟨hws, hn⟩ := h'.names (by rw [h.left.stem, h.right.stem, hstem]) hm
    rw [List.map_append, List.map_append, hvs, hws]
    exact ⟨rfl, hn⟩

end Supply.TakenAlike

section

variable {α β γ δ : Type}

/-- How reading ends from two supplies: with the same fault, or with answers of which `Q`
holds. -/
def Reads (x x' : ParseM α) (Q : α → α → List TyVar → List TyVar → Prop) : Prop :=
  ∀ g g', match x g, x' g' with
    | .ok a m, .ok a' m' => ∃ vs vs', Supply.TakenAlike g m g' m' vs vs' ∧ Q a a' vs vs'
    | .error e m, .error e' m' => e = e' ∧ g.Later m ∧ g'.Later m'
    | _, _ => False

theorem Reads.pure {a a' : α} {Q : α → α → List TyVar → List TyVar → Prop} (h : Q a a' [] []) :
    Reads (Pure.pure a) (Pure.pure a') Q :=
  fun g g' => ⟨[], [], .nil g g', h⟩

theorem reads_iff {x x' : ParseM α} {Q : α → α → List TyVar → List TyVar → Prop} :
    Reads x x' Q ↔ ∀ g g',
    EndAlike (fun a a' m m' => ∃ vs vs', Supply.TakenAlike g m g' m' vs vs' ∧ Q a a' vs vs')
      (fun e e' m m' => e = e' ∧ g.Later m ∧ g'.Later m') (x g) (x' g') := by
  refine forall_congr' fun g => forall_congr' fun g' => ?_
  cases x g <;> cases x' g' <;> exact Iff.rfl

theorem Reads.bind {x x' : ParseM α} {f f' : α → ParseM β}
    {Q : α → α → List TyVar → List TyVar → Prop} {P : β → β → List TyVar → List TyVar → Prop}
    (hx : Reads x x' Q)
    (hf : ∀ a a' vs vs', Q a a' vs vs' →
      Reads (f a) (f' a') fun b b' ws ws' => P b b' (vs ++ ws) (vs' ++ ws')) :
    Reads (x >>= f) (x' >>= f') P := by
  refine reads_iff.mpr fun g g' => (reads_iff.mp hx g g').bind ?_
  rintro a a' m m' ⟨vs, vs', ht, hQ⟩
  refine (reads_iff.mp (hf a a' vs vs' hQ) m m').imp ?_ ?_
  · rintro b b' n n' ⟨ws, ws', hw, hP⟩
    exact ⟨vs ++ ws, vs' ++ ws', ht.append hw, hP⟩
  · rintro e e' n n' ⟨he, hn, hn'⟩
    exact ⟨he, ht.left.later.trans hn, ht.right.later.trans hn'⟩

variable [HasVars α] [HasVars β] [HasVars γ] [HasVars δ]

/-- All variables of `a` are those of the list, and each of its places is filled from the other
list in `a'`. -/
structure Twin (a a' : α) (vs vs' : List TyVar) : Prop where
  length : vs.length = vs'.length
  perm : vs.Perm (vars a)
  renamed : ∀ f, vs.map f = vs' → a' = rename f a

/-- The same is read from two supplies, up to the variables that are taken for it. -/
structure ReadAlike (g m g' m' : Supply) (a a' : α) (vs vs' : List TyVar) : Prop extends
    Supply.TakenAlike g m g' m' vs vs' where
  twin : Twin a a' vs vs'

theorem Twin.pair {a a' : α} {b b' : β} {vs vs' ws ws' : List TyVar} (ha : Twin a a' vs vs')
    (hb : Twin b b' ws ws') : Twin (a, b) (a', b') (vs ++ ws) (vs' ++ ws') where
  length := by rw [List.length_append, List.length_append, ha.length, hb.length]
  perm := ha.perm.append hb.perm
  renamed f hf := by
    rw [List.map_append] at hf
    obtain ⟨hv, hw⟩ := List.append_inj hf (by rw [List.length_map, ha.length])
    rw [ha.renamed f hv, hb.renamed f hw]
    rfl

/-- A function that keeps all variables where they are. -/
structure Natural (h : α → β) : Prop where
  perm : ∀ a, (vars a).Perm (vars (h a))
  rename : ∀ f a, rename f (h a) = h (rename f a)

theorem Twin.map {h : α → β} (hh : Natural h) {a a' : α} {vs vs' : List TyVar}
    (ha : Twin a a' vs vs') : Twin (h a) (h a') vs vs' where
  length := ha.length
  perm := ha.perm.trans (hh.perm a)
  renamed f hf := by rw [ha.renamed f hf, hh.rename]

/-- Reading depends on the supply only as far as variables go. -/
def Parses (x : ParseM α) : Prop := Reads x x Twin

namespace Parses

variable {x : ParseM α} {y : ParseM β} {z : ParseM γ}

theorem throw (e : ParseError) : Parses (throw e : ParseM α) :=
  fun g g' => ⟨rfl, .refl g, .refl g'⟩

theorem pure {a : α} (hv : vars a = []) (hr : ∀ f, rename f a = a) : Parses (Pure.pure a) :=
  Reads.pure ⟨rfl, by rw [hv], fun f _ => (hr f).symm⟩

theorem map {h : α → β} (hx : Parses x) (hh : Natural h) :
    Parses (x >>= fun a => Pure.pure (h a)) := by
  refine Reads.bind hx fun a a' vs vs' ha => .pure ?_
  simpa using ha.map hh

theorem map₂ {h : α → β → γ} (hx : Parses x) (hy : Parses y)
    (hh : Natural fun p : α × β => h p.1 p.2) :
    Parses (x >>= fun a => y >>= fun b => Pure.pure (h a b)) := by
  refine Reads.bind hx fun a a' vs vs' ha => Reads.bind hy fun b b' ws ws' hb => .pure ?_
  simpa using (ha.pair hb).map hh

theorem map₃ {h : α → β → γ → δ} (hx : Parses x) (hy : Parses y) (hz : Parses z)
    (hh : Natural fun p : α × β × γ => h p.1 p.2.1 p.2.2) :
    Parses (x >>= fun a => y >>= fun b => z >>= fun c => Pure.pure (h a b c)) := by
  refine Reads.bind hx fun a a' vs vs' ha => Reads.bind hy fun b b' ws ws' hb =>
    Reads.bind hz fun c c' us us' hc => .pure ?_
  simpa using (ha.pair (hb.pair hc)).map hh

theorem bind_throw (hx : Parses x) (e : ParseError) :
    Parses (x >>= fun _ => (MonadExcept.throw e : ParseM β)) :=
  Reads.bind hx fun _ _ _ _ _ m m' => ⟨rfl, .refl m, .refl m'⟩

end Parses

namespace Parses

variable {x : ParseM α} {g m : Supply} {a : α}

/-- What has been read mentions exactly the variables taken meanwhile, each in one place. -/
theorem taken (hx : Parses x) (h : x g = .ok a m) : ∃ vs, g.Taken m vs ∧ vs.Perm (vars a) := by
  have hg := hx g g
  rw [h] at hg
  obtain ⟨vs, _, ht, htwin⟩ := hg
  exact ⟨vs, ht.left, htwin.perm⟩

/-- What can be read from one supply can be read from another. -/
theorem counterpart (hx : Parses x) (h : x g = .ok a m) (g' : Supply) :
    ∃ a' m' vs vs', x g' = .ok a' m' ∧ ReadAlike g m g' m' a a' vs vs' := by
  have hg := hx g g'
  rw [h] at hg
  cases hr : x g' with
  | ok a' m' =>
    rw [hr] at hg
    obtain ⟨vs, vs', ht, htwin⟩ := hg
    exact ⟨a', m', vs, vs', rfl, ht, htwin⟩
  | error e m' =>
    rw [hr] at hg
    exact hg.elim

/-- What is wrong is the same for all supplies. -/
theorem fault {e : ParseError} (hx : Parses x) (h : x g = .error e m) (g' : Supply) :
    ∃ m', x g' = .error e m' := by
  have hg := hx g g'
  rw [h] at hg
  cases hr : x g' with
  | ok a m' =>
    rw [hr] at hg
    exact hg.elim
  | error e' m' =>
    rw [hr] at hg
    exact ⟨m', by rw [hg.1]⟩

theorem later (hx : Parses x) (g : Supply) : g.Later (endState (x g)) := by
  have hg := hx g g
  cases hr : x g with
  | ok a m =>
    rw [hr] at hg
    obtain ⟨vs, _, ht, _⟩ := hg
    exact ht.left.later
  | error e m =>
    rw [hr] at hg
    exact hg.2.1

theorem next_le_of_ok (hx : Parses x) (h : x g = .ok a m) : g.next ≤ m.next := by
  obtain ⟨vs, ht, _⟩ := hx.taken h
  exact ht.later.next_le

theorem id_of_mem (hx : Parses x) (h : x g = .ok a m) {v : TyVar} (hv : v ∈ vars a) :
    g.next ≤ v.id ∧ v.id < m.next := by
  obtain ⟨vs, ht, hp⟩ := hx.taken h
  exact ht.id_of_mem (hp.mem_iff.mpr hv)

end Parses

theorem natural_cons : Natural fun p : α × List α => p.1 :: p.2 where
  perm a := by simp [HasVars.vars]
  rename f a := by simp [HasVars.rename]

theorem natural_append : Natural fun p : List α × List α => p.1 ++ p.2 where
  perm a := by simp [HasVars.vars]
  rename f a := by simp [HasVars.rename]

theorem natural_singleton : Natural fun a : α => [a] where
  perm a := by simp [HasVars.vars]
  rename f a := by simp [HasVars.rename]

theorem natural_pair : Natural fun p : α × β => (p.1, p.2) where
  perm _ := .refl _
  rename _ _ := rfl

end

/-- A numbered variable depends on the supply for its number only. -/
theorem parses_numbered : Parses ParseM.numbered := by
  intro g g'
  refine ⟨[g.numbered.1], [g'.numbered.1],
    ⟨⟨rfl, rfl, rfl⟩, ⟨rfl, rfl, rfl⟩, .cons (.inr ⟨⟨_, rfl⟩, ⟨_, rfl⟩⟩) .nil,
      fun hstem hcount => ?_⟩,
    rfl, .refl _, fun f hf => ?_⟩
  · simp [Supply.numbered, hstem, hcount]
  have hv : f g.numbered.1 = g'.numbered.1 := by simpa using hf
  exact congrArg Ty.var hv.symm

theorem parses_named (name : String) :
    Parses (do return .var (← modifyGet (Supply.named · name)) : ParseM Ty) := by
  intro g g'
  refine ⟨[(g.named name).1], [(g'.named name).1],
    ⟨⟨rfl, rfl, rfl⟩, ⟨rfl, rfl, rfl⟩, .cons (.inl rfl) .nil, fun _ hcount => ⟨rfl, hcount⟩⟩,
    rfl, .refl _, fun f hf => ?_⟩
  have hv : f (g.named name).1 = (g'.named name).1 := by simpa using hf
  exact congrArg Ty.var hv.symm

namespace Ty

section

variable {P : {α : Type} → ParseM α → Prop} (pure : ∀ {α : Type} (a : α), P (Pure.pure a))
  (throw : ∀ {α : Type} {e : ParseError}, (∀ e', e ≠ .unreadable e') → P (throw e : ParseM α))
  (bind : ∀ {α β : Type} {x : ParseM α} {f : α → ParseM β}, P x → (∀ a, P (f a)) → P (x >>= f))
  (named : ∀ name, P (modifyGet (Supply.named · name) : ParseM TyVar))

/-- Whatever is kept by putting computations together one after the other. -/
def ReadLaw.steps : ReadLaw where
  Holds _ x := P x
  fault _ h := throw h
  base _ := pure _
  var _ _ := bind (named _) fun _ => pure _
  pair hl hr := bind hl fun _ => bind hr fun _ => pure _
  thunk hr := bind hr fun _ => pure _
  proc hr hps := bind hr fun _ => bind hps fun _ => pure _
  unseparated h hr := bind hr fun _ => throw h
  params_nil _ := pure _
  params_cons ht hts := bind ht fun _ => bind hts fun _ => pure _
  last_one h := h
  last_cons h := h

include pure throw bind named

/-- What holds of every step that a type is read in holds of the whole. -/
theorem steps (d : Datum) : P (ofDatum d) :=
  (ReadLaw.steps pure throw bind named).reads (.ty d)

end

theorem natural_pair : Natural fun p : Ty × Ty => Ty.pair p.1 p.2 where
  perm a := by simp [HasVars.vars]
  rename f a := by simp [HasVars.rename]

theorem natural_thunk : Natural fun r : Ty => Ty.proc [] r where
  perm a := by simp [HasVars.vars]
  rename f a := by simp [HasVars.rename]

theorem natural_proc : Natural fun p : Ty × List Ty => Ty.proc p.2 p.1 where
  perm a := by simpa [HasVars.vars] using List.perm_append_comm
  rename f a := by simp [HasVars.rename]

def Source.Parses {α : Type} : Source α → ParseM α → Prop
  | .ty _, x => TypedL5.Parses x
  | .params _, x => TypedL5.Parses x
  | .last _, x => TypedL5.Parses x

def ReadLaw.parses : ReadLaw where
  Holds := Source.Parses
  fault s _ := by cases s <;> exact .throw _
  base _ := .pure rfl fun _ => rfl
  var _ _ := parses_named _
  pair hl hr := Parses.map₂ hl hr natural_pair
  thunk hr := Parses.map hr natural_thunk
  proc hr hps := Parses.map₂ hr hps natural_proc
  unseparated _ hr := Parses.bind_throw hr _
  params_nil _ := .pure rfl fun _ => rfl
  params_cons ht hts := Parses.map₂ ht hts natural_cons
  last_one h := h
  last_cons h := h

theorem parses (d : Datum) : Parses (ofDatum d) := ReadLaw.parses.reads (.ty d)

theorem parses_read (source : String) : Parses (read source) := by
  unfold read
  split
  · exact parses _
  · exact .throw _

theorem parses_ofWritten (d : Datum) : Parses (ofWritten d) := by
  unfold ofWritten
  split
  · exact parses_read _
  · exact parses _

end Ty

theorem Decl.natural_mk (x : String) : Natural fun t : Ty => Decl.mk x t where
  perm _ := .refl _
  rename _ _ := rfl

namespace Exp

theorem natural_ite : Natural fun p : Exp × Exp × Exp => Exp.ite p.1 p.2.1 p.2.2 where
  perm a := by simp [HasVars.vars, tys]
  rename f a := by simp [HasVars.rename, mapTy]

theorem natural_lambda :
    Natural fun p : List Decl × Ty × List Exp => Exp.lambda p.1 p.2.1 p.2.2 where
  perm a := by
    simp [HasVars.vars, tys, tysAll_eq_flatMap, List.flatMap_map, List.flatMap_assoc]
  rename f a := by simp [HasVars.rename, mapTy, mapTyAll_eq_map]

theorem natural_app : Natural fun p : Exp × List Exp => Exp.app p.1 p.2 where
  perm a := by simp [HasVars.vars, tys, tysAll_eq_flatMap, List.flatMap_assoc]
  rename f a := by simp [HasVars.rename, mapTy, mapTyAll_eq_map]

theorem natural_letIn : Natural fun p : List (Decl × Exp) × List Exp => Exp.letIn p.1 p.2 where
  perm a := by
    simp [HasVars.vars, tys, tysAll_eq_flatMap, tysBound_eq_flatMap, List.flatMap_assoc]
  rename f a := by simp [HasVars.rename, mapTy, mapTyAll_eq_map, mapTyBound_eq_map]

theorem natural_letrec :
    Natural fun p : List (Decl × Exp) × List Exp => Exp.letrec p.1 p.2 where
  perm a := by
    simp [HasVars.vars, tys, tysAll_eq_flatMap, tysBound_eq_flatMap, List.flatMap_assoc]
  rename f a := by simp [HasVars.rename, mapTy, mapTyAll_eq_map, mapTyBound_eq_map]

theorem natural_assign (x : String) : Natural fun e : Exp => Exp.assign x e where
  perm _ := .refl _
  rename _ _ := rfl

theorem natural_define : Natural fun p : Decl × Exp => Exp.define p.1 p.2 where
  perm _ := .refl _
  rename _ _ := rfl

theorem natural_program : Natural fun es : List Exp => Exp.program es where
  perm a := by simp [HasVars.vars, tys, tysAll_eq_flatMap, List.flatMap_assoc]
  rename f a := by simp [HasVars.rename, mapTy, mapTyAll_eq_map]

theorem natural_ofBody : Natural fun p : Ty × Exp × List Exp => (p.1, p.2.1 :: p.2.2) where
  perm a := by simp [HasVars.vars]
  rename f a := by simp [HasVars.rename]

theorem natural_binding :
    Natural fun p : Decl × Exp × List (Decl × Exp) => (p.1, p.2.1) :: p.2.2 where
  perm a := by simp [HasVars.vars]
  rename f a := by simp [HasVars.rename]

end Exp

def Source.Parses {α : Type} : Source α → ParseM α → Prop
  | .decl _, x => TypedL5.Parses x
  | .decls _, x => TypedL5.Parses x
  | .exp _, x => TypedL5.Parses x
  | .exps _, x => TypedL5.Parses x
  | .keyword _ _ _, x => TypedL5.Parses x
  | .bindings _ _, x => TypedL5.Parses x
  | .body _ _, x => TypedL5.Parses x
  | .form _, x => TypedL5.Parses x
  | .forms _, x => TypedL5.Parses x
  | .program _, x => TypedL5.Parses x
  | .entry _, x => TypedL5.Parses x
  | .entries _, x => TypedL5.Parses x

/-- No variable is lost or moved when the parts of an expression are put together. -/
def ReadLaw.parses : ReadLaw where
  Holds := Source.Parses
  fault s _ := by cases s <;> exact .throw _
  bare _ := parses_numbered.map (Decl.natural_mk _)
  typed _ _ := (Ty.parses_ofWritten _).map (Decl.natural_mk _)
  decls_nil := .pure rfl fun _ => rfl
  decls_cons hd hds := Parses.map₂ hd hds natural_cons
  const _ := .pure rfl fun _ => rfl
  prim _ := .pure rfl fun _ => rfl
  var _ _ := .pure rfl fun _ => rfl
  keyword _ h := h
  app _ hf hes := Parses.map₂ hf hes Exp.natural_app
  exps_nil := .pure rfl fun _ => rfl
  exps_cons he hes := Parses.map₂ he hes natural_cons
  ite hc ht he := Parses.map₃ hc ht he Exp.natural_ite
  lambda hps hbody := Parses.map₂ hps hbody Exp.natural_lambda
  letIn _ hbs hbody := Parses.map₂ hbs hbody Exp.natural_letIn
  letrec _ hbs hbody := Parses.map₂ hbs hbody Exp.natural_letrec
  assign he := Parses.map he (Exp.natural_assign _)
  quote _ _ := .pure rfl fun _ => rfl
  bindings_nil _ := .pure rfl fun _ => rfl
  bindings_cons hd he hbs := Parses.map₃ hd he hbs Exp.natural_binding
  bodiless _ _ := (Ty.parses_ofWritten _).bind_throw _
  annotated _ _ hbody := Parses.map₂ (Ty.parses_ofWritten _) hbody natural_pair
  plain _ he hes := Parses.map₃ parses_numbered he hes Exp.natural_ofBody
  exp h := h
  define _ hd he := Parses.map₂ hd he Exp.natural_define
  forms_nil := .pure rfl fun _ => rfl
  forms_cons he hes := Parses.map₂ he hes natural_cons
  program _ hes := Parses.map hes Exp.natural_program
  entry_form he := Parses.map he natural_singleton
  entry_program _ hes := hes
  entries_nil := .pure rfl fun _ => rfl
  entries_cons hes hes' := Parses.map₂ hes hes' natural_append

namespace Exp

theorem parses_topLevel (ds : List Datum) : Parses (ofTopLevel ds) :=
  ReadLaw.parses.reads (.entries ds)

theorem parses_datumOf {β : Type} [HasVars β] {f : Datum → ParseM β} (hf : ∀ d, Parses (f d))
    (source : String) : Parses (datumOf source >>= f) := by
  unfold datumOf
  split
  · exact hf _
  · exact .throw _

theorem parses_read (source : String) : Parses (read source) :=
  parses_datumOf (fun d => ReadLaw.parses.reads (.exp d)) source

theorem parses_readForm (source : String) : Parses (readForm source) :=
  parses_datumOf (fun d => ReadLaw.parses.reads (.form d)) source

theorem parses_readProgram (source : String) : Parses (readProgram source) :=
  parses_datumOf (fun d => ReadLaw.parses.reads (.program d)) source

/-- The forms of a text are the same from any supply, up to the variables taken for them. -/
theorem parses_readTopLevel (source : String) : Parses (readTopLevel source) := by
  unfold readTopLevel
  split
  · exact parses_topLevel _
  · exact .throw _

end Exp

end TypedL5
