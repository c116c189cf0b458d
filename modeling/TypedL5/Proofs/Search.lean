import TypedL5.Proofs.Footprint
import TypedL5.Proofs.Halting

/-!
The search for a variable, as a loop over the types that are pending. It keeps no note of what
it has looked at, so a type that is met again is searched again, and on a cycle there would be
no end to it. In a store without cycles the loop ends, and it answers whether the variable can
be come to.
-/
namespace TypedL5.Store

open Relation (ReflTransGen)

variable {s : Store} {t u : Ty} {v : TyVar} {pending next : List Ty} {b : Bool}

/-- A type leads to its parts, and a bound variable to what it is bound to. -/
inductive Shows (s : Store) : Ty → Ty → Prop
  | part {t p : Ty} : Ty.Part p t → Shows s t p
  | contents {v : TyVar} {t : Ty} : s.contents? v = some t → Shows s (.var v) t

theorem mem_successors : u ∈ s.successors t ↔ s.Shows t u := by
  constructor
  · intro h
    cases t with
    | base b => simp [successors] at h
    | var v => exact .contents (by simpa [successors] using h)
    | pair l r =>
      simp only [successors, List.mem_cons, List.not_mem_nil, or_false] at h
      rcases h with rfl | rfl
      · exact .part (.right _ _)
      · exact .part (.left _ _)
    | proc ps r =>
      simp only [successors, List.mem_cons, List.mem_reverse] at h
      rcases h with rfl | h
      · exact .part (.result _ _)
      · exact .part (.param _ h)
  · intro h
    cases h with
    | part h => cases h <;> simp_all [successors]
    | contents h => simp [successors, h]

/-- What can be come to is what a row of such steps leads to. -/
theorem reaches_iff_shown (hs : s.Acyclic) :
    s.Reaches t v ↔ ReflTransGen s.Shows t (.var v) := by
  induction t using hs.successor_induction with
  | h t ih =>
    rw [reaches_iff_successor, ReflTransGen.cases_head_iff]
    refine or_congr Iff.rfl (exists_congr fun u => ?_)
    rw [← mem_successors]
    exact and_congr_right (ih u)

/-- A turn of the search loses nothing. From what is pending after it the variable can be come
to exactly if it could be before. -/
theorem reaches_of_turn (h : s.search? v pending = some next) :
    (∃ t ∈ next, s.Reaches t v) ↔ ∃ t ∈ pending, s.Reaches t v := by
  cases pending with
  | nil => cases h
  | cons t pending =>
    rw [search?] at h
    split at h
    case isTrue => cases h
    case isFalse ht =>
      cases h
      simp only [List.mem_append, List.mem_cons, or_and_right, exists_or, exists_eq_left,
        reaches_iff_of_ne ht]

theorem reaches_of_turns (h : ReflTransGen (fun p q => s.search? v p = some q) pending next) :
    (∃ t ∈ next, s.Reaches t v) ↔ ∃ t ∈ pending, s.Reaches t v := by
  induction h with
  | refl => rfl
  | tail _ hturn ih => rw [reaches_of_turn hturn, ih]

/-- The search stops upon the variable, or when nothing is pending. -/
theorem reaches_of_stop (h : s.search? v pending = none) :
    pending.head? = some (.var v) ↔ ∃ t ∈ pending, s.Reaches t v := by
  cases pending with
  | nil => simp
  | cons t pending =>
    rw [search?] at h
    split at h
    case isTrue ht =>
      subst ht
      simpa using .inl (reaches_iff_successor.mpr (.inl rfl))
    case isFalse => cases h

/-- The search among the types that are pending ends, and answers whether it has come upon the
variable. -/
def Searches (s : Store) (v : TyVar) (pending : List Ty) (b : Bool) : Prop :=
  ∃ last, Runs (s.search? v) pending last ∧ b = decide (last.head? = some (.var v))

/-- If there is an answer, it is right in any store. -/
theorem Searches.answer (h : s.Searches v pending b) :
    b = true ↔ ∃ t ∈ pending, s.Reaches t v := by
  obtain ⟨last, ⟨hturns, hstop⟩, rfl⟩ := h
  rw [decide_eq_true_eq, reaches_of_stop hstop, reaches_of_turns hturns]

theorem searches_iff (hs : s.Acyclic) : s.Searches v [t] b ↔ b = s.occurs v t := by
  have hanswer : ∀ {b}, s.Searches v [t] b → b = s.occurs v t := by
    intro b h
    rw [Bool.eq_iff_iff, h.answer, occurs_iff hs]
    simp
  refine ⟨hanswer, ?_⟩
  rintro rfl
  obtain ⟨last, hruns, _⟩ := runs_search hs v t
  have hsearches : s.Searches v [t] (decide (last.head? = some (.var v))) := ⟨last, hruns, rfl⟩
  rwa [← hanswer hsearches]

/-- In a store without cycles the search for a variable ends. It finds the variable exactly if
a row of steps to parts and to what variables are bound to leads there. For a variable that is
not bound, that is to stand in the resolved type, in which no variable is bound. -/
theorem search_decides (hs : s.Acyclic) (v : TyVar) (t : Ty) :
    (∀ b, s.Searches v [t] b ↔ b = s.occurs v t) ∧
      (s.occurs v t = true ↔ ReflTransGen s.Shows t (.var v)) ∧
      (s.contents? v = none → (s.occurs v t = true ↔ v ∈ (s.resolve t).vars)) ∧
        ∀ w ∈ (s.resolve t).vars, s.contents? w = none := by
  refine ⟨fun b => searches_iff hs, ?_, fun hv => ?_, fun w hw => unbound_of_mem_resolve hs hw⟩
  · rw [occurs_iff hs, reaches_iff_shown hs]
  · rw [occurs_iff hs, mem_vars_resolve hs, and_iff_left hv]

/-- The bound `y` stands in four places. The search comes upon the bound `x` too, which is not
in the resolved type, and does not take another variable of the name `a` for the first one. -/
theorem search_decides_shared :
    let a : TyVar := ⟨0, "a"⟩
    let x : TyVar := ⟨1, "x"⟩
    let y : TyVar := ⟨2, "y"⟩
    let a' : TyVar := ⟨3, "a"⟩
    let s : Store := ⟨[(y, .pair (.var x) (.proc [] (.var x))), (x, .proc [.number] (.var a))]⟩
    let t : Ty := .proc [.var y, .pair (.var y) (.var y)] (.var y)
    s.Acyclic ∧ s.Searches a [t] true ∧ a ∈ (s.resolve t).vars ∧
      s.Searches x [t] true ∧ ReflTransGen s.Shows t (.var x) ∧ x ∉ (s.resolve t).vars ∧
      s.Searches a' [t] false ∧ ¬ ReflTransGen s.Shows t (.var a') ∧
        a' ∉ (s.resolve t).vars := by
  intro a x y a' s t
  have hx : Acyclic ⟨[(x, .proc [.number] (.var a))]⟩ :=
    bind_acyclic acyclic_empty rfl (not_reaches_of_occurs acyclic_empty rfl)
  have hs : s.Acyclic := bind_acyclic hx rfl (not_reaches_of_occurs hx rfl)
  obtain ⟨ha, _, hunbound, hfree⟩ := search_decides hs a t
  obtain ⟨hbound, hshown, _⟩ := search_decides hs x t
  obtain ⟨hother, hnotShown, hnotFree, _⟩ := search_decides hs a' t
  refine ⟨hs, (ha true).mpr rfl, (hunbound rfl).mp rfl, (hbound true).mpr rfl, hshown.mp rfl,
    fun h => ?_, (hother false).mpr rfl, fun h => ?_, fun h => ?_⟩
  · cases hfree x h
  · cases hnotShown.mpr h
  · cases (hnotFree rfl).mpr h

end TypedL5.Store
