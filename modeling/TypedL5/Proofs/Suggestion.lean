import Mathlib.Data.List.Basic
import TypedL5.Proofs.EditDistance

/-!
The names that are offered for one that is not there. They are the nearest of the names that
are listed, in the order of their distances, and at one distance in the order of the listing.
-/
namespace TypedL5.Name

variable {x y : String} {names l : List String} {n : Nat}

/-- A name comes before another one among those to be offered for `x`: it is nearer, or as near
and listed before it. -/
def Precedes (x : String) (names : List String) (y z : String) : Prop :=
  distance x y < distance x z ∨ distance x y = distance x z ∧ names.idxOf y < names.idxOf z

theorem Precedes.asymm {z : String} (h : Precedes x names y z) : ¬ Precedes x names z y := by
  unfold Precedes at *
  omega

/-- No more than `n` of the names, all at most two edits away from `x`, in their order. None is
left out unless there are `n` that come before it. -/
structure Nearest (x : String) (names : List String) (n : Nat) (l : List String) : Prop where
  near : ∀ y ∈ l, y ∈ names ∧ distance x y ≤ 2
  sorted : l.Pairwise (Precedes x names)
  length_le : l.length ≤ n
  omitted :
    ∀ y ∈ names, distance x y ≤ 2 → y ∉ l → l.length = n ∧ ∀ z ∈ l, Precedes x names z y

/-- The candidates among some names, in the order of the names. -/
def candidates (x : String) (names : List String) : List Candidate :=
  (names.filter fun y => y ≠ x ∧ distance x y ≤ 2).map fun y => (distance x y, y)

/-- Every other name near enough is kept, with its distance. -/
theorem mem_candidates {p : Candidate} :
    p ∈ candidates x names ↔ (p.2 ∈ names ∧ p.2 ≠ x) ∧ p.1 ≤ 2 ∧ p.1 = distance x p.2 := by
  obtain ⟨d, y⟩ := p
  simp only [candidates, List.mem_map, List.mem_filter, decide_eq_true_eq, Prod.mk.injEq]
  constructor
  · rintro ⟨y, ⟨hy, hne, hnear⟩, rfl, rfl⟩
    exact ⟨⟨hy, hne⟩, hnear, rfl⟩
  · rintro ⟨⟨hy, hne⟩, hnear, rfl⟩
    exact ⟨y, ⟨hy, hne, hnear⟩, rfl, rfl⟩

/-- One turn of the loop over the names. -/
theorem consider_eq (x : String) (found : List Candidate) (y : String) :
    consider x found y = found ++ candidates x [y] := by
  unfold consider candidates
  by_cases hy : y = x
  · simp [hy]
  · by_cases hnear : distance x y ≤ 2 <;> simp [hy, hnear]

/-- The whole loop. -/
theorem foldl_consider (x : String) (found : List Candidate) (names : List String) :
    names.foldl (consider x) found = found ++ candidates x names := by
  induction names generalizing found with
  | nil => simp [candidates]
  | cons y names ih =>
    rw [List.foldl_cons, ih, consider_eq, List.append_assoc]
    simp only [candidates, ← List.map_append, ← List.filter_append, List.singleton_append]

section Sorting

variable {p : Candidate} {l l' : List Candidate} {R : Candidate → Candidate → Prop}

/-- A candidate goes right behind those that are nearer. -/
theorem insertNear_append (h : ∀ q ∈ l, q.1 < p.1) (h' : ∀ q ∈ l', p.1 ≤ q.1) :
    insertNear p (l ++ l') = l ++ p :: l' := by
  induction l with
  | nil =>
    cases l' with
    | nil => rfl
    | cons q l' => exact if_pos (h' q List.mem_cons_self)
  | cons q l ih =>
    have hq : ¬ p.1 ≤ q.1 := Nat.not_le.mpr (h q List.mem_cons_self)
    rw [List.cons_append, insertNear, if_neg hq, ih fun r hr =>
      h r (List.mem_cons_of_mem q hr)]
    rfl

theorem nearer_trans (p q r : Candidate) (h : decide (p.1 ≤ q.1)) (h' : decide (q.1 ≤ r.1)) :
    decide (p.1 ≤ r.1) := by
  simp only [decide_eq_true_eq] at *
  exact Nat.le_trans h h'

theorem nearer_total (p q : Candidate) :
    (decide (p.1 ≤ q.1) || decide (q.1 ≤ p.1)) = true := by
  simpa using Nat.le_total p.1 q.1

/-- Where a stable sort puts the first candidate: before all others at its distance. -/
theorem exists_mergeSort_cons (p : Candidate) (l : List Candidate) :
    ∃ near far, ((p :: l).mergeSort fun p q => p.1 ≤ q.1) = near ++ p :: far ∧
      (l.mergeSort fun p q => p.1 ≤ q.1) = near ++ far ∧
        (∀ q ∈ near, q.1 < p.1) ∧ ∀ q ∈ far, p.1 ≤ q.1 := by
  obtain ⟨near, far, hsorted, hrest, hnear⟩ :=
    List.mergeSort_cons nearer_trans nearer_total p l
  refine ⟨near, far, hsorted, hrest, fun q hq => by simpa using hnear q hq, fun q hq => ?_⟩
  have hordered := List.pairwise_mergeSort nearer_trans nearer_total (p :: l)
  rw [hsorted] at hordered
  simpa using (List.pairwise_cons.mp (List.pairwise_append.mp hordered).2.1).1 q hq

/-- The sort is the library's stable one. -/
theorem sortByDistance_eq_mergeSort (l : List Candidate) :
    sortByDistance l = l.mergeSort fun p q => p.1 ≤ q.1 := by
  induction l with
  | nil => rw [List.mergeSort_nil, sortByDistance, List.foldr_nil]
  | cons p l ih =>
    obtain ⟨near, far, hsorted, hrest, hnear, hfar⟩ := exists_mergeSort_cons p l
    rw [sortByDistance, List.foldr_cons, ← sortByDistance, ih, hrest, hsorted]
    exact insertNear_append hnear hfar

theorem sortByDistance_perm (l : List Candidate) : (sortByDistance l).Perm l := by
  rw [sortByDistance_eq_mergeSort]
  exact List.mergeSort_perm l _

/-- A candidate comes before another one: it is nearer, or as near and before it by `R`. -/
def Candidate.Before (R : Candidate → Candidate → Prop) (p q : Candidate) : Prop :=
  p.1 < q.1 ∨ p.1 = q.1 ∧ R p q

/-- Candidates are sorted by their distances, and those at one distance stay in the order in
which they are given. -/
theorem pairwise_sortByDistance (h : l.Pairwise R) :
    (sortByDistance l).Pairwise (Candidate.Before R) := by
  induction l with
  | nil => exact List.Pairwise.nil
  | cons p l ih =>
    obtain ⟨hp, hl⟩ := List.pairwise_cons.mp h
    obtain ⟨near, far, hsorted, hrest, hnear, hfar⟩ := exists_mergeSort_cons p l
    rw [← sortByDistance_eq_mergeSort] at hsorted hrest
    have hordered := ih hl
    rw [hrest] at hordered
    obtain ⟨hordered, hordered', hacross⟩ := List.pairwise_append.mp hordered
    have hfirst : ∀ q ∈ far, Candidate.Before R p q := fun q hq => by
      have hmem : q ∈ sortByDistance l := hrest ▸ List.mem_append_right near hq
      have hR : R p q := hp q ((sortByDistance_perm l).mem_iff.mp hmem)
      exact (Nat.lt_or_eq_of_le (hfar q hq)).imp_right fun he => ⟨he, hR⟩
    rw [hsorted]
    refine List.pairwise_append.mpr ⟨hordered, .cons hfirst hordered', fun q hq r hr => ?_⟩
    obtain rfl | hr := List.mem_cons.mp hr
    · exact .inl (hnear q hq)
    · exact hacross q hq r hr

end Sorting

/-- The names of all candidates, the nearer ones first. -/
def allSimilar (x : String) (names : List String) : List String :=
  (ranked x names).map Prod.snd

theorem ranked_eq (x : String) (names : List String) :
    ranked x names = sortByDistance (candidates x names) := by
  rw [ranked, foldl_consider, List.nil_append]

theorem mem_ranked {p : Candidate} : p ∈ ranked x names ↔ p ∈ candidates x names := by
  rw [ranked_eq]
  exact (sortByDistance_perm _).mem_iff

/-- All names within two edits are offered, and no others. -/
theorem mem_allSimilar (hx : x ∉ names) :
    y ∈ allSimilar x names ↔ y ∈ names ∧ distance x y ≤ 2 := by
  simp only [allSimilar, List.mem_map, mem_ranked, mem_candidates]
  constructor
  · rintro ⟨p, ⟨⟨hy, _⟩, hnear, hd⟩, rfl⟩
    exact ⟨hy, hd ▸ hnear⟩
  · rintro ⟨hy, hnear⟩
    exact ⟨(distance x y, y), ⟨⟨hy, ne_of_mem_of_not_mem hy hx⟩, hnear, rfl⟩, rfl⟩

theorem pairwise_idxOf (h : names.Nodup) :
    names.Pairwise fun y z => names.idxOf y < names.idxOf z := by
  rw [List.pairwise_iff_getElem]
  intro i j hi hj hij
  rwa [h.idxOf_getElem, h.idxOf_getElem]

theorem pairwise_candidates (h : names.Nodup) :
    (candidates x names).Pairwise fun p q => names.idxOf p.2 < names.idxOf q.2 :=
  List.pairwise_map.mpr ((pairwise_idxOf h).sublist List.filter_sublist)

/-- The nearer come first, and among equals those that are listed first. -/
theorem pairwise_allSimilar (h : names.Nodup) :
    (allSimilar x names).Pairwise (Precedes x names) := by
  have hsorted := pairwise_sortByDistance (pairwise_candidates (x := x) h)
  rw [← ranked_eq] at hsorted
  refine List.pairwise_map.mpr (hsorted.imp_of_mem fun hp hq hbefore => ?_)
  obtain ⟨_, _, hd⟩ := mem_candidates.mp (mem_ranked.mp hp)
  obtain ⟨_, _, hd'⟩ := mem_candidates.mp (mem_ranked.mp hq)
  rw [Precedes, ← hd, ← hd']
  exact hbefore

theorem similar_eq_take (x : String) (names : List String) (n : Nat) :
    similar x names n = (allSimilar x names).take n := by
  simp [similar, limited, allSimilar, List.map_take]

theorem nearest_similar (h : names.Nodup) (hx : x ∉ names) (n : Nat) :
    Nearest x names n (similar x names n) := by
  rw [similar_eq_take]
  have hsorted : (allSimilar x names).Pairwise (Precedes x names) := pairwise_allSimilar h
  rw [← List.take_append_drop n (allSimilar x names)] at hsorted
  obtain ⟨htaken, _, hacross⟩ := List.pairwise_append.mp hsorted
  refine ⟨fun y hy => (mem_allSimilar hx).mp (List.mem_of_mem_take hy), htaken,
    List.length_take_le _ _, ?_⟩
  intro y hy hnear hnot
  have hdropped : y ∈ (allSimilar x names).drop n := by
    have hmem : y ∈ allSimilar x names := (mem_allSimilar hx).mpr ⟨hy, hnear⟩
    rw [← List.take_append_drop n (allSimilar x names), List.mem_append] at hmem
    exact hmem.resolve_left hnot
  refine ⟨?_, fun z hz => hacross z hz y hdropped⟩
  have hlength := List.length_pos_of_mem hdropped
  rw [List.length_drop] at hlength
  rw [List.length_take]
  omega

theorem nodup_of_sorted (h : l.Pairwise (Precedes x names)) : l.Nodup := by
  refine h.imp fun hyz he => ?_
  subst he
  exact hyz.asymm hyz

theorem Nearest.of_mem_filter (h : Nearest x names n l) (hx : x ∉ names)
    (hy : y ∈ (allSimilar x names).filter (· ∉ l)) : l.length = n ∧
      ∀ z ∈ l, Precedes x names z y := by
  obtain ⟨hmem, hnot⟩ := List.mem_filter.mp hy
  obtain ⟨hy, hnear⟩ := (mem_allSimilar hx).mp hmem
  exact h.omitted y hy hnear (by simpa using hnot)

/-- What such a list leaves out comes after it. -/
theorem Nearest.exists_append (h : Nearest x names n l) (hnames : names.Nodup)
    (hx : x ∉ names) :
    ∃ rest, l ++ rest = allSimilar x names ∧ (rest ≠ [] → l.length = n) := by
  have hall : (allSimilar x names).Pairwise (Precedes x names) := pairwise_allSimilar hnames
  refine ⟨(allSimilar x names).filter (· ∉ l), ?_, fun hne => ?_⟩
  · have hsorted : (l ++ (allSimilar x names).filter (· ∉ l)).Pairwise (Precedes x names) := by
      refine List.pairwise_append.mpr
        ⟨h.sorted, hall.sublist List.filter_sublist, fun z hz y hy => ?_⟩
      exact (h.of_mem_filter hx hy).2 z hz
    -- Both lists are in the one order and have the same members, so they are the same list.
    refine List.Perm.eq_of_pairwise (fun _ _ _ _ hyz hzy => absurd hzy hyz.asymm)
      hsorted hall ?_
    refine (List.perm_ext_iff_of_nodup (nodup_of_sorted hsorted) (nodup_of_sorted hall)).mpr
      fun y => ?_
    have hl : y ∈ l → y ∈ allSimilar x names := fun hy => (mem_allSimilar hx).mpr (h.near y hy)
    simp only [List.mem_append, List.mem_filter, decide_eq_true_eq]
    tauto
  · obtain ⟨y, hy⟩ := List.exists_mem_of_ne_nil _ hne
    exact (h.of_mem_filter hx hy).1

/-- There is only one such list. -/
theorem Nearest.eq_similar (h : Nearest x names n l) (hnames : names.Nodup) (hx : x ∉ names) :
    l = similar x names n := by
  obtain ⟨rest, hall, hfull⟩ := h.exists_append hnames hx
  rw [similar_eq_take, ← hall]
  by_cases hrest : rest = []
  · rw [hrest, List.append_nil, List.take_of_length_le h.length_le]
  · rw [← hfull hrest, List.take_left]

end TypedL5.Name
