import Mathlib.Order.Bounds.Defs
import TypedL5.Name

/-!
The edit distance is the least number of edits.

Edits may come in any order and may undo each other. In an alignment each character of the two
texts is met once, from left to right. Any edits give an alignment that costs no more. A
recurrence gives the cost of the best alignment, and the rows of the table hold these costs for
the prefixes of the two texts.
-/
namespace TypedL5.Name

variable {c d : Char} {cs ds es : List Char} {m n : Nat}

/-- One character is inserted, deleted or replaced. -/
inductive Edit : List Char → List Char → Prop
  | insert (before : List Char) (d : Char) (after : List Char) :
    Edit (before ++ after) (before ++ d :: after)
  | delete (before : List Char) (c : Char) (after : List Char) :
    Edit (before ++ c :: after) (before ++ after)
  | replace (before : List Char) (c d : Char) (after : List Char) :
    Edit (before ++ c :: after) (before ++ d :: after)

/-- So many edits, one after the other. -/
inductive Edits : Nat → List Char → List Char → Prop
  | done (cs : List Char) : Edits 0 cs cs
  | step {n : Nat} {cs ds es : List Char} : Edit cs ds → Edits n ds es → Edits (n + 1) cs es

/-- Two texts side by side. In at most so many places one of them has no character or another
one. -/
inductive Aligned : Nat → List Char → List Char → Prop
  | nil (n : Nat) : Aligned n [] []
  | keep {n : Nat} {cs ds : List Char} (c : Char) :
    Aligned n cs ds → Aligned n (c :: cs) (c :: ds)
  | insert {n : Nat} {cs ds : List Char} (d : Char) :
    Aligned n cs ds → Aligned (n + 1) cs (d :: ds)
  | delete {n : Nat} {cs ds : List Char} (c : Char) :
    Aligned n cs ds → Aligned (n + 1) (c :: cs) ds
  | replace {n : Nat} {cs ds : List Char} (c d : Char) :
    Aligned n cs ds → Aligned (n + 1) (c :: cs) (d :: ds)

namespace Edit

/-- An edit may be made behind a character that is kept. -/
theorem cons (c : Char) (h : Edit cs ds) : Edit (c :: cs) (c :: ds) := by
  cases h with
  | insert before d after => exact .insert (c :: before) d after
  | delete before c' after => exact .delete (c :: before) c' after
  | replace before c' d after => exact .replace (c :: before) c' d after

theorem symm (h : Edit cs ds) : Edit ds cs := by
  cases h with
  | insert before d after => exact .delete before d after
  | delete before c after => exact .insert before c after
  | replace before c d after => exact .replace before d c after

theorem reverse (h : Edit cs ds) : Edit cs.reverse ds.reverse := by
  cases h with
  | insert before d after => simpa using Edit.insert after.reverse d before.reverse
  | delete before c after => simpa using Edit.delete after.reverse c before.reverse
  | replace before c d after => simpa using Edit.replace after.reverse c d before.reverse

end Edit

namespace Edits

theorem cons (c : Char) (h : Edits n cs ds) : Edits n (c :: cs) (c :: ds) := by
  induction h with
  | done cs => exact .done (c :: cs)
  | step hedit _ ih => exact .step (hedit.cons c) ih

theorem trans (h : Edits m cs ds) (h' : Edits n ds es) : Edits (m + n) cs es := by
  induction h with
  | done cs =>
    rw [Nat.zero_add]
    exact h'
  | step hedit _ ih =>
    rw [Nat.succ_add]
    exact .step hedit (ih h')

theorem symm (h : Edits n cs ds) : Edits n ds cs := by
  induction h with
  | done cs => exact .done cs
  | step hedit _ ih => exact ih.trans (.step hedit.symm (.done _))

theorem reverse (h : Edits n cs ds) : Edits n cs.reverse ds.reverse := by
  induction h with
  | done cs => exact .done cs.reverse
  | step hedit _ ih => exact .step hedit.reverse ih

theorem eq_of_zero (h : Edits 0 cs ds) : cs = ds := by
  cases h
  rfl

end Edits

namespace Aligned

theorem mono (h : Aligned m cs ds) (hle : m ≤ n) : Aligned n cs ds := by
  induction h generalizing n with
  | nil m => exact .nil n
  | keep c _ ih => exact .keep c (ih hle)
  | insert d _ ih =>
    obtain ⟨n, rfl⟩ := Nat.exists_eq_add_of_lt hle
    exact .insert d (ih (Nat.le_add_right _ _))
  | delete c _ ih =>
    obtain ⟨n, rfl⟩ := Nat.exists_eq_add_of_lt hle
    exact .delete c (ih (Nat.le_add_right _ _))
  | replace c d _ ih =>
    obtain ⟨n, rfl⟩ := Nat.exists_eq_add_of_lt hle
    exact .replace c d (ih (Nat.le_add_right _ _))

theorem refl (cs : List Char) : Aligned 0 cs cs := by
  induction cs with
  | nil => exact .nil 0
  | cons c cs ih => exact .keep c ih

theorem append_left (before : List Char) (h : Aligned n cs ds) :
    Aligned n (before ++ cs) (before ++ ds) := by
  induction before with
  | nil => exact h
  | cons c before ih => exact .keep c ih

/-- A single edit is an alignment of cost one. -/
theorem of_edit (h : Edit cs ds) : Aligned 1 cs ds := by
  cases h with
  | insert before d after => exact append_left before (.insert d (.refl after))
  | delete before c after => exact append_left before (.delete c (.refl after))
  | replace before c d after => exact append_left before (.replace c d (.refl after))

/-- A character of the second text is kept, inserted or put in the place of another. What is
deleted before it may be deleted in any case. -/
theorem cons_right (h : Aligned m cs (d :: ds))
    (hkeep : ∀ k cs, Aligned k cs ds → Aligned (k + n) (d :: cs) es)
    (hinsert : ∀ k cs, Aligned k cs ds → Aligned (k + 1 + n) cs es)
    (hreplace : ∀ k c cs, Aligned k cs ds → Aligned (k + 1 + n) (c :: cs) es) :
    Aligned (m + n) cs es := by
  generalize htext : d :: ds = text at h
  induction h with
  | nil => cases htext
  | keep c h _ =>
    cases htext
    exact hkeep _ _ h
  | insert d h _ =>
    cases htext
    exact hinsert _ _ h
  | delete c _ ih => exact (Aligned.delete c (ih htext)).mono (by omega)
  | replace c d h _ =>
    cases htext
    exact hreplace _ c _ h

/-- Alignments compose, and so do their costs. -/
theorem trans (h : Aligned m cs ds) (h' : Aligned n ds es) : Aligned (m + n) cs es := by
  -- Over the second alignment. What it does to a character depends on where the first one has
  -- it from.
  induction h' generalizing m cs with
  | nil n => exact h.mono (Nat.le_add_right m n)
  | insert e _ ih => exact .insert e (ih h)
  | keep d _ ih =>
    apply h.cons_right
    · intro k cs h
      exact .keep d (ih h)
    · intro k cs h
      exact (Aligned.insert d (ih h)).mono (by omega)
    · intro k c cs h
      exact (Aligned.replace c d (ih h)).mono (by omega)
  | delete d _ ih =>
    apply h.cons_right
    · intro k cs h
      exact .delete d (ih h)
    · intro k cs h
      exact (ih h).mono (by omega)
    · intro k c cs h
      exact (Aligned.delete c (ih h)).mono (by omega)
  | replace d e _ ih =>
    apply h.cons_right
    · intro k cs h
      exact .replace d e (ih h)
    · intro k cs h
      exact (Aligned.insert e (ih h)).mono (by omega)
    · intro k c cs h
      exact (Aligned.replace c e (ih h)).mono (by omega)

/-- Edits in any order can be put in order, at no higher cost. -/
theorem of_edits (h : Edits n cs ds) : Aligned n cs ds := by
  induction h with
  | done cs => exact .refl cs
  | step hedit _ ih => exact ((of_edit hedit).trans ih).mono (by omega)

/-- An alignment can be carried out from left to right. -/
theorem edits (h : Aligned n cs ds) : ∃ k ≤ n, Edits k cs ds := by
  induction h with
  | nil n => exact ⟨0, Nat.zero_le n, .done []⟩
  | keep c _ ih =>
    obtain ⟨k, hk, h⟩ := ih
    exact ⟨k, hk, h.cons c⟩
  | insert d _ ih =>
    obtain ⟨k, hk, h⟩ := ih
    exact ⟨k + 1, Nat.succ_le_succ hk, .step (.insert [] d _) (h.cons d)⟩
  | delete c _ ih =>
    obtain ⟨k, hk, h⟩ := ih
    exact ⟨k + 1, Nat.succ_le_succ hk, .step (.delete [] c _) h⟩
  | replace c d _ ih =>
    obtain ⟨k, hk, h⟩ := ih
    exact ⟨k + 1, Nat.succ_le_succ hk, .step (.replace [] c d _) (h.cons d)⟩

end Aligned

/-- The cost of the best alignment, by what becomes of the first characters. -/
def alignmentCost : List Char → List Char → Nat
  | [], ds => ds.length
  | cs, [] => cs.length
  | c :: cs, d :: ds =>
    min (min (alignmentCost cs (d :: ds) + 1) (alignmentCost (c :: cs) ds + 1))
      (alignmentCost cs ds + if c = d then 0 else 1)

theorem alignmentCost_nil_left (ds : List Char) : alignmentCost [] ds = ds.length := by
  rw [alignmentCost]

theorem alignmentCost_nil_right (cs : List Char) : alignmentCost cs [] = cs.length := by
  cases cs with
  | nil => rw [alignmentCost]
  | cons c cs => rw [alignmentCost]; simp

theorem alignmentCost_cons_cons (c d : Char) (cs ds : List Char) :
    alignmentCost (c :: cs) (d :: ds) =
      min (min (alignmentCost cs (d :: ds) + 1) (alignmentCost (c :: cs) ds + 1))
        (alignmentCost cs ds + if c = d then 0 else 1) := by
  rw [alignmentCost]

theorem alignmentCost_cons_left_le (c : Char) (cs ds : List Char) :
    alignmentCost (c :: cs) ds ≤ alignmentCost cs ds + 1 := by
  cases ds with
  | nil => simp [alignmentCost_nil_right]
  | cons d ds =>
    rw [alignmentCost_cons_cons]
    omega

theorem alignmentCost_cons_right_le (d : Char) (cs ds : List Char) :
    alignmentCost cs (d :: ds) ≤ alignmentCost cs ds + 1 := by
  cases cs with
  | nil => simp [alignmentCost_nil_left]
  | cons c cs =>
    rw [alignmentCost_cons_cons]
    omega

/-- No alignment costs less. -/
theorem alignmentCost_le_of_aligned (h : Aligned n cs ds) : alignmentCost cs ds ≤ n := by
  induction h with
  | nil n => simp [alignmentCost_nil_left]
  | keep c _ ih =>
    rw [alignmentCost_cons_cons, if_pos rfl]
    omega
  | insert d _ ih =>
    exact Nat.le_trans (alignmentCost_cons_right_le d _ _) (Nat.succ_le_succ ih)
  | delete c _ ih =>
    exact Nat.le_trans (alignmentCost_cons_left_le c _ _) (Nat.succ_le_succ ih)
  | replace c d _ ih =>
    rw [alignmentCost_cons_cons]
    split <;> omega

theorem aligned_nil_left (ds : List Char) : Aligned ds.length [] ds := by
  induction ds with
  | nil => exact .nil 0
  | cons d ds ih => exact .insert d ih

theorem aligned_nil_right (cs : List Char) : Aligned cs.length cs [] := by
  induction cs with
  | nil => exact .nil 0
  | cons c cs ih => exact .delete c ih

/-- Some alignment costs as much. -/
theorem aligned_alignmentCost (cs ds : List Char) : Aligned (alignmentCost cs ds) cs ds := by
  induction cs generalizing ds with
  | nil =>
    rw [alignmentCost_nil_left]
    exact aligned_nil_left ds
  | cons c cs ihc =>
    induction ds with
    | nil =>
      rw [alignmentCost_nil_right]
      exact aligned_nil_right (c :: cs)
    | cons d ds ihd =>
      have hequation := alignmentCost_cons_cons c d cs ds
      by_cases hdelete : alignmentCost (c :: cs) (d :: ds) = alignmentCost cs (d :: ds) + 1
      · rw [hdelete]
        exact .delete c (ihc (d :: ds))
      by_cases hinsert : alignmentCost (c :: cs) (d :: ds) = alignmentCost (c :: cs) ds + 1
      · rw [hinsert]
        exact .insert d ihd
      -- what is left is the third case of the minimum
      by_cases hsame : c = d
      · subst hsame
        rw [if_pos rfl] at hequation
        have hkeep : alignmentCost (c :: cs) (c :: ds) = alignmentCost cs ds := by omega
        rw [hkeep]
        exact .keep c (ihc ds)
      · rw [if_neg hsame] at hequation
        have hreplace : alignmentCost (c :: cs) (d :: ds) = alignmentCost cs ds + 1 := by omega
        rw [hreplace]
        exact .replace c d (ihc ds)

/-- The recurrence computes the least number of edits. -/
theorem isLeast_alignmentCost (cs ds : List Char) :
    IsLeast {n | Edits n cs ds} (alignmentCost cs ds) := by
  have hlower : ∀ n, Edits n cs ds → alignmentCost cs ds ≤ n :=
    fun n h => alignmentCost_le_of_aligned (.of_edits h)
  obtain ⟨k, hk, h⟩ := (aligned_alignmentCost cs ds).edits
  have hleast := Nat.le_antisymm hk (hlower k h)
  subst hleast
  exact ⟨h, hlower⟩

/-- The cost for two prefixes, by what becomes of their last characters. -/
def prefixCost (cs ds : List Char) : Nat := alignmentCost cs.reverse ds.reverse

theorem prefixCost_nil_left (ds : List Char) : prefixCost [] ds = ds.length := by
  rw [prefixCost, List.reverse_nil, alignmentCost_nil_left, List.length_reverse]

theorem prefixCost_nil_right (cs : List Char) : prefixCost cs [] = cs.length := by
  rw [prefixCost, List.reverse_nil, alignmentCost_nil_right, List.length_reverse]

theorem prefixCost_concat (c d : Char) (cs ds : List Char) :
    prefixCost (cs ++ [c]) (ds ++ [d]) =
      min (min (prefixCost cs (ds ++ [d]) + 1) (prefixCost (cs ++ [c]) ds + 1))
        (prefixCost cs ds + if c = d then 0 else 1) := by
  simp only [prefixCost, List.reverse_concat]
  exact alignmentCost_cons_cons c d cs.reverse ds.reverse

/-- The edits of two texts are those of the reversed ones. -/
theorem isLeast_prefixCost (cs ds : List Char) :
    IsLeast {n | Edits n cs ds} (prefixCost cs ds) := by
  obtain ⟨hedits, hlower⟩ := isLeast_alignmentCost cs.reverse ds.reverse
  refine ⟨?_, fun n h => hlower h.reverse⟩
  have hback := hedits.reverse
  rwa [List.reverse_reverse, List.reverse_reverse] at hback

/-- The row of the text `cs`. For each prefix of `ds`, the empty one and `ds` itself included,
it has a cell with the cost of `cs` and that prefix. -/
structure IsRow (cs ds : List Char) (row : Array Nat) : Prop where
  size_eq : row.size = ds.length + 1
  cell : ∀ before, before <+: ds → row[before.length]? = some (prefixCost cs before)

namespace IsRow

variable {before after : List Char} {row previous current : Array Nat}

theorem getD (h : IsRow cs ds row) (hbefore : before <+: ds) :
    row.getD before.length 0 = prefixCost cs before := by
  rw [Array.getD_eq_getD_getElem?, h.cell before hbefore, Option.getD_some]

theorem back (h : IsRow cs ds row) : row.back?.getD 0 = prefixCost cs ds := by
  rw [Array.back?, h.size_eq, Nat.add_sub_cancel, h.cell ds (List.prefix_refl ds),
    Option.getD_some]

/-- The first row: from no characters, each prefix costs its length. -/
theorem range (ds : List Char) : IsRow [] ds (Array.range (ds.length + 1)) where
  size_eq := Array.size_range
  cell before hbefore := by
    have hlt : before.length < ds.length + 1 := Nat.lt_succ_of_le hbefore.length_le
    rw [prefixCost_nil_left, Array.getElem?_range, if_pos hlt]

/-- Each new row starts with the cost of deleting everything so far. -/
theorem singleton (cs : List Char) : IsRow cs [] #[cs.length] where
  size_eq := rfl
  cell before hbefore := by
    obtain rfl := List.prefix_nil.mp hbefore
    rw [prefixCost_nil_right]
    rfl

/-- One turn of the inner loop. The cells that it reads are all there. -/
theorem addCell (hprevious : IsRow cs (before ++ d :: after) previous)
    (hcurrent : IsRow (cs ++ [c]) before current) :
    IsRow (cs ++ [c]) (before ++ [d]) (addCell c previous current (d, before.length)) where
  size_eq := by simp [Name.addCell, hcurrent.size_eq]
  cell text htext := by
    have hfirst : before <+: before ++ d :: after := List.prefix_append before _
    have hnext : before ++ [d] <+: before ++ d :: after := ⟨after, by simp⟩
    have habove : previous.getD (before.length + 1) 0 = prefixCost cs (before ++ [d]) := by
      rw [← hprevious.getD hnext, List.length_append, List.length_singleton]
    have hleft : current.getD before.length 0 = prefixCost (cs ++ [c]) before :=
      hcurrent.getD (List.prefix_refl before)
    rw [Name.addCell, habove, hleft, hprevious.getD hfirst, ← prefixCost_concat]
    -- the new cell is the last one, and the others stay
    obtain rfl | htext := List.prefix_concat_iff.mp htext
    · rw [List.length_append, List.length_singleton, ← hcurrent.size_eq,
        Array.getElem?_push_size]
    · have hlt : text.length < current.size := by
        rw [hcurrent.size_eq]
        exact Nat.lt_succ_of_le htext.length_le
      rw [Array.getElem?_push_lt hlt, ← hcurrent.cell text htext,
        Array.getElem?_eq_getElem hlt]

/-- The inner loop, begun in any column. -/
theorem foldl_addCell (hprevious : IsRow cs (before ++ after) previous)
    (hcurrent : IsRow (cs ++ [c]) before current) :
    IsRow (cs ++ [c]) (before ++ after)
      ((after.zipIdx before.length).foldl (Name.addCell c previous) current) := by
  induction after generalizing before current with
  | nil => simpa using hcurrent
  | cons d after ih =>
    have hstep := hprevious.addCell hcurrent
    rw [List.append_cons before d after] at hprevious ⊢
    have hrun := ih hprevious hstep
    rwa [List.length_append, List.length_singleton] at hrun

/-- One turn of the outer loop. -/
theorem nextRow (h : IsRow cs ds previous) (c : Char) :
    IsRow (cs ++ [c]) ds (nextRow ds previous (c, cs.length)) := by
  have hstart : IsRow (cs ++ [c]) [] #[cs.length + 1] := by
    have hlength : (cs ++ [c]).length = cs.length + 1 := by simp
    rw [← hlength]
    exact singleton (cs ++ [c])
  exact foldl_addCell h hstart

/-- The outer loop, begun in any row. -/
theorem foldl_nextRow (rest : List Char) (h : IsRow cs ds previous) :
    IsRow (cs ++ rest) ds ((rest.zipIdx cs.length).foldl (Name.nextRow ds) previous) := by
  induction rest generalizing cs previous with
  | nil => simpa using h
  | cons c rest ih =>
    have hrun := ih (h.nextRow c)
    rwa [← List.append_cons, List.length_append, List.length_singleton] at hrun

theorem lastRow (cs ds : List Char) : IsRow cs ds (lastRow cs ds) :=
  foldl_nextRow cs (range ds)

end IsRow

/-- The last cell of the last row has the cost of the two texts, and so has what is returned
without a table. -/
theorem distanceFromShorter_eq (cs ds : List Char) :
    distanceFromShorter cs ds = prefixCost cs ds := by
  unfold distanceFromShorter
  cases ds with
  | nil => rw [if_pos List.isEmpty_nil, prefixCost_nil_right]
  | cons d ds => exact (IsRow.lastRow cs (d :: ds)).back

/-- Swapping the shorter text to the inside does not change the answer, since edits can be
undone. -/
theorem isLeast_editDistance (cs ds : List Char) :
    IsLeast {n | Edits n cs ds} (editDistance cs ds) := by
  unfold editDistance
  split
  case isTrue =>
    obtain ⟨hedits, hlower⟩ := isLeast_prefixCost ds cs
    rw [distanceFromShorter_eq]
    exact ⟨hedits.symm, fun n h => hlower h.symm⟩
  case isFalse =>
    rw [distanceFromShorter_eq]
    exact isLeast_prefixCost cs ds

/-- The distance of two texts is the least number of edits that turn one into the other. So it
is a metric. -/
theorem distance_least :
    (∀ a b : String, IsLeast {n | Edits n a.toList b.toList} (distance a b)) ∧
      (∀ a b, distance a b = 0 ↔ a = b) ∧ (∀ a b, distance a b = distance b a) ∧
        ∀ a b c, distance a c ≤ distance a b + distance b c := by
  have hleast (a b : String) : IsLeast {n | Edits n a.toList b.toList} (distance a b) :=
    isLeast_editDistance a.toList b.toList
  refine ⟨hleast, fun a b => ⟨fun h => ?_, ?_⟩, fun a b => ?_, fun a b c => ?_⟩
  · have hedits := (hleast a b).1
    rw [h] at hedits
    exact String.toList_inj.mp (Edits.eq_of_zero hedits)
  · rintro rfl
    exact Nat.le_zero.mp ((hleast a a).2 (.done _))
  · exact Nat.le_antisymm ((hleast a b).2 (hleast b a).1.symm)
      ((hleast b a).2 (hleast a b).1.symm)
  · exact (hleast a c).2 ((hleast a b).1.trans (hleast b c).1)

end TypedL5.Name
