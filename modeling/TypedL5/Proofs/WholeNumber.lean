import Mathlib.Tactic.Ring
import TypedL5.Number.Numeral

/-! Whole numbers within the limit of digits: how they are written, and that they are read
back. -/
namespace TypedL5

namespace Text

theorem toNat_of_isDigit {c : Char} (h : c.isDigit = true) :
    0x30 ≤ c.toNat ∧ c.toNat < 0x30 + 10 := by
  simp only [Char.isDigit, Bool.and_eq_true, decide_eq_true_eq, ge_iff_le,
    UInt32.le_iff_toNat_le] at h
  have hlow : 48 ≤ c.toNat := h.1
  have hhigh : c.toNat ≤ 57 := h.2
  omega

theorem digit?_eq {c : Char} (h : c.isDigit = true) :
    digit? c = some (c.toNat - '0'.toNat) := by
  rw [digit?, zeros, List.findSome?_cons, if_pos (toNat_of_isDigit h)]
  rfl

theorem takeDigits_eq {cs : List Char} (h : ∀ c ∈ cs, c.isDigit = true) :
    takeDigits cs = (cs.map fun c => c.toNat - '0'.toNat, []) := by
  induction cs with
  | nil => rfl
  | cons c cs ih =>
    obtain ⟨hc, hcs⟩ := List.forall_mem_cons.mp h
    rw [takeDigits, digit?_eq hc]
    simp [ih hcs]

theorem digit?_lt {c : Char} {d : Nat} (h : digit? c = some d) : d < 10 := by
  obtain ⟨first, _, hd⟩ := List.exists_of_findSome?_eq_some h
  split at hd
  · cases hd
    omega
  · cases hd

theorem takeDigits_lt (cs : List Char) : ∀ d ∈ (takeDigits cs).1, d < 10 := by
  induction cs with
  | nil => simp [takeDigits]
  | cons c cs ih =>
    rw [takeDigits]
    cases hc : digit? c with
    | none => simp
    | some d => exact List.forall_mem_cons.mpr ⟨digit?_lt hc, ih⟩

theorem ofDigits_lt {ds : List Nat} (h : ∀ d ∈ ds, d < 10) : ofDigits ds < 10 ^ ds.length := by
  -- Each digit that goes on after a number moves it up by one place.
  have hfold : ∀ n, ds.foldl (fun n d => 10 * n + d) n < (n + 1) * 10 ^ ds.length := by
    induction ds with
    | nil => intro n; simp
    | cons d ds ih =>
      obtain ⟨hd, hds⟩ := List.forall_mem_cons.mp h
      intro n
      calc
        ds.foldl (fun n d => 10 * n + d) (10 * n + d)
          < (10 * n + d + 1) * 10 ^ ds.length := ih hds _
        _ ≤ ((n + 1) * 10) * 10 ^ ds.length := Nat.mul_le_mul_right _ (by omega)
        _ = (n + 1) * 10 ^ (ds.length + 1) := by ring
  simpa [ofDigits] using hfold 0

/-- A number is written in no more digits than it has been read from. -/
theorem length_toDigits_ofDigits {ds : List Nat} (h : ∀ d ∈ ds, d < 10) (hne : ds ≠ []) :
    (Nat.toDigits 10 (ofDigits ds)).length ≤ ds.length :=
  (Nat.length_toDigits_le_iff (by omega) (List.length_pos_iff.mpr hne)).mpr (ofDigits_lt h)

end Text

namespace Numeral

/-- Whether a whole number can be written within the limit of digits. -/
def fits (n : Int) : Bool := (Nat.toDigits 10 n.natAbs).length ≤ digitLimit

theorem isDigit_of_mem {n : Nat} {c : Char} (hc : c ∈ Nat.toDigits 10 n) : c.isDigit = true :=
  Nat.isDigit_of_mem_toDigits (by omega) (by omega) hc

/-- The digits of a number are a numeral of that value without a point. -/
theorem ofUnsigned?_toDigits (negative : Bool) (n : Nat) :
    ∃ ds, ofUnsigned? negative (Nat.toDigits 10 n) = some ⟨negative, ds, none⟩ ∧
      ds.length = (Nat.toDigits 10 n).length ∧ Text.ofDigits ds = n := by
  let ds := (Nat.toDigits 10 n).map fun c => c.toNat - '0'.toNat
  have hread : Text.takeDigits (Nat.toDigits 10 n) = (ds, []) :=
    Text.takeDigits_eq fun _ hc => isDigit_of_mem hc
  have hne : ds ≠ [] := by simp [ds, Nat.toDigits_ne_nil]
  refine ⟨ds, ?_, List.length_map _, ?_⟩
  · rw [ofUnsigned?, hread]
    simp [hne]
  · rw [Text.ofDigits, List.foldl_map, ← Nat.ofDigitChars_eq_foldl]
    exact Nat.ofDigitChars_toDigits (by omega) (by omega)

theorem ofChars?_toDigits (n : Nat) :
    ofChars? (Nat.toDigits 10 n) = ofUnsigned? false (Nat.toDigits 10 n) := by
  unfold ofChars?
  split
  · rename_i cs he
    have hplus : Char.isDigit '+' = true := isDigit_of_mem (n := n) (by simp [he])
    cases hplus
  · rename_i cs he
    have hminus : Char.isDigit '-' = true := isDigit_of_mem (n := n) (by simp [he])
    cases hminus
  · rfl

/-- A whole number within the limit is read back from its written form. -/
theorem ofChars?_text {n : Int} (hn : fits n = true) :
    ∃ m, ofChars? (Number.text (.int n)).toList = some m ∧ m.value? = some (.int n) := by
  have hfits : (Nat.toDigits 10 n.natAbs).length ≤ digitLimit := by simpa [fits] using hn
  have htext : Number.text (.int n) = n.repr := rfl
  rw [htext, Int.repr_eq_if]
  by_cases hpos : 0 ≤ n
  · obtain ⟨ds, hread, hlen, hvalue⟩ := ofUnsigned?_toDigits false n.natAbs
    have habs : n.toNat = n.natAbs := by omega
    refine ⟨⟨false, ds, none⟩, ?_, ?_⟩
    · rw [if_pos hpos, habs, Nat.repr_eq_ofList_toDigits, String.toList_ofList,
        ofChars?_toDigits, hread]
    · have hn : (n.natAbs : Int) = n := by omega
      simp only [value?, hlen, Nat.not_lt.mpr hfits, hvalue, hn, Bool.false_eq_true, if_false]
  · obtain ⟨ds, hread, hlen, hvalue⟩ := ofUnsigned?_toDigits true n.natAbs
    have habs : (-n).toNat = n.natAbs := by omega
    refine ⟨⟨true, ds, none⟩, ?_, ?_⟩
    · rw [if_neg hpos, habs, Nat.repr_eq_ofList_toDigits, String.toList_append,
        String.toList_ofList, String.toList_ofList]
      exact hread
    · have hn : -(n.natAbs : Int) = n := by omega
      simp only [value?, hlen, Nat.not_lt.mpr hfits, hvalue, hn, if_false, if_true]

/-- A numeral without a point has digits, and each is below ten. -/
theorem whole_of_ofUnsigned? {negative : Bool} {cs : List Char} {m : Numeral}
    (h : ofUnsigned? negative cs = some m) :
    (∀ d ∈ m.whole, d < 10) ∧ (m.fraction = none → m.whole ≠ []) := by
  have hlt := Text.takeDigits_lt cs
  unfold ofUnsigned? at h
  split at h
  · rename_i whole he
    rw [he] at hlt
    split at h
    · cases h
    · cases h
      simp_all
  · rename_i whole rest he
    rw [he] at hlt
    split at h
    · split at h
      · cases h
      · cases h
        exact ⟨hlt, fun hf => by cases hf⟩
    · cases h
  · cases h

theorem whole_of_ofChars? {cs : List Char} {m : Numeral} (h : ofChars? cs = some m) :
    (∀ d ∈ m.whole, d < 10) ∧ (m.fraction = none → m.whole ≠ []) := by
  unfold ofChars? at h
  split at h
  all_goals exact whole_of_ofUnsigned? h

/-- Every whole number that is read is within the limit. -/
theorem fits_of_value? {cs : List Char} {m : Numeral} {n : Int} (h : ofChars? cs = some m)
    (hn : m.value? = some (.int n)) : fits n = true := by
  obtain ⟨hlt, hne⟩ := whole_of_ofChars? h
  unfold value? at hn
  split at hn
  · rename_i hf
    split at hn
    · cases hn
    · rename_i hlen
      have habs : n.natAbs = Text.ofDigits m.whole := by
        simp only [Option.some.injEq, Number.int.injEq] at hn
        split at hn <;> omega
      rw [fits, habs, decide_eq_true_eq]
      exact Nat.le_trans (Text.length_toDigits_ofDigits hlt (hne hf)) (Nat.not_lt.mp hlen)
  · cases hn

end Numeral

end TypedL5
