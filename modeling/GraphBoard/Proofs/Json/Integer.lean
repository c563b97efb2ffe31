import Mathlib.Algebra.Group.Int.Defs
import GraphBoard.Proofs.Json.Front

/-!
# GraphBoard.Proofs.Json.Integer

Whole numbers as they are written, and the integers that are read of them.

* `int?_eq_some_iff` — an integer is read of a number exactly if the number is whole, is not minus
  zero, and is within 64 bits with a sign; the integer is what the number stands for;
* `toDigits_natValue` — digits without a zero too many are those of the number that they stand for;
* `toString_intValue` — so the text of the integer is how the number is written, minus zero apart.
-/

namespace GraphBoard.Json.Numeral

variable {n : Numeral} {c : Char} {ds ls : List Char} {i : Int}

/-- The integer that the sign and the digits before the point stand for. -/
def intValue (n : Numeral) : Int := if n.negative then -natValue n.whole else natValue n.whole

/-! ## Reading -/

/-- A number of which an integer can be read. -/
structure IsInt (n : Numeral) : Prop where
  /-- There is no point and no exponent. -/
  isWhole : n.isWhole = true
  /-- It is not minus zero. -/
  not_minusZero : ¬ (n.negative = true ∧ intValue n = 0)
  /-- It is within 64 bits with a sign. -/
  range : -2 ^ 63 ≤ intValue n ∧ intValue n < 2 ^ 63

/-- In terms of the digits, the limits are those of 64 bits with a sign. -/
theorem isInt_iff : n.IsInt ↔ n.isWhole = true ∧
    if n.negative then 0 < natValue n.whole ∧ natValue n.whole ≤ signedLimit
    else natValue n.whole < signedLimit := by
  have hlimit : signedLimit = 2 ^ 63 := rfl
  have hparts : n.IsInt ↔ n.isWhole = true ∧ ¬ (n.negative = true ∧ intValue n = 0) ∧
      -2 ^ 63 ≤ intValue n ∧ intValue n < 2 ^ 63 :=
    ⟨fun h => ⟨h.isWhole, h.not_minusZero, h.range⟩, fun h => ⟨h.1, h.2.1, h.2.2⟩⟩
  rw [hparts, intValue]
  refine and_congr_right fun _ => ?_
  cases n.negative with
  | true =>
      simp only [if_true, true_and]
      omega
  | false =>
      simp only [Bool.false_eq_true, if_false, false_and, not_false_eq_true, true_and]
      omega

/-- The sign is changed within 64 bits: it comes out right up to the limit, and not below zero
beyond, nor at zero. -/
theorem bmod_neg_cases {size : Nat} (hsize : size < wordSize) :
    ((size = 0 ∨ signedLimit < size) ∧ 0 ≤ (-(size : Int)).bmod wordSize) ∨
      (0 < size ∧ size ≤ signedLimit ∧ (-(size : Int)).bmod wordSize = -size) := by
  rw [Int.bmod_def]
  simp only [wordSize, signedLimit] at hsize ⊢
  omega

/-- An integer is read as what it stands for. -/
theorem int?_eq_some (h : n.IsInt) : n.int? = some n.intValue := by
  obtain ⟨hwhole, hrange⟩ := isInt_iff.mp h
  have hsize : natValue n.whole < wordSize := by
    simp only [wordSize]
    simp only [signedLimit] at hrange
    split at hrange <;> omega
  rw [int?, reading?, if_pos (by simp [hwhole, hsize]), intValue]
  cases hneg : n.negative with
  | true =>
      rw [if_pos hneg] at hrange
      obtain ⟨hout, -⟩ | ⟨hpos, -, hsign⟩ := bmod_neg_cases hsize
      · omega
      · have hne : natValue n.whole ≠ 0 := by omega
        simp [hsign, hne, Reading.int?]
  | false =>
      rw [if_neg (by simp [hneg])] at hrange
      simp [Reading.int?, hrange]

/-- No integer is made of a double. -/
theorem int?_floating (o : Option Float) : (o.map Reading.floating).bind Reading.int? = none := by
  cases o <;> rfl

/-- Of anything else no integer is read. -/
theorem int?_eq_none (h : ¬ n.IsInt) : n.int? = none := by
  rw [isInt_iff, not_and] at h
  rw [int?, reading?]
  -- a whole number below `2 ^ 64` is read with or without a sign, and any other as a double
  by_cases hsize : n.isWhole = true ∧ natValue n.whole < wordSize
  · have hrange := h hsize.1
    rw [if_pos (by simp [hsize])]
    cases hneg : n.negative with
    | true =>
        rw [if_pos hneg] at hrange
        obtain ⟨-, hsign⟩ | ⟨hpos, hle, -⟩ := bmod_neg_cases hsize.2
        · simp only [if_true, if_pos hsign, int?_floating]
        · exact absurd ⟨hpos, hle⟩ hrange
    | false =>
        rw [if_neg (by simp [hneg])] at hrange
        simp [Reading.int?, hrange]
  · rw [if_neg (by simpa using hsize), int?_floating]

/-- The integer that is read of a number is what the number stands for. -/
theorem int?_eq_some_iff : n.int? = some i ↔ n.IsInt ∧ i = n.intValue := by
  by_cases h : n.IsInt
  · simp [int?_eq_some h, h, eq_comm]
  · simp [int?_eq_none h, h]

/-! ## Texts -/

/-- A digit stands for a number below ten. -/
theorem digitValue_lt (h : c.isDigit = true) : digitValue c < 10 := by
  obtain ⟨-, hupper⟩ := Char.isDigit_iff_toNat.mp h
  have hzero : '0'.toNat = 48 := rfl
  have hnine : '9'.toNat = 57 := rfl
  rw [digitValue]
  omega

/-- A digit is that of the number it stands for. -/
theorem digitChar_digitValue (h : c.isDigit = true) : (digitValue c).digitChar = c := by
  obtain ⟨hlower, -⟩ := Char.isDigit_iff_toNat.mp h
  have hzero : '0'.toNat = 48 := rfl
  rw [← Char.toNat_inj, Nat.toNat_digitChar_of_lt_ten (digitValue_lt h), digitValue]
  omega

/-- The number a digit stands for is written with this digit alone. -/
theorem toDigits_digitValue (h : c.isDigit = true) : Nat.toDigits 10 (digitValue c) = [c] := by
  rw [Nat.toDigits_of_lt_base (digitValue_lt h), digitChar_digitValue h]

/-- Behind digits that stand for more than zero, further digits are those of the number that all of
them stand for. -/
theorem toDigits_append_digits {m : Nat} (hm : 0 < m) (hds : ∀ c ∈ ds, c.isDigit = true) :
    Nat.toDigits 10 m ++ ds =
      Nat.toDigits 10 (ds.foldl (fun m d => 10 * m + digitValue d) m) := by
  -- digit by digit, each taken over into the number, which stays above zero
  induction ds generalizing m with
  | nil => rw [List.append_nil, List.foldl_nil]
  | cons c ds ih =>
      obtain ⟨hc, hrest⟩ := List.forall_mem_cons.mp hds
      rw [List.foldl_cons, ← ih (by omega) hrest,
        ← Nat.toDigits_append_toDigits (by omega) hm (digitValue_lt hc), toDigits_digitValue hc,
        List.append_assoc, List.singleton_append]

/-- Digits without a zero too many stand for zero only if they are a zero. -/
theorem natValue_eq_zero_iff (hds : Digits ds) (hzero : ds.head? = some '0' → ds = ['0']) :
    natValue ds = 0 ↔ ds = ['0'] := by
  constructor
  · exact fun h => hzero (head_of_natValue_eq_zero hds h)
  · rintro rfl
    rfl

/-- Digits without a zero too many are those of the number that they stand for. -/
theorem toDigits_natValue (hds : Digits ds) (hzero : ds.head? = some '0' → ds = ['0']) :
    Nat.toDigits 10 (natValue ds) = ds := by
  by_cases hlone : ds = ['0']
  · rw [hlone]
    decide
  · obtain ⟨c, tail, rfl⟩ := List.exists_cons_of_ne_nil hds.ne_nil
    obtain ⟨hc, htail⟩ := List.forall_mem_cons.mp hds.isDigit
    have hpos : 0 < digitValue c := by
      refine Nat.pos_of_ne_zero fun h => hlone (hzero ?_)
      rw [List.head?_cons, ← digitChar_digitValue hc, h]
      rfl
    rw [natValue, List.foldl_cons, Nat.mul_zero, Nat.zero_add, ← toDigits_append_digits hpos htail,
      toDigits_digitValue hc, List.singleton_append]

/-- A whole number has one text only, minus zero apart. -/
theorem toString_intValue (h : n.Spelled ls) (hwhole : n.isWhole = true)
    (hne : ls ≠ ['-', '0']) : toString (intValue n) = String.ofList ls := by
  obtain ⟨hdigits, hzero, rfl⟩ := h.of_isWhole hwhole
  have hrepr : (natValue n.whole).repr = String.ofList n.whole := by
    rw [Nat.repr_eq_ofList_toDigits, toDigits_natValue hdigits hzero]
  rw [intValue]
  cases hneg : n.negative with
  | false => exact hrepr
  | true =>
      have hlone : n.whole ≠ ['0'] := fun he => hne (by rw [hneg, he]; rfl)
      obtain ⟨m, hm⟩ := Nat.exists_eq_succ_of_ne_zero
        (mt (natValue_eq_zero_iff hdigits hzero).mp hlone)
      rw [hm] at hrepr ⊢
      rw [if_pos rfl, if_pos rfl, String.ofList_append, ← hrepr]
      rfl

/-- Minus zero has one text only. -/
theorem eq_minusZero_iff (h : n.Spelled ls) (hwhole : n.isWhole = true) :
    ls = ['-', '0'] ↔ n.negative = true ∧ intValue n = 0 := by
  obtain ⟨hdigits, hzero, rfl⟩ := h.of_isWhole hwhole
  have hlone : natValue n.whole = 0 ↔ n.whole = ['0'] := natValue_eq_zero_iff hdigits hzero
  cases hneg : n.negative with
  | true => simp [intValue, hneg, hlone]
  | false =>
      have hminus : '-' ∉ n.whole := fun hmem => absurd (hdigits.isDigit '-' hmem) (by decide)
      simp only [Bool.false_eq_true, if_false, List.nil_append, false_and, iff_false]
      intro he
      exact hminus (by simp [he])

/-- An integer has one text only. -/
theorem IsInt.toString_intValue (hn : n.IsInt) (h : n.Spelled ls) :
    toString (intValue n) = String.ofList ls :=
  Numeral.toString_intValue h hn.isWhole fun he =>
    hn.not_minusZero ((eq_minusZero_iff h hn.isWhole).mp he)

end GraphBoard.Json.Numeral
