import GraphBoard.Proofs.Double.Rounding

/-!
# GraphBoard.Proofs.Double.Arithmetic

Sums, differences and quotients of doubles are rounded to the nearest, unless they are too large to
be doubles:

* `Denotes.add`, `Denotes.sub`, `Denotes.div` — the results of finite doubles;
* `le_toNat` — the whole part of a double;
* `add_comparable` — a sum with a finite double is a number, if the other double is one.
-/

namespace GraphBoard.Double

open Float.Model Float.Model.UnpackedFloat

variable {u v : UnpackedFloat} {a b r z : ℚ}

/-! ## Results that need no rounding -/

/-- What a canonical number stands for is representable. -/
theorem CanonicalValue.representable (hu : CanonicalValue u) (hr : value? u = some r) :
    Representable r := by
  rcases u with _ | _ | _ | ⟨s, m, e, hm⟩ <;> cases hr
  case zero => exact representable_zero
  case finite =>
    refine ⟨s.apply m, e, ?_, hu.min_le, rfl⟩
    have hle : (m : Int) ≤ 2 ^ 53 := by exact_mod_cast hu.lt.le
    cases s <;> simpa [Sign.apply] using hle

/-- A canonical number is what its own value is rounded to. -/
theorem CanonicalValue.rounds (hu : CanonicalValue u) (hr : value? u = some r) : Rounds u r :=
  ⟨hu, r, hr, (hu.representable hr).nearest⟩

/-- A number in canonical form that stands for a rational is canonical. -/
theorem WellFormed.canonicalValue (hu : WellFormed u) (hr : value? u = some r) :
    CanonicalValue u := by
  rcases u with _ | _ | _ | ⟨s, m, e, hm⟩ <;> cases hr
  case zero => trivial
  case finite => exact hu.1

/-! ## Sums and differences -/

/-- Writing a number with a lower exponent leaves its value as it is. -/
theorem apply_decreaseExponent (s : Sign) (m : Nat) {e t : Int} (ht : t ≤ e) :
    ((s.apply (decreaseExponent m e t).1 : Int) : ℚ) * 2 ^ t = s.apply m * 2 ^ e := by
  obtain ⟨k, rfl⟩ := Int.le.dest ht
  have hshift : (decreaseExponent m (t + k) t).1 = m * 2 ^ k := by
    show m <<< (t + k - t).toNat = _
    rw [Nat.shiftLeft_eq]
    congr 2
    omega
  rw [hshift, cast_apply, cast_apply, zpow_add₀ two_ne_zero, zpow_natCast]
  push_cast
  ring

/-- A sum is the rounded sum of the values. -/
theorem rounds_add (hu : CanonicalValue u) (hv : CanonicalValue v) (ha : value? u = some a)
    (hb : value? v = some b) : Rounds (UnpackedFloat.add Format.binary64 u v) (a + b) := by
  rcases u with _ | _ | s | ⟨s, m, e, hm⟩ <;> rcases v with _ | _ | s' | ⟨s', n, f, hn⟩ <;>
    cases ha <;> cases hb
  case zero.zero =>
    have hadd : UnpackedFloat.add Format.binary64 (.zero s) (.zero s') =
      if s == s' then .zero s else .zero .positive := rfl
    rw [add_zero, hadd]
    split <;> exact CanonicalValue.rounds trivial rfl
  case zero.finite => rw [zero_add]; exact hv.rounds rfl
  case finite.zero => rw [add_zero]; exact hu.rounds rfl
  case finite.finite =>
    rw [← apply_decreaseExponent s m (min_le_left e f),
      ← apply_decreaseExponent s' n (min_le_right e f), ← add_mul, ← Int.cast_add]
    exact rounds_normalize _ _ _

/-- The opposite sign gives the opposite number. -/
theorem apply_neg (s : Sign) (n : Int) : (-s).apply n = -s.apply n := by
  cases s
  · exact (neg_neg n).symm
  · rfl

/-- A difference is the sum with the opposite. -/
theorem sub_eq_add (u v : UnpackedFloat) :
    UnpackedFloat.sub Format.binary64 u v = UnpackedFloat.add Format.binary64 u v.neg := by
  rcases u with _ | _ | s | ⟨s, m, e, hm⟩ <;> rcases v with _ | _ | s' | ⟨s', n, f, hn⟩ <;>
    try rfl
  case finite.finite =>
    have hsub := sub_eq_add_neg (s.apply (decreaseExponent m e (min e f)).1)
      (s'.apply (decreaseExponent n f (min e f)).1)
    rw [← apply_neg] at hsub
    exact congrArg (UnpackedFloat.normalize Format.binary64 · (min e f) .positive) hsub

/-- The opposite of a canonical number is canonical. -/
theorem CanonicalValue.neg (hu : CanonicalValue u) : CanonicalValue u.neg := by
  rcases u with _ | _ | _ | _ <;> exact hu

/-- The opposite of a number stands for the opposite value. -/
theorem value?_neg (ha : value? u = some a) : value? u.neg = some (-a) := by
  rcases u with _ | _ | s | ⟨s, m, e, hm⟩ <;> cases ha
  case zero => exact congrArg some neg_zero.symm
  case finite =>
    show some _ = some _
    rw [apply_neg, Int.cast_neg, neg_mul]

/-- A difference is the rounded difference of the values. -/
theorem rounds_sub (hu : CanonicalValue u) (hv : CanonicalValue v) (ha : value? u = some a)
    (hb : value? v = some b) : Rounds (UnpackedFloat.sub Format.binary64 u v) (a - b) := by
  rw [sub_eq_add, sub_eq_add_neg]
  exact rounds_add hu hv.neg ha (value?_neg hb)

/-! ## Quotients -/

/-- What remains of a division says where the quotient is. -/
theorem represents_div (m : Nat) {n : Nat} (hn : 0 < n) :
    Represents (.ofMantissaAndAccuracy (m / n) (accuracyOfFraction (m % n) n)) ((m : ℚ) / n) := by
  have hpos : (0 : ℚ) < n := Nat.cast_pos.mpr hn
  have hquotient : (m : ℚ) / n = (m / n : Nat) + (m % n : Nat) / n := by
    have hdiv : (n : ℚ) * (m / n : Nat) + (m % n : Nat) = m := by
      exact_mod_cast Nat.div_add_mod m n
    rw [← hdiv]
    field_simp
  have hlt : ((m % n : Nat) : ℚ) / n < 1 := by
    rw [div_lt_one hpos]
    exact_mod_cast Nat.mod_lt m hn
  rw [hquotient]
  unfold accuracyOfFraction
  split
  · next hzero =>
      rw [hzero]
      simp [Represents, ExtendedMantissa.ofMantissaAndAccuracy]
  · next hrest =>
      have hrest' : (0 : ℚ) < (m % n : Nat) / n := div_pos (by positivity) hpos
      cases hcompare : compare (2 * (m % n)) n with
      | lt =>
          have hhalf : ((m % n : Nat) : ℚ) / n < 1 / 2 := by
            rw [div_lt_iff₀ hpos]
            have hlt : (2 * (m % n : Nat) : ℚ) < n := by
              exact_mod_cast Nat.compare_eq_lt.mp hcompare
            linarith
          exact ⟨by linarith, by linarith⟩
      | eq =>
          have hhalf : ((m % n : Nat) : ℚ) / n = 1 / 2 := by
            rw [div_eq_iff hpos.ne']
            have heq : (2 * (m % n : Nat) : ℚ) = n := by
              exact_mod_cast Nat.compare_eq_eq.mp hcompare
            linarith
          exact congrArg _ hhalf
      | gt =>
          have hhalf : (1 : ℚ) / 2 < (m % n : Nat) / n := by
            rw [lt_div_iff₀ hpos]
            have hgt : (n : ℚ) < 2 * (m % n : Nat) := by
              exact_mod_cast Nat.compare_eq_gt.mp hcompare
            linarith
          exact ⟨by linarith, by linarith⟩

/-- The unit of a quotient of signs is the quotient of their units. -/
theorem unit_div (s s' : Sign) : unit (s / s') = unit s / unit s' :=
  match s, s' with
  | .negative, .negative => (by norm_num : (1 : ℚ) = -1 / -1)
  | .negative, .positive => (by norm_num : (-1 : ℚ) = -1 / 1)
  | .positive, .negative => (by norm_num : (-1 : ℚ) = 1 / -1)
  | .positive, .positive => (by norm_num : (1 : ℚ) = 1 / 1)

/-- The quotient has all 53 bits, unless its last place is the least there is. -/
theorem le_targetExponent_divCore {m n : Nat} (hm : m ≠ 0) (hn : n ≠ 0) (e f : Int) {target : Int}
    {k : Nat} (htarget : target ≤ max (m.log2 + e - (n.log2 + f) - 53) (-1074))
    (hk : e - f = target + k) :
    target ≤ Format.binary64.targetExponent (totalExponent (m <<< k / n) target) := by
  rw [targetExponent_totalExponent]
  rcases le_max_iff.mp htarget with hle | hmin
  · have hbits : 2 ^ 52 ≤ m <<< k / n := by
      rw [Nat.le_div_iff_mul_le (Nat.pos_of_ne_zero hn), Nat.shiftLeft_eq]
      calc 2 ^ 52 * n ≤ 2 ^ 52 * 2 ^ (n.log2 + 1) :=
            Nat.mul_le_mul_left _ (Nat.lt_log2_self).le
        _ = 2 ^ (52 + (n.log2 + 1)) := (pow_add 2 52 _).symm
        _ ≤ 2 ^ (m.log2 + k) := Nat.pow_le_pow_right two_pos (by omega)
        _ = 2 ^ m.log2 * 2 ^ k := pow_add 2 _ _
        _ ≤ m * 2 ^ k := Nat.mul_le_mul_right _ (Nat.log2_self_le hm)
    have hlog := (Nat.le_log2 (by omega)).mpr hbits
    omega
  · omega

/-- A quotient is the rounded quotient of the values. -/
theorem rounds_div (ha : value? u = some a) (hb : value? v = some b) (hne : b ≠ 0) :
    Rounds (UnpackedFloat.div Format.binary64 u v) (a / b) := by
  rcases u with _ | _ | s | ⟨s, m, e, hm⟩ <;> rcases v with _ | _ | s' | ⟨s', n, f, hn⟩ <;>
    cases ha <;> cases hb
  case zero.zero | finite.zero => exact absurd rfl hne
  case zero.finite => rw [zero_div]; exact CanonicalValue.rounds trivial rfl
  case finite.finite =>
    have htarget : Format.binary64.targetExponent (totalExponent m e - totalExponent n f) =
        max ((m.log2 : Int) + 1 + e - (n.log2 + 1 + f) - 53) (-1074) := rfl
    have hdiv : UnpackedFloat.div Format.binary64 (.finite s m e hm) (.finite s' n f hn) =
        roundWithAccuracy Format.binary64 (s / s') (divCore Format.binary64 m e n f).1
          (divCore Format.binary64 m e n f).2.1 (divCore Format.binary64 m e n f).2.2 := rfl
    rw [hdiv]
    unfold divCore
    dsimp only
    rw [htarget]
    generalize htarget' : min (e - f)
      (max ((m.log2 : Int) + 1 + e - (n.log2 + 1 + f) - 53) (-1074)) = target
    obtain ⟨k, hk⟩ := Int.le.dest (show target ≤ e - f by omega)
    rw [show (e - f - target).toNat = k by omega]
    have hvalue : ((s.apply m : Int) : ℚ) * 2 ^ e / ((s'.apply n : Int) * 2 ^ f) =
        unit (s / s') * (((m <<< k : Nat) : ℚ) / n * 2 ^ target) := by
      have hn' : (n : ℚ) ≠ 0 := Nat.cast_ne_zero.mpr hn.ne'
      rw [unit_div, cast_apply, cast_apply, Nat.shiftLeft_eq,
        show e = target + k + f by omega, zpow_add₀ two_ne_zero, zpow_add₀ two_ne_zero,
        zpow_natCast]
      have hunit : unit s' ≠ 0 := by cases s' <;> norm_num [unit]
      push_cast
      field_simp
    rw [hvalue]
    exact rounds_roundWithAccuracy (represents_div _ hn)
      (le_targetExponent_divCore hm.ne' hn.ne' e f (by omega) hk.symm)

/-! ## Results as doubles -/

/-- The sign is no part of the magnitude. -/
theorem abs_apply_mul_zpow (s : Sign) (m : Nat) (e : Int) :
    |((s.apply m : Int) : ℚ) * 2 ^ e| = m * 2 ^ e := by
  have hunit : |unit s| = 1 := by cases s <;> norm_num [unit]
  rw [cast_apply, mul_assoc, abs_mul, hunit, one_mul, abs_of_nonneg (by positivity)]

/-- The least number that is too large for a double. -/
def huge : ℚ := 2 ^ 1024

/-- Numbers up to a power of two below the largest are within the range of doubles. -/
theorem abs_lt_huge {k : Nat} (hk : k < 1024) (hlo : -2 ^ k ≤ r) (hhi : r ≤ 2 ^ k) :
    |r| < huge :=
  (abs_le.mpr ⟨hlo, hhi⟩).trans_lt (pow_lt_pow_right₀ one_lt_two hk)

/-- A rounded value is a double, if it is not too large for one. -/
theorem Rounds.pack (h : Rounds u z) :
    ∃ r, Nearest z r ∧ (|r| < huge → value? (pack u).unpack = some r) := by
  obtain ⟨hcanonical, r, hr, hnearest⟩ := h
  refine ⟨r, hnearest, fun hlt => ?_⟩
  suffices hu : WellFormed u by rw [unpack_pack hu, hr]
  rcases u with _ | _ | _ | ⟨s, m, e, hm⟩ <;> cases hr
  case zero => trivial
  case finite =>
    refine ⟨hcanonical, not_lt.mp fun he => hlt.not_ge ?_⟩
    have hfull : (2 ^ 52 : ℚ) ≤ m := by
      exact_mod_cast hcanonical.full.resolve_right (by omega)
    rw [abs_apply_mul_zpow]
    calc huge = 2 ^ 52 * 2 ^ (972 : Int) := by
          rw [huge, ← zpow_natCast, ← zpow_natCast, ← zpow_add₀ two_ne_zero]; rfl
      _ ≤ (m : ℚ) * 2 ^ e := mul_le_mul hfull (zpow_le_zpow_right₀ one_le_two he)
        (two_zpow_pos _).le (Nat.cast_nonneg m)

/-- What a number in canonical form stands for is within the range. -/
theorem WellFormed.abs_lt (hu : WellFormed u) (hr : value? u = some r) : |r| < huge := by
  rcases u with _ | _ | _ | ⟨s, m, e, hm⟩ <;> cases hr
  case zero => exact abs_lt_huge (k := 0) (by norm_num) (by norm_num) (by norm_num)
  case finite =>
    have hbits : (m : ℚ) < 2 ^ 53 := by exact_mod_cast hu.1.lt
    rw [abs_apply_mul_zpow]
    calc (m : ℚ) * 2 ^ e < 2 ^ 53 * 2 ^ e := mul_lt_mul_of_pos_right hbits (two_zpow_pos e)
      _ ≤ 2 ^ 53 * 2 ^ (971 : Int) :=
        mul_le_mul_of_nonneg_left (zpow_le_zpow_right₀ one_le_two hu.2) (by norm_num)
      _ = huge := by
        rw [huge, ← zpow_natCast, ← zpow_natCast, ← zpow_add₀ two_ne_zero]; rfl

variable {x y : Float}

/-- A double that stands for a number is unpacked to a canonical one. -/
theorem Denotes.canonicalValue (hx : Denotes x a) : CanonicalValue x.toModel.unpack :=
  (wellFormed_toModel x).canonicalValue hx

/-- What a double stands for is representable. -/
theorem Denotes.representable (hx : Denotes x a) : Representable a :=
  hx.canonicalValue.representable hx

/-- What a double stands for is within the range. -/
theorem Denotes.abs_lt (hx : Denotes x a) : |a| < huge := (wellFormed_toModel x).abs_lt hx

/-- A sum of doubles stands for the rounded sum, if that is within the range. -/
theorem Denotes.add (hx : Denotes x a) (hy : Denotes y b) :
    ∃ r, Nearest (a + b) r ∧ (|r| < huge → Denotes (x + y) r) :=
  (rounds_add hx.canonicalValue hy.canonicalValue hx hy).pack

/-- A difference of doubles stands for the rounded difference, if that is within the range. -/
theorem Denotes.sub (hx : Denotes x a) (hy : Denotes y b) :
    ∃ r, Nearest (a - b) r ∧ (|r| < huge → Denotes (x - y) r) :=
  (rounds_sub hx.canonicalValue hy.canonicalValue hx hy).pack

/-- A quotient of doubles stands for the rounded quotient, if that is within the range. -/
theorem Denotes.div (hx : Denotes x a) (hy : Denotes y b) (hne : b ≠ 0) :
    ∃ r, Nearest (a / b) r ∧ (|r| < huge → Denotes (x / y) r) :=
  (rounds_div hx hy hne).pack

/-! ## Whole parts -/

/-- Shifted to a whole exponent, the mantissa is the integer part. -/
theorem mantissa_shiftToExponent (m : Nat) {e : Int} (he : e ≤ 0) :
    ((m : ℚ) * 2 ^ e) ∈ Set.Ico ((shiftToExponent m e .exact 0).1.mantissa : ℚ)
      ((shiftToExponent m e .exact 0).1.mantissa + 1) := by
  obtain ⟨k, hk⟩ := Int.le.dest he
  have hcell := (show Represents (.ofMantissaAndAccuracy m .exact) (m : ℚ) from rfl).shiftRight k
  have hshift : (shiftToExponent m e .exact 0).1 =
      ExtendedMantissa.ofMantissaAndAccuracy m .exact >>> k := by
    show ExtendedMantissa.ofMantissaAndAccuracy m .exact >>> (0 - e).toNat = _
    congr 1
    omega
  have hvalue : (m : ℚ) * 2 ^ e = m / 2 ^ k := by
    rw [show e = -(k : Int) by omega, zpow_neg, zpow_natCast, div_eq_mul_inv]
  rw [hshift, hvalue]
  exact hcell.mem_Ico

/-- Cutting to a whole number does not go below a whole number that is not above. -/
theorem le_roundToInt {n : Nat} (s : Sign) {m : Nat} {e : Int} (hm : 0 < m)
    (h : (n : ℚ) ≤ s.apply m * 2 ^ e) : (n : Int) ≤ roundToInt s m e := by
  cases s with
  | negative =>
      have hpos := mul_zpow_pos hm e
      rw [cast_apply, unit, neg_one_mul, neg_mul] at h
      linarith [Nat.cast_nonneg (α := ℚ) n]
  | positive =>
      have hround : roundToInt .positive m e =
          (shiftToExponent (decreaseExponent m e 0).1
            (decreaseExponent m e 0).2 .exact 0).1.mantissa :=
        rfl
      have hle : (decreaseExponent m e 0).2 ≤ 0 := by
        show e - ((e - 0).toNat : Int) ≤ 0
        omega
      have hvalue : ((decreaseExponent m e 0).1 : ℚ) * 2 ^ (decreaseExponent m e 0).2 =
          m * 2 ^ e := by
        show ((m <<< (e - 0).toNat : Nat) : ℚ) * 2 ^ (e - ((e - 0).toNat : Int)) = _
        rw [Nat.shiftLeft_eq, zpow_sub₀ two_ne_zero, zpow_natCast]
        push_cast
        field_simp
      have hmem := mantissa_shiftToExponent (decreaseExponent m e 0).1 hle
      rw [hvalue] at hmem
      rw [cast_apply, unit, one_mul] at h
      rw [hround]
      have hlt := h.trans_lt hmem.2
      exact_mod_cast Nat.le_of_lt_succ (by exact_mod_cast hlt)

/-- A count that a double is not below is not above its whole part. -/
theorem le_toNat {n : Nat} (hx : Denotes x a) (hn : n ≤ a) (hlt : n < 2 ^ 64) :
    n ≤ Binary64.toNat x := by
  have hint : (n : Int) ≤ x.toModel.unpack.toInt 0 (UInt64.size - 1) := by
    unfold Denotes at hx
    generalize x.toModel.unpack = u at hx
    rcases u with _ | _ | _ | ⟨s, m, e, hm⟩ <;> cases hx
    case zero => show (n : Int) ≤ 0; exact_mod_cast hn
    case finite => exact le_roundToInt s hm hn
  have hclamp : Binary64.toNat x =
      (UInt64.ofNatClamp (x.toModel.unpack.toInt 0 (UInt64.size - 1)).toNat).toNat := rfl
  rw [hclamp]
  unfold UInt64.ofNatClamp
  split
  · rw [UInt64.toNat_ofNatLT]
    omega
  · rw [UInt64.toNat_ofNatLT]
    show n ≤ 2 ^ 64 - 1
    omega

/-! ## Infinities -/

/-- The double `x` is the infinity of a sign. -/
def IsInfinite (s : Sign) (x : Float) : Prop := x.toModel.unpack = .infinity s

/-- A double can be compared exactly if it is not unpacked to no number. -/
theorem comparable_iff (x : Float) : x ≤ x ↔ x.toModel.unpack ≠ .notANumber := by
  rw [le_iff_unpack]
  generalize x.toModel.unpack = u
  rcases u with ⟨_ | _⟩ | _ | _ | ⟨_ | _, m, e, hm⟩ <;>
    simp [UnpackedFloat.le, UnpackedFloat.compare] <;> decide

/-- Every double that compares with something is an infinity or finite. -/
theorem isInfinite_or_denotes (h : x ≤ x) :
    IsInfinite .negative x ∨ IsInfinite .positive x ∨ ∃ a, Denotes x a := by
  rw [comparable_iff] at h
  unfold IsInfinite Denotes
  generalize x.toModel.unpack = u at h
  rcases u with ⟨_ | _⟩ | _ | _ | _
  · exact Or.inl rfl
  · exact Or.inr (Or.inl rfl)
  · exact absurd rfl h
  · exact Or.inr (Or.inr ⟨_, rfl⟩)
  · exact Or.inr (Or.inr ⟨_, rfl⟩)

/-- Minus infinity is below all that can be compared. -/
theorem IsInfinite.le (hx : IsInfinite .negative x) (hy : y ≤ y) : x ≤ y := by
  rw [comparable_iff] at hy
  rw [le_iff_unpack, hx]
  generalize y.toModel.unpack = v at hy
  rcases v with ⟨_ | _⟩ | _ | _ | _ <;> first | rfl | exact absurd rfl hy

/-- Plus infinity is above all that can be compared. -/
theorem IsInfinite.ge (hy : IsInfinite .positive y) (hx : x ≤ x) : x ≤ y := by
  rw [comparable_iff] at hx
  rw [le_iff_unpack, hy]
  generalize x.toModel.unpack = u at hx
  rcases u with ⟨_ | _⟩ | _ | _ | ⟨_ | _, m, e, hm⟩ <;> first | rfl | exact absurd rfl hx

/-- Nothing else is below the negative infinity. -/
theorem IsInfinite.of_le (hy : IsInfinite .negative y) (h : x ≤ y) : IsInfinite .negative x := by
  rw [le_iff_unpack, hy] at h
  unfold IsInfinite
  generalize x.toModel.unpack = u at h
  rcases u with ⟨_ | _⟩ | _ | _ | ⟨_ | _, m, e, hm⟩ <;> first | rfl | cases h

/-- Nothing else is above the positive infinity. -/
theorem IsInfinite.of_ge (hx : IsInfinite .positive x) (h : x ≤ y) : IsInfinite .positive y := by
  rw [le_iff_unpack, hx] at h
  unfold IsInfinite
  generalize y.toModel.unpack = v at h
  rcases v with ⟨_ | _⟩ | _ | _ | ⟨_ | _, n, f, hn⟩ <;> first | rfl | cases h

/-- A double that stands for a number is not infinite. -/
theorem Denotes.not_isInfinite {s : Sign} (hx : Denotes x a) : ¬ IsInfinite s x := fun hinf => by
  unfold Denotes at hx
  rw [hinf] at hx
  cases hx

/-- What is between two finite doubles is finite. -/
theorem Denotes.exists_between {w : Float} (hw : Denotes w a) (hy : Denotes y b) (hwx : w ≤ x)
    (hxy : x ≤ y) : ∃ c, Denotes x c := by
  obtain hbottom | htop | hfinite := isInfinite_or_denotes (Scalar.LawfulOrder.le_self_left hxy)
  · exact absurd (hbottom.of_le hwx) hw.not_isInfinite
  · exact absurd (htop.of_ge hxy) hy.not_isInfinite
  · exact hfinite

/-- A sum of doubles is the sum of what they are unpacked to, packed and unpacked again. -/
theorem unpack_add (x y : Float) : (x + y).toModel.unpack =
    (Float.Model.pack
      (UnpackedFloat.add Format.binary64 x.toModel.unpack y.toModel.unpack)).unpack :=
  rfl

/-- Adding a number to infinity leaves infinity. -/
theorem IsInfinite.add {s : Sign} (hx : IsInfinite s x) (hy : Denotes y b) :
    IsInfinite s (x + y) := by
  unfold Denotes at hy
  unfold IsInfinite
  rw [unpack_add, hx]
  generalize y.toModel.unpack = v at hy
  rcases v with _ | _ | _ | _ <;> cases hy <;> exact unpack_pack (u := .infinity s) trivial

/-- What is packed from a canonical number is unpacked to a number or to infinity. -/
theorem CanonicalValue.unpack_pack_ne (hu : CanonicalValue u) :
    (Float.Model.pack u).unpack ≠ .notANumber := by
  rcases u with _ | _ | s | ⟨s, m, e, hm⟩
  case infinity | notANumber => exact hu.elim
  case zero => cases s <;> exact nofun
  case finite =>
    by_cases he : e ≤ 971
    · rw [unpack_pack (u := .finite s m e hm) ⟨hu, he⟩]
      exact nofun
    · rw [unpack_pack_of_lt s hm (not_le.mp he)]
      exact nofun

/-- A sum with a finite double compares with something, if the other double does. -/
theorem add_comparable (hx : x ≤ x) (hy : Denotes y b) : x + y ≤ x + y := by
  obtain hinf | hinf | ⟨a, ha⟩ := isInfinite_or_denotes hx
  · exact (comparable_iff _).mpr (by rw [hinf.add hy]; exact nofun)
  · exact (comparable_iff _).mpr (by rw [hinf.add hy]; exact nofun)
  · rw [comparable_iff, unpack_add]
    exact (rounds_add ha.canonicalValue hy.canonicalValue ha hy).1.unpack_pack_ne

end GraphBoard.Double
