import GraphBoard.Proofs.Double.Arithmetic

/-!
# GraphBoard.Proofs.Double.Product

Products of doubles are rounded to the nearest, too, and whole numbers that have 53 bits are
doubles:

* `Denotes.mul` — the product of finite doubles;
* `Denotes.mul_exact` — it is exact if 53 bits hold it;
* `denotes_ofNat` — the double of a count.
-/

namespace GraphBoard.Double

open Float.Model Float.Model.UnpackedFloat

variable {u v : UnpackedFloat} {a b r z : ℚ}

/-! ## Products -/

/-- The unit of a product of signs is the product of their units. -/
theorem unit_mul (s s' : Sign) : unit (s * s') = unit s * unit s' :=
  match s, s' with
  | .negative, .negative => (by norm_num : (1 : ℚ) = -1 * -1)
  | .negative, .positive => (by norm_num : (-1 : ℚ) = -1 * 1)
  | .positive, .negative => (by norm_num : (-1 : ℚ) = 1 * -1)
  | .positive, .positive => (by norm_num : (1 : ℚ) = 1 * 1)

/-- The product has no more bits than there is room for, unless it has at least 53. -/
theorem le_targetExponent_mul {m n : Nat} {e f : Int} (hm : m ≠ 0) (hn : n ≠ 0)
    (hcm : Canonical m e) (hcn : Canonical n f) :
    e + f ≤ Format.binary64.targetExponent (totalExponent (m * n) (e + f)) := by
  rw [targetExponent_totalExponent]
  have hfull (hbits : 2 ^ 52 ≤ m * n) : 52 ≤ (m * n).log2 :=
    (Nat.le_log2 (Nat.mul_ne_zero hm hn)).mpr hbits
  rcases hcm.full with hlarge | hleast
  · have := hfull (hlarge.trans (Nat.le_mul_of_pos_right m (Nat.pos_of_ne_zero hn)))
    omega
  · rcases hcn.full with hlarge | hleast'
    · have := hfull (hlarge.trans (Nat.le_mul_of_pos_left n (Nat.pos_of_ne_zero hm)))
      omega
    · omega

/-- A product is the rounded product of the values. -/
theorem rounds_mul (hu : CanonicalValue u) (hv : CanonicalValue v) (ha : value? u = some a)
    (hb : value? v = some b) : Rounds (UnpackedFloat.mul Format.binary64 u v) (a * b) := by
  rcases u with _ | _ | s | ⟨s, m, e, hm⟩ <;> rcases v with _ | _ | s' | ⟨s', n, f, hn⟩ <;>
    cases ha <;> cases hb
  case zero.zero | zero.finite => rw [zero_mul]; exact CanonicalValue.rounds trivial rfl
  case finite.zero => rw [mul_zero]; exact CanonicalValue.rounds trivial rfl
  case finite.finite =>
    have hmul : UnpackedFloat.mul Format.binary64 (.finite s m e hm) (.finite s' n f hn) =
        roundWithAccuracy Format.binary64 (s * s') (m * n) (e + f) .exact := rfl
    have hvalue : ((s.apply m : Int) : ℚ) * 2 ^ e * ((s'.apply n : Int) * 2 ^ f) =
        unit (s * s') * (((m * n : Nat) : ℚ) * 2 ^ (e + f)) := by
      rw [unit_mul, cast_apply, cast_apply, zpow_add₀ two_ne_zero]
      push_cast
      ring
    rw [hmul, hvalue]
    exact rounds_roundWithAccuracy rfl (le_targetExponent_mul hm.ne' hn.ne' hu hv)

variable {x y : Float}

/-- A product of doubles stands for the rounded product, if that is within the range. -/
theorem Denotes.mul (hx : Denotes x a) (hy : Denotes y b) :
    ∃ r, Nearest (a * b) r ∧ (|r| < huge → Denotes (x * y) r) :=
  (rounds_mul hx.canonicalValue hy.canonicalValue hx hy).pack

/-- What 53 bits hold is not changed by rounding. -/
theorem Nearest.eq_of_representable (h : Nearest z r) (hz : Representable z) : r = z := by
  have hle := h.2 z hz
  rw [sub_self, abs_zero] at hle
  exact sub_eq_zero.mp (abs_nonpos_iff.mp hle)

/-- A product that is representable and within the range is exact. -/
theorem Denotes.mul_exact (hx : Denotes x a) (hy : Denotes y b) (hab : Representable (a * b))
    (hlt : |a * b| < huge) : Denotes (x * y) (a * b) := by
  obtain ⟨r, hnearest, hr⟩ := hx.mul hy
  obtain rfl := hnearest.eq_of_representable hab
  exact hr hlt

/-! ## Counts -/

/-- Natural numbers of up to 53 bits are representable. -/
theorem representable_natCast {n : Nat} (h : n ≤ 2 ^ 53) : Representable n :=
  ⟨n, 0, by rw [Nat.abs_cast]; exact_mod_cast h, by norm_num, by simp⟩

/-- They are within the range of doubles, too. -/
theorem natCast_lt_huge {n : Nat} (h : n ≤ 2 ^ 53) : |(n : ℚ)| < huge :=
  abs_lt_huge (k := 53) (by norm_num) (by linarith [Nat.cast_nonneg (α := ℚ) n])
    (by exact_mod_cast h)

/-- A word of up to 53 bits is turned into the double that stands for it. -/
theorem denotes_toFloat {n : Nat} (h : n ≤ 2 ^ 53) : Denotes n.toUInt64.toFloat n := by
  have hnumber : n.toUInt64.toNat = n := Nat.mod_eq_of_lt (by omega)
  have hrounds := rounds_normalize (n.toUInt64.toNat : Int) 0 .positive
  rw [hnumber, zpow_zero, mul_one, Int.cast_natCast] at hrounds
  obtain ⟨r, hnearest, hr⟩ := hrounds.pack
  obtain rfl := hnearest.eq_of_representable (representable_natCast h)
  have hunpack : n.toUInt64.toFloat.toModel.unpack = (pack (UnpackedFloat.normalize Format.binary64
      (n.toUInt64.toNat : Int) 0 .positive)).unpack := rfl
  rw [Denotes, hunpack, hnumber]
  exact hr (natCast_lt_huge h)

/-- The bits of one stand for one. -/
theorem denotes_one : Denotes (Float.ofBits 4607182418800017408) 1 := by
  have hunpack : (Float.ofBits 4607182418800017408).toModel.unpack =
      .finite .positive (2 ^ 52) (-52) (by decide) := by rfl
  rw [Denotes, hunpack]
  norm_num [value?, Sign.apply]

/-- The double of a count is the count, as long as 53 bits hold it. -/
theorem denotes_ofNat {n : Nat} (h : n < 2 ^ 53) : Denotes (Float.ofNat n) n := by
  have hscientific : Float.ofNat n = n.toUInt64.toFloat * Float.ofBits 4607182418800017408 :=
    dif_pos (show n < 2 ^ 53 ∧ 0 ≤ 22 from ⟨h, Nat.zero_le 22⟩)
  have hcount := denotes_toFloat h.le
  have hproduct := hcount.mul_exact denotes_one (by rw [mul_one]; exact representable_natCast h.le)
    (by rw [mul_one]; exact natCast_lt_huge h.le)
  rwa [hscientific, ← mul_one (n : ℚ)]

end GraphBoard.Double
