import GraphBoard.Proofs.Double.Value

/-!
# GraphBoard.Proofs.Double.Rounding

A rounded number is the nearest one that 53 bits hold.  The bits that a significand loses are kept
as a round bit and a sticky bit (`Represents`), and these two say to which side to round:

* `Nearest.le_of_le` — rounding keeps to the same side of every number that 53 bits hold;
* `rounds_roundWithAccuracy`, `rounds_normalize` — the two ways in which results are rounded.
-/

namespace GraphBoard.Double

open Float.Model Float.Model.UnpackedFloat

/-! ## The nearest number -/

/-- The numbers that a significand of 53 bits holds. The exponent is bounded below only. -/
def Representable (w : ℚ) : Prop := ∃ m e : Int, |m| ≤ 2 ^ 53 ∧ -1074 ≤ e ∧ w = m * 2 ^ e

/-- No number that 53 bits hold is nearer to `z` than `r`, which is one. -/
def Nearest (z r : ℚ) : Prop := Representable r ∧ ∀ w, Representable w → |r - z| ≤ |w - z|

variable {r w z : ℚ}

/-- Zero is representable. -/
theorem representable_zero : Representable 0 := ⟨0, 0, by norm_num, by norm_num, by norm_num⟩

/-- Powers of two are representable. -/
theorem representable_two_pow (k : Nat) : Representable (2 ^ k) :=
  ⟨1, k, by norm_num, by omega, by rw [Int.cast_one, one_mul, zpow_natCast]⟩

/-- The negative of a representable number is representable. -/
theorem Representable.neg (h : Representable w) : Representable (-w) := by
  obtain ⟨m, e, hm, he, rfl⟩ := h
  exact ⟨-m, e, by rwa [abs_neg], he, by push_cast; ring⟩

/-- A number of 53 bits is not rounded. -/
theorem Representable.nearest (h : Representable r) : Nearest r r :=
  ⟨h, fun w _ => by rw [sub_self, abs_zero]; exact abs_nonneg _⟩

/-- Rounding is symmetric about zero. -/
theorem Nearest.neg (h : Nearest z r) : Nearest (-z) (-r) := by
  refine ⟨h.1.neg, fun w hw => ?_⟩
  have hle := h.2 (-w) hw.neg
  rwa [show -r - -z = -(r - z) by ring, abs_neg, show w - -z = -(-w - z) by ring, abs_neg]

/-- What is not above a number is not rounded to above it. -/
theorem Nearest.le_of_ge (h : Nearest z r) (hw : Representable w) (hzw : z ≤ w) : r ≤ w := by
  by_contra hlt
  have hle := h.2 w hw
  rw [abs_of_nonneg (by linarith), abs_of_nonneg (by linarith)] at hle
  linarith

/-- What is not below a number is not rounded to below it. -/
theorem Nearest.le_of_le (h : Nearest z r) (hw : Representable w) (hwz : w ≤ z) : w ≤ r :=
  neg_le_neg_iff.mp (h.neg.le_of_ge hw.neg (neg_le_neg hwz))

/-- A nearest number is no further below than any representable number is away. -/
theorem Nearest.sub_le {d : ℚ} (h : Nearest z r) (hw : Representable w) (hd : |w - z| ≤ d) :
    z - d ≤ r := by
  linarith [(abs_le.mp ((h.2 w hw).trans hd)).1]

/-- Nor is it further above. -/
theorem Nearest.le_add {d : ℚ} (h : Nearest z r) (hw : Representable w) (hd : |w - z| ≤ d) :
    r ≤ z + d := by
  linarith [(abs_le.mp ((h.2 w hw).trans hd)).2]

/-- Within a half of a number, no other whole number is nearer. -/
theorem abs_sub_le_abs_intCast_sub {t : ℚ} {n : Nat} (h : |(n : ℚ) - t| ≤ 1 / 2) (k : Int) :
    |(n : ℚ) - t| ≤ |(k : ℚ) - t| := by
  by_cases hk : k = n
  · rw [hk, Int.cast_natCast]
  · have hone : (1 : ℚ) ≤ |(k : ℚ) - n| := by
      exact_mod_cast Int.one_le_abs (sub_ne_zero.mpr hk)
    have htriangle := abs_sub_le (k : ℚ) t n
    rw [abs_sub_comm t] at htriangle
    linarith

/-- A number of 53 bits is a whole number of units, or it has finer units and so is below `2 ^ 52`
of these. -/
theorem whole_or_le {m e f : Int} (hm : |m| ≤ 2 ^ 53) :
    (∃ k : Int, (m : ℚ) * 2 ^ f = k * 2 ^ e) ∨
      f < e ∧ (m : ℚ) * 2 ^ f ≤ (2 ^ 52 : Int) * 2 ^ e := by
  by_cases hef : e ≤ f
  · refine Or.inl ⟨m * 2 ^ (f - e).toNat, ?_⟩
    push_cast
    rw [mul_assoc, ← zpow_natCast, ← zpow_add₀ two_ne_zero]
    congr 2
    omega
  · refine Or.inr ⟨not_le.mp hef, ?_⟩
    have hm' : (m : ℚ) ≤ 2 ^ 53 := by exact_mod_cast (abs_le.mp hm).2
    calc (m : ℚ) * 2 ^ f ≤ 2 ^ 53 * 2 ^ f := mul_le_mul_of_nonneg_right hm' (two_zpow_pos f).le
      _ = (2 ^ 52 : Int) * 2 ^ (f + 1) := by rw [two_zpow_succ]; push_cast; ring
      _ ≤ (2 ^ 52 : Int) * 2 ^ e := by
        refine mul_le_mul_of_nonneg_left (zpow_le_zpow_right₀ one_le_two ?_) (by norm_num)
        omega

/-- A large number of 53 bits is a whole number of units. -/
theorem Representable.exists_eq_mul (hw : Representable w) {e : Int} (h : 2 ^ 52 * 2 ^ e ≤ |w|) :
    ∃ k : Int, w = k * 2 ^ e := by
  obtain ⟨m, f, hm, -, rfl⟩ := hw
  -- a number that is not of whole units has exactly `2 ^ 52` of them
  have hunits (n : Int) (hn : |n| ≤ 2 ^ 53) (hle : 2 ^ 52 * 2 ^ e ≤ (n : ℚ) * 2 ^ f) :
      ∃ k : Int, (n : ℚ) * 2 ^ f = k * 2 ^ e := by
    obtain hwhole | ⟨-, hfine⟩ := whole_or_le (e := e) (f := f) hn
    · exact hwhole
    · exact ⟨2 ^ 52, hfine.antisymm (by exact_mod_cast hle)⟩
  rcases abs_cases ((m : ℚ) * 2 ^ f) with ⟨habs, -⟩ | ⟨habs, -⟩
  · exact hunits m hm (by rwa [habs] at h)
  · obtain ⟨k, hk⟩ := hunits (-m) (by rwa [abs_neg]) (by
      rw [habs] at h
      push_cast
      linarith)
    refine ⟨-k, ?_⟩
    push_cast at hk ⊢
    linarith

/-- Rounding to a whole number of units is rounding to the nearest, if the units are fine enough:
they are the finest there are, or the number takes all 53 bits. -/
theorem nearest_of_abs_sub_le {t : ℚ} {n : Nat} {e : Int} (hn : n ≤ 2 ^ 53)
    (h : |(n : ℚ) - t| ≤ 1 / 2) (he : -1074 ≤ e) (hfull : 2 ^ 52 ≤ t ∨ e = -1074) :
    Nearest (t * 2 ^ e) (n * 2 ^ e) := by
  have hpos := two_zpow_pos e
  have hwhole (k : Int) : |(n : ℚ) * 2 ^ e - t * 2 ^ e| ≤ |(k : ℚ) * 2 ^ e - t * 2 ^ e| := by
    rw [← sub_mul, ← sub_mul, abs_mul, abs_mul]
    exact mul_le_mul_of_nonneg_right (abs_sub_le_abs_intCast_sub h k) (abs_nonneg _)
  refine ⟨⟨n, e, ?_, he, by rw [Int.cast_natCast]⟩, ?_⟩
  · rw [Nat.abs_cast]
    exact_mod_cast hn
  · rintro w ⟨m, f, hm, hf, rfl⟩
    obtain ⟨k, hk⟩ | ⟨hlt, hfine⟩ := whole_or_le (e := e) (f := f) hm
    · rw [hk]
      exact hwhole k
    · -- `2 ^ 52` units are between the finer number and `t` of them
      have hbelow : ((2 ^ 52 : Int) : ℚ) * 2 ^ e ≤ t * 2 ^ e := by
        refine mul_le_mul_of_nonneg_right ?_ hpos.le
        exact_mod_cast hfull.resolve_right (by omega)
      refine (hwhole (2 ^ 52)).trans ?_
      rw [abs_of_nonpos (sub_nonpos.mpr hbelow),
        abs_of_nonpos (sub_nonpos.mpr (hfine.trans hbelow))]
      linarith

/-! ## Round bit and sticky bit -/

/-- A significand and its two residual bits stand for `t`: the significand is its whole part, and
the bits say on which side of the middle to the next one it is. -/
def Represents : ExtendedMantissa → ℚ → Prop
  | ⟨m, false, false⟩, t => t = m
  | ⟨m, false, true⟩, t => m < t ∧ t < m + 1 / 2
  | ⟨m, true, false⟩, t => t = m + 1 / 2
  | ⟨m, true, true⟩, t => m + 1 / 2 < t ∧ t < m + 1

variable {em : ExtendedMantissa} {t : ℚ}

/-- A number that is represented lies between its mantissa and the next. -/
theorem Represents.mem_Ico (h : Represents em t) :
    t ∈ Set.Ico (em.mantissa : ℚ) (em.mantissa + 1) := by
  obtain ⟨m, _ | _, _ | _⟩ := em <;> simp only [Represents] at h <;>
    constructor <;> dsimp only <;> linarith

/-- The rounded mantissa is at most half a unit away. -/
theorem Represents.abs_roundedMantissa_sub_le (h : Represents em t) :
    |(em.roundedMantissa : ℚ) - t| ≤ 1 / 2 := by
  obtain ⟨m, _ | _, _ | _⟩ := em <;> simp only [Represents] at h <;>
    simp only [ExtendedMantissa.roundedMantissa, ExtendedMantissa.accuracy,
      Accuracy.roundToNearestEven] <;> push_cast <;> rw [abs_le]
  case true.false =>
    -- the middle: one way or the other
    rcases Nat.mod_two_eq_zero_or_one m with hmod | hmod <;> rw [hmod] <;> push_cast <;>
      constructor <;> linarith
  all_goals constructor <;> linarith

/-- Rounding leaves the mantissa as it is or adds one. -/
theorem roundedMantissa_mem_Icc (em : ExtendedMantissa) :
    em.roundedMantissa ∈ Set.Icc em.mantissa (em.mantissa + 1) := by
  obtain ⟨m, _ | _, _ | _⟩ := em <;>
    simp only [ExtendedMantissa.roundedMantissa, ExtendedMantissa.accuracy,
      Accuracy.roundToNearestEven, Set.mem_Icc] <;> omega

/-- A shift by one place halves the number that is represented. -/
theorem Represents.shiftRightOne (h : Represents em t) : Represents em.shiftRightOne (t / 2) := by
  obtain ⟨m, round, sticky⟩ := em
  have hm : ((m % 2 : Nat) : ℚ) + 2 * (m / 2 : Nat) = m := by exact_mod_cast Nat.mod_add_div m 2
  rcases Nat.mod_two_eq_zero_or_one m with hmod | hmod <;> rw [hmod] at hm <;> push_cast at hm <;>
    cases round <;> cases sticky <;>
    simp only [Represents, ExtendedMantissa.shiftRightOne, hmod] at h ⊢ <;>
    simp <;> first | linarith | (constructor <;> linarith)

/-- A shift by some places divides it by the power of two. -/
theorem Represents.shiftRight (h : Represents em t) (k : Nat) :
    Represents (em >>> k) (t / 2 ^ k) := by
  show Represents (k.repeat ExtendedMantissa.shiftRightOne em) _
  induction k with
  | zero => simpa [Nat.repeat] using h
  | succ k ih =>
      rw [Nat.repeat, pow_succ, ← div_div]
      exact ih.shiftRightOne

/-! ## Rounding a value -/

/-- The factor that a sign stands for. -/
def unit : Sign → ℚ
  | .negative => -1
  | .positive => 1

/-- Giving a sign to a magnitude multiplies it by the unit of this sign. -/
theorem cast_apply (s : Sign) (n : Nat) : ((s.apply n : Int) : ℚ) = unit s * n := by
  cases s <;> simp [Sign.apply, unit]

/-- Rounding does not depend on the sign. -/
theorem Nearest.unit_mul (h : Nearest z r) (s : Sign) : Nearest (unit s * z) (unit s * r) := by
  cases s with
  | negative => simpa only [unit, neg_one_mul] using h.neg
  | positive => simpa only [unit, one_mul] using h

/-- A finite value in canonical form. Its exponent may be too large for a double. -/
def CanonicalValue : UnpackedFloat → Prop
  | .finite _ m e _ => Canonical m e
  | .zero _ => True
  | .infinity _ | .notANumber => False

/-- The value `u` is the number `z`, rounded. -/
def Rounds (u : UnpackedFloat) (z : ℚ) : Prop :=
  CanonicalValue u ∧ ∃ r, value? u = some r ∧ Nearest z r

variable {m n : Nat} {e : Int} {acc : Accuracy}

/-- The exponent that 53 bits of significand call for, and not less than the least. -/
theorem targetExponent_totalExponent (m : Nat) (e : Int) :
    Format.binary64.targetExponent (totalExponent m e) = max (m.log2 + e - 52) (-1074) := by
  have heq : Format.binary64.targetExponent (totalExponent m e) =
      max ((m.log2 + 1 + e) - 53) (-1074) := rfl
  rw [heq]
  omega

/-- The value of a significand and an exponent. -/
def built (s : Sign) (n : Nat) (e : Int) : UnpackedFloat :=
  if h : n = 0 then .zero s else .finite s n e (Nat.pos_of_ne_zero h)

/-- The second half of the rounding: a significand that took one more bit is shifted back. -/
def carried (s : Sign) (n : Nat) (e : Int) : UnpackedFloat :=
  let shifted := shiftToTargetExponent Format.binary64 n e .exact
  built s shifted.1.mantissa shifted.2

/-- A number that is built from a canonical magnitude is canonical, and stands for what it was built
from. -/
theorem canonicalValue_built (s : Sign) (h : Canonical n e) :
    CanonicalValue (built s n e) ∧ value? (built s n e) = some (unit s * (n * 2 ^ e)) := by
  unfold built
  split
  · next hzero => exact ⟨trivial, by rw [hzero]; simp [value?]⟩
  · exact ⟨h, by rw [value?, cast_apply, mul_assoc]⟩

/-- A significand of at most 53 bits needs no shift. -/
theorem shiftToTargetExponent_of_lt (hn : n < 2 ^ 53) (he : -1074 ≤ e) :
    shiftToTargetExponent Format.binary64 n e .exact = (⟨n, false, false⟩, e) := by
  have hlog : n.log2 ≤ 52 := by
    by_cases hzero : n = 0
    · rw [hzero]; decide
    · have hlt := (Nat.log2_lt hzero).mpr hn
      omega
  have hshift : (Format.binary64.targetExponent (totalExponent n e) - e).toNat = 0 := by
    rw [targetExponent_totalExponent]
    omega
  unfold shiftToTargetExponent shiftToExponent
  dsimp only
  rw [hshift]
  exact Prod.ext rfl (Int.add_zero e)

/-- One that rounding carried to 54 bits is shifted by one place, and nothing is lost. -/
theorem shiftToTargetExponent_two_pow (he : -1074 ≤ e) :
    shiftToTargetExponent Format.binary64 (2 ^ 53) e .exact = (⟨2 ^ 52, false, false⟩, e + 1) := by
  have hshift : (Format.binary64.targetExponent (totalExponent (2 ^ 53) e) - e).toNat = 1 := by
    rw [targetExponent_totalExponent, Nat.log2_two_pow]
    omega
  unfold shiftToTargetExponent shiftToExponent
  dsimp only
  rw [hshift]
  rfl

/-- A number whose significand rounding may have carried over is canonical, and stands for what the
rounding says. -/
theorem canonicalValue_carried (s : Sign) (hn : n ≤ 2 ^ 53) (he : -1074 ≤ e)
    (hfull : 2 ^ 52 ≤ n ∨ e = -1074) :
    CanonicalValue (carried s n e) ∧ value? (carried s n e) = some (unit s * (n * 2 ^ e)) := by
  unfold carried
  rcases hn.lt_or_eq with hlt | heq
  · rw [shiftToTargetExponent_of_lt hlt he]
    exact canonicalValue_built s ⟨hlt, he, hfull⟩
  · subst heq
    rw [shiftToTargetExponent_two_pow he]
    have hhalf : ((2 ^ 53 : Nat) : ℚ) * 2 ^ e = ((2 ^ 52 : Nat) : ℚ) * 2 ^ (e + 1) := by
      rw [two_zpow_succ]
      push_cast
      ring
    rw [hhalf]
    exact canonicalValue_built s ⟨by norm_num, by omega, Or.inl le_rfl⟩

/-- The first half: the significand is shifted to its last place, and what it loses is kept in the
residual bits. -/
theorem shiftToTargetExponent_of_le
    (he : e ≤ Format.binary64.targetExponent (totalExponent m e)) :
    shiftToTargetExponent Format.binary64 m e acc =
      (ExtendedMantissa.ofMantissaAndAccuracy m acc >>>
          (Format.binary64.targetExponent (totalExponent m e) - e).toNat,
        Format.binary64.targetExponent (totalExponent m e)) := by
  refine Prod.ext rfl ?_
  show e + ((Format.binary64.targetExponent (totalExponent m e) - e).toNat : Int) = _
  omega

/-- The accuracy of a mantissa leaves the mantissa as it is. -/
theorem mantissa_ofMantissaAndAccuracy (m : Nat) (acc : Accuracy) :
    (ExtendedMantissa.ofMantissaAndAccuracy m acc).mantissa = m := by
  rcases acc with _ | _ | _ | _ <;> rfl

/-- Shifted to its target, a number has at most 53 bits. -/
theorem div_two_pow_lt {t : ℚ} {k : Nat} (ht : t < m + 1) (hlog : m.log2 ≤ 52 + k) :
    t / 2 ^ k < 2 ^ 53 := by
  rw [div_lt_iff₀ (by positivity), ← pow_add]
  have hlt : m + 1 ≤ 2 ^ (53 + k) :=
    Nat.lt_log2_self.trans_le (Nat.pow_le_pow_right two_pos (by omega))
  exact ht.trans_le (by exact_mod_cast hlt)

/-- And if it was shifted for that, it has all of them. -/
theorem two_pow_le_div {t : ℚ} {k : Nat} (ht : m ≤ t) (hlog : m.log2 = 52 + k) :
    2 ^ 52 ≤ t / 2 ^ k := by
  rw [le_div_iff₀ (by positivity), ← pow_add, ← hlog]
  have hne : m ≠ 0 := fun hzero => by
    rw [hzero, show Nat.log2 0 = 0 by decide] at hlog
    omega
  exact le_trans (by exact_mod_cast Nat.log2_self_le hne) ht

/-- Rounding with what is known of the lost bits: the number is `t` units, of which the
significand and the accuracy say all that matters. -/
theorem rounds_roundWithAccuracy {s : Sign} {t : ℚ}
    (h : Represents (.ofMantissaAndAccuracy m acc) t)
    (he : e ≤ Format.binary64.targetExponent (totalExponent m e)) :
    Rounds (roundWithAccuracy Format.binary64 s m e acc) (unit s * (t * 2 ^ e)) := by
  have hround : roundWithAccuracy Format.binary64 s m e acc =
      carried s (shiftToTargetExponent Format.binary64 m e acc).1.roundedMantissa
        (shiftToTargetExponent Format.binary64 m e acc).2 := rfl
  rw [hround, shiftToTargetExponent_of_le he]
  have htarget := targetExponent_totalExponent m e
  generalize Format.binary64.targetExponent (totalExponent m e) = target at he htarget
  dsimp only
  obtain ⟨k, hk⟩ := Int.le.dest he
  have hshift : (target - e).toNat = k := by omega
  have hunits : t * 2 ^ e = t / 2 ^ k * 2 ^ target := by
    rw [← hk, zpow_add₀ two_ne_zero, zpow_natCast]
    field_simp
  have hmem := h.mem_Ico
  rw [mantissa_ofMantissaAndAccuracy] at hmem
  have hlt : t / 2 ^ k < 2 ^ 53 := div_two_pow_lt hmem.2 (by omega)
  have hfull : 2 ^ 52 ≤ t / 2 ^ k ∨ target = -1074 := by
    by_cases hmin : target = -1074
    · exact Or.inr hmin
    · exact Or.inl (two_pow_le_div hmem.1 (by omega))
  rw [hshift, hunits]
  have hcell := h.shiftRight k
  generalize ExtendedMantissa.ofMantissaAndAccuracy m acc >>> k = em at hcell
  generalize t / 2 ^ k = units at hlt hfull hcell
  have hrounded := roundedMantissa_mem_Icc em
  have hmantissa : em.mantissa < 2 ^ 53 := by exact_mod_cast hcell.mem_Ico.1.trans_lt hlt
  have hle : em.roundedMantissa ≤ 2 ^ 53 := hrounded.2.trans hmantissa
  have hfull' : 2 ^ 52 ≤ em.roundedMantissa ∨ target = -1074 := hfull.imp_left fun hunits => by
    have hlt : 2 ^ 52 < em.mantissa + 1 := by exact_mod_cast hunits.trans_lt hcell.mem_Ico.2
    exact (Nat.le_of_lt_succ hlt).trans hrounded.1
  obtain ⟨hcanonical, hvalue⟩ := canonicalValue_carried s hle (by omega) hfull'
  exact ⟨hcanonical, _, hvalue,
    (nearest_of_abs_sub_le hle hcell.abs_roundedMantissa_sub_le (by omega) hfull).unit_mul s⟩

/-- Rounding a number that is given exactly. -/
theorem rounds_round (s : Sign) (hm : m ≠ 0) (e : Int) :
    Rounds (UnpackedFloat.round Format.binary64 s m e) (unit s * (m * 2 ^ e)) := by
  have hround : UnpackedFloat.round Format.binary64 s m e =
      roundWithAccuracy Format.binary64 s
        (m <<< (e - Format.binary64.targetExponent (totalExponent m e)).toNat)
        (e - (e - Format.binary64.targetExponent (totalExponent m e)).toNat) .exact := rfl
  rw [hround]
  have htarget := targetExponent_totalExponent m e
  generalize hk : (e - Format.binary64.targetExponent (totalExponent m e)).toNat = k
  have hlog : (m <<< k).log2 = m.log2 + k := by
    have hlo := Nat.log2_self_le hm
    have hhi : m < 2 ^ (m.log2 + 1) := Nat.lt_log2_self
    rw [Nat.shiftLeft_eq, Nat.log2_eq_iff (by positivity)]
    constructor
    · rw [pow_add]; exact Nat.mul_le_mul_right _ hlo
    · rw [add_right_comm, pow_add]; exact Nat.mul_lt_mul_of_pos_right hhi (by positivity)
  have hvalue : (m : ℚ) * 2 ^ e = (m <<< k : Nat) * 2 ^ (e - k) := by
    rw [Nat.shiftLeft_eq, zpow_sub₀ two_ne_zero, zpow_natCast]
    push_cast
    field_simp
  rw [hvalue]
  refine rounds_roundWithAccuracy rfl ?_
  rw [targetExponent_totalExponent, hlog]
  omega

/-- Sums and differences are rounded this way. -/
theorem rounds_normalize (m e : Int) (zeroSign : Sign) :
    Rounds (UnpackedFloat.normalize Format.binary64 m e zeroSign) (m * 2 ^ e) := by
  unfold UnpackedFloat.normalize
  rcases lt_trichotomy m 0 with hneg | rfl | hpos
  · rw [Int.compare_eq_lt.mpr hneg]
    have hrounds := rounds_round .negative (m := (-m).toNat) (by omega) e
    have hcast : (((-m).toNat : Nat) : ℚ) = -m := by
      exact_mod_cast Int.toNat_of_nonneg (by omega : 0 ≤ -m)
    rw [hcast] at hrounds
    simpa [unit] using hrounds
  · rw [Int.compare_eq_eq.mpr rfl]
    exact ⟨trivial, 0, rfl, by simpa using representable_zero.nearest⟩
  · rw [Int.compare_eq_gt.mpr hpos]
    have hrounds := rounds_round .positive (m := m.toNat) (by omega) e
    have hcast : ((m.toNat : Nat) : ℚ) = m := by
      exact_mod_cast Int.toNat_of_nonneg hpos.le
    rw [hcast] at hrounds
    simpa [unit] using hrounds

end GraphBoard.Double
