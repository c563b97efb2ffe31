import Mathlib
import GraphBoard.Proofs.Scalar.Order

/-!
# GraphBoard.Proofs.Double.Value

The number that a finite double stands for.  A double other than zero has one significand and one
exponent (`Canonical`), so that doubles are in the order of their numbers, and what is packed into
64 bits is read back:

* `unpack_pack` — a canonical value that is not too large survives its packing;
* `unpack_pack_of_lt` — one that is too large becomes an infinity;
* `Denotes.le_iff` — finite doubles are compared as their numbers are.
-/

namespace GraphBoard.Double

open Float.Model Float.Model.UnpackedFloat

/-! ## Significand and exponent -/

/-- The significand has 53 bits; it has fewer only at the least exponent. -/
structure Canonical (m : Nat) (e : Int) : Prop where
  lt : m < 2 ^ 53
  min_le : -1074 ≤ e
  full : 2 ^ 52 ≤ m ∨ e = -1074

variable {m n : Nat} {e f : Int}

/-- Powers of two are positive. -/
theorem two_zpow_pos (e : Int) : (0 : ℚ) < 2 ^ e := zpow_pos two_pos e

/-- A positive significand stands for a positive number. -/
theorem mul_zpow_pos (h : 0 < m) (e : Int) : (0 : ℚ) < m * 2 ^ e :=
  mul_pos (Nat.cast_pos.mpr h) (two_zpow_pos e)

/-- A step of the exponent doubles the power. -/
theorem two_zpow_succ (e : Int) : (2 : ℚ) ^ (e + 1) = 2 * 2 ^ e := by
  rw [zpow_add_one₀ two_ne_zero, mul_comm]

/-- A larger exponent outweighs every significand. -/
theorem Canonical.mul_zpow_lt (h : Canonical m e) (h' : Canonical n f) (hef : e < f) :
    (m : ℚ) * 2 ^ e < n * 2 ^ f := by
  have hn : (2 ^ 52 : ℚ) ≤ n := by
    have hmin := h.min_le
    exact_mod_cast h'.full.resolve_right (by omega)
  have hm : (m : ℚ) < 2 ^ 53 := by exact_mod_cast h.lt
  calc (m : ℚ) * 2 ^ e
      < 2 ^ 53 * 2 ^ e := mul_lt_mul_of_pos_right hm (two_zpow_pos e)
    _ = 2 ^ 52 * 2 ^ (e + 1) := by rw [two_zpow_succ]; ring
    _ ≤ n * 2 ^ f :=
      mul_le_mul hn (zpow_le_zpow_right₀ one_le_two hef) (two_zpow_pos _).le (Nat.cast_nonneg n)

/-- Canonical magnitudes compare by the exponent first and then by the significand. -/
theorem Canonical.mul_zpow_le_iff (h : Canonical m e) (h' : Canonical n f) :
    (m : ℚ) * 2 ^ e ≤ n * 2 ^ f ↔ e < f ∨ e = f ∧ m ≤ n := by
  rcases lt_trichotomy e f with hlt | heq | hgt
  · exact iff_of_true (h.mul_zpow_lt h' hlt).le (Or.inl hlt)
  · subst heq
    rw [mul_le_mul_iff_left₀ (two_zpow_pos e), Nat.cast_le]
    simp
  · exact iff_of_false (h'.mul_zpow_lt h hgt).not_ge (by omega)

/-! ## Values -/

/-- The number of a finite value. -/
def value? : UnpackedFloat → Option ℚ
  | .zero _ => some 0
  | .finite s m e _ => some (s.apply m * 2 ^ e)
  | .infinity _ | .notANumber => none

/-- What is true of every value that is read from 64 bits. -/
def WellFormed : UnpackedFloat → Prop
  | .finite _ m e _ => Canonical m e ∧ e ≤ 971
  | .zero _ | .infinity _ | .notANumber => True

/-- The double `x` is finite and stands for the number `r`. -/
def Denotes (x : Float) (r : ℚ) : Prop := value? x.toModel.unpack = some r

/-- The leading bit that normal numbers leave out counts for the power of two behind all others. -/
theorem toNat_implicit_append (b : BitVec 52) : (1#1 ++ b).toNat = 2 ^ 52 + b.toNat := by
  rw [BitVec.toNat_append, ← Nat.shiftLeft_add_eq_or_of_lt b.isLt, Nat.shiftLeft_eq]
  rfl

/-- Whatever 64 bits are unpacked, the result is in canonical form. -/
theorem wellFormed_unpack (b : BitVec Format.binary64.numBits) :
    WellFormed (UnpackedFloat.unpack Format.binary64 b) := by
  unfold UnpackedFloat.unpack
  have hm : (unpackMantissa b).toNat < 2 ^ 52 := (unpackMantissa b).isLt
  have he : (unpackExponent b).toNat < 2 ^ 11 := (unpackExponent b).isLt
  have hbias : Format.binary64.exponentBias = 1023 := rfl
  dsimp only
  split
  · split <;> trivial
  · next hmax =>
      have hlt : (unpackExponent b).toNat < 2047 := by
        have hne : (unpackExponent b).toNat ≠ 2047 := fun h => hmax (BitVec.eq_of_toNat_eq h)
        omega
      split
      · split
        · trivial
        · next hzero _ =>
            have hexp : (unpackExponent b).toNat = 0 := by rw [hzero]; rfl
            rw [hexp, hbias]
            exact ⟨⟨by omega, by norm_num, Or.inr (by norm_num)⟩, by norm_num⟩
      · next hnonzero =>
          have hpos : 0 < (unpackExponent b).toNat :=
            Nat.pos_of_ne_zero fun h => hnonzero (BitVec.eq_of_toNat_eq h)
          have happend := toNat_implicit_append (unpackMantissa b)
          rw [hbias]
          refine ⟨⟨?_, by omega, Or.inl ?_⟩, by omega⟩ <;> rw [happend] <;> omega

/-- A double is unpacked in canonical form. -/
theorem wellFormed_toModel (x : Float) : WellFormed x.toModel.unpack := wellFormed_unpack _

/-! ## Packing -/

/-- The bits of a normal number are unpacked to the significand and the exponent that they were
packed from. -/
theorem unpack_packComponents_of_normal (s : Sign) {biased : Nat} (hpos : 0 < biased)
    (hlt : biased < 2047) (h : 0 < m) (hlo : 2 ^ 52 ≤ m) (hhi : m < 2 ^ 53) :
    UnpackedFloat.unpack Format.binary64
      (packComponents Format.binary64 s (BitVec.ofNat 11 biased) (BitVec.ofNat 52 m)) =
      .finite s m (biased - 1075) h := by
  have hexponent : (BitVec.ofNat 11 biased).toNat = biased := by
    rw [BitVec.toNat_ofNat]; omega
  have hne : BitVec.ofNat 11 biased ≠ 0#11 := fun heq => by
    rw [heq] at hexponent; exact hpos.ne hexponent
  have hmax : BitVec.ofNat 11 biased ≠ -1#11 := fun heq => by
    rw [heq] at hexponent; exact hlt.ne' hexponent
  have hmantissa : (1#1 ++ BitVec.ofNat 52 m).toNat = m := by
    rw [toNat_implicit_append, BitVec.toNat_ofNat]; omega
  unfold UnpackedFloat.unpack
  simp only [unpackMantissa_packComponents, unpackExponent_packComponents,
    unpackSign_packComponents, Sign.ofBitVec_toBitVec]
  rw [if_neg hmax, if_neg hne]
  simp only [hmantissa, hexponent]
  rfl

/-- So are those of a subnormal number, which have the least exponent. -/
theorem unpack_packComponents_of_subnormal (s : Sign) (h : 0 < m) (hhi : m < 2 ^ 52) :
    UnpackedFloat.unpack Format.binary64
      (packComponents Format.binary64 s 0#11 (BitVec.ofNat 52 m)) = .finite s m (-1074) h := by
  have hmantissa : (BitVec.ofNat 52 m).toNat = m := by
    rw [BitVec.toNat_ofNat]; omega
  have hne : BitVec.ofNat 52 m ≠ 0#52 := fun heq => by
    rw [heq] at hmantissa; exact h.ne hmantissa
  unfold UnpackedFloat.unpack
  simp only [unpackMantissa_packComponents, unpackExponent_packComponents,
    unpackSign_packComponents, Sign.ofBitVec_toBitVec]
  rw [if_neg (by decide), if_pos trivial, dif_neg hne]
  simp only [hmantissa]
  rfl

/-- How a finite number is packed: as infinity if the exponent is too large, with its leading bit
left out if the significand is full, and as a subnormal number if not. -/
theorem pack_finite (s : Sign) (h : 0 < m) :
    UnpackedFloat.pack Format.binary64 (.finite s m e h) =
      if 2048 ≤ (e + 1023 + 52).toNat + 1 then packedInfinity Format.binary64 s
      else if m.log2 + 1 = 53 then
        packComponents Format.binary64 s (BitVec.ofNat 11 (e + 1023 + 52).toNat) (BitVec.ofNat 52 m)
      else packComponents Format.binary64 s 0#11 (BitVec.ofNat 52 m) := rfl

/-- What is packed is read back. -/
theorem unpack_pack {u : UnpackedFloat} (h : WellFormed u) : (pack u).unpack = u := by
  show UnpackedFloat.unpack Format.binary64 (UnpackedFloat.pack Format.binary64 u) = u
  match u, h with
  | .notANumber, _ => rfl
  | .infinity s, _ => cases s <;> rfl
  | .zero s, _ => cases s <;> rfl
  | .finite s m e hm, ⟨⟨hhi, hmin, hfull⟩, hmax⟩ =>
      rw [pack_finite, if_neg (by omega)]
      by_cases hlo : 2 ^ 52 ≤ m
      · have hlog : m.log2 + 1 = 53 := by
          have hlower := (Nat.le_log2 hm.ne').mpr hlo
          have hupper := (Nat.log2_lt hm.ne').mpr hhi
          omega
        rw [if_pos hlog, unpack_packComponents_of_normal s (by omega) (by omega) hm hlo hhi]
        congr 1
        omega
      · have hexponent : e = -1074 := hfull.resolve_left hlo
        subst hexponent
        have hlog : m.log2 + 1 ≠ 53 := by
          have hupper := (Nat.log2_lt hm.ne').mpr (not_le.mp hlo)
          omega
        rw [if_neg hlog, unpack_packComponents_of_subnormal s hm (not_le.mp hlo)]

/-- What is too large for a double becomes an infinity. -/
theorem unpack_pack_of_lt (s : Sign) (h : 0 < m) (he : 971 < e) :
    (pack (.finite s m e h)).unpack = .infinity s := by
  show UnpackedFloat.unpack Format.binary64 (UnpackedFloat.pack Format.binary64 _) = _
  rw [pack_finite, if_pos (by omega)]
  cases s <;> rfl

/-! ## The order of finite doubles -/

/-- Unpacked finite numbers compare as the rationals they stand for. -/
theorem le_iff_of_value? {u v : UnpackedFloat} {r s : ℚ} (hu : WellFormed u) (hv : WellFormed v)
    (hr : value? u = some r) (hs : value? v = some s) : u.le v = true ↔ r ≤ s := by
  rw [Scalar.le_iff_rankLE]
  -- the signs decide, but for two numbers on one side of zero
  rcases u with _ | _ | _ | ⟨_ | _, m, e, hm⟩ <;> rcases v with _ | _ | _ | ⟨_ | _, n, f, hn⟩ <;>
    cases hr <;> cases hs <;> simp [Scalar.rank, Scalar.RankLE, Sign.apply]
  case zero.finite.negative => exact mul_zpow_pos hn f
  case zero.finite.positive => exact (mul_zpow_pos hn f).le
  case finite.negative.zero => exact (mul_zpow_pos hm e).le
  case finite.positive.zero => exact mul_zpow_pos hm e
  case finite.negative.finite.positive => linarith [mul_zpow_pos hm e, mul_zpow_pos hn f]
  case finite.positive.finite.negative => linarith [mul_zpow_pos hm e, mul_zpow_pos hn f]
  case finite.positive.finite.positive => exact (hu.1.mul_zpow_le_iff hv.1).symm
  case finite.negative.finite.negative =>
    rw [hv.1.mul_zpow_le_iff hu.1, eq_comm (a := e)]

/-- Doubles are compared by what they are unpacked to. -/
theorem le_iff_unpack (x y : Float) : x ≤ y ↔ x.toModel.unpack.le y.toModel.unpack = true := by
  show x.le y = true ↔ _
  unfold Float.le
  rw [decide_eq_true_iff]
  rfl

/-- So they are in the strict order. -/
theorem lt_iff_unpack (x y : Float) : x < y ↔ x.toModel.unpack.lt y.toModel.unpack = true := by
  show x.lt y = true ↔ _
  unfold Float.lt
  rw [decide_eq_true_iff]
  rfl

/-- Finite doubles are compared as their numbers are. -/
theorem Denotes.le_iff {x y : Float} {r s : ℚ} (hx : Denotes x r) (hy : Denotes y s) :
    x ≤ y ↔ r ≤ s := by
  rw [le_iff_unpack]
  exact le_iff_of_value? (wellFormed_toModel x) (wellFormed_toModel y) hx hy

/-- A double that stands for a number can be compared. -/
theorem Denotes.comparable {x : Float} {r : ℚ} (hx : Denotes x r) : x ≤ x :=
  (hx.le_iff hx).mpr le_rfl

/-- Comparing by exponent and then by significand is turned round by swapping both. -/
theorem then_compare_swap (m n : Nat) (e f : Int) :
    (compare e f).then (compare m n) = ((compare f e).then (compare n m)).swap := by
  rw [Ordering.swap_then, ← Int.compare_swap f e, ← Nat.compare_swap n m]

/-- Comparing unpacked numbers is turned round by swapping them. -/
theorem compare_swap (u v : UnpackedFloat) : u.compare v = (v.compare u).map Ordering.swap := by
  rcases u with ⟨_ | _⟩ | _ | _ | ⟨_ | _, m, e, hm⟩ <;>
    rcases v with ⟨_ | _⟩ | _ | _ | ⟨_ | _, n, f, hn⟩ <;> try rfl
  case finite.negative.finite.negative =>
    exact congrArg (fun o => some o.swap) (then_compare_swap m n e f)
  case finite.positive.finite.positive => exact congrArg some (then_compare_swap m n e f)

/-- Of two doubles that compare with something, one is below the other or not above it. -/
theorem lt_iff_not_le {x y : Float} (hx : x ≤ x) (hy : y ≤ y) : x < y ↔ ¬ y ≤ x := by
  have htotal := Scalar.LawfulOrder.le_total hx hy
  rw [le_iff_unpack, le_iff_unpack] at htotal
  rw [lt_iff_unpack, le_iff_unpack]
  unfold UnpackedFloat.lt UnpackedFloat.le at *
  rw [compare_swap] at htotal ⊢
  generalize y.toModel.unpack.compare x.toModel.unpack = c at htotal ⊢
  rcases c with _ | _ | _ | _
  · cases htotal <;> contradiction
  all_goals decide

/-- Doubles that stand for numbers are in the strict order of these numbers. -/
theorem Denotes.lt_iff {x y : Float} {r s : ℚ} (hx : Denotes x r) (hy : Denotes y s) :
    x < y ↔ r < s := by
  rw [lt_iff_not_le hx.comparable hy.comparable, hy.le_iff hx, not_le]

end GraphBoard.Double
