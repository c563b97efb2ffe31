import Mathlib.Data.List.Nodup
import Mathlib.Data.List.Perm.Subperm
import Mathlib.Data.Int.ModEq
import GraphBoard.Roll

/-!
# GraphBoard.Proofs.Roll

As many seeds in a row as there are numbers roll every number once.  A seed is multiplied by a
number that has no factor in common with how many numbers there are, so no two of these seeds roll
the same.

* `perm_map_roll` — a full turn of seeds rolls a permutation of all the numbers, wherever it begins;
* `countP_roll_lt` — so a share of the numbers is rolled exactly as often as it is large.
-/

namespace GraphBoard

/-- Seeds that roll the same are a multiple of the number of rolls apart. -/
theorem modEq_of_roll_eq {m n : Nat} (h : roll m = roll n) : m ≡ n [MOD rollRange] := by
  have hlinear : (m + 1) * 9301 + 49297 ≡ (n + 1) * 9301 + 49297 [MOD rollRange] := h
  have hproduct : (m + 1) * 9301 ≡ (n + 1) * 9301 [MOD rollRange] := hlinear.add_right_cancel' 49297
  have hcoprime : Nat.gcd rollRange 9301 = 1 := by decide
  exact (hproduct.cancel_right_of_coprime hcoprime).add_right_cancel' 1

/-- Within one period no roll comes twice. -/
theorem nodup_map_roll (start : Nat) : ((List.range' start rollRange).map roll).Nodup := by
  refine (List.nodup_range' 1).map_on fun m hm n hn h => ?_
  rw [List.mem_range'_1] at hm hn
  have hmod := modEq_of_roll_eq h
  rcases Nat.le_total m n with hle | hle
  · have hdvd : rollRange ∣ n - m := (Nat.modEq_iff_dvd' hle).mp hmod
    have hzero : n - m = 0 := Nat.eq_zero_of_dvd_of_lt hdvd (by omega)
    omega
  · have hdvd : rollRange ∣ m - n := (Nat.modEq_iff_dvd' hle).mp hmod.symm
    have hzero : m - n = 0 := Nat.eq_zero_of_dvd_of_lt hdvd (by omega)
    omega

/-- A full turn of seeds rolls every number once. -/
theorem perm_map_roll (start : Nat) :
    ((List.range' start rollRange).map roll).Perm (List.range rollRange) := by
  have hsubset : (List.range' start rollRange).map roll ⊆ List.range rollRange := by
    intro x hx
    obtain ⟨seed, -, rfl⟩ := List.mem_map.mp hx
    exact List.mem_range.mpr (roll_lt seed)
  refine ((nodup_map_roll start).subperm hsubset).perm_of_length_le ?_
  rw [List.length_map, List.length_range', List.length_range]

/-- So many numbers are below a bound as the bound says. -/
theorem countP_range_lt {m n : Nat} (h : m ≤ n) : (List.range n).countP (· < m) = m := by
  obtain ⟨k, rfl⟩ := Nat.exists_eq_add_of_le h
  have hbelow : (List.range m).countP (· < m) = m := by
    rw [List.countP_eq_length.mpr fun x hx => by simpa using hx, List.length_range]
  have habove : ((List.range k).map (m + ·)).countP (· < m) = 0 := by
    simp [List.countP_eq_zero]
  rw [List.range_add, List.countP_append, hbelow, habove, Nat.add_zero]

/-- In a full turn of seeds the numbers below a bound are rolled as often as there are such
numbers. -/
theorem countP_roll_lt (start : Nat) {m : Nat} (h : m ≤ rollRange) :
    (List.range' start rollRange).countP (fun seed => roll seed < m) = m := by
  have hcount := (perm_map_roll start).countP_eq (· < m)
  rw [List.countP_map, countP_range_lt h] at hcount
  exact hcount

end GraphBoard
