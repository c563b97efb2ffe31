import GraphBoard.Scalar.Double

/-!
# GraphBoard.Proofs.Scalar.Order

The order of the numbers.  Doubles are not in linear order: a NaN compares with nothing, and the
two zeros are below each other.  `LawfulOrder` is what stays true of them, and it is enough for the
smallest of several numbers to be what its name says:

* `foldl_min_mem` — the smallest of several numbers is one of them;
* `foldl_min_le` — it is not above any of them that compares with something.
-/

namespace GraphBoard.Scalar

/-- Comparison is transitive, and it is total among the values that compare with themselves. -/
class LawfulOrder (α : Type) [Scalar α] : Prop where
  le_trans {x y z : α} : x ≤ y → y ≤ z → x ≤ z
  le_total {x y : α} : x ≤ x → y ≤ y → x ≤ y ∨ y ≤ x
  le_self_left {x y : α} : x ≤ y → x ≤ x
  le_self_right {x y : α} : x ≤ y → y ≤ y

/-! ## The smallest of several numbers -/

variable {α : Type} [Scalar α]

/-- The lesser of two numbers is one of them. -/
theorem min_eq_or (x y : α) : Scalar.min x y = x ∨ Scalar.min x y = y := by
  unfold Scalar.min
  by_cases h : y ≤ x
  · rw [if_pos h]; exact Or.inr rfl
  · rw [if_neg h]
    by_cases hx : x ≤ x
    · rw [if_pos hx]; exact Or.inl rfl
    · rw [if_neg hx]; exact Or.inr rfl

/-- The least of several numbers is one of them. -/
theorem foldl_min_mem (x : α) (xs : List α) : xs.foldl Scalar.min x ∈ x :: xs := by
  induction xs generalizing x with
  | nil => exact List.mem_cons_self
  | cons y ys ih =>
      rw [List.foldl_cons]
      cases List.mem_cons.mp (ih (Scalar.min x y)) with
      | inl h =>
          rw [h]
          cases min_eq_or x y with
          | inl hm => rw [hm]; exact List.mem_cons_self
          | inr hm => rw [hm]; exact List.mem_cons_of_mem x List.mem_cons_self
      | inr h => exact List.mem_cons_of_mem x (List.mem_cons_of_mem y h)

/-- The lesser of two numbers is not above the first. -/
theorem min_le_left {x : α} (y : α) (hx : x ≤ x) : Scalar.min x y ≤ x := by
  unfold Scalar.min
  by_cases h : y ≤ x
  · rw [if_pos h]; exact h
  · rw [if_neg h, if_pos hx]; exact hx

variable [LawfulOrder α]

theorem min_le_right (x : α) {y : α} (hy : y ≤ y) : Scalar.min x y ≤ y := by
  unfold Scalar.min
  by_cases h : y ≤ x
  · rw [if_pos h]; exact hy
  · rw [if_neg h]
    by_cases hx : x ≤ x
    · rw [if_pos hx]
      exact (LawfulOrder.le_total hx hy).resolve_right h
    · rw [if_neg hx]; exact hy

/-- The least of several numbers is not above the first. -/
theorem foldl_min_le_init {x : α} (xs : List α) (hx : x ≤ x) : xs.foldl Scalar.min x ≤ x := by
  induction xs generalizing x with
  | nil => exact hx
  | cons y ys ih =>
      have hm : Scalar.min x y ≤ x := min_le_left y hx
      exact LawfulOrder.le_trans (ih (LawfulOrder.le_self_left hm)) hm

/-- A value that compares with nothing gives way to the others, so the smallest number is below
all that compare with something, whatever else is in the list. -/
theorem foldl_min_le {x y : α} {xs : List α} (hy : y ∈ x :: xs) (h : y ≤ y) :
    xs.foldl Scalar.min x ≤ y := by
  induction xs generalizing x with
  | nil =>
      rw [List.mem_singleton] at hy
      subst hy
      exact h
  | cons z zs ih =>
      rw [List.foldl_cons]
      have hfirst (hm : Scalar.min x z ≤ y) : zs.foldl Scalar.min (Scalar.min x z) ≤ y :=
        LawfulOrder.le_trans (foldl_min_le_init zs (LawfulOrder.le_self_left hm)) hm
      cases List.mem_cons.mp hy with
      | inl he => subst he; exact hfirst (min_le_left z h)
      | inr hy =>
          cases List.mem_cons.mp hy with
          | inl he => subst he; exact hfirst (min_le_right x h)
          | inr hy => exact ih (List.mem_cons_of_mem _ hy)

/-! ## Doubles -/

open Float.Model

/-- The place of a double in the order: its class, from the negative infinity up to the positive
one, and within a class of finite numbers the exponent and the significand.  A NaN has no place. -/
def rank : UnpackedFloat → Option (Int × Int × Int)
  | .notANumber => none
  | .infinity .negative => some (-2, 0, 0)
  | .finite .negative m e _ => some (-1, -e, -m)
  | .zero _ => some (0, 0, 0)
  | .finite .positive m e _ => some (1, e, m)
  | .infinity .positive => some (2, 0, 0)

/-- Places are compared by their first difference. -/
def RankLE (r s : Int × Int × Int) : Prop :=
  r.1 < s.1 ∨ r.1 = s.1 ∧ (r.2.1 < s.2.1 ∨ r.2.1 = s.2.1 ∧ r.2.2 ≤ s.2.2)

/-- Exponents are compared first and digits second. -/
theorem isLE_then_compare (e f : Int) (m n : Nat) :
    ((compare e f).then (compare m n)).isLE = true ↔ e < f ∨ e = f ∧ m ≤ n := by
  rw [Ordering.isLE_then_iff_or]
  simp [Nat.isLE_compare, Int.compare_eq_lt]

/-- They are compared so the other way round, too. -/
theorem isGE_then_compare (e f : Int) (m n : Nat) :
    ((compare e f).then (compare m n)).isGE = true ↔ f < e ∨ e = f ∧ n ≤ m := by
  cases hc : compare e f with
  | lt =>
      have hlt := Int.compare_eq_lt.mp hc
      simp
      omega
  | eq =>
      have heq := Int.compare_eq_eq.mp hc
      simp [Nat.isGE_compare]
      omega
  | gt =>
      have hgt := Int.compare_eq_gt.mp hc
      simp
      omega

/-- Numbers are in order exactly if they have ranks, and these are. -/
theorem le_iff_rankLE (a b : UnpackedFloat) :
    a.le b = true ↔ ∃ r s, rank a = some r ∧ rank b = some s ∧ RankLE r s := by
  -- the classes decide, but for two finite numbers of one sign
  rcases a with ⟨_ | _⟩ | _ | ⟨_⟩ | ⟨_ | _, m, e, hm⟩ <;>
    rcases b with ⟨_ | _⟩ | _ | ⟨_⟩ | ⟨_ | _, n, f, hn⟩ <;>
    dsimp only [UnpackedFloat.le, UnpackedFloat.compare, rank] <;>
    simp [RankLE, isLE_then_compare, isGE_then_compare] <;> decide

/-- Doubles are in order exactly if they have ranks, and these are. -/
theorem float_le_iff (x y : Float) :
    x ≤ y ↔
      ∃ r s, rank x.toModel.unpack = some r ∧ rank y.toModel.unpack = some s ∧ RankLE r s := by
  rw [← le_iff_rankLE]
  show x.le y = true ↔ _
  unfold Float.le
  rw [decide_eq_true_iff]
  rfl

instance : LawfulOrder Float where
  le_trans {x y z} hxy hyz := by
    obtain ⟨r, s, hr, hs, hrs⟩ := (float_le_iff x y).mp hxy
    obtain ⟨s', t, hs', ht, hst⟩ := (float_le_iff y z).mp hyz
    have he : s' = s := Option.some.inj (hs'.symm.trans hs)
    subst he
    refine (float_le_iff x z).mpr ⟨r, t, hr, ht, ?_⟩
    unfold RankLE at hrs hst ⊢
    omega
  le_total {x y} hx hy := by
    obtain ⟨r, -, hr, -, -⟩ := (float_le_iff x x).mp hx
    obtain ⟨s, -, hs, -, -⟩ := (float_le_iff y y).mp hy
    have h : RankLE r s ∨ RankLE s r := by unfold RankLE; omega
    cases h with
    | inl h => exact Or.inl ((float_le_iff x y).mpr ⟨r, s, hr, hs, h⟩)
    | inr h => exact Or.inr ((float_le_iff y x).mpr ⟨s, r, hs, hr, h⟩)
  le_self_left {x y} h := by
    obtain ⟨r, -, hr, -, -⟩ := (float_le_iff x y).mp h
    exact (float_le_iff x x).mpr ⟨r, r, hr, hr, by unfold RankLE; omega⟩
  le_self_right {x y} h := by
    obtain ⟨-, s, -, hs, -⟩ := (float_le_iff x y).mp h
    exact (float_le_iff y y).mpr ⟨s, s, hs, hs, by unfold RankLE; omega⟩

end GraphBoard.Scalar
