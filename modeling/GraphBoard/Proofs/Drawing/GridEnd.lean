import GraphBoard.Proofs.Drawing.Grid
import GraphBoard.Proofs.Drawing.Frame
import GraphBoard.Proofs.Double.Arithmetic
import GraphBoard.Session.Basic

/-!
# GraphBoard.Proofs.Drawing.GridEnd

When the grid comes to its end on doubles.  From `2 ^ 59` on, and below `-2 ^ 59`, the doubles are
more than twice a step apart, so that a step is rounded away; between these two a step goes at least
32 of its 50 units.  A walk along the lines therefore ends exactly if it starts and stops between
them, or stops before it starts:

* `add_step_le` — out there no step leads across a number;
* `add_le_of_nearest` — in between a step leads on;
* `lines_isSome_iff` — which ranges have an end, and that the bound on the steps is large enough.
-/

namespace GraphBoard

open Double

namespace Grid

section Walks

variable {α : Type} [Scalar α]

/-- Where the first line of a range is. -/
def firstLine (start : α) : α := Scalar.floor (start / step) * step

/-- The walk from the first line of a range comes to its end. -/
def Ends (start stop : α) : Prop := ∃ bound, (walk stop bound (firstLine start)).isSome

/-- A walk that a step never leads above `stop` has no end. -/
theorem walk_eq_none {stop x : α} {P : α → Prop}
    (hstays : ∀ y, P y → y ≤ stop ∧ P (y + step)) (hx : P x) (bound : Nat) :
    walk stop bound x = none := by
  induction bound generalizing x with
  | zero => rw [walk, if_pos (hstays x hx).1]
  | succ bound ih => rw [walk, if_pos (hstays x hx).1, ih (hstays x hx).2, Option.map_none]

/-- A walk that starts behind its end has no steps. -/
theorem walk_of_not_le {stop x : α} (h : ¬ x ≤ stop) (bound : Nat) :
    walk stop bound x = some [] := by
  cases bound <;> rw [walk, if_neg h]

/-- If the bound is enough for a walk, the walk comes to its end. -/
theorem ends_of_lines_isSome {start stop : α} (h : (lines start stop).isSome) : Ends start stop :=
  ⟨_, h⟩

end Walks

/-! ## Steps of doubles -/

/-- Two numbers of 53 bits are at least 128 apart, from `2 ^ 59` on and below `-2 ^ 59`. -/
theorem add_le_of_lt {c r : ℚ} (hc : Representable c) (hr : Representable r)
    (hfar : 2 ^ 59 ≤ c ∨ c < -2 ^ 59) (hlt : c < r) : c + 128 ≤ r := by
  have hwhole {w : ℚ} (hw : Representable w) (h : 2 ^ 59 ≤ |w|) : ∃ k : Int, w = k * 128 :=
    hw.exists_eq_mul (e := 7) (by linarith)
  obtain ⟨m, hm⟩ := hwhole hc (by rw [le_abs]; exact hfar.imp_right fun h => by linarith)
  by_cases hr' : 2 ^ 59 ≤ |r|
  · obtain ⟨n, hn⟩ := hwhole hr hr'
    have hlt' : m < n := by
      rw [hm, hn] at hlt
      exact_mod_cast lt_of_mul_lt_mul_right hlt (by norm_num)
    have hle : (m : ℚ) + 1 ≤ n := by exact_mod_cast hlt'
    linarith
  · -- the nearer to zero of the two is below `-2 ^ 59`, and so is the next multiple of 128
    have hbound := abs_lt.mp (not_le.mp hr')
    have hlow : c < -2 ^ 59 := hfar.resolve_left (by linarith)
    have hlow' : m < -2 ^ 52 := by
      have hcast : (m : ℚ) < (-2 ^ 52 : Int) := by push_cast; linarith
      exact_mod_cast hcast
    have hle : (m : ℚ) + 1 ≤ (-2 ^ 52 : Int) := by exact_mod_cast hlow'
    push_cast at hle
    linarith

/-- Far out a step does not lead across a number. -/
theorem le_of_nearest {b c r : ℚ} (hc : Representable c) (hfar : 2 ^ 59 ≤ c ∨ c < -2 ^ 59)
    (hbc : b ≤ c) (h : Nearest (b + 50) r) : r ≤ c := by
  rcases le_or_gt (b + 50) c with hle | hgt
  · exact h.le_of_ge hc hle
  · by_contra hlt
    have hgap := add_le_of_lt hc h.1 hfar (not_le.mp hlt)
    have hnear := h.le_add hc (d := 50) (by rw [abs_le]; constructor <;> linarith)
    linarith

/-- The next multiple after a number of 53 bits has 53 bits as well. -/
theorem representable_add {b u : ℚ} {n e : Int} (he : -1074 ≤ e) (hu : u = 2 ^ e) (hb : b = n * u)
    (hlo : -2 ^ 53 * u ≤ b) (hhi : b < 2 ^ 53 * u) : Representable (b + u) := by
  have hpos : 0 < u := hu ▸ two_zpow_pos e
  rw [hb] at hlo hhi
  have hlo' : (-2 ^ 53 : ℚ) ≤ n := le_of_mul_le_mul_right hlo hpos
  have hhi' : (n : ℚ) < 2 ^ 53 := lt_of_mul_lt_mul_right hhi hpos.le
  have hlo'' : -2 ^ 53 ≤ n := by exact_mod_cast hlo'
  have hhi'' : n < 2 ^ 53 := by exact_mod_cast hhi'
  refine ⟨n + 1, e, abs_le.mpr ⟨by omega, by omega⟩, he, ?_⟩
  rw [hb, hu]
  push_cast
  ring

/-- There is a number of 53 bits within 18 units of where a step leads. -/
theorem exists_representable_near {b : ℚ} (hb : Representable b) (hlo : -2 ^ 59 ≤ b)
    (hhi : b < 2 ^ 59) : ∃ w, Representable w ∧ |w - (b + 50)| ≤ 18 := by
  by_cases hfar : 2 ^ 58 ≤ |b|
  · -- among multiples of 64, the next one
    obtain ⟨n, hn⟩ := hb.exists_eq_mul (e := 6) (by linarith)
    refine ⟨b + 64, representable_add (e := 6) (by norm_num) (by norm_num) (by linarith)
      (by linarith) (by linarith), ?_⟩
    rw [show b + 64 - (b + 50) = 14 by ring]
    norm_num
  · have hbound := abs_lt.mp (not_le.mp hfar)
    by_cases hnear : 2 ^ 57 ≤ b
    · -- among multiples of 32, the next one again: the one after it may have too many bits
      obtain ⟨n, hn⟩ := hb.exists_eq_mul (e := 5) (by rw [le_abs]; left; linarith)
      refine ⟨b + 32, representable_add (e := 5) (by norm_num) (by norm_num) (by linarith)
        (by linarith) (by linarith), ?_⟩
      rw [show b + 32 - (b + 50) = -18 by ring]
      norm_num
    · -- the nearest multiple of 32
      have hround := abs_le.mp (abs_sub_round ((b + 50) / 32))
      have hlo' : (-2 ^ 53 : Int) ≤ round ((b + 50) / 32) := by
        have hcast : ((-2 ^ 53 : Int) : ℚ) ≤ round ((b + 50) / 32) := by push_cast; linarith
        exact_mod_cast hcast
      have hhi' : round ((b + 50) / 32) ≤ (2 ^ 53 : Int) := by
        have hcast : (round ((b + 50) / 32) : ℚ) ≤ (2 ^ 53 : Int) := by push_cast; linarith
        exact_mod_cast hcast
      refine ⟨round ((b + 50) / 32) * 32, ⟨_, 5, abs_le.mpr ⟨hlo', hhi'⟩, by norm_num, by norm_num⟩,
        ?_⟩
      rw [abs_le]
      constructor <;> linarith

/-- Nearer to zero a step leads on. -/
theorem add_le_of_nearest {b r : ℚ} (hb : Representable b) (hlo : -2 ^ 59 ≤ b) (hhi : b < 2 ^ 59)
    (h : Nearest (b + 50) r) : b + 32 ≤ r := by
  obtain ⟨w, hw, hd⟩ := exists_representable_near hb hlo hhi
  linarith [h.sub_le hw hd]

/-- From here on a step is rounded away: `2 ^ 59`. -/
def limit : Float := 576460752303423488.0

/-- The limit stands for the 59th power of two. -/
theorem denotes_limit : Denotes limit (2 ^ 59) := by
  have hunpack : limit.toModel.unpack = .finite .positive (2 ^ 52) 7 (by decide) := by rfl
  unfold Denotes
  rw [hunpack]
  norm_num [value?, Float.Model.UnpackedFloat.Sign.apply]

/-- And its opposite for the opposite of this power. -/
theorem denotes_neg_limit : Denotes (-limit) (-2 ^ 59) := by
  have hunpack : (-limit).toModel.unpack = .finite .negative (2 ^ 52) 7 (by decide) := by rfl
  unfold Denotes
  rw [hunpack]
  norm_num [value?, Float.Model.UnpackedFloat.Sign.apply]

/-- The step stands for fifty. -/
theorem denotes_step : Denotes step 50 := by
  have hunpack : (step : Float).toModel.unpack =
      .finite .positive 7036874417766400 (-47) (by decide) := by rfl
  unfold Denotes
  rw [hunpack]
  norm_num [value?, Float.Model.UnpackedFloat.Sign.apply]

variable {x y stop : Float} {a b c r : ℚ}

/-- The double `c` is not between the limits. -/
def IsFar (c : Float) : Prop := c < -limit ∨ limit ≤ c

/-- A coordinate is far out exactly if its value is outside the limits. -/
theorem isFar_iff {c : Float} (hc : Denotes c a) : IsFar c ↔ a < -2 ^ 59 ∨ 2 ^ 59 ≤ a := by
  rw [IsFar, hc.lt_iff denotes_neg_limit, denotes_limit.le_iff hc]

/-- A range lies between the limits, or one of its ends is far out. -/
theorem between_or_isFar {start stop : Float} (h : start ≤ stop) :
    (-limit ≤ start ∧ stop < limit) ∨ IsFar start ∨ IsFar stop := by
  have hstart := Scalar.LawfulOrder.le_self_left h
  have hstop := Scalar.LawfulOrder.le_self_right h
  unfold IsFar
  rw [lt_iff_not_le hstop denotes_limit.comparable,
    lt_iff_not_le hstart denotes_neg_limit.comparable]
  by_cases hlo : -limit ≤ start
  · by_cases hhi : limit ≤ stop
    · exact Or.inr (Or.inr (Or.inr hhi))
    · exact Or.inl ⟨hlo, hhi⟩
  · exact Or.inr (Or.inl (Or.inl hlo))

/-- No step leads across a double that is far out. -/
theorem add_step_le {c : Float} (hc : c ≤ c) (hfar : IsFar c) (hy : y ≤ c) : y + step ≤ c := by
  have hsum := add_comparable (Scalar.LawfulOrder.le_self_left hy) denotes_step
  obtain hbottom | htop | ⟨a, ha⟩ := isInfinite_or_denotes hc
  · exact ((hbottom.of_le hy).add denotes_step).le hc
  · exact htop.ge hsum
  · obtain hbottom | htop | ⟨b, hb⟩ := isInfinite_or_denotes (Scalar.LawfulOrder.le_self_left hy)
    · exact (hbottom.add denotes_step).le hc
    · exact absurd (htop.of_ge hy) ha.not_isInfinite
    · obtain ⟨r, hnearest, hr⟩ := hb.add denotes_step
      have hba := (hb.le_iff ha).mp hy
      have hle := le_of_nearest ha.representable ((isFar_iff ha).mp hfar).symm hba hnearest
      have hge : b ≤ r := hnearest.le_of_le hb.representable (by linarith)
      have hbound := abs_lt.mp hb.abs_lt
      have hbound' := abs_lt.mp ha.abs_lt
      exact ((hr (abs_lt.mpr ⟨by linarith, by linarith⟩)).le_iff ha).mpr hle

/-- Between the limits a step is a double at least 32 units on. -/
theorem exists_denotes_add_step (hx : Denotes x a) (hlo : -2 ^ 59 ≤ a) (hhi : a < 2 ^ 59) :
    ∃ r, Denotes (x + step) r ∧ a + 32 ≤ r := by
  obtain ⟨r, hnearest, hr⟩ := hx.add denotes_step
  have hge := add_le_of_nearest hx.representable hlo hhi hnearest
  have hle : r ≤ 2 ^ 60 :=
    hnearest.le_of_ge (representable_two_pow 60) (by linarith)
  exact ⟨r, hr (abs_lt_huge (k := 60) (by norm_num) (by linarith) hle), hge⟩

/-! ## Walks of doubles -/

/-- Within the limits every step gains something, so a large enough bound leads to the end. -/
theorem walk_isSome_of_lt (hx : Denotes x a) (hstop : Denotes stop c) (hlo : -2 ^ 59 ≤ a)
    (hhi : c < 2 ^ 59) {bound : Nat} (h : c < a + 32 * bound) : (walk stop bound x).isSome := by
  induction bound generalizing x a with
  | zero =>
      have hend : ¬ x ≤ stop := by
        rw [hx.le_iff hstop, not_le]
        simpa using h
      rw [walk_of_not_le hend]
      rfl
  | succ bound ih =>
      by_cases hle : x ≤ stop
      · have hac := (hx.le_iff hstop).mp hle
        obtain ⟨r, hr, hstep⟩ := exists_denotes_add_step hx hlo (hac.trans_lt hhi)
        rw [walk, if_pos hle, Option.isSome_map]
        refine ih hr (by linarith) ?_
        push_cast at h
        linarith
      · rw [walk_of_not_le hle]
        rfl

/-- A count of steps that the distance holds is not above the whole part of the quotient. -/
theorem le_toNat_div {k : Nat} (hx : Denotes x a) (hstop : Denotes stop c) (hac : a ≤ c)
    (hca : c - a ≤ 2 ^ 60) (hdistance : Representable (k * 50)) (hcount : Representable k)
    (hle : (k : ℚ) * 50 ≤ c - a) : k ≤ Scalar.toNat ((stop - x) / step) := by
  obtain ⟨d, hd, hdenotes⟩ := hstop.sub hx
  have hd0 : 0 ≤ d := hd.le_of_le representable_zero (by linarith)
  have hd1 : d ≤ 2 ^ 60 := hd.le_of_ge (representable_two_pow 60) hca
  have hkd : k * 50 ≤ d := hd.le_of_le hdistance hle
  have hsub := hdenotes (abs_lt_huge (k := 60) (by norm_num) (by linarith) hd1)
  obtain ⟨q, hq, hquotient⟩ := hsub.div denotes_step (by norm_num)
  have hq0 : 0 ≤ q := hq.le_of_le representable_zero (by positivity)
  have hq1 : q ≤ 2 ^ 60 := hq.le_of_ge (representable_two_pow 60) (by linarith)
  have hkq : k ≤ q := hq.le_of_le hcount (by linarith)
  refine le_toNat (hquotient (abs_lt_huge (k := 60) (by norm_num) (by linarith) hq1)) hkq ?_
  have hk : (k : ℚ) < (2 ^ 64 : Nat) := by push_cast; linarith
  exact_mod_cast hk

/-- Counts up to `2 ^ 53`, and 128 times as much, have 53 bits. -/
theorem representable_natCast_mul {n : Nat} {e : Int} (he : -1074 ≤ e) (hn : n ≤ 2 ^ 53) :
    Representable (n * 2 ^ e) :=
  ⟨n, e, by rw [Nat.abs_cast]; exact_mod_cast hn, he, by rw [Int.cast_natCast]⟩

/-- The count of steps in a distance, cut to 53 bits where it has more. -/
theorem exists_count {z : ℚ} (hz : 0 ≤ z) (hle : z ≤ 2 ^ 60) :
    ∃ k : Nat, Representable (k * 50) ∧ Representable k ∧ (k : ℚ) * 50 ≤ z ∧ z < 64 * (k + 1) := by
  by_cases hsmall : z < 2 ^ 53
  · have hfloor := Nat.floor_le (div_nonneg hz (by norm_num : (0 : ℚ) ≤ 50))
    have hlt := Nat.lt_floor_add_one (z / 50)
    generalize ⌊z / 50⌋₊ = k at hfloor hlt
    have hk : k * 50 ≤ 2 ^ 53 := by
      have hcast : ((k * 50 : Nat) : ℚ) ≤ (2 ^ 53 : Nat) := by push_cast; linarith
      exact_mod_cast hcast
    refine ⟨k, ?_, ?_, by linarith, by linarith⟩
    · simpa using representable_natCast_mul (e := 0) (by norm_num) hk
    · simpa using representable_natCast_mul (n := k) (e := 0) (by norm_num) (by omega)
  · have hfloor := Nat.floor_le (div_nonneg hz (by norm_num : (0 : ℚ) ≤ 6400))
    have hlt := Nat.lt_floor_add_one (z / 6400)
    generalize ⌊z / 6400⌋₊ = n at hfloor hlt
    have hn : n * 50 ≤ 2 ^ 53 := by
      have hcast : ((n * 50 : Nat) : ℚ) ≤ (2 ^ 53 : Nat) := by push_cast; linarith
      exact_mod_cast hcast
    refine ⟨n * 128, ?_, ?_, by push_cast; linarith, by push_cast; linarith⟩
    · have hrepresentable := representable_natCast_mul (e := 7) (by norm_num) hn
      push_cast at hrepresentable ⊢
      rwa [mul_right_comm]
    · have hrepresentable := representable_natCast_mul (n := n) (e := 7) (by norm_num) (by omega)
      push_cast
      exact hrepresentable

/-- The bound on the steps is large enough, though the distance and the quotient are rounded. -/
theorem lt_add_stepBound (hx : Denotes x a) (hstop : Denotes stop c) (hac : a ≤ c)
    (hca : c - a ≤ 2 ^ 60) : c < a + 32 * stepBound x stop := by
  obtain ⟨k, hdistance, hcount, hle, hlt⟩ := exists_count (sub_nonneg.mpr hac) hca
  have hk : (k : ℚ) ≤ Scalar.toNat ((stop - x) / step) := by
    exact_mod_cast le_toNat_div hx hstop hac hca hdistance hcount hle
  have hbound : (stepBound x stop : ℚ) = 2 * Scalar.toNat ((stop - x) / step) + 2 := by
    unfold stepBound
    push_cast
    ring
  rw [hbound]
  linarith

/-! ## Ranges -/

/-- A range is passed from its first line to its end: there is nothing to pass, or both are
between the limits. -/
def Passable (start stop : Float) : Prop :=
  firstLine start ≤ stop → -limit ≤ firstLine start ∧ stop < limit

/-- A range that can be passed has its lines. -/
theorem lines_isSome_of_passable {start stop : Float} (h : Passable start stop) :
    (lines start stop).isSome := by
  show (walk stop (stepBound (firstLine start) stop) (firstLine start)).isSome
  by_cases hle : firstLine start ≤ stop
  · obtain ⟨hlo, hhi⟩ := h hle
    have hself := Scalar.LawfulOrder.le_self_right hle
    have hstop : stop ≤ limit :=
      (Scalar.LawfulOrder.le_total hself denotes_limit.comparable).resolve_right
        ((lt_iff_not_le hself denotes_limit.comparable).mp hhi)
    obtain ⟨a, ha⟩ := denotes_neg_limit.exists_between denotes_limit hlo
      (Scalar.LawfulOrder.le_trans hle hstop)
    obtain ⟨c, hc⟩ := denotes_neg_limit.exists_between denotes_limit
      (Scalar.LawfulOrder.le_trans hlo hle) hstop
    have hac := (ha.le_iff hc).mp hle
    have hlo' := (denotes_neg_limit.le_iff ha).mp hlo
    have hhi' := (hc.lt_iff denotes_limit).mp hhi
    exact walk_isSome_of_lt ha hc hlo' hhi' (lt_add_stepBound ha hc hac (by linarith))
  · rw [walk_of_not_le hle]
    rfl

/-- A walk that comes to its end passes its range. -/
theorem passable_of_ends {start stop : Float} (h : Ends start stop) : Passable start stop := by
  intro hle
  obtain hnear | hfar := between_or_isFar hle
  · exact hnear
  · exfalso
    obtain ⟨bound, hbound⟩ := h
    -- what stays below it: the first line, or the end
    have hnone : walk stop bound (firstLine start) = none := by
      rcases hfar with hfar | hfar
      · refine walk_eq_none (P := (· ≤ firstLine start)) (fun y hy => ⟨?_, ?_⟩)
          (Scalar.LawfulOrder.le_self_left hle) bound
        · exact Scalar.LawfulOrder.le_trans hy hle
        · exact add_step_le (Scalar.LawfulOrder.le_self_left hle) hfar hy
      · exact walk_eq_none (P := (· ≤ stop))
          (fun y hy => ⟨hy, add_step_le (Scalar.LawfulOrder.le_self_right hle) hfar hy⟩) hle bound
    rw [hnone] at hbound
    cases hbound

/-- The bound on the steps misses no end. -/
theorem lines_isSome_iff (start stop : Float) : (lines start stop).isSome ↔ Passable start stop :=
  ⟨fun h => passable_of_ends (ends_of_lines_isSome h), lines_isSome_of_passable⟩

/-- A walk comes to its end exactly if its range can be passed. -/
theorem ends_iff (start stop : Float) : Ends start stop ↔ Passable start stop :=
  ⟨passable_of_ends, fun h => ends_of_lines_isSome (lines_isSome_of_passable h)⟩

/-- A grid is drawn exactly if it is too dense or both walks come to their ends. -/
theorem draw_isSome_iff (v : View Float) :
    (draw v).isSome ↔ Crowded v ∨
      (lines (v.toGraph .origin).x (v.toGraph ⟨v.width, v.height⟩).x).isSome ∧
        (lines (v.toGraph .origin).y (v.toGraph ⟨v.width, v.height⟩).y).isSome := by
  unfold draw Crowded
  dsimp only
  split
  · next hcrowded => exact iff_of_true rfl (Or.inl hcrowded)
  · next hcrowded =>
      rw [or_iff_right hcrowded]
      cases lines (v.toGraph .origin).x (v.toGraph ⟨v.width, v.height⟩).x with
      | none => simp
      | some xs =>
          cases lines (v.toGraph .origin).y (v.toGraph ⟨v.width, v.height⟩).y <;> simp

end Grid

/-- Whether a board whose nodes are snapped to the grid can be drawn: the grid is left out as too
dense, or both walks pass their ranges.  A walk that does not pass its range goes on for ever, and
no other does. -/
theorem View.draw_ends_iff (v : View Float) (e : Editor Float) (p : Positions Float)
    (gradients : Bool) :
    ((v.draw e p .snapToGrid gradients).isSome ↔ Grid.Crowded v ∨
      Grid.Passable (v.toGraph .origin).x (v.toGraph ⟨v.width, v.height⟩).x ∧
        Grid.Passable (v.toGraph .origin).y (v.toGraph ⟨v.width, v.height⟩).y) ∧
      ∀ start stop : Float, Grid.Ends start stop ↔ Grid.Passable start stop := by
  refine ⟨?_, Grid.ends_iff⟩
  rw [View.draw, Option.isSome_map, ← Grid.lines_isSome_iff, ← Grid.lines_isSome_iff]
  exact Grid.draw_isSome_iff v

/-! ## A board without a picture -/

/-- A board with one node, far to the right. -/
def farBoard : Editor Float := .start (Graph.empty.insertNode ⟨1e20, 0.0⟩ .empty).1 true

/-- The board on a canvas of the usual size. -/
def farSession : Session Float :=
  .start farBoard .snapToGrid ⟨true, none, none, none, .origin, true, true⟩
    ⟨false, some 800.0, some 600.0⟩

/-- The view with the node in the middle. -/
def farView : View Float := (View.ofSize 800.0 600.0).centerOn ⟨1e20, 0.0⟩

/-- In the far view no bound leads the walk to its end. -/
theorem walk_farView (bound : Nat) :
    Grid.walk (farView.toGraph ⟨farView.width, farView.height⟩).x bound
      (Grid.firstLine (farView.toGraph .origin).x) = none := by
  have hfirst : Grid.firstLine (farView.toGraph .origin).x = 1e20 := by decide +kernel
  have hstop : (1e20 : Float) ≤ (farView.toGraph ⟨farView.width, farView.height⟩).x := by
    decide +kernel
  have hstep : (1e20 : Float) + Grid.step = 1e20 := by decide +kernel
  exact Grid.walk_eq_none (P := (· = 1e20)) (fun y hy => ⟨hy ▸ hstop, hy ▸ hstep⟩) hfirst bound

/-- The node is brought to the middle of the view; the view is finite, its zoom is 1, and the walk
along the lines of its grid has no end. -/
theorem endless_farSession :
    (farSession.run [.reveal "n1"]).view = some farView ∧
      (farView.transform.x.isFinite ∧ farView.transform.y.isFinite) ∧ farView.transform.k = 1.0 ∧
      (farView.width = 800.0 ∧ farView.height = 600.0) ∧
      farView.draw farSession.editor farSession.positions farSession.layout true = none ∧
      ∀ bound, Grid.walk (farView.toGraph ⟨farView.width, farView.height⟩).x bound
        (Grid.firstLine (farView.toGraph .origin).x) = none := by
  refine ⟨?_, ⟨?_, ?_⟩, ?_, ⟨rfl, rfl⟩, ?_, walk_farView⟩
  · decide +kernel
  · decide +kernel
  · decide +kernel
  · decide +kernel
  · rw [← Option.isNone_iff_eq_none]
    decide +kernel

end GraphBoard
