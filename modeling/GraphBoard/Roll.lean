/-!
# GraphBoard.Roll

Rolling numbers without chance: the number rolled for a seed is a residue of a linear function of
it, so the same seeds always give the same board.
-/

namespace GraphBoard

/-- How many different numbers can be rolled. -/
def rollRange : Nat := 233280

/-- The number rolled for a seed, below `rollRange`. -/
def roll (seed : Nat) : Nat := ((seed + 1) * 9301 + 49297) % rollRange

/-- The index rolled for a seed among `count` choices of equal share. -/
def rollIndex (seed count : Nat) : Nat := min (count * roll seed / rollRange) (count - 1)

theorem roll_lt (seed : Nat) : roll seed < rollRange := Nat.mod_lt _ (by decide)

/-- A rolled index is one of the list, if there is any. -/
theorem rollIndex_lt {seed count : Nat} (h : 0 < count) : rollIndex seed count < count := by
  unfold rollIndex
  omega

end GraphBoard
