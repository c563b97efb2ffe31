import GraphBoard.Graph.Basic

/-!
# GraphBoard.Graph.FreshKey

Generated keys. A graph numbers the keys that it generates; a new key takes the next number whose
key no node has. A graph with `n` nodes blocks at most `n` numbers, so the search looks at no more
than `n + 1` of them.
-/

namespace GraphBoard

/-- The key generated under a number: `n7`, or `a_7` for a copy of `a`. -/
def generatedKey (base : Option NodeKey) (number : Nat) : NodeKey :=
  match base with
  | none => "n" ++ toString number
  | some key => key ++ "_" ++ toString number

/-- The first number from `number` on that is not taken, if one of the next `bound` is not, and
the number behind them otherwise. -/
def firstFree (taken : Nat → Bool) : (bound number : Nat) → Nat
  | 0, number => number
  | bound + 1, number => if taken number then firstFree taken bound (number + 1) else number

namespace Graph

variable {α : Type}

/-- The number of the next generated key. -/
def freshNumber (g : Graph α) (base : Option NodeKey) : Nat :=
  firstFree (fun n => g.hasNode (generatedKey base n)) g.nodes.length (g.issued + 1)

/-- The next generated key. -/
def freshKey (g : Graph α) (base : Option NodeKey) : NodeKey :=
  generatedKey base (g.freshNumber base)

end Graph

/-! ## The number found -/

/-- The search for a free number goes up. -/
theorem le_firstFree (taken : Nat → Bool) (bound number : Nat) :
    number ≤ firstFree taken bound number := by
  induction bound generalizing number with
  | zero => simp [firstFree]
  | succ b ih =>
    unfold firstFree
    split
    · exact Nat.le_trans (Nat.le_succ _) (ih (number + 1))
    · exact Nat.le_refl _

/-- It goes no further than the bound. -/
theorem firstFree_le (taken : Nat → Bool) (bound number : Nat) :
    firstFree taken bound number ≤ number + bound := by
  induction bound generalizing number with
  | zero => simp [firstFree]
  | succ b ih =>
    unfold firstFree
    split
    · have := ih (number + 1)
      omega
    · omega

/-- Every number that the search passes over is taken. -/
theorem taken_of_lt_firstFree {taken : Nat → Bool} {bound number n : Nat} (h : number ≤ n)
    (hn : n < firstFree taken bound number) : taken n = true := by
  induction bound generalizing number with
  | zero => simp [firstFree] at hn; omega
  | succ b ih =>
    unfold firstFree at hn
    split at hn
    · rename_i ht
      by_cases he : n = number
      · exact he ▸ ht
      · exact ih (by omega) hn
    · omega

/-- The number of a fresh key is above all that were given out. -/
theorem Graph.issued_lt_freshNumber {α : Type} (g : Graph α) (base : Option NodeKey) :
    g.issued < g.freshNumber base :=
  le_firstFree _ _ _

end GraphBoard
