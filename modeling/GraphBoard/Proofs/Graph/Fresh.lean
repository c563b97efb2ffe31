import GraphBoard.Graph.FreshKey
import Mathlib.Data.List.Nodup

/-!
# GraphBoard.Proofs.Graph.Fresh

A generated key is new: no node of the graph has it.  The search for a free number is bounded by
the number of nodes, so this is a counting argument: different numbers make different keys, and
`n` nodes cannot have `n + 1` keys.
-/

namespace GraphBoard

/-! ## Different numbers make different keys -/

/-- Different numbers have different texts. -/
theorem toString_injective {m n : Nat} (h : toString m = toString n) : m = n := by
  have hd : Nat.toDigits 10 m = Nat.toDigits 10 n := by
    rw [← Nat.toList_repr, ← Nat.toList_repr]
    exact congrArg String.toList h
  rw [← Nat.ofDigitChars_ten_toDigits (n := m), hd, Nat.ofDigitChars_ten_toDigits]

/-- Different numbers give different keys. -/
theorem generatedKey_injective {base : Option NodeKey} {m n : Nat}
    (h : generatedKey base m = generatedKey base n) : m = n := by
  cases base with
  | none => exact toString_injective ((String.append_right_inj "n").mp h)
  | some key => exact toString_injective ((String.append_right_inj (key ++ "_")).mp h)

/-! ## The search stops at a free number -/

/-- If any number within the bound is free, then the number found is. -/
theorem taken_firstFree (taken : Nat → Bool) {bound number n : Nat} (hn : number ≤ n)
    (hb : n ≤ number + bound) (hfree : taken n = false) :
    taken (firstFree taken bound number) = false := by
  induction bound generalizing number with
  | zero =>
      have he : n = number := by omega
      rw [firstFree, ← he]
      exact hfree
  | succ bound ih =>
      rw [firstFree]
      by_cases ht : taken number = true
      · rw [if_pos ht]
        have hne : n ≠ number := by
          intro he
          rw [he, ht] at hfree
          contradiction
        exact ih (by omega) (by omega)
      · rw [if_neg ht]
        simpa using ht

namespace Graph

variable {α : Type}

/-- Among `n + 1` numbers in a row there is one whose key none of `n` nodes has. -/
theorem exists_free_number (g : Graph α) (base : Option NodeKey) (number : Nat) :
    ∃ n, number ≤ n ∧ n ≤ number + g.nodes.length ∧ g.hasNode (generatedKey base n) = false := by
  -- else the keys of all these numbers are keys of nodes, and there are more of them
  by_contra hall
  push Not at hall
  have hsub : (List.range' number (g.nodes.length + 1)).map (generatedKey base) ⊆ g.keys := by
    intro k hk
    obtain ⟨n, hn, rfl⟩ := List.mem_map.mp hk
    rw [List.mem_range'_1] at hn
    simpa using hall n hn.1 (by omega)
  have hnodup : ((List.range' number (g.nodes.length + 1)).map (generatedKey base)).Nodup :=
    (List.nodup_range' 1).map fun _ _ => generatedKey_injective
  have hlen := hnodup.length_le_of_subset hsub
  rw [List.length_map, List.length_range', keys, List.length_map] at hlen
  omega

/-- A fresh key is that of no node. -/
theorem hasNode_freshKey (g : Graph α) (base : Option NodeKey) :
    g.hasNode (g.freshKey base) = false := by
  obtain ⟨n, hn, hb, hfree⟩ := g.exists_free_number base (g.issued + 1)
  exact taken_firstFree (fun n => g.hasNode (generatedKey base n)) hn hb hfree

/-- No node has the key that is generated next. -/
theorem freshKey_not_mem_keys (g : Graph α) (base : Option NodeKey) : g.freshKey base ∉ g.keys := by
  intro h
  rw [← hasNode_iff, hasNode_freshKey] at h
  contradiction

end Graph

end GraphBoard
