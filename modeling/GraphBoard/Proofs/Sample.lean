import GraphBoard.Proofs.Graph.Fresh
import GraphBoard.Sample.Bundled
import GraphBoard.Sample.Chain

/-!
# GraphBoard.Proofs.Sample

The boards that come with the library are valid: the bundled one by looking at it, a chain because
its `i`-th key has the number `i` in it.
-/

namespace GraphBoard.Sample

variable {α : Type} [Scalar α]

theorem keys_bundled : (bundled : Graph α).keys =
    ["1", "2", "3", "4", "5", "6", "7", "8", "9", "10", "11", "12"] := rfl

theorem edges_bundled : (bundled : Graph α).edges =
    links.map fun (source, target) => ⟨source, target, .empty⟩ := rfl

theorem valid_bundled : (bundled : Graph α).Valid := by
  constructor
  · rw [keys_bundled]
    decide
  · rw [keys_bundled, edges_bundled]
    decide
  · rw [keys_bundled, edges_bundled]
    decide
  · rw [edges_bundled]
    decide

/-! ## Chains -/

/-- The nodes of a chain have different keys. -/
theorem chainKey_injective {i j : Nat} (h : chainKey i = chainKey j) : i = j :=
  toString_injective ((String.append_right_inj "a").mp h)

/-- Nodes of a chain are numbered on. -/
theorem keys_chainNodes (count i : Nat) (c : Cell) :
    (chainNodes count i c : List (Node α)).map Node.key = (List.range' i count).map chainKey := by
  induction count generalizing i c with
  | zero => rfl
  | succ count ih =>
      rw [chainNodes, List.map_cons, ih, List.range'_succ, List.map_cons]
      rfl

/-- The nodes of a chain are numbered from one. -/
theorem keys_chain (n : Nat) : (chain n : Graph α).keys = (List.range' 1 n).map chainKey :=
  keys_chainNodes n 1 ⟨0, 0⟩

/-- The numbers up to the length of a chain are keys of it. -/
theorem mem_keys_chain {n i : Nat} (hi : 1 ≤ i) (hn : i ≤ n) :
    chainKey i ∈ (chain n : Graph α).keys := by
  rw [keys_chain]
  exact List.mem_map_of_mem (List.mem_range'_1.mpr ⟨hi, by omega⟩)

/-- Every edge of a chain leads from a node to the next. -/
theorem exists_of_mem_edges_chain {n : Nat} {e : Edge} (he : e ∈ (chain n : Graph α).edges) :
    ∃ i, 1 ≤ i ∧ i < n ∧ e = chainEdge n i := by
  obtain ⟨i, hi, rfl⟩ := List.mem_map.mp he
  rw [List.mem_range'_1] at hi
  exact ⟨i, hi.1, by omega, rfl⟩

/-- A chain is a valid graph. -/
theorem valid_chain (n : Nat) : (chain n : Graph α).Valid := by
  constructor
  · rw [keys_chain]
    exact (List.nodup_range' 1).map fun _ _ => chainKey_injective
  · intro e he
    obtain ⟨i, hi, hn, rfl⟩ := exists_of_mem_edges_chain he
    exact mem_keys_chain hi (by omega)
  · intro e he
    obtain ⟨i, hi, hn, rfl⟩ := exists_of_mem_edges_chain he
    exact mem_keys_chain (by omega) hn
  · intro e he
    obtain ⟨i, -, -, rfl⟩ := exists_of_mem_edges_chain he
    intro hloop
    have hi : i = i + 1 := chainKey_injective hloop
    omega

end GraphBoard.Sample
