import GraphBoard.Proofs.Double.Product
import GraphBoard.Proofs.Sample
import GraphBoard.Proofs.Scalar.Exact

/-!
# GraphBoard.Proofs.Sample.Chain

What is on a board that is made as a chain.  The walk from cell to cell starts a row with every
twentieth node, counted from one, so the first row has a cell less than the others:

* `nodes_chain` — the `i`-th node is in the column `i % 20` of the row `i / 20`;
* `OnGrid.nodup` — nodes on the grid are apart, whatever numbers their coordinates are;
* `chain_exact` — so a chain is known node by node and edge by edge; its coordinates are what the
  grid says in exact arithmetic, and on doubles as long as they hold them.
-/

namespace GraphBoard.Sample

/-! ## Cells -/

/-- The cell of the `i`-th node. -/
def cell (i : Nat) : Cell := ⟨i % rowLength, i / rowLength⟩

/-- The walk goes on from each cell to that of the next node. -/
theorem next_cell (i : Nat) : (cell i).next (i + 1) = cell (i + 1) := by
  unfold Cell.next cell rowLength
  split
  case isTrue hstart => rw [hstart, Nat.succ_div_of_mod_eq_zero hstart]
  case isFalse hgoes =>
    have hcolumn : i % 20 + 1 = (i + 1) % 20 := by omega
    rw [Nat.succ_div_of_mod_ne_zero hgoes, ← hcolumn]

variable {α : Type} [Scalar α]

/-- Nodes of a chain stand in the cells of their numbers. -/
theorem chainNodes_eq (count i : Nat) :
    (chainNodes count (i + 1) (cell i) : List (Node α)) =
      (List.range' (i + 1) count).map fun j => chainNode j (cell j) := by
  induction count generalizing i with
  | zero => rfl
  | succ count ih => rw [chainNodes, next_cell, ih, List.range'_succ, List.map_cons]

/-- The nodes of a chain, each in its cell. -/
theorem nodes_chain (n : Nat) :
    (chain n : Graph α).nodes = (List.range' 1 n).map fun i => chainNode i (cell i) :=
  chainNodes_eq n 0

theorem edges_chain (n : Nat) :
    (chain n : Graph α).edges = (List.range' 1 (n - 1)).map (chainEdge n) := rfl

/-! ## The chain -/

/-- What a chain of `n` nodes consists of.  Each kind is the one that is rolled, and there is a kind
for every roll. -/
structure IsChain (n : Nat) (g : Graph α) : Prop where
  length_nodes : g.nodes.length = n
  node : ∀ i, 1 ≤ i → i ≤ n →
    ∃ kind, NodeKind.all[rollIndex i NodeKind.all.length]? = some kind ∧
      g.nodes[i - 1]? = some ⟨"a" ++ toString i, "Node " ++ toString i, kind, none,
        ⟨200.0 * Scalar.ofNat (i % 20), 200.0 * Scalar.ofNat (i / 20)⟩⟩
  keys_nodup : (g.nodes.map Node.key).Nodup
  length_edges : g.edges.length = n - 1
  edge : ∀ i, 1 ≤ i → i < n →
    ∃ kind, EdgeKind.all[rollIndex (i + n) EdgeKind.all.length]? = some kind ∧
      g.edges[i - 1]? = some ⟨"a" ++ toString i, "a" ++ toString (i + 1), kind⟩

theorem isChain_chain (n : Nat) : IsChain n (chain n : Graph α) where
  length_nodes := by rw [nodes_chain, List.length_map, List.length_range']
  node i hi hn := by
    have hroll : rollIndex i NodeKind.all.length < NodeKind.all.length := rollIndex_lt (by decide)
    refine ⟨_, List.getElem?_eq_getElem hroll, ?_⟩
    have hplace : 1 + 1 * (i - 1) = i := by omega
    rw [nodes_chain, List.getElem?_map, List.getElem?_range' (by omega), hplace, Option.map_some,
      chainNode, List.getD_eq_getElem _ _ hroll]
    rfl
  keys_nodup := (valid_chain n).keys_nodup
  length_edges := by rw [edges_chain, List.length_map, List.length_range']
  edge i hi hn := by
    have hroll : rollIndex (i + n) EdgeKind.all.length < EdgeKind.all.length :=
      rollIndex_lt (by decide)
    refine ⟨_, List.getElem?_eq_getElem hroll, ?_⟩
    have hplace : 1 + 1 * (i - 1) = i := by omega
    rw [edges_chain, List.getElem?_map, List.getElem?_range' (by omega), hplace, Option.map_some,
      chainEdge, List.getD_eq_getElem _ _ hroll]
    rfl

/-! ## Places -/

/-- Where the nodes of a board are stored, in their order. -/
def places (g : Graph α) : List (Point α) := g.nodes.map Node.position

/-- The points of a list stand in the cells of the grid, one after the other.  Which number a
coordinate stands for is a matter of the kind of numbers. -/
def OnGrid (stands : α → Nat → Prop) (ps : List (Point α)) : Prop :=
  ∀ i (hi : i < ps.length),
    stands ps[i].x (200 * ((i + 1) % 20)) ∧ stands ps[i].y (200 * ((i + 1) / 20))

omit [Scalar α] in
/-- Points on a grid are different, if a number stands for one coordinate only. -/
theorem OnGrid.nodup {stands : α → Nat → Prop} {ps : List (Point α)} (h : OnGrid stands ps)
    (hstands : ∀ x a b, stands x a → stands x b → a = b) : ps.Nodup := by
  rw [List.Nodup, List.pairwise_iff_getElem]
  intro i j hi hj hij heq
  obtain ⟨hxi, hyi⟩ := h i hi
  obtain ⟨hxj, hyj⟩ := h j hj
  rw [heq] at hxi hyi
  have hcolumn := hstands _ _ _ hxi hxj
  have hrow := hstands _ _ _ hyi hyj
  omega

/-- A chain stands on the grid if the multiples of the cell size are what they should be. -/
theorem onGrid_chain {n : Nat} {stands : α → Nat → Prop}
    (hstands : ∀ k, k ≤ n / 20 ∨ k < 20 → stands (cellSize * Scalar.ofNat k) (200 * k)) :
    OnGrid stands (places (chain n)) := by
  intro i hi
  have hlt : i < n := by simpa [places, nodes_chain] using hi
  have hplace : (places (chain n))[i] =
      ⟨cellSize * Scalar.ofNat ((i + 1) % 20), cellSize * Scalar.ofNat ((i + 1) / 20)⟩ := by
    simp only [places, nodes_chain, List.getElem_map, List.getElem_range']
    rw [Nat.one_mul, Nat.add_comm 1 i]
    rfl
  rw [hplace]
  exact ⟨hstands _ (Or.inr (Nat.mod_lt _ (by decide))),
    hstands _ (Or.inl (Nat.div_le_div_right hlt))⟩

/-- In exact arithmetic a chain stands on the grid. -/
theorem onGrid_chain_real (n : Nat) : OnGrid (fun (x : ℝ) m => x = m) (places (chain n)) := by
  refine onGrid_chain fun k _ => ?_
  have hsize : (cellSize : ℝ) = 200 := by norm_num [cellSize]
  have hcount : (Scalar.ofNat k : ℝ) = k := rfl
  rw [hsize, hcount]
  push_cast
  rfl

section

open Double

/-- The distance of the grid is 200. -/
theorem denotes_cellSize : Denotes cellSize 200 := by
  have hunpack : (cellSize : Float).toModel.unpack =
      .finite .positive 7036874417766400 (-45) (by decide) := by rfl
  rw [Denotes, hunpack]
  norm_num [value?, Float.Model.UnpackedFloat.Sign.apply]

/-- Two hundred is a small number times a power of two, which needs no bits of the significand. -/
theorem representable_cellSize_mul {k : Nat} (h : 25 * k ≤ 2 ^ 53) :
    Representable (200 * (k : ℚ)) := by
  refine ⟨(25 * k : Nat), 3, by rw [Nat.abs_cast]; exact_mod_cast h, by norm_num, ?_⟩
  push_cast
  ring

/-- A chain of doubles stands on the grid, as long as its rows can be counted. -/
theorem onGrid_chain_double {n : Nat} (hn : n ≤ 2 ^ 52) :
    OnGrid (fun x m => Denotes x m) (places (chain n)) := by
  refine onGrid_chain fun k hk => ?_
  have hsmall : 25 * k ≤ 2 ^ 53 := by omega
  have hlt : |200 * (k : ℚ)| < huge := by
    have hbound : (200 * k : ℚ) ≤ 2 ^ 56 := by exact_mod_cast (by omega : 200 * k ≤ 2 ^ 56)
    exact abs_lt_huge (k := 56) (by norm_num) (by linarith [Nat.cast_nonneg (α := ℚ) k]) hbound
  have hproduct := denotes_cellSize.mul_exact (denotes_ofNat (n := k) (by omega))
    (representable_cellSize_mul hsmall) hlt
  push_cast
  exact hproduct

end

/-- A chain of any length is known node by node and edge by edge, and no two of its nodes are in one
place.  On doubles the places are exact as long as the rows can be counted. -/
theorem chain_exact (n : Nat) :
    (∀ (α : Type) [Scalar α], IsChain n (chain n : Graph α)) ∧
      (OnGrid (fun (x : ℝ) m => x = m) (places (chain n)) ∧
        (places (chain n : Graph ℝ)).Nodup) ∧
      (n ≤ 2 ^ 52 → OnGrid (fun (x : Float) m => Double.Denotes x m) (places (chain n)) ∧
        (places (chain n : Graph Float)).Nodup) := by
  refine ⟨fun α _ => isChain_chain n, ?_, fun hn => ?_⟩
  · have hgrid := onGrid_chain_real n
    exact ⟨hgrid, hgrid.nodup fun x a b ha hb => by exact_mod_cast ha.symm.trans hb⟩
  · have hgrid := onGrid_chain_double hn
    refine ⟨hgrid, hgrid.nodup fun x a b ha hb => ?_⟩
    exact_mod_cast Option.some.inj (ha.symm.trans hb)

end GraphBoard.Sample
