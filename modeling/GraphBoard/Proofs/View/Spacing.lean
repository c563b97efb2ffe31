import Mathlib.Data.List.Find
import Mathlib.Data.List.Range
import GraphBoard.Proofs.Scalar.Exact
import GraphBoard.Proofs.Drawing.Frame
import GraphBoard.View.Pick

/-!
# GraphBoard.Proofs.View.Spacing

How far apart the vertical tree keeps nodes, in exact arithmetic.  Each node has a slot of its own,
in a level and in a row of the level; slots of a level are farther apart than the widest shapes
reach, and levels are farther apart than the highest.

* `mem_entries_verticalTree_iff` — a place in the tree is that of a slot;
* `map_get?_level` — a level is a row of places, one step from the next and centred;
* `disjoint_box_of_get?` — shapes in different slots do not meet;
* `spaced_verticalTree` — so at most one node is under a screen point, and it does not matter in
  which order the nodes are searched.
-/

namespace GraphBoard

/-! ## Boxes -/

/-- The points in the box around a shape about a centre. -/
def NodeKind.box (kind : NodeKind) (c : Point ℝ) : Set (Point ℝ) :=
  let extent : HalfExtent ℝ := kind.halfExtent
  {q | |q.x - c.x| ≤ extent.width ∧ |q.y - c.y| ≤ extent.height}

namespace NodeKind

/-- No shape is wider than the box of a long title, and none is higher than a diamond. -/
theorem halfExtent_le (kind : NodeKind) :
    (kind.halfExtent : HalfExtent ℝ).width ≤ 75 ∧ (kind.halfExtent : HalfExtent ℝ).height ≤ 26 := by
  cases kind <;> norm_num [halfExtent, nodeRadius]

/-- Boxes that are far enough apart in one direction are disjoint. -/
theorem disjoint_box (m n : NodeKind) {c d : Point ℝ}
    (h : 150 < |c.x - d.x| ∨ 52 < |c.y - d.y|) : m.box c ∩ n.box d = ∅ := by
  rw [Set.eq_empty_iff_forall_notMem]
  rintro q ⟨⟨hcx, hcy⟩, hdx, hdy⟩
  obtain ⟨hmw, hmh⟩ := m.halfExtent_le
  obtain ⟨hnw, hnh⟩ := n.halfExtent_le
  have hx : |c.x - d.x| ≤ |q.x - c.x| + |q.x - d.x| := by
    rw [abs_sub_comm q.x c.x]
    exact abs_sub_le c.x q.x d.x
  have hy : |c.y - d.y| ≤ |q.y - c.y| + |q.y - d.y| := by
    rw [abs_sub_comm q.y c.y]
    exact abs_sub_le c.y q.y d.y
  cases h with
  | inl hfar => linarith
  | inr hfar => linarith

end NodeKind

/-- A node covers a point exactly if the point is in the box about where it is drawn. -/
theorem View.covers_iff_mem_box {v : View ℝ} {p : Positions ℝ} {n : Node ℝ} {c q : Point ℝ}
    (hc : v.displayPoint p n.key = some c) : v.covers p q n = true ↔ q ∈ n.kind.box c := by
  simp only [covers, hc, Bool.and_eq_true, decide_eq_true_eq]
  rfl

/-! ## Slots -/

/-- A key has a place exactly if it is listed with it, if no key is listed twice. -/
theorem Positions.get?_eq_some_iff {α : Type} {p : Positions α} {k : NodeKey} {c : Point α}
    (hnodup : (p.entries.map Prod.fst).Nodup) : p.get? k = some c ↔ (k, c) ∈ p.entries := by
  rw [get?, List.lookup_eq_some_iff]
  constructor
  · rintro ⟨front, back, hentries, -⟩
    rw [hentries]
    exact List.mem_append_right front List.mem_cons_self
  · intro hmem
    obtain ⟨front, back, hentries⟩ := List.append_of_mem hmem
    refine ⟨front, back, hentries, fun entry hentry => ?_⟩
    rw [hentries, List.map_append, List.nodup_append] at hnodup
    have hne : entry.1 ≠ k :=
      hnodup.2.2 _ (List.mem_map_of_mem hentry) _ (List.mem_map_of_mem List.mem_cons_self)
    exact bne_iff_ne.mpr hne.symm

namespace Layout

open GraphBoard.Tree

variable {g : Graph ℝ} {k : NodeKey} {c : Point ℝ}

/-- The points of a row are 180 apart about the middle, and the rows 150. -/
theorem treePoint_real (count depth i : Nat) : (treePoint count depth i : Point ℝ) =
    ⟨(i - ((count : ℝ) - 1) / 2) * 180, 150 * depth⟩ := by
  have hcount : (Scalar.ofNat count : ℝ) = count := rfl
  have hdepth : (Scalar.ofNat depth : ℝ) = depth := rfl
  have hi : (Scalar.ofNat i : ℝ) = i := rfl
  simp only [treePoint, treeSpacingX, treeSpacingY, hcount, hdepth, hi, Point.mk.injEq]
  constructor <;> norm_num [mul_comm]

/-- The vertical tree places each node in the row of its level, at its turn. -/
theorem mem_entries_verticalTree_iff {α : Type} [Scalar α] {g : Graph α} {c : Point α} :
    (k, c) ∈ (verticalTree.positions g).entries ↔ ∃ depth level i,
      (levels g)[depth]? = some level ∧ level[i]? = some k ∧
        c = treePoint level.length depth i := by
  simp only [positions, levelEntries, List.mem_flatMap, List.mem_map, Prod.exists,
    List.mk_mem_zipIdx_iff_getElem?, Prod.mk.injEq]
  constructor
  · rintro ⟨level, depth, hlevel, _, i, hi, rfl, rfl⟩
    exact ⟨depth, level, i, hlevel, hi, rfl⟩
  · rintro ⟨depth, level, i, hlevel, hi, rfl⟩
    exact ⟨level, depth, hlevel, k, i, hi, rfl, rfl⟩

/-- A node of the tree is where its slot is. -/
theorem get?_verticalTree_eq_some_iff {α : Type} [Scalar α] {g : Graph α} {c : Point α}
    (hg : g.Valid) : (verticalTree.positions g).get? k = some c ↔ ∃ depth level i,
      (levels g)[depth]? = some level ∧ level[i]? = some k ∧
        c = treePoint level.length depth i := by
  rw [← mem_entries_verticalTree_iff]
  apply Positions.get?_eq_some_iff
  rw [positions, map_fst_flatMap_levelEntries]
  exact nodup_flatten_levels hg

/-- Different numbers differ by one at least. -/
theorem one_le_abs_sub {m n : ℕ} (h : m ≠ n) : (1 : ℝ) ≤ |(m : ℝ) - n| :=
  Nat.pairwise_one_le_dist h

/-- Different slots are a step apart in one level, or in different levels. -/
theorem far_treePoint {count count' depth depth' i i' : ℕ}
    (hcount : depth = depth' → count = count') (hne : depth = depth' → i ≠ i') :
    let c : Point ℝ := treePoint count depth i
    let c' : Point ℝ := treePoint count' depth' i'
    180 ≤ |c.x - c'.x| ∨ 150 ≤ |c.y - c'.y| := by
  intro c c'
  by_cases hdepth : depth = depth'
  · have hx : c.x - c'.x = ((i : ℝ) - i') * 180 := by
      simp only [c, c', treePoint_real, hcount hdepth]
      ring
    have hstep := one_le_abs_sub (hne hdepth)
    left
    rw [hx, abs_mul, abs_of_pos (by norm_num : (0 : ℝ) < 180)]
    linarith
  · have hy : c.y - c'.y = 150 * ((depth : ℝ) - depth') := by
      simp only [c, c', treePoint_real]
      ring
    have hstep := one_le_abs_sub hdepth
    right
    rw [hy, abs_mul, abs_of_pos (by norm_num : (0 : ℝ) < 150)]
    linarith

/-- Two nodes have different slots, so that their shapes do not meet. -/
theorem disjoint_box_of_get? (hg : g.Valid) {k' : NodeKey} {c' : Point ℝ} (hne : k ≠ k')
    (hc : (verticalTree.positions g).get? k = some c)
    (hc' : (verticalTree.positions g).get? k' = some c') (m n : NodeKind) :
    m.box c ∩ n.box c' = ∅ := by
  obtain ⟨depth, level, i, hlevel, hi, rfl⟩ := (get?_verticalTree_eq_some_iff hg).mp hc
  obtain ⟨depth', level', i', hlevel', hi', rfl⟩ := (get?_verticalTree_eq_some_iff hg).mp hc'
  have hsame : depth = depth' → level = level' := by
    rintro rfl
    exact Option.some.inj (hlevel.symm.trans hlevel')
  have hslots : depth = depth' → i ≠ i' := by
    rintro h rfl
    obtain rfl := hsame h
    exact hne (Option.some.inj (hi.symm.trans hi'))
  have hfar := far_treePoint (fun h => congrArg List.length (hsame h)) hslots
  refine NodeKind.disjoint_box m n (hfar.imp (fun h => ?_) fun h => ?_)
  · linarith
  · linarith

/-! ## Rows -/

/-- The places of a level from left to right, for a number of nodes. -/
noncomputable def row (count : ℕ) : List ℝ :=
  (List.range count).map fun i => (treePoint count 0 i : Point ℝ).x

/-- The points of a row follow one another at a distance of 180. -/
theorem isChain_row (count : ℕ) : (row count).IsChain fun x y => y = x + 180 := by
  rw [row, List.isChain_map, List.isChain_range]
  intro i _
  simp only [treePoint_real]
  push_cast
  ring

/-- Read from right to left, the places are as far on the other side. -/
theorem reverse_row (count : ℕ) : (row count).reverse = (row count).map (- ·) := by
  refine List.ext_getElem (by simp) fun i hi _ => ?_
  have hlt : i < count := by simpa [row] using hi
  have hmirror : ((count - 1 - i : ℕ) : ℝ) = (count : ℝ) - 1 - i := by
    rw [Nat.sub_sub, Nat.cast_sub (by omega)]
    push_cast
    ring
  simp only [row, List.getElem_reverse, List.getElem_map, List.getElem_range, List.length_map,
    List.length_range, treePoint_real, hmirror]
  ring

/-- The nodes of a level are placed along a row. -/
theorem map_get?_level (hg : g.Valid) {depth : ℕ} {level : List NodeKey}
    (hlevel : (levels g)[depth]? = some level) :
    level.map (verticalTree.positions g).get? =
      (row level.length).map fun x => some ⟨x, 150 * depth⟩ := by
  refine List.ext_getElem (by simp [row]) fun i hi _ => ?_
  have hlt : i < level.length := by simpa using hi
  have hplace : (verticalTree.positions g).get? level[i] =
      some (treePoint level.length depth i) :=
    (get?_verticalTree_eq_some_iff hg).mpr
      ⟨depth, level, i, hlevel, List.getElem?_eq_getElem hlt, rfl⟩
  simp only [List.getElem_map, hplace, row, List.getElem_range, treePoint_real]

end Layout

/-! ## Picking -/

namespace View

open Layout GraphBoard.Tree

/-- The vertical tree, as a view shows it, keeps the nodes apart. -/
structure Spaced (v : View ℝ) (g : Graph ℝ) : Prop where
  /-- The boxes around the shapes of two nodes, where they are drawn, have no point in common. -/
  disjoint : ∀ m ∈ g.nodes, ∀ n ∈ g.nodes, m ≠ n → ∃ c d,
    v.displayPoint (verticalTree.positions g) m.key = some c ∧
      v.displayPoint (verticalTree.positions g) n.key = some d ∧
      m.kind.box c ∩ n.kind.box d = ∅
  /-- At most one node is under a screen point. -/
  unique : ∀ s : Point ℝ, ∀ m ∈ g.nodes, ∀ n ∈ g.nodes,
    v.covers (verticalTree.positions g) (v.toGraph s) m = true →
      v.covers (verticalTree.positions g) (v.toGraph s) n = true → m = n
  /-- The node that is picked is the same in whichever order the nodes are searched. -/
  nodeAt_eq : ∀ (s : Point ℝ) (ns : List (Node ℝ)), ns.Perm g.nodes →
    v.nodeAt { g with nodes := ns } (verticalTree.positions g) s =
      v.nodeAt g (verticalTree.positions g) s
  /-- The nodes of a level are in a row, each as far from the next, and the row is its own mirror
  image. -/
  rows : ∀ (depth : ℕ) (level : List NodeKey), (levels g)[depth]? = some level → ∃ xs : List ℝ,
    level.map (v.displayPoint (verticalTree.positions g)) =
        xs.map (fun x => some ⟨x, 150 * depth⟩) ∧
      xs.IsChain (fun x y => y = x + 180) ∧ xs.reverse = xs.map (- ·)

/-- As long as no node is dragged away, nodes are drawn where the layout puts them. -/
theorem displayPoint_of_unmoved {v : View ℝ} (hmoved : v.drag.moved = false) (p : Positions ℝ) :
    v.displayPoint p = p.get? := by
  funext k
  simp [displayPoint, hmoved]

/-- No two nodes overlap in the vertical tree, as long as none is dragged. -/
theorem spaced_verticalTree {g : Graph ℝ} (hg : g.Valid) {v : View ℝ}
    (hmoved : v.drag.moved = false) : Spaced v g := by
  have hplace := displayPoint_of_unmoved hmoved (verticalTree.positions g)
  have hdisjoint : ∀ m ∈ g.nodes, ∀ n ∈ g.nodes, m ≠ n → ∃ c d,
      v.displayPoint (verticalTree.positions g) m.key = some c ∧
        v.displayPoint (verticalTree.positions g) n.key = some d ∧
        m.kind.box c ∩ n.kind.box d = ∅ := by
    intro m hm n hn hne
    have hkeys : m.key ≠ n.key := fun h => hne (List.inj_on_of_nodup_map hg.keys_nodup hm hn h)
    obtain ⟨c, hc⟩ := Drawing.exists_displayPoint hg v verticalTree (List.mem_map_of_mem hm)
    obtain ⟨d, hd⟩ := Drawing.exists_displayPoint hg v verticalTree (List.mem_map_of_mem hn)
    refine ⟨c, d, hc, hd, ?_⟩
    rw [hplace] at hc hd
    exact disjoint_box_of_get? hg hkeys hc hd m.kind n.kind
  have hunique : ∀ s : Point ℝ, ∀ m ∈ g.nodes, ∀ n ∈ g.nodes,
      v.covers (verticalTree.positions g) (v.toGraph s) m = true →
        v.covers (verticalTree.positions g) (v.toGraph s) n = true → m = n := by
    intro s m hm n hn hcm hcn
    by_contra hne
    obtain ⟨c, d, hc, hd, hboxes⟩ := hdisjoint m hm n hn hne
    exact Set.eq_empty_iff_forall_notMem.mp hboxes _
      ⟨(covers_iff_mem_box hc).mp hcm, (covers_iff_mem_box hd).mp hcn⟩
  refine ⟨hdisjoint, hunique, fun s ns hperm => ?_, fun depth level hlevel => ?_⟩
  · have hsearch := List.find?_eq_find?_of_perm
      (p := v.covers (verticalTree.positions g) (v.toGraph s))
      ((List.reverse_perm ns).trans (hperm.trans (List.reverse_perm g.nodes).symm))
      fun m hm n hn => hunique s m (hperm.mem_iff.mp (List.mem_reverse.mp hm.1)) n
        (hperm.mem_iff.mp (List.mem_reverse.mp hn.1)) hm.2 hn.2
    rw [nodeAt, hsearch, nodeAt]
  · rw [hplace]
    exact ⟨row level.length, map_get?_level hg hlevel, isChain_row _, reverse_row _⟩

/-- Nodes of every kind, stored at one point: two roots, a child of both, and a cycle. -/
noncomputable def heap : Graph ℝ :=
  .ofItems
    [⟨"root", "", .skinny, none, .origin⟩, ⟨"other", "", .skinny, none, .origin⟩,
      ⟨"child", "", .special, none, .origin⟩, ⟨"ring1", "", .poly, none, .origin⟩,
      ⟨"ring2", "", .complexCircle, some .specialChild, .origin⟩]
    [⟨"root", "child", .empty⟩, ⟨"root", "child", .special⟩, ⟨"other", "child", .empty⟩,
      ⟨"ring1", "ring2", .empty⟩, ⟨"ring2", "ring1", .empty⟩]

theorem valid_heap : heap.Valid := by
  constructor <;> simp [heap, Graph.ofItems, Graph.keys]

/-- The tree spreads the nodes out. -/
theorem spaced_verticalTree_heap :
    heap.Valid ∧ (ofSize 800 600 : View ℝ).drag.moved = false ∧
      Spaced (ofSize 800 600) heap :=
  ⟨valid_heap, rfl, spaced_verticalTree valid_heap rfl⟩

end View

end GraphBoard
