import GraphBoard.Proofs.Layout.Distance

/-!
# GraphBoard.Proofs.Layout.Generations

The vertical tree without a queue.  A family begins with its founder, and the next generation is
always found at once, from all of the one before; the levels of the tree are the generations of all
families, side by side.  Here nodes are only marked as seen, so nothing that waits is handled:

* `claim_unseen` — what a generation claims from the keys not seen is the next generation;
* `expansion_unseen`, `grow_unseen` — so a tree is a family, and the trees are the families;
* `level_withDepth`, `height_families` — where a generation is found among the placed nodes;
* `levels_eq_sideBySide` — the levels are the generations, in the same order.
-/

namespace GraphBoard.Tree

/-! ## Families -/

/-- The generation that follows another: the nodes that its edges lead to, node by node and edge by
edge, each where it comes first, without those that have been seen. -/
def nextGeneration (edges : List Edge) (seen generation : List NodeKey) : List NodeKey :=
  let children := generation.flatMap fun k => (edges.filter (·.source = k)).map Edge.target
  (children.filter (· ∉ seen)).eraseDups

/-- The next generation are the new nodes that the edges of this one lead to. -/
theorem mem_nextGeneration {edges : List Edge} {seen generation : List NodeKey} {v : NodeKey} :
    v ∈ nextGeneration edges seen generation ↔
      (∃ e ∈ edges, e.source ∈ generation ∧ e.target = v) ∧ v ∉ seen := by
  simp only [nextGeneration, List.mem_eraseDups, List.mem_filter, List.mem_flatMap, List.mem_map,
    decide_eq_true_eq]
  grind

/-- Nodes in the next generation leave fewer targets of edges that have not been seen. -/
theorem length_unseen_lt {edges : List Edge} {seen generation : List NodeKey}
    (h : nextGeneration edges seen generation ≠ []) :
    ((edges.map Edge.target).filter (· ∉ seen ++ nextGeneration edges seen generation)).length <
      ((edges.map Edge.target).filter (· ∉ seen)).length := by
  obtain ⟨v, hv⟩ := List.exists_mem_of_ne_nil _ h
  obtain ⟨⟨e, he, -, rfl⟩, hseen⟩ := mem_nextGeneration.mp hv
  have hsplit : (edges.map Edge.target).filter (· ∉ seen ++ nextGeneration edges seen generation) =
      ((edges.map Edge.target).filter (· ∉ seen)).filter
        (· ∉ nextGeneration edges seen generation) := by
    rw [List.filter_filter]
    refine List.filter_congr fun u _ => ?_
    simp [Bool.and_comm]
  rw [hsplit, List.length_filter_lt_length_iff_exists]
  exact ⟨e.target, by simpa using ⟨⟨e, he, rfl⟩, hseen⟩, by simpa using hv⟩

/-- A generation and those that follow it, up to the last that is not empty. -/
def generations (edges : List Edge) (seen generation : List NodeKey) : List (List NodeKey) :=
  let next := nextGeneration edges (seen ++ generation) generation
  if next = [] then [generation] else generation :: generations edges (seen ++ generation) next
termination_by ((edges.map Edge.target).filter (· ∉ seen ++ generation)).length
decreasing_by
  exact length_unseen_lt ‹_›

/-- The families of several founders, one after the other.  Who has been seen founds no family. -/
def families (edges : List Edge) : (founders seen : List NodeKey) → List (List (List NodeKey))
  | [], _ => []
  | s :: founders, seen =>
    if s ∈ seen then families edges founders seen
    else
      let family := generations edges seen [s]
      family :: families edges founders (seen ++ family.flatten)

/-- The generations of several families, the first of each side by side, then the second of each,
as far as the longest family goes. -/
def sideBySide (families : List (List (List NodeKey))) : List (List NodeKey) :=
  (List.range ((families.map List.length).foldr max 0)).map fun d =>
    families.flatMap (·.getD d [])

/-! ## One tree -/

section Unseen

variable {edges : List Edge} {keys seen generation : List NodeKey}

/-- The keys that have not been seen. -/
def unseen (keys seen : List NodeKey) : List NodeKey := keys.filter (· ∉ seen)

/-- A key is unseen exactly if it is there and has not been seen. -/
theorem mem_unseen {v : NodeKey} : v ∈ unseen keys seen ↔ v ∈ keys ∧ v ∉ seen := by
  simp [unseen]

/-- More seen keys leave fewer unseen. -/
theorem unseen_append (keys seen more : List NodeKey) :
    unseen keys (seen ++ more) = (unseen keys seen).filter (· ∉ more) := by
  rw [unseen, unseen, List.filter_filter]
  refine List.filter_congr fun v _ => ?_
  simp [Bool.and_comm]

/-- No key is unseen twice. -/
theorem nodup_unseen (hkeys : keys.Nodup) (seen : List NodeKey) : (unseen keys seen).Nodup :=
  hkeys.filter _

/-- A key that is taken off the unseen ones has been seen. -/
theorem erase_unseen (hkeys : keys.Nodup) (s : NodeKey) :
    (unseen keys seen).erase s = unseen keys (seen ++ [s]) := by
  rw [unseen_append, (nodup_unseen hkeys seen).erase_eq_filter]
  refine List.filter_congr fun v _ => ?_
  simp [bne, beq_eq_decide]

/-- From the keys that have not been seen, a generation claims the next one. -/
theorem claim_unseen (hkeys : keys.Nodup) (htargets : ∀ e ∈ edges, e.target ∈ keys) :
    claim (generation.flatMap (targets edges)) (unseen keys seen) =
      (nextGeneration edges seen generation,
        unseen keys (seen ++ nextGeneration edges seen generation)) := by
  have hchildren : ∀ v ∈ generation.flatMap (targets edges), v ∈ keys := by
    intro v hv
    obtain ⟨k, -, hk⟩ := List.mem_flatMap.mp hv
    obtain ⟨e, he, -, rfl⟩ := mem_targets.mp hk
    exact htargets e he
  have hnext : ((generation.flatMap (targets edges)).filter (· ∈ unseen keys seen)).eraseDups =
      nextGeneration edges seen generation := by
    refine congrArg List.eraseDups (List.filter_congr fun v hv => ?_)
    simp [mem_unseen, hchildren v hv]
  have hrest : (unseen keys seen).filter (· ∉ generation.flatMap (targets edges)) =
      unseen keys (seen ++ nextGeneration edges seen generation) := by
    rw [unseen_append, ← hnext]
    refine List.filter_congr fun v hv => ?_
    simp [hv]
  rw [claim_eq (nodup_unseen hkeys seen), hnext, hrest]

/-- A level is followed by the next generation, as long as a generation is not empty. -/
theorem expansion_cons_unseen (hkeys : keys.Nodup) (htargets : ∀ e ∈ edges, e.target ∈ keys)
    (h : generation ≠ []) :
    let next := nextGeneration edges (seen ++ generation) generation
    let later := expansion edges next (unseen keys (seen ++ generation ++ next))
    expansion edges generation (unseen keys (seen ++ generation)) =
      (generation :: later.1, later.2) := by
  obtain ⟨k, ks, rfl⟩ := List.exists_cons_of_ne_nil h
  rw [expansion, claim_unseen hkeys htargets]

/-- A tree is grown generation by generation. -/
theorem expansion_unseen (hkeys : keys.Nodup) (htargets : ∀ e ∈ edges, e.target ∈ keys)
    (h : generation ≠ []) :
    expansion edges generation (unseen keys (seen ++ generation)) =
      (generations edges seen generation,
        unseen keys (seen ++ (generations edges seen generation).flatten)) := by
  fun_induction generations edges seen generation with
  | case1 seen generation next hnext =>
      have hlast : nextGeneration edges (seen ++ generation) generation = [] := hnext
      rw [expansion_cons_unseen hkeys htargets h, hlast, expansion]
      simp
  | case2 seen generation next hnext ih =>
      rw [expansion_cons_unseen hkeys htargets h]
      simp only [List.flatten_cons, ← List.append_assoc]
      exact congrArg (fun later => (generation :: later.1, later.2)) (ih hnext)

/-- No generation is empty. -/
theorem ne_nil_of_mem_generations (h : generation ≠ []) :
    ∀ l ∈ generations edges seen generation, l ≠ [] := by
  fun_induction generations edges seen generation with
  | case1 seen generation next hnext => simpa using h
  | case2 seen generation next hnext ih => exact List.forall_mem_cons.mpr ⟨h, ih hnext⟩

/-- No generation of a family is empty. -/
theorem ne_nil_of_mem_families {founders : List NodeKey} {family : List (List NodeKey)}
    (h : family ∈ families edges founders seen) : ∀ l ∈ family, l ≠ [] := by
  fun_induction families edges founders seen with
  | case1 seen => contradiction
  | case2 s founders seen hs ih => exact ih h
  | case3 s founders seen hs first ih =>
      obtain rfl | hrest := List.mem_cons.mp h
      · exact ne_nil_of_mem_generations (List.cons_ne_nil s [])
      · exact ih hrest

/-! ## One tree after the other -/

/-- The trees are the families. -/
theorem grow_unseen (hkeys : keys.Nodup) (htargets : ∀ e ∈ edges, e.target ∈ keys)
    {founders : List NodeKey} (hfounders : founders ⊆ keys) :
    grow edges founders (unseen keys seen) =
      (families edges founders seen).flatMap (withDepth 0) := by
  induction founders generalizing seen with
  | nil => rfl
  | cons s founders ih =>
      obtain ⟨hs, hrest⟩ := List.cons_subset.mp hfounders
      rw [grow, families]
      by_cases hseen : s ∈ seen
      · have hnot : s ∉ unseen keys seen := fun h => (mem_unseen.mp h).2 hseen
        rw [if_neg hnot, if_pos hseen, ih hrest]
      · have hwaits : s ∈ unseen keys seen := mem_unseen.mpr ⟨hs, hseen⟩
        rw [if_pos hwaits, if_neg hseen, search_start, erase_unseen hkeys,
          expansion_unseen hkeys htargets (List.cons_ne_nil s []), List.flatMap_cons, ← ih hrest]

end Unseen

/-! ## The levels -/

section Levels

variable {d i : Nat} {l : List NodeKey} {ls : List (List NodeKey)}

/-- A level of two trees is that of the first and then that of the second. -/
theorem level_append (xs ys : List (NodeKey × Nat)) (d : Nat) :
    level (xs ++ ys) d = level xs d ++ level ys d := by
  rw [level, List.filter_append, List.map_append]
  rfl

/-- A level of several trees is made up of theirs. -/
theorem level_flatMap {β : Type} (f : β → List (NodeKey × Nat)) (bs : List β) (d : Nat) :
    level (bs.flatMap f) d = bs.flatMap fun b => level (f b) d := by
  induction bs with
  | nil => rfl
  | cons b bs ih => rw [List.flatMap_cons, List.flatMap_cons, level_append, ih]

/-- Nodes that are placed at one depth are on that level only. -/
theorem level_map (l : List NodeKey) (i d : Nat) :
    level (l.map (·, i)) d = if i = d then l else [] := by
  rw [level, List.filter_map, List.map_map]
  by_cases h : i = d
  · simp [h, Function.comp_def]
  · simp [h, Function.comp_def]

/-- Where the first level has depth `i`, the level at depth `d` is the one of that number from `i`
on. -/
theorem level_withDepth (ls : List (List NodeKey)) (i d : Nat) :
    level (withDepth i ls) d = if i ≤ d then ls.getD (d - i) [] else [] := by
  induction ls generalizing i with
  | nil => simp [withDepth, level]
  | cons l ls ih =>
      rw [withDepth, level_append, level_map, ih]
      obtain hlt | rfl | hgt := Nat.lt_trichotomy i d
      · have hsub : d - i = d - (i + 1) + 1 := by omega
        have hle : i + 1 ≤ d := hlt
        rw [if_neg (Nat.ne_of_lt hlt), if_pos hle, if_pos (Nat.le_of_lt hlt), hsub]
        rfl
      · simp
      · rw [if_neg (Nat.ne_of_gt hgt), if_neg (by omega), if_neg (by omega)]
        rfl

/-- Where no level is empty, the deepest node is in the last one. -/
theorem exists_mem_withDepth_iff (hls : ∀ l ∈ ls, l ≠ []) (hi : i ≤ d) :
    (∃ n ∈ withDepth i ls, d ≤ n.2) ↔ d < i + ls.length := by
  induction ls generalizing i with
  | nil => simp [withDepth, hi]
  | cons l ls ih =>
      obtain ⟨hl, hrest⟩ := List.forall_mem_cons.mp hls
      rw [withDepth, List.length_cons]
      obtain rfl | hlt := Nat.eq_or_lt_of_le hi
      · obtain ⟨k, hk⟩ := List.exists_mem_of_ne_nil l hl
        have hmem : (k, i) ∈ l.map (·, i) ++ withDepth (i + 1) ls := by simp [hk]
        exact iff_of_true ⟨_, hmem, Nat.le_refl i⟩ (by omega)
      · have hfirst : ¬ ∃ n ∈ l.map (·, i), d ≤ n.2 := by simpa using fun _ _ => hlt
        simp only [List.mem_append, or_and_right, exists_or, hfirst, false_or]
        rw [ih hrest hlt]
        omega

/-- A number is below the greatest of several exactly if it is below one of them. -/
theorem lt_foldr_max_iff (ns : List Nat) : d < ns.foldr max 0 ↔ ∃ n ∈ ns, d < n := by
  induction ns with
  | nil => simp
  | cons n ns ih => simp [ih]

/-- The depth of families is the number of generations of the longest. -/
theorem height_families {families : List (List (List NodeKey))}
    (h : ∀ family ∈ families, ∀ l ∈ family, l ≠ []) :
    height (families.flatMap (withDepth 0)) = (families.map List.length).foldr max 0 := by
  refine eq_of_forall_lt_iff fun d => ?_
  rw [lt_height_iff, lt_foldr_max_iff]
  simp only [List.mem_flatMap, List.mem_map, exists_exists_and_eq_and]
  constructor
  · rintro ⟨n, ⟨family, hfamily, hn⟩, hle⟩
    have hlt := (exists_mem_withDepth_iff (h family hfamily) (Nat.zero_le d)).mp ⟨n, hn, hle⟩
    exact ⟨family, hfamily, by omega⟩
  · rintro ⟨family, hfamily, hlt⟩
    obtain ⟨n, hn, hle⟩ :=
      (exists_mem_withDepth_iff (h family hfamily) (Nat.zero_le d)).mpr (by omega)
    exact ⟨n, ⟨family, hfamily, hn⟩, hle⟩

end Levels

variable {α : Type} {g : Graph α}

/-- The levels of the vertical tree are the generations of the families that are founded by the
nodes that no edge enters and then by all nodes, in the order of the nodes.  In each level the
families stand side by side. -/
theorem levels_eq_sideBySide (hg : g.Valid) :
    levels g = sideBySide
      (families g.edges ((g.keys.filter fun k => ∀ e ∈ g.edges, e.target ≠ k) ++ g.keys) []) := by
  have hstarts : starts g = (g.keys.filter fun k => ∀ e ∈ g.edges, e.target ≠ k) ++ g.keys := by
    refine congrArg (· ++ g.keys) (List.filter_congr fun k _ => ?_)
    rw [Bool.eq_iff_iff]
    simp
  have hsubset : starts g ⊆ g.keys :=
    List.append_subset.mpr ⟨List.filter_sublist.subset, List.Subset.refl _⟩
  have hall : unseen g.keys [] = g.keys := by simp [unseen]
  have hplaced : placed g = (families g.edges (starts g) []).flatMap (withDepth 0) := by
    rw [placed, ← grow_unseen hg.keys_nodup hg.target_mem hsubset, hall]
  rw [← hstarts, levels, hplaced, height_families fun _ => ne_nil_of_mem_families, sideBySide]
  refine List.map_congr_left fun d _ => ?_
  rw [level_flatMap]
  refine List.flatMap_congr fun family _ => ?_
  rw [level_withDepth, if_pos (Nat.zero_le d), Nat.sub_zero]

/-- The first family takes the foot of the diamond from the second, and the third is a cycle. -/
theorem levels_eq_sideBySide_branching : branching.Valid ∧ levels branching = sideBySide
    [[["root"], ["left", "right"], ["foot"]], [["other"]], [["ring1"], ["ring2"]]] := by
  have hfamilies : families branching.edges
      ((branching.keys.filter fun k => ∀ e ∈ branching.edges, e.target ≠ k) ++ branching.keys) [] =
      [[["root"], ["left", "right"], ["foot"]], [["other"]], [["ring1"], ["ring2"]]] := by
    decide +kernel
  exact ⟨valid_branching, hfamilies ▸ levels_eq_sideBySide valid_branching⟩

end GraphBoard.Tree
