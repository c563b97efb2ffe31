import GraphBoard.Proofs.Editor.Sound
import Mathlib.Data.List.Perm.Subperm

/-!
# GraphBoard.Proofs.Editor.Single

How many items are chosen.  Only an additive pick puts a further item beside those chosen before,
and it asks whether several may be chosen; every other event chooses one item or none, or keeps to
what was chosen.  A paste chooses the copies, and there are no more of them than items chosen.

* `Graph.size_duplicate_le` — this of the copies;
* `size_selection_apply_le` — so an event that may not choose several items leaves as many chosen as
  there were, or one;
* `size_selection_run_le_one` — so an editor in which several items may not be chosen has at most
  one chosen, however it is used.
-/

namespace GraphBoard

variable {α : Type}

/-! ## Sizes of sets -/

namespace OrderedSet

variable {κ : Type} [Ord κ]

/-- A part of a set has no more keys than the set. -/
theorem size_filter_le (s : OrderedSet κ) (p : κ → Bool) : (s.filter p).size ≤ s.size :=
  List.length_filter_le p s.toList

/-- A place is taken by one key. -/
theorem length_place_le (k : κ) (xs : List κ) : (place k xs).length ≤ xs.length + 1 := by
  induction xs with
  | nil => exact Nat.le_refl _
  | cons x xs ih =>
      rw [place]
      split
      · exact Nat.le_refl _
      · exact Nat.le_succ _
      · exact Nat.succ_le_succ ih

variable [Std.TransOrd κ] [Std.LawfulEqOrd κ]

/-- Keys that are inserted one by one add at most as many as they are. -/
theorem size_foldl_insert_le (ks : List κ) (s : OrderedSet κ) :
    (ks.foldl insert s).size ≤ s.size + ks.length := by
  induction ks generalizing s with
  | nil => exact Nat.le_refl _
  | cons k ks ih =>
      have hrest := ih (s.insert k)
      have hfirst : (s.insert k).size ≤ s.size + 1 := length_place_le k s.toList
      rw [List.foldl_cons, List.length_cons]
      omega

/-- A set made from a list has at most as many keys. -/
theorem size_ofList_le (ks : List κ) : (ofList ks).size ≤ ks.length := by
  have h := size_foldl_insert_le ks empty
  rwa [show (empty : OrderedSet κ).size = 0 from rfl, Nat.zero_add] at h

end OrderedSet

/-! ## Sizes of selections -/

namespace Selection

/-- The number of chosen items. -/
def size (s : Selection) : Nat := s.nodes.size + s.edges.size

@[simp] theorem size_empty : empty.size = 0 := rfl

@[simp] theorem size_ofNode (k : NodeKey) : (ofNode k).size = 1 := rfl

@[simp] theorem size_ofEdge (k : EdgeKey) : (ofEdge k).size = 1 := rfl

/-- What is kept of a selection is not more. -/
theorem size_retain_le (s : Selection) (g : Graph α) : (s.retain g).size ≤ s.size :=
  Nat.add_le_add (s.nodes.size_filter_le g.hasNode) (s.edges.size_filter_le g.hasEdge)

/-- A selection made from keys has at most as many. -/
theorem size_ofKeys_le (ks : List NodeKey) (es : List EdgeKey) :
    (ofKeys ks es).size ≤ ks.length + es.length :=
  Nat.add_le_add (OrderedSet.size_ofList_le ks) (OrderedSet.size_ofList_le es)

end Selection

/-! ## Copies -/

namespace Graph

/-- One new key is reported for each copied node. -/
theorem length_renamed_copyNodes (shift : Point α → Point α) (ns : List (Node α)) (g : Graph α) :
    (copyNodes shift ns g).2.length = ns.length := by
  induction ns generalizing g with
  | nil => rfl
  | cons n ns ih => exact congrArg (· + 1) (ih _)

/-- On a valid graph no more nodes are chosen than their keys are. -/
theorem length_chosenNodes_le {g : Graph α} (hg : g.Valid) (s : Selection) :
    (g.chosenNodes s).length ≤ s.nodes.size := by
  have hsub : (g.chosenNodes s).map Node.key ⊆ s.nodes.toList := by
    intro k hk
    obtain ⟨n, hn, rfl⟩ := List.mem_map.mp hk
    exact Selection.hasNode_iff.mp (List.mem_filter.mp hn).2
  have hle := ((nodup_chosenNodes hg s).subperm hsub).length_le
  rwa [List.length_map] at hle

/-- There are no more copies than items chosen. -/
theorem size_duplicate_le [Scalar α] {g : Graph α} (hg : g.Valid) (s : Selection)
    (goal : Point α) : (g.duplicate s goal).2.size ≤ s.size := by
  cases hc : g.chosenNodes s with
  | nil =>
      rw [duplicate_of_chosenNodes_nil goal hc]
      exact Nat.zero_le _
  | cons n ns =>
      rw [duplicate_eq g s goal hc]
      refine Nat.le_trans (Selection.size_ofKeys_le _ _) (Nat.add_le_add ?_ ?_)
      · rw [List.length_map, length_renamed_copyNodes]
        exact length_chosenNodes_le hg s
      · rw [List.length_map]
        exact List.length_filterMap_le _ _

end Graph

namespace Editor

/-! ## One event -/

/-- Where several items may not be chosen, a picked node is the only one. -/
theorem size_pickNode (s : Editor α) (hm : s.multiselect = false) (k : NodeKey) (additive : Bool) :
    (s.pickNode k additive).size = 1 := by
  rw [pickNode, hm, Bool.and_false]
  rfl

/-- Where several items may not be chosen, a picked edge is the only one. -/
theorem size_pickEdge (s : Editor α) (hm : s.multiselect = false) (k : EdgeKey) (additive : Bool) :
    (s.pickEdge k additive).size = 1 := by
  rw [pickEdge, hm, Bool.and_false]
  rfl

variable [Scalar α] {s : Editor α}

/-- Where several items may not be chosen, as many are chosen after an event as before, or one. -/
theorem size_selection_apply_le (hvalid : s.graph.Valid) (hm : s.multiselect = false)
    (e : Event α) : (s.apply e).1.selection.size ≤ max 1 s.selection.size := by
  have hkept : s.selection.size ≤ max 1 s.selection.size := Nat.le_max_right _ _
  have hone : 1 ≤ max 1 s.selection.size := Nat.le_max_left _ _
  cases e with
  | createNode p => exact hkept
  | updateNode k p =>
      rw [apply]
      split <;> exact hkept
  | deleteNode k =>
      rw [apply]
      split
      · exact Nat.le_trans (Selection.size_retain_le _ _) hkept
      · exact hkept
  | deleteSelected =>
      rw [apply, deleteSelected]
      split
      · exact hkept
      · exact Nat.zero_le _
  | createEdge source target =>
      rw [apply]
      split
      · exact hkept
      · split
        · exact hone
        · exact hkept
  | swapEdge edge source target =>
      rw [apply]
      split
      · exact hone
      · exact hkept
  | deleteEdge edge =>
      rw [apply]
      split
      · exact Nat.zero_le _
      · exact hkept
  | selectNode k additive =>
      rw [apply]
      split
      · exact Nat.le_trans (Nat.le_of_eq (size_pickNode s hm k additive)) hone
      · exact hkept
  | selectEdge k additive =>
      rw [apply]
      split
      · exact Nat.le_trans (Nat.le_of_eq (size_pickEdge s hm k additive)) hone
      · exact hkept
  | clearSelection => exact Nat.zero_le _
  | copy => exact hkept
  | paste p =>
      by_cases hc : s.graph.chosenNodes s.selection = []
      · rw [apply_paste_of_nil p hc]
        exact hkept
      · rw [apply_paste_of_ne_nil hvalid p hc]
        exact Nat.le_trans (Graph.size_duplicate_le hvalid s.selection p) hkept
  | undo => exact hkept

/-- Whether several items may be chosen is settled at the start. -/
theorem multiselect_apply (s : Editor α) (e : Event α) :
    (s.apply e).1.multiselect = s.multiselect := by
  cases e
  all_goals
    simp only [apply, deleteSelected, retaining]
    repeat' split
    all_goals rfl

/-! ## Runs -/

/-- Several items may not be chosen, and none or one is. -/
structure Single (s : Editor α) : Prop where
  multiselect : s.multiselect = false
  size_le : s.selection.size ≤ 1

/-- An action leaves at most one item chosen. -/
theorem Single.perform (h : s.Single) (hvalid : s.graph.Valid) (a : Action α) :
    (s.perform a).1.Single := by
  cases a with
  | event e =>
      have hsize := size_selection_apply_le hvalid h.multiselect e
      rw [Nat.max_eq_left h.size_le] at hsize
      exact ⟨(multiselect_apply s e).trans h.multiselect, hsize⟩
  | replaceGraph g => exact ⟨h.multiselect, Nat.zero_le _⟩
  | addStartNode => exact ⟨h.multiselect, h.size_le⟩
  | deleteStartNode =>
      rw [Editor.perform, Editor.deleteStartNode]
      cases s.graph.deleteStartNode? with
      | none => exact h
      | some r => exact ⟨h.multiselect, Nat.le_trans (Selection.size_retain_le _ _) h.size_le⟩

/-- A run of actions leaves at most one item chosen. -/
theorem Single.run (h : s.Single) (hs : s.Sound) {actions : List (Action α)}
    (ha : ∀ a ∈ actions, a.Valid) : (s.run actions).Single := by
  rw [Editor.run]
  induction actions generalizing s with
  | nil => exact h
  | cons a actions ih =>
      rw [List.foldl_cons]
      exact ih (h.perform hs.valid a) (hs.perform (ha a List.mem_cons_self))
        fun b hb => ha b (List.mem_cons_of_mem a hb)

/-- In an editor in which several items may not be chosen, at most one item is, however the editor
is used. -/
theorem size_selection_run_le_one {g : Graph α} (hg : g.Valid) {actions : List (Action α)}
    (ha : ∀ a ∈ actions, a.Valid) :
    let s := (start g false).run actions
    s.selection.nodes.size + s.selection.edges.size ≤ 1 := by
  have hstart : (start g false).Single := ⟨rfl, Nat.zero_le 1⟩
  exact (hstart.run (sound_start hg false) ha).size_le

/-- Additive picks replace what is chosen, and a paste chooses the one copy. -/
theorem size_selection_run_le_one_lookalike :
    let s := (start Graph.lookalike false).run
      [.event (.selectEdge ⟨"a", "a_1"⟩ true), .event (.selectNode "a" true),
        .event (.selectNode "a_1" true), .event (.paste ⟨10.0, 10.0⟩), .deleteStartNode,
        .replaceGraph Graph.lookalike, .addStartNode, .event (.createEdge "n1" "a")]
    s.selection.nodes.size + s.selection.edges.size ≤ 1 :=
  size_selection_run_le_one Graph.valid_lookalike (by simp [Action.Valid, Graph.valid_lookalike])

end Editor

end GraphBoard
