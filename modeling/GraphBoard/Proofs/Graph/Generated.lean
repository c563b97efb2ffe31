import GraphBoard.Proofs.Graph.Run

/-!
# GraphBoard.Proofs.Graph.Generated

No generated key is generated a second time.  The search for a free number only looks at the nodes
that are there, so it cannot tell a deleted key from one that never was.  What keeps the keys apart
is the number at their end, and that the numbers of a graph only grow:

* `keyNumber_generatedKey` — the number can be read off the key again, whichever key was copied;
* `Ascending` — keys whose numbers grow from one bound up to another;
* `ascending_generated` — the keys that one edit generates are numbered between the numbers that
  the graph has before and after it;
* `nodup_generatedAll` — so the keys of a whole run are pairwise different.
-/

namespace GraphBoard

/-! ## The number at the end of a key -/

/-- The number that the digits at the end of a key make, zero if there are none. -/
def keyNumber (k : NodeKey) : Nat :=
  Nat.ofDigitChars 10 (k.toList.reverse.takeWhile Char.isDigit).reverse 0

/-- A number that follows something else than a digit is read back, whatever comes before. -/
theorem keyNumber_append_toString {stem : String} (cs : List Char) (c : Char)
    (hstem : stem.toList = cs ++ [c]) (hc : c.isDigit = false) (number : Nat) :
    keyNumber (stem ++ toString number) = number := by
  have hdigits : ∀ d ∈ (Nat.toDigits 10 number).reverse, d.isDigit = true := fun d hd =>
    Nat.isDigit_of_mem_toDigits (by decide) (by decide) (List.mem_reverse.mp hd)
  have htext : (stem ++ toString number).toList = cs ++ c :: Nat.toDigits 10 number := by
    rw [String.toList_append, hstem, Nat.toString_eq_repr, Nat.toList_repr]
    simp
  have hend : (stem ++ toString number).toList.reverse.takeWhile Char.isDigit =
      (Nat.toDigits 10 number).reverse := by
    rw [htext, List.reverse_append, List.reverse_cons, List.append_assoc, List.singleton_append,
      List.takeWhile_append_of_pos hdigits, List.takeWhile_cons_of_neg (by simp [hc])]
    simp
  rw [keyNumber, hend, List.reverse_reverse, Nat.ofDigitChars_ten_toDigits]

/-- The number of a generated key can be read off it. -/
theorem keyNumber_generatedKey (base : Option NodeKey) (number : Nat) :
    keyNumber (generatedKey base number) = number := by
  cases base with
  | none => exact keyNumber_append_toString [] 'n' rfl (by decide) number
  | some key =>
      have hstem : (key ++ "_").toList = key.toList ++ ['_'] := String.toList_append
      exact keyNumber_append_toString key.toList '_' hstem (by decide) number

/-! ## Keys with growing numbers -/

/-- The numbers of the keys grow, from above the first bound up to the last. -/
inductive Ascending : Nat → List NodeKey → Nat → Prop where
  | nil {lo hi : Nat} (h : lo ≤ hi) : Ascending lo [] hi
  | cons {lo hi : Nat} {k : NodeKey} {ks : List NodeKey} (hk : lo < keyNumber k)
      (hks : Ascending (keyNumber k) ks hi) : Ascending lo (k :: ks) hi

namespace Ascending

variable {lo mid hi : Nat} {ks ls : List NodeKey}

/-- Between the two ends there is only a way up. -/
theorem le (h : Ascending lo ks hi) : lo ≤ hi := by
  induction h with
  | nil h => exact h
  | cons hk _ ih => omega

/-- Keys that ascend from a number ascend from every smaller one. -/
theorem mono_left (h : Ascending mid ks hi) (hle : lo ≤ mid) : Ascending lo ks hi := by
  cases h with
  | nil h => exact .nil (Nat.le_trans hle h)
  | cons hk hks => exact .cons (Nat.lt_of_le_of_lt hle hk) hks

/-- Keys that ascend to a number and keys that ascend from it ascend together. -/
theorem append (h : Ascending lo ks mid) (h' : Ascending mid ls hi) :
    Ascending lo (ks ++ ls) hi := by
  induction h with
  | nil hle => exact h'.mono_left hle
  | cons hk _ ih => exact .cons hk (ih h')

/-- All numbers are above the lower end. -/
theorem lt_keyNumber (h : Ascending lo ks hi) {k : NodeKey} (hk : k ∈ ks) : lo < keyNumber k := by
  induction h with
  | nil _ => contradiction
  | cons hfirst _ ih =>
      cases List.mem_cons.mp hk with
      | inl he => rw [he]; exact hfirst
      | inr hk => exact Nat.lt_trans hfirst (ih hk)

/-- Keys that ascend are different. -/
theorem nodup (h : Ascending lo ks hi) : ks.Nodup := by
  induction h with
  | nil _ => exact List.nodup_nil
  | cons _ hks ih =>
      refine List.nodup_cons.mpr ⟨fun hmem => ?_, ih⟩
      have hlt := hks.lt_keyNumber hmem
      omega

end Ascending

namespace Graph

variable {α : Type}

/-- A fresh key ascends from the numbers given out to its own. -/
theorem ascending_freshKey (g : Graph α) (base : Option NodeKey) :
    Ascending g.issued [g.freshKey base] (g.freshNumber base) := by
  have hnumber : keyNumber (g.freshKey base) = g.freshNumber base := keyNumber_generatedKey base _
  refine .cons ?_ (.nil (Nat.le_of_eq hnumber))
  rw [hnumber]
  exact g.issued_lt_freshNumber base

/-- The copies of nodes are added behind the others, and their keys ascend.  The induction is over
all graphs that the copies so far may have made; nothing is asked of their keys. -/
theorem exists_copies_ascending (shift : Point α → Point α) (ns : List (Node α)) (g : Graph α) :
    ∃ copies, (copyNodes shift ns g).1.nodes = g.nodes ++ copies ∧
      Ascending g.issued (copies.map Node.key) (copyNodes shift ns g).1.issued := by
  induction ns generalizing g with
  | nil => exact ⟨[], by simp [copyNodes], .nil (Nat.le_refl _)⟩
  | cons n ns ih =>
      obtain ⟨copies, hnodes, hasc⟩ := ih (g.withCopy n (shift n.position))
      refine ⟨{ n with key := g.freshKey (some n.key), position := shift n.position } :: copies,
        ?_, (g.ascending_freshKey (some n.key)).append hasc⟩
      show (copyNodes shift ns (g.withCopy n (shift n.position))).1.nodes = _
      rw [hnodes]
      simp [withCopy]

/-! ## The keys that edits generate -/

variable [Scalar α]

/-- The keys that an edit generates: that of a new node, or those of the nodes that a duplication
adds behind the others. -/
def generated (g : Graph α) : Edit α → List NodeKey
  | .insertNode p kind => [(g.insertNode p kind).2]
  | .insertStartNode => [g.insertStartNode.2]
  | .duplicate selection goal =>
    ((g.duplicate selection goal).1.nodes.drop g.nodes.length).map Node.key
  | _ => []

/-- The keys that one edit after the other generates. -/
def generatedAll (g : Graph α) : List (Edit α) → List NodeKey
  | [] => []
  | e :: edits => g.generated e ++ (g.edit e).generatedAll edits

/-- The keys of copies ascend from the numbers given out before to those given out after. -/
theorem ascending_duplicate (g : Graph α) (s : Selection) (goal : Point α) :
    Ascending g.issued (g.generated (.duplicate s goal)) (g.duplicate s goal).1.issued := by
  rw [generated]
  cases hc : g.chosenNodes s with
  | nil =>
      rw [duplicate_of_chosenNodes_nil goal hc, List.drop_length]
      exact .nil (Nat.le_refl _)
  | cons n ns =>
      obtain ⟨copies, hnodes, hasc⟩ := exists_copies_ascending
        (moveOnto goal (n.position.corner (ns.map Node.position))) (g.chosenNodes s) g
      rw [duplicate_eq g s goal hc]
      simp only []
      rw [hnodes, List.drop_left]
      exact hasc

/-! ## Edits that generate no key -/

section Issued

omit [Scalar α]

variable {g g' : Graph α}

/-- Moving a node gives out no number. -/
theorem issued_moveNode? {k : NodeKey} {p : Point α} (h : g.moveNode? k p = some g') :
    g'.issued = g.issued := by
  obtain ⟨xs, n, ys, -, rfl⟩ := moveNode?_eq_some_iff.mp h
  rfl

/-- Deleting a node gives out no number. -/
theorem issued_deleteNode? {k : NodeKey} {d : Deleted α} (h : g.deleteNode? k = some (g', d)) :
    g'.issued = g.issued := by
  obtain ⟨-, -, rfl⟩ := deleteNode?_eq_some_iff.mp h
  rfl

/-- Nor does deleting the start node. -/
theorem issued_deleteStartNode? {d : Deleted α} (h : g.deleteStartNode? = some (g', d)) :
    g'.issued = g.issued := by
  obtain ⟨n, -, h⟩ := deleteStartNode?_eq_some h
  exact issued_deleteNode? h

/-- Inserting an edge gives out no number. -/
theorem issued_insertEdge? {s t : NodeKey} {kind : EdgeKind}
    (h : g.insertEdge? s t kind = some g') : g'.issued = g.issued := by
  obtain ⟨-, rfl⟩ := insertEdge?_eq_some_iff.mp h
  rfl

/-- Giving an edge other ends gives out no number. -/
theorem issued_retargetEdge? {k : EdgeKey} {s t : NodeKey}
    (h : g.retargetEdge? k s t = some g') : g'.issued = g.issued := by
  obtain ⟨-, xs, e, ys, -, rfl⟩ := retargetEdge?_eq_some_iff.mp h
  rfl

/-- Deleting an edge gives out no number. -/
theorem issued_deleteEdge? {k : EdgeKey} {e : Edge} (h : g.deleteEdge? k = some (g', e)) :
    g'.issued = g.issued := by
  obtain ⟨-, rfl⟩ := deleteEdge?_eq_some_iff.mp h
  rfl

/-- An edit that may be declined and gives out no number generates no keys. -/
theorem ascending_getD {result : Option (Graph α)}
    (h : ∀ g', result = some g' → g'.issued = g.issued) :
    Ascending g.issued [] (result.getD g).issued := by
  have hissued : (result.getD g).issued = g.issued :=
    getD_preserves (P := fun g' => g'.issued = g.issued) rfl h
  exact .nil (Nat.le_of_eq hissued.symm)

/-- So it is for one that also answers what was deleted. -/
theorem ascending_getD_map_fst {β : Type} {result : Option (Graph α × β)}
    (h : ∀ g' b, result = some (g', b) → g'.issued = g.issued) :
    Ascending g.issued [] ((result.map Prod.fst).getD g).issued := by
  have hissued : ((result.map Prod.fst).getD g).issued = g.issued :=
    getD_map_fst_preserves (P := fun g' => g'.issued = g.issued) rfl h
  exact .nil (Nat.le_of_eq hissued.symm)

end Issued

/-! ## New keys -/

section NewKeys

omit [Scalar α]

variable {g : Graph α}

/-- An edit that may be declined and adds no node adds no key. -/
theorem subset_getD {result : Option (Graph α)} (h : ∀ g', result = some g' → g'.keys ⊆ g.keys) :
    (result.getD g).keys ⊆ g.keys :=
  getD_preserves (P := fun g' => g'.keys ⊆ g.keys) (List.Subset.refl _) h

/-- So it is for one that also answers what was deleted. -/
theorem subset_getD_map_fst {β : Type} {result : Option (Graph α × β)}
    (h : ∀ g' b, result = some (g', b) → g'.keys ⊆ g.keys) :
    ((result.map Prod.fst).getD g).keys ⊆ g.keys :=
  getD_map_fst_preserves (P := fun g' => g'.keys ⊆ g.keys) (List.Subset.refl _) h

/-- Deleting a node adds no key. -/
theorem subset_of_deleteNode? (hg : g.Valid) {g' : Graph α} {k : NodeKey} {d : Deleted α}
    (h : g.deleteNode? k = some (g', d)) : g'.keys ⊆ g.keys := fun _ hk =>
  ((mem_keys_deleteNode? hg h).mp hk).1

/-- An edit that leaves the nodes alone adds no key. -/
theorem subset_of_nodes {g' : Graph α} (h : g'.nodes = g.nodes) : g'.keys ⊆ g.keys := by
  rw [keys_eq_of_nodes h]
  exact List.Subset.refl _

end NewKeys

/-- Where no key is added, no key is new. -/
theorem mem_nil_iff_of_subset {ks ks' : List NodeKey} (h : ks' ⊆ ks) {k : NodeKey} :
    k ∈ ([] : List NodeKey) ↔ k ∈ ks' ∧ k ∉ ks :=
  iff_of_false List.not_mem_nil fun hk => hk.2 (h hk.1)

/-- Where keys are added that were not there, these are the new ones. -/
theorem mem_iff_of_append {ks ks' new : List NodeKey} (h : ∀ k, k ∈ ks' ↔ k ∈ ks ∨ k ∈ new)
    (hnew : ∀ k ∈ new, k ∉ ks) {k : NodeKey} : k ∈ new ↔ k ∈ ks' ∧ k ∉ ks := by
  rw [h k]
  constructor
  · intro hk
    exact ⟨Or.inr hk, hnew k hk⟩
  · intro hk
    exact hk.1.resolve_left hk.2

/-- The keys that duplicating generates are the new keys of the graph. -/
theorem mem_generated_duplicate_iff {g : Graph α} (hg : g.Valid) (s : Selection) (goal : Point α)
    {k : NodeKey} :
    k ∈ g.generated (.duplicate s goal) ↔ k ∈ (g.duplicate s goal).1.keys ∧ k ∉ g.keys := by
  rw [generated]
  cases hc : g.chosenNodes s with
  | nil =>
      rw [duplicate_of_chosenNodes_nil goal hc, List.drop_length]
      exact mem_nil_iff_of_subset (List.Subset.refl _)
  | cons n ns =>
      obtain ⟨number, copies, hdup⟩ := duplicated_duplicate hg s goal hc
      have hnew : ((g.duplicate s goal).1.nodes.drop g.nodes.length).map Node.key =
          (g.chosenNodes s).map fun n => copyKey number n.key := by
        rw [hdup.nodes_eq, List.drop_left, List.map_map]
        rfl
      rw [hnew]
      refine mem_iff_of_append (fun l => ?_) fun l hl => ?_
      · rw [hdup.keys_eq, List.mem_append]
      · obtain ⟨m, hm, rfl⟩ := List.mem_map.mp hl
        exact hdup.numbered.fresh m hm

/-- The keys that an edit generates are the keys that are new after it. -/
theorem mem_generated_iff {g : Graph α} (hg : g.Valid) (e : Edit α) {k : NodeKey} :
    k ∈ g.generated e ↔ k ∈ (g.edit e).keys ∧ k ∉ g.keys := by
  have hfresh : ∀ l ∈ [g.freshKey none], l ∉ g.keys := fun l hl => by
    rw [List.mem_singleton.mp hl]
    exact g.freshKey_not_mem_keys none
  cases e with
  | insertNode p kind =>
      refine mem_iff_of_append (fun l => ?_) hfresh
      rw [edit, keys_insertNode, List.mem_append]
  | insertStartNode =>
      refine mem_iff_of_append (fun l => ?_) hfresh
      rw [edit, keys_insertStartNode, List.mem_cons, List.mem_singleton, or_comm]
  | deleteStartNode =>
      refine mem_nil_iff_of_subset (subset_getD_map_fst fun g' d h => ?_)
      obtain ⟨n, -, h⟩ := deleteStartNode?_eq_some h
      exact subset_of_deleteNode? hg h
  | moveNode l p =>
      refine mem_nil_iff_of_subset (subset_getD fun g' h => ?_)
      rw [keys_moveNode? h]
      exact List.Subset.refl _
  | deleteNode l =>
      exact mem_nil_iff_of_subset (subset_getD_map_fst fun _ _ h => subset_of_deleteNode? hg h)
  | insertEdge s t kind =>
      exact mem_nil_iff_of_subset (subset_getD fun _ h => subset_of_nodes (nodes_of_insertEdge? h))
  | retargetEdge l s t =>
      exact mem_nil_iff_of_subset
        (subset_getD fun _ h => subset_of_nodes (nodes_of_retargetEdge? h))
  | deleteEdge l =>
      exact mem_nil_iff_of_subset
        (subset_getD_map_fst fun _ _ h => subset_of_nodes (nodes_of_deleteEdge? h))
  | duplicate s goal => exact mem_generated_duplicate_iff hg s goal

/-! ## Runs -/

/-- The keys that an edit generates are numbered above the number that the graph has before it,
and not above the one that it has after it. -/
theorem ascending_generated (g : Graph α) (e : Edit α) :
    Ascending g.issued (g.generated e) (g.edit e).issued := by
  cases e with
  | insertNode p kind => exact g.ascending_freshKey none
  | insertStartNode => exact g.ascending_freshKey none
  | deleteStartNode => exact ascending_getD_map_fst fun _ _ => issued_deleteStartNode?
  | moveNode k p => exact ascending_getD fun _ => issued_moveNode?
  | deleteNode k => exact ascending_getD_map_fst fun _ _ => issued_deleteNode?
  | insertEdge s t kind => exact ascending_getD fun _ => issued_insertEdge?
  | retargetEdge k s t => exact ascending_getD fun _ => issued_retargetEdge?
  | deleteEdge k => exact ascending_getD_map_fst fun _ _ => issued_deleteEdge?
  | duplicate s goal => exact g.ascending_duplicate s goal

/-- The keys that a list of edits generates ascend. -/
theorem ascending_generatedAll (g : Graph α) (edits : List (Edit α)) :
    Ascending g.issued (g.generatedAll edits) (g.editAll edits).issued := by
  induction edits generalizing g with
  | nil => exact .nil (Nat.le_refl _)
  | cons e edits ih => exact (g.ascending_generated e).append (ih (g.edit e))

/-- In a run of edits no key is generated twice, whatever is deleted in between and whatever the
keys look like that the graph begins with. -/
theorem nodup_generatedAll (g : Graph α) (edits : List (Edit α)) :
    (g.generatedAll edits).Nodup :=
  (g.ascending_generatedAll edits).nodup

example : lookalike.generatedAll [.insertNode ⟨0.0, 0.0⟩ .empty, .deleteNode "n2",
    .duplicate (.ofKeys ["a", "a_1"] []) ⟨0.0, 0.0⟩, .deleteNode "a_1_4", .insertStartNode] =
    ["n2", "a_3", "a_1_4", "n5"] := by
  decide +kernel

end Graph

end GraphBoard
