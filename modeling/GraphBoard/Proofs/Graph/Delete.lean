import GraphBoard.Proofs.Graph.Run

/-!
# GraphBoard.Proofs.Graph.Delete

What deletions leave of a graph, one by one and many together.

* `edit_deleteNode`, `edit_deleteEdge` — one deletion, in terms of the lists of a graph;
* `editAll_perm` — several deletions lead to the same graph in every order;
* `editAll_deleteNode`, `editAll_deleteEdge` — those of many nodes and those of many edges;
* `foldl_eraseP_eq_withoutFirsts` — to delete edges one after the other, each the first with its key
  among those that are left, is to take out of the list as it was the first with each key;
* `countP_withoutFirsts` — so of parallel edges exactly one goes.
-/

namespace GraphBoard.Graph

variable {α : Type}

/-! ## One deletion -/

/-- Where keys are not repeated, erasing the first node with a key erases all. -/
theorem eraseP_key_eq_filter {ns : List (Node α)} (hns : (ns.map Node.key).Nodup) (k : NodeKey) :
    ns.eraseP (·.key == k) = ns.filter (·.key != k) := by
  induction ns with
  | nil => rfl
  | cons n ns ih =>
      obtain ⟨hn, hns⟩ := List.nodup_cons.mp hns
      by_cases hk : n.key = k
      · have hrest : ns.filter (·.key != k) = ns := by
          apply List.filter_eq_self.mpr
          intro m hm
          have hmk : m.key ≠ k := fun he => hn (hk.trans he.symm ▸ List.mem_map_of_mem hm)
          simpa using hmk
        simp [hk, hrest]
      · simp [hk, ih hns]

variable [Scalar α] {g : Graph α}

/-- To delete a node is to keep the other nodes and the edges that do not touch it. -/
theorem edit_deleteNode (hg : g.Valid) (k : NodeKey) : g.edit (.deleteNode k) =
    { g with
      nodes := g.nodes.filter (·.key != k)
      edges := g.edges.filter fun e => !e.touches k } := by
  rw [← eraseP_key_eq_filter hg.keys_nodup k, edit, deleteNode?]
  cases hnode : g.node? k with
  | some n => rfl
  | none =>
      have habsent : ∀ n ∈ g.nodes, ¬ (n.key == k) = true := List.find?_eq_none.mp hnode
      have hk : k ∉ g.keys := by
        intro hk
        obtain ⟨n, hn, rfl⟩ := mem_keys.mp hk
        exact habsent n hn (beq_self_eq_true _)
      have hedges : g.edges.filter (fun e => !e.touches k) = g.edges := by
        apply List.filter_eq_self.mpr
        intro e he
        have hs : e.source ≠ k := fun h => hk (h ▸ hg.source_mem e he)
        have ht : e.target ≠ k := fun h => hk (h ▸ hg.target_mem e he)
        simp [touches_eq_false_iff.mpr ⟨hs, ht⟩]
      rw [List.eraseP_of_forall_not habsent, hedges]
      rfl

/-- Deleting an edge erases the first one with the key, if there is one. -/
theorem edit_deleteEdge (g : Graph α) (k : EdgeKey) :
    g.edit (.deleteEdge k) = { g with edges := g.edges.eraseP (·.key == k) } := by
  rw [edit, deleteEdge?]
  cases hedge : g.edge? k with
  | some e => rfl
  | none =>
      rw [List.eraseP_of_forall_not (List.find?_eq_none.mp hedge)]
      rfl

/-! ## The order of deletions -/

/-- An edit that deletes a node or an edge by its key. -/
def Edit.Deletes : Edit α → Prop
  | .deleteNode _ | .deleteEdge _ => True
  | _ => False

omit [Scalar α] in
/-- Edges with one key touch the same nodes, so it does not matter whether the first of them goes
before or after those that touch a node. -/
theorem filter_eraseP_comm (k : EdgeKey) (n : NodeKey) (es : List Edge) :
    (es.eraseP (·.key == k)).filter (fun e => !e.touches n) =
      (es.filter fun e => !e.touches n).eraseP (·.key == k) := by
  induction es with
  | nil => rfl
  | cons e es ih =>
      by_cases hk : e.key = k
      · cases htouch : e.touches n with
        | false => simp [hk, htouch]
        | true =>
            have hgone : ∀ f ∈ es.filter (fun e => !e.touches n), ¬ (f.key == k) = true := by
              intro f hf hfk
              have hsame : f.key = e.key := (beq_iff_eq.mp hfk).trans hk.symm
              have hf : f.touches n = false := by simpa using (List.mem_filter.mp hf).2
              rw [Edge.touches, hsame] at hf
              rw [Edge.touches, hf] at htouch
              contradiction
            rw [List.eraseP_cons_of_pos (by simpa using hk),
              List.filter_cons_of_neg (by simp [htouch]), List.eraseP_of_forall_not hgone]
      · cases htouch : e.touches n <;> simp [hk, htouch, ih]

/-- Of two keys it does not matter which is erased first. -/
theorem eraseP_key_comm (k l : EdgeKey) (es : List Edge) :
    (es.eraseP (·.key == k)).eraseP (·.key == l) =
      (es.eraseP (·.key == l)).eraseP (·.key == k) := by
  by_cases hkl : k = l
  · rw [hkl]
  · apply List.eraseP_comm
    intro e _
    by_cases hk : e.key = k
    · have hl : e.key ≠ l := fun hl => hkl (hk.symm.trans hl)
      simp [hl]
    · simp [hk]

/-- Two deletions can be done in either order. -/
theorem edit_comm (hg : g.Valid) {a b : Edit α} (ha : a.Deletes) (hb : b.Deletes) :
    (g.edit a).edit b = (g.edit b).edit a := by
  cases a with
  | deleteNode k =>
      cases b with
      | deleteNode l =>
          rw [edit_deleteNode (hg.edit _), edit_deleteNode (hg.edit _), edit_deleteNode hg,
            edit_deleteNode hg]
          simp only [List.filter_filter, Bool.and_comm]
      | deleteEdge l =>
          rw [edit_deleteNode (hg.edit _), edit_deleteEdge, edit_deleteNode hg, edit_deleteEdge]
          simp only [filter_eraseP_comm]
      | _ => contradiction
  | deleteEdge k =>
      cases b with
      | deleteNode l =>
          rw [edit_deleteNode (hg.edit _), edit_deleteEdge, edit_deleteNode hg, edit_deleteEdge]
          simp only [filter_eraseP_comm]
      | deleteEdge l =>
          simp only [edit_deleteEdge, eraseP_key_comm k l]
      | _ => contradiction
  | _ => contradiction

/-- Deletions lead to the same graph in every order. -/
theorem editAll_perm {es fs : List (Edit α)} (h : es.Perm fs) (hg : g.Valid)
    (hes : ∀ e ∈ es, e.Deletes) : g.editAll es = g.editAll fs := by
  induction h generalizing g with
  | nil => rfl
  | cons e _ ih => exact ih (hg.edit e) fun f hf => hes f (List.mem_cons_of_mem e hf)
  | swap a b es =>
      have ha : a.Deletes := hes a (List.mem_cons_of_mem b List.mem_cons_self)
      have hb : b.Deletes := hes b List.mem_cons_self
      simp only [editAll_cons, edit_comm hg hb ha]
  | trans hfirst _ ih₁ ih₂ =>
      exact (ih₁ hg hes).trans (ih₂ hg fun e he => hes e (hfirst.mem_iff.mpr he))

/-! ## Many deletions -/

/-- Deleting nodes one after the other leaves those with other keys, and the edges that touch none
of them. -/
theorem editAll_deleteNode (hg : g.Valid) (ks : List NodeKey) : g.editAll (ks.map .deleteNode) =
    { g with
      nodes := g.nodes.filter fun n => !decide (n.key ∈ ks)
      edges := g.edges.filter fun e => !decide (e.source ∈ ks) && !decide (e.target ∈ ks) } := by
  induction ks generalizing g with
  | nil => simp
  | cons k ks ih =>
      have hnode (n : Node α) :
          (!decide (n.key ∈ ks) && n.key != k) = !decide (n.key ∈ k :: ks) := by
        by_cases hk : n.key = k <;> simp [hk]
      have hedge (e : Edge) : (!decide (e.source ∈ ks) && !decide (e.target ∈ ks) && !e.touches k) =
          (!decide (e.source ∈ k :: ks) && !decide (e.target ∈ k :: ks)) := by
        rw [Bool.eq_iff_iff]
        simp [touches_eq_false_iff]
        tauto
      rw [List.map_cons, editAll_cons, ih (hg.edit _), edit_deleteNode hg]
      simp only [List.filter_filter, hnode, hedge]

/-- Deleting edges one after the other erases the first of each key. -/
theorem editAll_deleteEdge (g : Graph α) (ks : List EdgeKey) : g.editAll (ks.map .deleteEdge) =
    { g with edges := ks.foldl (fun es k => es.eraseP (·.key == k)) g.edges } := by
  induction ks generalizing g with
  | nil => rfl
  | cons k ks ih => rw [List.map_cons, editAll_cons, ih, edit_deleteEdge, List.foldl_cons]

/-! ## The first edge with a key -/

/-- Whether the edge at a place of a list is the first with its key. -/
def isFirst (es : List Edge) (r : Edge × Nat) : Bool :=
  es.findIdx? (·.key == r.1.key) == some r.2

/-- The edges of a list except the first with each key that is to be dropped. -/
def withoutFirsts (drops : EdgeKey → Bool) (es : List Edge) : List Edge :=
  (es.zipIdx.filter fun r => !(drops r.1.key && isFirst es r)).map Prod.fst

/-- The first edge of a list is the first with its key. -/
theorem isFirst_cons_zero (e : Edge) (es : List Edge) : isFirst (e :: es) (e, 0) = true := by
  simp [isFirst, List.findIdx?_cons]

/-- A later edge is the first with its key if it is so among the later ones and the first edge has
another key. -/
theorem isFirst_cons_succ (e f : Edge) (es : List Edge) (i : Nat) :
    isFirst (e :: es) (f, i + 1) = (f.key != e.key && isFirst es (f, i)) := by
  simp only [isFirst, List.findIdx?_cons]
  by_cases he : e.key = f.key
  · simp [he]
  · have hne : f.key ≠ e.key := Ne.symm he
    cases es.findIdx? (·.key == f.key) <;> simp [he, hne, bne]

/-- Of the edges with a key that is dropped, only the first goes. -/
theorem withoutFirsts_cons (drops : EdgeKey → Bool) (e : Edge) (es : List Edge) :
    withoutFirsts drops (e :: es) =
      (if drops e.key then [] else [e]) ++ withoutFirsts (fun k => drops k && k != e.key) es := by
  have hrest : (es.zipIdx 1).filter (fun r => !(drops r.1.key && isFirst (e :: es) r)) =
      (es.zipIdx.filter fun r => !((drops r.1.key && r.1.key != e.key) && isFirst es r)).map
        fun r => (r.1, r.2 + 1) := by
    have hshift : (fun r => !(drops r.1.key && isFirst (e :: es) r)) ∘ (fun r => (r.1, r.2 + 1)) =
        fun r : Edge × Nat => !((drops r.1.key && r.1.key != e.key) && isFirst es r) := by
      funext r
      rw [Function.comp_apply, isFirst_cons_succ, Bool.and_assoc]
    rw [List.zipIdx_succ, List.filter_map, ← hshift]
  rw [withoutFirsts, List.zipIdx_cons, List.filter_cons, hrest, isFirst_cons_zero]
  cases drops e.key <;> simp [withoutFirsts, Function.comp_def]

/-- Erasing one more key first is dropping one more key. -/
theorem withoutFirsts_eraseP {drops : EdgeKey → Bool} {k : EdgeKey} (hk : drops k = false)
    (es : List Edge) : withoutFirsts drops (es.eraseP (·.key == k)) =
      withoutFirsts (fun l => l == k || drops l) es := by
  induction es generalizing drops with
  | nil => rfl
  | cons e es ih =>
      rw [withoutFirsts_cons]
      by_cases he : e.key = k
      · have hrest : (fun l => (l == k || drops l) && l != k) = drops := by
          funext l
          by_cases hl : l = k
          · subst hl
            simp [hk]
          · simp [bne, beq_false_of_ne hl]
        rw [he, hrest]
        simp [he]
      · have hrest : (fun l => (l == k || drops l) && l != e.key) =
            fun l => l == k || (drops l && l != e.key) := by
          funext l
          by_cases hl : l = k
          · subst hl
            simp [Ne.symm he]
          · simp [beq_false_of_ne hl]
        have hdrops : (drops k && k != e.key) = false := by simp [hk]
        have hkeep := @ih (fun l => drops l && l != e.key) hdrops
        simp [he, hrest, withoutFirsts_cons, hkeep]

/-- To erase the first edge with each of several keys, one after the other, is to erase all of these
at once. -/
theorem foldl_eraseP_eq_withoutFirsts {ks : List EdgeKey} (hks : ks.Nodup) (es : List Edge) :
    ks.foldl (fun es k => es.eraseP (·.key == k)) es =
      withoutFirsts (fun k => decide (k ∈ ks)) es := by
  induction ks generalizing es with
  | nil => simp [withoutFirsts]
  | cons k ks ih =>
      obtain ⟨hk, hks⟩ := List.nodup_cons.mp hks
      rw [List.foldl_cons, ih hks, withoutFirsts_eraseP (by simpa using hk)]
      simp [List.mem_cons, beq_eq_decide, Bool.decide_or]

/-- Of the edges with a key that is dropped, one less is left, if there is any. -/
theorem countP_withoutFirsts (drops : EdgeKey → Bool) (k : EdgeKey) (es : List Edge) :
    (withoutFirsts drops es).countP (·.key == k) =
      es.countP (·.key == k) - if drops k then 1 else 0 := by
  induction es generalizing drops with
  | nil => simp [withoutFirsts]
  | cons e es ih =>
      rw [withoutFirsts_cons, List.countP_append, ih, List.countP_cons]
      by_cases hk : e.key = k
      · subst hk
        cases drops e.key <;> simp; omega
      · have hne : k ≠ e.key := Ne.symm hk
        cases drops e.key <;> simp [hk, hne]

end GraphBoard.Graph
