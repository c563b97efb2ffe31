import GraphBoard.Proofs.Graph.Run

/-!
# GraphBoard.Proofs.Graph.Undo

What it takes to undo an edit by another edit, since nothing remembers what was there before.

* `retarget_back_iff` — an edge that was led elsewhere is led back by its new key exactly if no
  edge before it had that key already, because a key names the first of parallel edges;
* `insert_then_delete` — whatever is done to a new node and to its edges, its deletion leaves the
  nodes and edges that were there before, because no edge there can touch a fresh key.
-/

namespace GraphBoard

/-- A list that goes on behind has its first match where it was. -/
theorem FirstMatch.append_right {β : Type} {p : β → Bool} {l xs ys : List β} {a : β}
    (h : FirstMatch p l xs a ys) (zs : List β) : FirstMatch p (l ++ zs) xs a (ys ++ zs) :=
  ⟨by rw [h.split, List.append_assoc, List.cons_append], h.passes, h.before⟩

namespace Graph

variable {α : Type} {g g' : Graph α}

/-! ## Leading an edge back -/

/-- On a valid board the ends of an edge can be joined. -/
theorem joinable_of_mem_edges (hg : g.Valid) {e : Edge} (he : e ∈ g.edges) :
    g.joinable e.source e.target = true :=
  joinable_iff.mpr ⟨hg.no_loop e he, hg.source_mem e he, hg.target_mem e he⟩

/-- An edge is the first with its new key if no edge before it has this key. -/
theorem firstMatch_between {xs ys : List Edge} {s t : NodeKey} (e : Edge)
    (h : ∀ f ∈ xs, f.key ≠ ⟨s, t⟩) :
    FirstMatch (·.key == ⟨s, t⟩) (xs ++ e.between s t :: ys) xs (e.between s t) ys :=
  ⟨rfl, by simp, fun f hf => by simpa using h f hf⟩

/-- Leading an edge elsewhere changes the ends of that edge and nothing else.  Its new key can then
be led back, and the edges are what they were before exactly if no edge before it had the new key
then. -/
theorem retarget_back_iff (hg : g.Valid) {k : EdgeKey} {i : Nat} {s t : NodeKey}
    (hi : g.edgeIndex? k = some i) (h : g.retargetEdge? k s t = some g') :
    ∃ e, g.edges[i]? = some e ∧ e.key = k ∧
      g' = { g with edges := g.edges.set i ⟨s, t, e.kind⟩ } ∧
      ∃ g'', g'.retargetEdge? ⟨s, t⟩ k.source k.target = some g'' ∧
        (g''.edges = g.edges ↔ ∀ f ∈ g.edges.take i, f.key ≠ ⟨s, t⟩) := by
  obtain ⟨-, xs, e, ys, hm, rfl⟩ := retargetEdge?_eq_some_iff.mp h
  obtain rfl : xs.length = i := Option.some.inj (hm.findIdx?.symm.trans hi)
  have hk : e.key = k := by simpa using hm.passes
  have hback : g.joinable k.source k.target = true := by
    rw [← hk]
    exact joinable_of_mem_edges hg hm.mem
  have htake : g.edges.take xs.length = xs := by simp [hm.split]
  refine ⟨e, by simp [hm.split], hk, by simp [hm.split, Edge.between], ?_⟩
  rw [htake]
  by_cases hnone : ∀ f ∈ xs, f.key ≠ ⟨s, t⟩
  · refine ⟨_, retargetEdge?_eq_some_iff.mpr ⟨hback, _, _, _, firstMatch_between e hnone, rfl⟩, ?_⟩
    have hself : (e.between s t).between k.source k.target = e := by rw [← hk]; rfl
    exact iff_of_true (by rw [hself, hm.split]) hnone
  · -- an edge before is led to the old ends, where none before has been
    push Not at hnone
    obtain ⟨b, hb, hkey⟩ := hnone
    obtain ⟨as, f, bs, hf⟩ :=
      exists_firstMatch (p := fun f : Edge => f.key == ⟨s, t⟩) hb (by simpa using hkey)
    refine ⟨_, retargetEdge?_eq_some_iff.mpr ⟨hback, _, _, _, hf.append_right _, rfl⟩, ?_⟩
    refine iff_of_false (fun hedges => ?_) fun hnone => hnone b hb hkey
    have hedges : as ++ f.between k.source k.target :: (bs ++ e.between s t :: ys) = g.edges :=
      hedges
    have hold : f.between k.source k.target = f := by
      rw [hm.split, hf.split, List.append_assoc, List.cons_append, List.append_cancel_left_eq,
        List.cons.injEq] at hedges
      exact hedges.1
    have hpasses : (f.key == k) = true := by rw [← hold]; simp
    rw [hm.before f hf.mem] at hpasses
    contradiction

/-- The last edge is led to where two parallel edges are; its new key names the first of them. -/
theorem retarget_back_iff_lookalike :
    let led : Graph Float := { lookalike with edges :=
      [⟨"a", "a_1", .special⟩, ⟨"a", "a_1", .empty⟩, ⟨"a", "a_1", .empty⟩] }
    let back : Graph Float := { lookalike with edges :=
      [⟨"a_1", "n1", .special⟩, ⟨"a", "a_1", .empty⟩, ⟨"a", "a_1", .empty⟩] }
    lookalike.Valid ∧ lookalike.edgeIndex? ⟨"a_1", "n1"⟩ = some 2 ∧
      lookalike.retargetEdge? ⟨"a_1", "n1"⟩ "a" "a_1" = some led ∧
      led.retargetEdge? ⟨"a", "a_1"⟩ "a_1" "n1" = some back ∧ back.edges ≠ lookalike.edges ∧
      ∃ e, lookalike.edges[2]? = some e ∧ e.key = ⟨"a_1", "n1"⟩ ∧
        led = { lookalike with edges := lookalike.edges.set 2 ⟨"a", "a_1", e.kind⟩ } ∧
        ∃ g'', led.retargetEdge? ⟨"a", "a_1"⟩ "a_1" "n1" = some g'' ∧
          (g''.edges = lookalike.edges ↔ ∀ f ∈ lookalike.edges.take 2, f.key ≠ ⟨"a", "a_1"⟩) := by
  intro led back
  have hi : lookalike.edgeIndex? ⟨"a_1", "n1"⟩ = some 2 := by decide
  have hled : lookalike.retargetEdge? ⟨"a_1", "n1"⟩ "a" "a_1" = some led := by decide +kernel
  have hback : led.retargetEdge? ⟨"a", "a_1"⟩ "a_1" "n1" = some back := by decide +kernel
  exact ⟨valid_lookalike, hi, hled, hback, by decide, retarget_back_iff valid_lookalike hi hled⟩

/-! ## Deleting a new node -/

/-- An edit that moves a node, or that asks for an edge from it or to it. -/
def Edit.Concerns (k : NodeKey) : Edit α → Prop
  | .moveNode l _ => l = k
  | .insertEdge s t _ => s = k ∨ t = k
  | _ => False

/-- The edge that an edit inserts, unless it is declined. -/
def inserted (g : Graph α) : Edit α → List Edge
  | .insertEdge s t kind => if (g.insertEdge? s t kind).isSome then [⟨s, t, kind⟩] else []
  | _ => []

/-- The edges that a run of edits inserts, in their order. -/
def insertedAll [Scalar α] (g : Graph α) : List (Edit α) → List Edge
  | [] => []
  | e :: edits => g.inserted e ++ (g.edit e).insertedAll edits

/-- A graph with a node put between others and with edges on top, all of them at that node. -/
structure Grown (g : Graph α) (k : NodeKey) (below above : List (Node α)) (added : List Edge)
    (g' : Graph α) : Prop where
  nodes_eq : ∃ n, FirstMatch (·.key == k) g'.nodes below n above
  edges_eq : g'.edges = g.edges ++ added
  touches : ∀ e ∈ added, e.touches k = true

/-- The deletion of a node gives back the nodes and edges of a graph, and returns some edges. -/
def GivesBack (g : Graph α) (k : NodeKey) (added : List Edge)
    (result : Option (Graph α × Deleted α)) : Prop :=
  ∃ after d, result = some (after, d) ∧ after.nodes = g.nodes ∧ after.edges = g.edges ∧
    d.node.key = k ∧ d.edges = added

section Grown

variable {k : NodeKey} {below above : List (Node α)} {added : List Edge}

/-- An edit that concerns the new node only adds an edge, changes the node, or does nothing. -/
theorem Grown.edit [Scalar α] (h : Grown g k below above added g') {e : Edit α}
    (he : e.Concerns k) : Grown g k below above (added ++ g'.inserted e) (g'.edit e) := by
  cases e with
  | moveNode l p =>
      obtain rfl : l = k := he
      obtain ⟨n, hm⟩ := h.nodes_eq
      have hmove : g'.edit (.moveNode l p) =
          { g' with nodes := below ++ { n with position := p } :: above } := by
        rw [Graph.edit, moveNode?_eq_some_iff.mpr ⟨below, n, above, hm, rfl⟩, Option.getD_some]
      have hnone : g'.inserted (.moveNode l p) = [] := rfl
      rw [hmove, hnone, List.append_nil]
      exact ⟨⟨{ n with position := p }, rfl, hm.passes, hm.before⟩, h.edges_eq, h.touches⟩
  | insertEdge s t kind =>
      cases hinsert : g'.insertEdge? s t kind with
      | none =>
          rw [Graph.edit, inserted, hinsert]
          simpa using h
      | some after =>
          obtain ⟨-, rfl⟩ := insertEdge?_eq_some_iff.mp hinsert
          rw [Graph.edit, inserted, hinsert, Option.getD_some, Option.isSome_some, if_pos rfl]
          refine ⟨h.nodes_eq, ?_, fun e hmem => ?_⟩
          · rw [← List.append_assoc, ← h.edges_eq]
          · cases List.mem_append.mp hmem with
            | inl hold => exact h.touches e hold
            | inr hnew =>
                rw [List.mem_singleton.mp hnew]
                exact Edge.touches_iff.mpr he
  | insertNode p kind => exact he.elim
  | insertStartNode => exact he.elim
  | deleteStartNode => exact he.elim
  | deleteNode l => exact he.elim
  | retargetEdge l s t => exact he.elim
  | deleteEdge l => exact he.elim
  | duplicate s goal => exact he.elim

/-- So it is with every list of such edits. -/
theorem Grown.editAll [Scalar α] (h : Grown g k below above added g') {edits : List (Edit α)}
    (hedits : ∀ e ∈ edits, e.Concerns k) :
    Grown g k below above (added ++ g'.insertedAll edits) (g'.editAll edits) := by
  induction edits generalizing g' added with
  | nil => simpa [insertedAll] using h
  | cons e edits ih =>
      have hfirst := h.edit (hedits e List.mem_cons_self)
      rw [insertedAll, ← List.append_assoc]
      exact ih hfirst fun f hf => hedits f (List.mem_cons_of_mem e hf)

/-- The edges of a valid graph touch none but its nodes. -/
theorem touches_eq_false_of_not_mem (hg : g.Valid) (hk : k ∉ g.keys) {e : Edge}
    (he : e ∈ g.edges) : e.touches k = false :=
  touches_eq_false_iff.mpr
    ⟨fun h => hk (h ▸ hg.source_mem e he), fun h => hk (h ▸ hg.target_mem e he)⟩

/-- Deleting the new node takes out all that was added, and gives back the edges. -/
theorem Grown.givesBack (h : Grown g k below above added g') (hg : g.Valid) (hk : k ∉ g.keys)
    (hnodes : below ++ above = g.nodes) : GivesBack g k added (g'.deleteNode? k) := by
  obtain ⟨n, hm⟩ := h.nodes_eq
  have hold : ∀ e ∈ g.edges, e.touches k = false := fun e => touches_eq_false_of_not_mem hg hk
  have hgone : g'.edges.filter (fun e => e.touches k) = added := by
    rw [h.edges_eq, List.filter_append, List.filter_eq_nil_iff.mpr fun e he => by simp [hold e he],
      List.filter_eq_self.mpr h.touches, List.nil_append]
  have hstays : g'.edges.filter (fun e => !e.touches k) = g.edges := by
    rw [h.edges_eq, List.filter_append, List.filter_eq_self.mpr fun e he => by simp [hold e he],
      List.filter_eq_nil_iff.mpr fun e he => by rw [h.touches e he]; decide, List.append_nil]
  refine ⟨{ g' with nodes := below ++ above, edges := g.edges }, ⟨n, added⟩, ?_, hnodes, rfl,
    by simpa using hm.passes, rfl⟩
  exact deleteNode?_eq_some_iff_firstMatch.mpr ⟨below, above, hm, hgone.symm, by rw [hstays]⟩

end Grown

/-- However a new node is moved and joined to others, its deletion gives back what was there before
the insertion, and returns the edges that were not declined.  A start node stays the first node
until then. -/
theorem insert_then_delete [Scalar α] (hg : g.Valid) {new : Graph α × NodeKey}
    (hnew : (∃ position kind, new = g.insertNode position kind) ∨ new = g.insertStartNode)
    {edits : List (Edit α)} (hedits : ∀ e ∈ edits, e.Concerns new.2) :
    GivesBack g new.2 (new.1.insertedAll edits) ((new.1.editAll edits).deleteNode? new.2) ∧
      (new = g.insertStartNode →
        (new.1.editAll edits).deleteStartNode? = (new.1.editAll edits).deleteNode? new.2) := by
  have hfresh := g.freshKey_not_mem_keys none
  have hgrown_start : Grown g (g.freshKey none) [] g.nodes [] g.insertStartNode.1 :=
    ⟨⟨_, rfl, by simp, by simp⟩, by simp, by simp⟩
  refine ⟨?_, ?_⟩
  · obtain ⟨position, kind, rfl⟩ | rfl := hnew
    · have hbelow : ∀ n ∈ g.nodes, (n.key == g.freshKey none) = false := fun n hn => by
        simpa using fun h => hfresh (mem_keys.mpr ⟨n, hn, h⟩)
      have hgrown : Grown g (g.freshKey none) g.nodes [] [] (g.insertNode position kind).1 :=
        ⟨⟨_, rfl, by simp, hbelow⟩, by simp, by simp⟩
      exact (hgrown.editAll hedits).givesBack hg hfresh (List.append_nil _)
    · exact (hgrown_start.editAll hedits).givesBack hg hfresh rfl
  · intro hstart
    subst hstart
    obtain ⟨n, hm⟩ := (hgrown_start.editAll hedits).nodes_eq
    have hn : n.key = g.freshKey none := by simpa using hm.passes
    rw [deleteStartNode?, hm.split, List.nil_append, List.head?_cons, Option.bind_some, hn]
    rfl

/-- A start node whose key looks like another, moved, with two parallel edges from it, one to it,
and a loop that is declined. -/
theorem insert_then_delete_lookalike :
    let new := lookalike.insertStartNode
    let edits : List (Edit Float) :=
      [.insertEdge "n2" "n1" .special, .moveNode "n2" ⟨7.0, 8.0⟩, .insertEdge "n2" "n2" .empty,
        .insertEdge "n2" "n1" .empty, .insertEdge "a" "n2" .empty]
    lookalike.Valid ∧ new.2 = "n2" ∧ (∀ e ∈ edits, e.Concerns new.2) ∧
      new.1.insertedAll edits =
        [⟨"n2", "n1", .special⟩, ⟨"n2", "n1", .empty⟩, ⟨"a", "n2", .empty⟩] ∧
      GivesBack lookalike new.2 (new.1.insertedAll edits)
        ((new.1.editAll edits).deleteNode? new.2) ∧
      (new.1.editAll edits).deleteStartNode? = (new.1.editAll edits).deleteNode? new.2 := by
  intro new edits
  have hk : new.2 = "n2" := by decide +kernel
  have hedits : ∀ e ∈ edits, e.Concerns new.2 := by
    rw [hk]
    simp [edits, Edit.Concerns]
  obtain ⟨hback, hfirst⟩ := insert_then_delete valid_lookalike (Or.inr rfl) hedits
  exact ⟨valid_lookalike, hk, hedits, by decide +kernel, hback, hfirst rfl⟩

end Graph

end GraphBoard
