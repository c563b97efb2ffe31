import GraphBoard.Graph.Edit

/-!
# GraphBoard.Proofs.Graph.Edit

What each edit does to the lists of a graph.  Items are found from the front, so an edit of a
present item splits a list at its first match; `FirstMatch` is that split, and each
`…_eq_some_iff` says when an edit is carried out and which lists it leaves.
-/

namespace GraphBoard

/-! ## The first match in a list -/

/-- The list is `xs ++ a :: ys`, and `a` is the first of its elements that passes the test. -/
structure FirstMatch {β : Type} (p : β → Bool) (l xs : List β) (a : β) (ys : List β) : Prop where
  split : l = xs ++ a :: ys
  passes : p a = true
  before : ∀ b ∈ xs, p b = false

section FirstMatch

variable {β : Type} {p : β → Bool} {l xs ys : List β} {a : β}

/-- What a search finds is the first match. -/
theorem find?_eq_some_iff_firstMatch :
    l.find? p = some a ↔ ∃ xs ys, FirstMatch p l xs a ys := by
  rw [List.find?_eq_some_iff_append]
  constructor
  · intro h
    obtain ⟨hp, xs, ys, hl, hb⟩ := h
    exact ⟨xs, ys, hl, hp, fun b hbx => by simpa using hb b hbx⟩
  · intro h
    obtain ⟨xs, ys, hl, hp, hb⟩ := h
    exact ⟨hp, xs, ys, hl, fun b hbx => by simp [hb b hbx]⟩

/-- If something in a list matches, there is a first that does. -/
theorem exists_firstMatch (ha : a ∈ l) (hp : p a = true) : ∃ xs b ys, FirstMatch p l xs b ys := by
  obtain ⟨b, hb⟩ := Option.isSome_iff_exists.mp (List.find?_isSome.mpr ⟨a, ha, hp⟩)
  obtain ⟨xs, ys, hm⟩ := find?_eq_some_iff_firstMatch.mp hb
  exact ⟨xs, b, ys, hm⟩

/-- The first match is in the list. -/
theorem FirstMatch.mem (h : FirstMatch p l xs a ys) : a ∈ l := by
  rw [h.split]
  exact List.mem_append_right xs List.mem_cons_self

/-- With the first match replaced, the rest of the list is as it was. -/
theorem FirstMatch.mem_of_mem_replaced (h : FirstMatch p l xs a ys) {b c : β}
    (hc : c ∈ xs ++ b :: ys) : c ∈ l ∨ c = b := by
  rw [h.split]
  simp only [List.mem_append, List.mem_cons] at hc ⊢
  obtain hx | hb | hy := hc
  · exact Or.inl (Or.inl hx)
  · exact Or.inr hb
  · exact Or.inl (Or.inr (Or.inr hy))

/-- Nothing is lost by replacing the first match but the match. -/
theorem FirstMatch.mem_replaced_of_mem (h : FirstMatch p l xs a ys) (b : β) {c : β} (hc : c ∈ l) :
    c ∈ xs ++ b :: ys ∨ c = a := by
  rw [h.split] at hc
  simp only [List.mem_append, List.mem_cons] at hc ⊢
  obtain hx | ha | hy := hc
  · exact Or.inl (Or.inl hx)
  · exact Or.inr ha
  · exact Or.inl (Or.inr (Or.inr hy))

/-- Erasing takes out the first match. -/
theorem FirstMatch.eraseP (h : FirstMatch p l xs a ys) : l.eraseP p = xs ++ ys := by
  have hb : ∀ b ∈ xs, ¬ p b = true := fun b hb => by rw [h.before b hb]; exact Bool.false_ne_true
  rw [h.split, List.eraseP_append_right _ hb, List.eraseP_cons_of_pos h.passes]

/-- The place of the first match is how much stands before it. -/
theorem FirstMatch.findIdx? (h : FirstMatch p l xs a ys) : l.findIdx? p = some xs.length := by
  obtain ⟨hl, hp, hb⟩ := h
  subst hl
  induction xs with
  | nil => simp [List.findIdx?_cons, hp]
  | cons x xs ih =>
      rw [List.cons_append, List.findIdx?_cons, hb x List.mem_cons_self,
        ih fun b hbx => hb b (List.mem_cons_of_mem x hbx)]
      simp

/-- Modifying at this place changes the first match. -/
theorem FirstMatch.modify (h : FirstMatch p l xs a ys) (f : β → β) :
    l.modify xs.length f = xs ++ f a :: ys := by
  rw [h.split, List.modify_eq_take_cons_drop (by simp)]
  simp

/-- Changing the element at the index of the first match changes the first match. -/
theorem map_modify_findIdx?_eq_some_iff {γ : Type} {f : β → β} (mk : List β → γ) {c : γ} :
    (l.findIdx? p).map (fun i => mk (l.modify i f)) = some c ↔
      ∃ xs a ys, FirstMatch p l xs a ys ∧ c = mk (xs ++ f a :: ys) := by
  constructor
  · intro h
    obtain ⟨i, hi, rfl⟩ := Option.map_eq_some_iff.mp h
    have hany : ∃ b ∈ l, p b = true := by
      have hs : (l.findIdx? p).isSome := by rw [hi]; rfl
      simpa using hs
    obtain ⟨b, hb, hp⟩ := hany
    obtain ⟨xs, a, ys, hm⟩ := exists_firstMatch hb hp
    have he : xs.length = i := Option.some.inj (hm.findIdx?.symm.trans hi)
    exact ⟨xs, a, ys, hm, by rw [← he, hm.modify]⟩
  · intro h
    obtain ⟨xs, a, ys, hm, rfl⟩ := h
    rw [hm.findIdx?, Option.map_some, hm.modify]

end FirstMatch

@[simp] theorem Edge.source_key (e : Edge) : e.key.source = e.source := rfl

@[simp] theorem Edge.target_key (e : Edge) : e.key.target = e.target := rfl

namespace Graph

variable {α : Type} {g g' : Graph α}

/-! ## Nodes -/

/-- Moving changes the position of the first node with the key, and nothing else. -/
theorem moveNode?_eq_some_iff {k : NodeKey} {p : Point α} :
    g.moveNode? k p = some g' ↔ ∃ xs n ys, FirstMatch (·.key == k) g.nodes xs n ys ∧
      g' = { g with nodes := xs ++ { n with position := p } :: ys } := by
  rw [moveNode?, nodeIndex?]
  exact map_modify_findIdx?_eq_some_iff fun ns => { g with nodes := ns }

/-- Deleting takes out the first node with the key, and all edges that touch it. -/
theorem deleteNode?_eq_some_iff_firstMatch {k : NodeKey} {d : Deleted α} :
    g.deleteNode? k = some (g', d) ↔ ∃ xs ys, FirstMatch (·.key == k) g.nodes xs d.node ys ∧
      d.edges = g.edges.filter (fun e => e.touches k) ∧
      g' = { g with nodes := xs ++ ys, edges := g.edges.filter fun e => !e.touches k } := by
  rw [deleteNode?_eq_some_iff, node?, find?_eq_some_iff_firstMatch]
  constructor
  · intro h
    obtain ⟨⟨xs, ys, hm⟩, hd, rfl⟩ := h
    exact ⟨xs, ys, hm, hd, by rw [hm.eraseP]⟩
  · intro h
    obtain ⟨xs, ys, hm, hd, rfl⟩ := h
    exact ⟨⟨xs, ys, hm⟩, hd, by rw [hm.eraseP]⟩

/-- Deleting the start node is deleting a node that is there. -/
theorem deleteStartNode?_eq_some {d : Deleted α} (h : g.deleteStartNode? = some (g', d)) :
    ∃ n ∈ g.nodes, g.deleteNode? n.key = some (g', d) := by
  obtain ⟨n, hn, hd⟩ := Option.bind_eq_some_iff.mp h
  exact ⟨n, List.mem_of_head? hn, hd⟩

/-! ## Edges -/

/-- Giving an edge other ends changes the first edge with the key, if the new ends can be joined. -/
theorem retargetEdge?_eq_some_iff {k : EdgeKey} {s t : NodeKey} :
    g.retargetEdge? k s t = some g' ↔ g.joinable s t = true ∧
      ∃ xs e ys, FirstMatch (·.key == k) g.edges xs e ys ∧
        g' = { g with edges := xs ++ e.between s t :: ys } := by
  rw [retargetEdge?]
  by_cases hj : g.joinable s t = true
  · rw [if_pos hj, and_iff_right hj]
    exact map_modify_findIdx?_eq_some_iff fun es => { g with edges := es }
  · rw [if_neg hj]
    exact ⟨nofun, fun h => absurd h.1 hj⟩

/-- Deleting takes out the first edge with the key. -/
theorem deleteEdge?_eq_some_iff_firstMatch {k : EdgeKey} {e : Edge} :
    g.deleteEdge? k = some (g', e) ↔ ∃ xs ys, FirstMatch (·.key == k) g.edges xs e ys ∧
      g' = { g with edges := xs ++ ys } := by
  rw [deleteEdge?_eq_some_iff, edge?, find?_eq_some_iff_firstMatch]
  constructor
  · intro h
    obtain ⟨⟨xs, ys, hm⟩, rfl⟩ := h
    exact ⟨xs, ys, hm, by rw [hm.eraseP]⟩
  · intro h
    obtain ⟨xs, ys, hm, rfl⟩ := h
    exact ⟨⟨xs, ys, hm⟩, by rw [hm.eraseP]⟩

end Graph

end GraphBoard
