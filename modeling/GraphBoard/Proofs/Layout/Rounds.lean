import GraphBoard.Layout.Tree

/-!
# GraphBoard.Proofs.Layout.Rounds

The growing of the tree as two loops, one over the queue inside one over the starts, taken round by
round.  A round places the first node of the queue; when the queue is empty it looks at the next
start instead.

* `Progress.of_advance` — a round brings the end nearer by one and does not change what is placed in
  the end;
* `Progress.ends` — so the loops end, and what they have placed is what `grow` answers.
-/

namespace GraphBoard.Tree

/-- The state of the loops between two rounds. -/
structure Progress where
  starts : List NodeKey
  waiting : List NodeKey
  queue : List (NodeKey × Nat)
  placed : List (NodeKey × Nat)

namespace Progress

variable {edges : List Edge} {p q : Progress}

/-- The state after a round, if there is anything left to do. -/
def advance? (edges : List Edge) (p : Progress) : Option Progress :=
  match p.queue, p.starts with
  | (k, depth) :: queue, _ =>
    let found := claim (targets edges k) p.waiting
    some { p with
      waiting := found.2
      queue := queue ++ found.1.map (·, depth + 1)
      placed := p.placed ++ [(k, depth)] }
  | [], s :: starts =>
    if s ∈ p.waiting then some { p with starts, waiting := p.waiting.erase s, queue := [(s, 0)] }
    else some { p with starts }
  | [], [] => none

/-- The state after a number of rounds, if there are so many. -/
def after? (edges : List Edge) : Nat → Progress → Option Progress
  | 0, p => some p
  | n + 1, p => (p.advance? edges).bind (after? edges n)

/-- The rounds that can still come. -/
def left (p : Progress) : Nat := p.starts.length + p.waiting.length + p.queue.length

/-- What will have been placed in the end. -/
def outcome (edges : List Edge) (p : Progress) : List (NodeKey × Nat) :=
  let tree := search edges p.waiting p.queue
  p.placed ++ tree.1 ++ grow edges p.starts tree.2

/-- A round brings the loops nearer to their end, and does not change what they come to. -/
theorem of_advance (h : p.advance? edges = some q) :
    q.left + 1 = p.left ∧ q.outcome edges = p.outcome edges := by
  obtain ⟨starts, waiting, queue, placed⟩ := p
  rw [advance?] at h
  cases queue with
  | cons entry queue =>
      obtain ⟨k, depth⟩ := entry
      obtain rfl := Option.some.inj h
      have hlen := length_claim (targets edges k) waiting
      refine ⟨?_, ?_⟩
      · simp only [left, List.length_append, List.length_map, List.length_cons]
        omega
      · simp [outcome, search]
  | nil =>
      cases starts with
      | nil => contradiction
      | cons s starts =>
          simp only [] at h
          by_cases hs : s ∈ waiting
          · rw [if_pos hs] at h
            obtain rfl := Option.some.inj h
            have hlen := List.length_erase_of_mem hs
            have hpos := List.length_pos_of_mem hs
            refine ⟨?_, ?_⟩
            · simp only [left, List.length_cons, List.length_nil]
              omega
            · simp [outcome, search, grow, hs]
          · rw [if_neg hs] at h
            obtain rfl := Option.some.inj h
            refine ⟨?_, ?_⟩
            · simp only [left, List.length_cons, List.length_nil]
              omega
            · simp [outcome, search, grow, hs]

/-- When no round is left, everything is placed. -/
theorem placed_of_advance_eq_none (h : p.advance? edges = none) : p.placed = p.outcome edges := by
  obtain ⟨starts, waiting, queue, placed⟩ := p
  rw [advance?] at h
  cases queue with
  | cons entry queue => contradiction
  | nil =>
      cases starts with
      | cons s starts =>
          simp only [] at h
          split at h <;> contradiction
      | nil => simp [outcome, search, grow]

/-- From every state the loops end, and not later than `left` says. -/
theorem ends (edges : List Edge) (p : Progress) : ∃ n ≤ p.left, ∃ q, after? edges n p = some q ∧
    q.advance? edges = none ∧ q.placed = p.outcome edges := by
  induction hleft : p.left generalizing p with
  | zero =>
      cases h : p.advance? edges with
      | none => exact ⟨0, Nat.le_refl 0, p, rfl, h, placed_of_advance_eq_none h⟩
      | some q =>
          have hround := (of_advance h).1
          omega
  | succ m ih =>
      cases h : p.advance? edges with
      | none => exact ⟨0, Nat.zero_le _, p, rfl, h, placed_of_advance_eq_none h⟩
      | some q =>
          obtain ⟨hround, houtcome⟩ := of_advance h
          obtain ⟨n, hn, r, hafter, hend, hplaced⟩ := ih q (by omega)
          refine ⟨n + 1, by omega, r, ?_, hend, hplaced.trans houtcome⟩
          rw [after?, h, Option.bind_some, hafter]

/-- The state before the first round. -/
def start {α : Type} (g : Graph α) : Progress := ⟨Tree.starts g, g.keys, [], []⟩

/-- The loops come to what the search places. -/
theorem outcome_start {α : Type} (g : Graph α) : (start g).outcome g.edges = Tree.placed g := by
  simp [outcome, start, search, Tree.placed]

/-- There are at most three rounds for each node. -/
theorem left_start_le {α : Type} (g : Graph α) : (start g).left ≤ 3 * g.nodes.length := by
  have hroots := List.length_filter_le (fun k => !g.edges.any (·.target == k)) g.keys
  have hkeys : g.keys.length = g.nodes.length := List.length_map _
  simp only [left, start, Tree.starts, List.length_append, List.length_nil]
  omega

end Progress

end GraphBoard.Tree
