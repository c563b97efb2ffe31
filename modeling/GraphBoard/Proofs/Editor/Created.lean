import GraphBoard.Proofs.Editor.Single
import GraphBoard.Proofs.Roll

/-!
# GraphBoard.Proofs.Editor.Created

The nodes that an editor creates, and what kinds they are.  The kinds follow one fixed sequence, and
only the creation of a node goes on in it.

* `created_perform` — what else is done to the editor leaves the place in the sequence alone;
* `map_kind_creations` — so the kinds of the nodes created in a run are a stretch of the sequence;
* `count_createdKind_turn` — of every stretch as long as there are numbers to be rolled, a quarter
  is special;
* `creations_quarter_special` — and therefore a quarter of that many nodes, one created after the
  other, whatever is done in between.
-/

namespace GraphBoard.Editor

variable {α : Type}

/-! ## The sequence of kinds -/

/-- A new node is special exactly if the roll is in the lowest quarter. -/
theorem createdKind_eq_special_iff (created : Nat) :
    createdKind created = .special ↔ roll created < 58320 := by
  have hquarter : 4 * roll created < rollRange ↔ roll created < 58320 := by
    rw [rollRange]
    omega
  rw [createdKind, ← hquarter]
  split <;> simp_all

/-- A new node is special or empty. -/
theorem count_createdKind (seeds : List Nat) :
    (seeds.map createdKind).count .special + (seeds.map createdKind).count .empty =
      seeds.length := by
  induction seeds with
  | nil => rfl
  | cons seed seeds ih =>
      rw [List.map_cons, List.count_cons, List.count_cons, List.length_cons, ← ih, createdKind]
      split
      · simp
        omega
      · simp
        omega

/-- A quarter of the kinds in a full turn is special, and the others are empty. -/
theorem count_createdKind_turn (created : Nat) :
    ((List.range' created rollRange).map createdKind).count .special = 58320 ∧
      ((List.range' created rollRange).map createdKind).count .empty = 174960 := by
  have hspecial : ((List.range' created rollRange).map createdKind).count .special = 58320 := by
    rw [List.count_eq_countP, List.countP_map]
    refine (List.countP_congr fun seed _ => ?_).trans
      (countP_roll_lt created (show 58320 ≤ rollRange by decide))
    rw [Function.comp_apply, beq_iff_eq, createdKind_eq_special_iff, decide_eq_true_iff]
  have hall := count_createdKind (List.range' created rollRange)
  rw [hspecial, List.length_range'] at hall
  have hrange : rollRange = 58320 + 174960 := rfl
  exact ⟨hspecial, by omega⟩

/-! ## Runs -/

/-- What stands together in the image of a row of numbers is the image of such a row. -/
theorem exists_of_infix_map_range' {β : Type} {f : Nat → β} {start n : Nat} {xs : List β}
    (h : xs <:+: (List.range' start n).map f) :
    ∃ first, xs = (List.range' first xs.length).map f := by
  obtain ⟨before, after, hsplit⟩ := h
  obtain ⟨front, back, hnumbers, hfront, -⟩ := List.map_eq_append_iff.mp hsplit.symm
  obtain ⟨left, right, hleft, -, rfl⟩ := List.map_eq_append_iff.mp hfront
  obtain ⟨k, -, hk, -⟩ := List.range'_eq_append_iff.mp hnumbers
  obtain ⟨j, -, -, hright⟩ := List.range'_eq_append_iff.mp (hk.symm.trans hleft)
  refine ⟨start + j * 1, ?_⟩
  rw [hright, List.length_map, List.length_range']

/-- Whether an action is the creation of a node. -/
def Action.creates : Action α → Bool
  | .event (.createNode _) => true
  | _ => false

variable [Scalar α]

/-- Only the creation of a node goes on in the sequence. -/
theorem created_perform (s : Editor α) (a : Action α) :
    (s.perform a).1.created = s.created + a.creates.toNat := by
  cases a with
  | event e =>
      cases e with
      | createNode p => rfl
      | _ =>
          simp only [perform, apply, deleteSelected, retaining]
          repeat' split
          all_goals rfl
  | replaceGraph g => rfl
  | addStartNode => rfl
  | deleteStartNode =>
      rw [perform, deleteStartNode]
      cases s.graph.deleteStartNode? <;> rfl

/-- The nodes that an action creates: what is new at the end of the board's nodes. -/
def creation (s : Editor α) (a : Action α) : List (Node α) :=
  if a.creates then (s.perform a).1.graph.nodes.drop s.graph.nodes.length else []

/-- The nodes that a run creates, one after the other. -/
def creations (s : Editor α) : List (Action α) → List (Node α)
  | [] => []
  | a :: actions => s.creation a ++ (s.perform a).1.creations actions

/-- An action that creates makes one node, of the type that the roll says; another makes none. -/
theorem map_kind_creation (s : Editor α) (a : Action α) :
    (s.creation a).map Node.kind = if a.creates then [createdKind s.created] else [] := by
  by_cases hcreates : a.creates = true
  · rw [creation, if_pos hcreates, if_pos hcreates]
    match a, hcreates with
    | .event (.createNode p), _ =>
        have hnodes : (s.perform (.event (.createNode p))).1.graph.nodes =
            s.graph.nodes ++ [⟨s.graph.freshKey none, "", createdKind s.created, none, p⟩] := rfl
        rw [hnodes, List.drop_left, List.map_singleton]
  · rw [creation, if_neg hcreates, if_neg hcreates, List.map_nil]

/-- The kinds of the nodes that a run creates are a stretch of the sequence. -/
theorem map_kind_creations (s : Editor α) (actions : List (Action α)) :
    (s.creations actions).map Node.kind =
      (List.range' s.created (actions.countP Action.creates)).map createdKind := by
  induction actions generalizing s with
  | nil => rfl
  | cons a actions ih =>
      rw [creations, List.map_append, ih, map_kind_creation, created_perform, List.countP_cons]
      cases a.creates with
      | false => rfl
      | true => rw [if_pos rfl, if_pos rfl, List.range'_succ, List.map_cons, Bool.toNat_true]; rfl

/-- A run creates as many nodes as it has actions that create. -/
theorem length_creations (s : Editor α) (actions : List (Action α)) :
    (s.creations actions).length = actions.countP Action.creates := by
  have hlength := congrArg List.length (map_kind_creations s actions)
  rwa [List.length_map, List.length_map, List.length_range'] at hlength

/-- A run creates a node for each creation in it.  The kinds of the nodes are those that are created
when all else is left out of the run, and of the nodes of a full turn a quarter is special and the
others are empty. -/
theorem creations_quarter_special (s : Editor α) (actions : List (Action α)) :
    (s.creations actions).length = actions.countP Action.creates ∧
      (s.creations actions).map Node.kind =
        (s.creations (actions.filter Action.creates)).map Node.kind ∧
      ∀ turn, turn <:+: s.creations actions → turn.length = 233280 →
        turn.countP (·.kind = .special) = 58320 ∧ turn.countP (·.kind = .empty) = 174960 := by
  refine ⟨length_creations s actions, ?_, ?_⟩
  · rw [map_kind_creations, map_kind_creations, List.countP_filter]
    simp
  · intro turn hturn hlength
    have hkinds : turn.map Node.kind <:+: (s.creations actions).map Node.kind := hturn.map Node.kind
    rw [map_kind_creations] at hkinds
    obtain ⟨first, hfirst⟩ := exists_of_infix_map_range' hkinds
    rw [List.length_map, hlength] at hfirst
    have hcount := count_createdKind_turn first
    rw [rollRange, ← hfirst, List.count_eq_countP, List.count_eq_countP, List.countP_map,
      List.countP_map] at hcount
    exact hcount

/-- As many nodes are created as make a full turn, each of them between two start nodes, on a board
where the sequence has begun before. -/
theorem creations_quarter_special_alternating :
    let s : Editor Float := { Editor.start .lookalike true with created := 7 }
    let actions : List (Action Float) :=
      .addStartNode ::
        (List.replicate 233280 [.event (.createNode ⟨0.0, 0.0⟩), .addStartNode]).flatten
    let turn := s.creations actions
    turn <:+: s.creations actions ∧ turn.length = 233280 ∧
      turn.countP (·.kind = .special) = 58320 ∧ turn.countP (·.kind = .empty) = 174960 := by
  intro s actions turn
  have hlength : turn.length = 233280 := by
    rw [length_creations, List.countP_cons_of_neg (by simp [Action.creates]), List.countP_flatten,
      List.map_replicate, List.sum_replicate_nat]
    rfl
  exact ⟨List.infix_rfl, hlength,
    (creations_quarter_special s actions).2.2 turn List.infix_rfl hlength⟩

end GraphBoard.Editor
