import GraphBoard.Layout.Tree
import Mathlib.Data.List.Perm.Basic

/-!
# GraphBoard.Proofs.Layout.Levelwise

The queue search grows a tree level by level.  The queue always holds what is left of one level and,
behind it, what has been found of the next; so when a level is through, the next one is complete:

* `claim_append` — claiming in two goes is claiming in one;
* `search_level` — the search over the rest of a level, whatever is queued behind it;
* `search_eq_expansion` — the search from a level is its expansion, in which each level is claimed
  at once from the targets of the one before.
-/

namespace GraphBoard.Tree

variable {edges : List Edge} {ks ls waiting : List NodeKey} {v : NodeKey}

/-! ## Claiming -/

/-- A target of a node is where some edge leads from it. -/
theorem mem_targets {k : NodeKey} :
    v ∈ targets edges k ↔ ∃ e ∈ edges, e.source = k ∧ e.target = v := by
  simp [targets, and_assoc]

/-- Keys are claimed one after the other. -/
theorem claim_append (ks ls waiting : List NodeKey) :
    claim (ks ++ ls) waiting =
      ((claim ks waiting).1 ++ (claim ls (claim ks waiting).2).1,
        (claim ls (claim ks waiting).2).2) := by
  induction ks generalizing waiting with
  | nil => simp [claim]
  | cons k ks ih =>
      rw [List.cons_append, claim, claim]
      by_cases hk : k ∈ waiting
      · rw [if_pos hk, if_pos hk, ih]
        rfl
      · rw [if_neg hk, if_neg hk, ih]

/-- Claiming moves keys and keeps them. -/
theorem claim_perm (ks waiting : List NodeKey) :
    ((claim ks waiting).1 ++ (claim ks waiting).2).Perm waiting := by
  induction ks generalizing waiting with
  | nil => exact .refl _
  | cons k ks ih =>
      rw [claim]
      by_cases hk : k ∈ waiting
      · rw [if_pos hk]
        exact ((ih (waiting.erase k)).cons k).trans (List.perm_cons_erase hk).symm
      · rw [if_neg hk]
        exact ih waiting

/-- Of keys that wait once, those that are claimed come off the waiting list, each where it comes
first. -/
theorem claim_eq (h : waiting.Nodup) :
    claim ks waiting = ((ks.filter (· ∈ waiting)).eraseDups, waiting.filter (· ∉ ks)) := by
  induction ks generalizing waiting with
  | nil => simp [claim]
  | cons k ks ih =>
      rw [claim]
      by_cases hk : k ∈ waiting
      · have hfirst : (ks.filter (· ∈ waiting)).filter (fun l => !l == k) =
            ks.filter (· ∈ waiting.erase k) := by
          rw [List.filter_filter]
          refine List.filter_congr fun l _ => ?_
          simp [h.mem_erase_iff, beq_eq_decide]
        have hrest : waiting.filter (· ∉ k :: ks) = (waiting.erase k).filter (· ∉ ks) := by
          rw [h.erase_eq_filter, List.filter_filter]
          refine List.filter_congr fun l _ => ?_
          simp [Bool.and_comm, bne, beq_eq_decide]
        rw [if_pos hk, ih (h.erase k), List.filter_cons_of_pos (by simpa using hk),
          List.eraseDups_cons, hfirst, hrest]
      · have hrest : waiting.filter (· ∉ k :: ks) = waiting.filter (· ∉ ks) := by
          refine List.filter_congr fun l hl => ?_
          have hne : l ≠ k := fun he => hk (he ▸ hl)
          simp [hne]
        rw [if_neg hk, ih h, List.filter_cons_of_neg (by simpa using hk), hrest]

/-- Still waiting are the keys that are not claimed. -/
theorem mem_claim_snd (h : waiting.Nodup) :
    v ∈ (claim ks waiting).2 ↔ v ∈ waiting ∧ v ∉ ks := by
  simp [claim_eq h]

/-- Claimed are those of the keys that wait. -/
theorem mem_claim_fst (h : waiting.Nodup) :
    v ∈ (claim ks waiting).1 ↔ v ∈ waiting ∧ v ∈ ks := by
  simp [claim_eq h, and_comm]

/-! ## Level by level -/

/-- The search takes the nodes of a level off the queue one by one, and what they lead to comes
behind what is already there of the next level. -/
theorem search_level (edges : List Edge) (level next waiting : List NodeKey) (d : Nat) :
    search edges waiting (level.map (·, d) ++ next.map (·, d + 1)) =
      let found := claim (level.flatMap (targets edges)) waiting
      let later := search edges found.2 ((next ++ found.1).map (·, d + 1))
      (level.map (·, d) ++ later.1, later.2) := by
  induction level generalizing next waiting with
  | nil => simp [claim]
  | cons k level ih =>
      rw [List.map_cons, List.cons_append, search, List.append_assoc, ← List.map_append, ih,
        List.flatMap_cons, claim_append]
      simp

/-- The levels of a tree from a given one on, and the keys that are left waiting: each level holds
the targets of the one before that wait, in order. -/
def expansion (edges : List Edge) :
    (level waiting : List NodeKey) → List (List NodeKey) × List NodeKey
  | [], waiting => ([], waiting)
  | k :: ks, waiting =>
    let found := claim ((k :: ks).flatMap (targets edges)) waiting
    let later := expansion edges found.1 found.2
    ((k :: ks) :: later.1, later.2)
termination_by level waiting => level.length + waiting.length
decreasing_by
  have := length_claim ((k :: ks).flatMap (targets edges)) waiting
  simp only [List.length_cons]
  omega

/-- The nodes of several levels with their depths, of which the first is `d`. -/
def withDepth (d : Nat) : List (List NodeKey) → List (NodeKey × Nat)
  | [] => []
  | level :: levels => level.map (·, d) ++ withDepth (d + 1) levels

/-- The queue holds one level after the other, so the search goes level by level. -/
theorem search_eq_expansion (edges : List Edge) (level waiting : List NodeKey) (d : Nat) :
    search edges waiting (level.map (·, d)) =
      (withDepth d (expansion edges level waiting).1, (expansion edges level waiting).2) := by
  induction level, waiting using expansion.induct edges generalizing d with
  | case1 waiting => simp [search, expansion, withDepth]
  | case2 k ks waiting found ih =>
      have hlevel : search edges waiting ((k :: ks).map (·, d)) =
          ((k :: ks).map (·, d) ++ (search edges found.2 (found.1.map (·, d + 1))).1,
            (search edges found.2 (found.1.map (·, d + 1))).2) := by
        have h := search_level edges (k :: ks) [] waiting d
        rw [List.map_nil, List.append_nil] at h
        exact h
      rw [hlevel, ih (d + 1), expansion, withDepth]

/-- A node is on the first level with its depth, or on a later one. -/
theorem mem_withDepth_cons {d i : Nat} {level : List NodeKey} {levels : List (List NodeKey)} :
    (v, i) ∈ withDepth d (level :: levels) ↔
      v ∈ level ∧ i = d ∨ (v, i) ∈ withDepth (d + 1) levels := by
  simp [withDepth, eq_comm]

/-- The levels hold the same nodes with their depths. -/
theorem map_fst_withDepth (d : Nat) (levels : List (List NodeKey)) :
    (withDepth d levels).map Prod.fst = levels.flatten := by
  induction levels generalizing d with
  | nil => rfl
  | cons level levels ih => simp [withDepth, ih, Function.comp_def]

/-- The expansion of a level places what it does not leave waiting. -/
theorem expansion_perm (edges : List Edge) (level waiting : List NodeKey) :
    ((expansion edges level waiting).1.flatten ++ (expansion edges level waiting).2).Perm
      (level ++ waiting) := by
  induction level, waiting using expansion.induct edges with
  | case1 waiting => simp [expansion]
  | case2 k ks waiting found ih =>
      have hclaim : (found.1 ++ found.2).Perm waiting := claim_perm _ waiting
      rw [expansion, List.flatten_cons, List.append_assoc]
      exact (ih.trans hclaim).append_left (k :: ks)

end GraphBoard.Tree
