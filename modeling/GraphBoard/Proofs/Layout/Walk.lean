import GraphBoard.Layout.Tree
import Mathlib.Order.Lattice.Nat

/-!
# GraphBoard.Proofs.Layout.Walk

Walks along the edges of a graph, and how far apart they make two nodes.  These are the notions
that the levels of the vertical tree are compared with, so nothing in them speaks of a search:

* `Walk`, `Reaches`, `IsDistance` — a walk of so many edges, any walk, and the shortest one;
* `IsDistance.exists_of_le` — a shortest walk passes through every smaller distance;
* `FirstStart` — the first of several starts from which a node is reached.
-/

namespace GraphBoard.Tree

variable {edges : List Edge} {s t u v : NodeKey} {m n d : Nat}

/-! ## Walks -/

/-- A walk of so many edges from `s`. -/
inductive Walk (edges : List Edge) (s : NodeKey) : Nat → NodeKey → Prop where
  | here : Walk edges s 0 s
  | along {n : Nat} {e : Edge} (h : Walk edges s n e.source) (he : e ∈ edges) :
    Walk edges s (n + 1) e.target

/-- Some walk leads from `s` to `v`. -/
def Reaches (edges : List Edge) (s v : NodeKey) : Prop := ∃ n, Walk edges s n v

/-- A walk of no edges stays where it is. -/
theorem walk_zero_iff : Walk edges s 0 v ↔ v = s := by
  constructor
  · intro h
    cases h
    rfl
  · intro h
    rw [h]
    exact .here

/-- A walk takes its last edge behind a shorter walk. -/
theorem walk_succ_iff :
    Walk edges s (n + 1) v ↔ ∃ e ∈ edges, e.target = v ∧ Walk edges s n e.source := by
  constructor
  · intro h
    cases h with
    | along h he => exact ⟨_, he, rfl, h⟩
  · intro h
    obtain ⟨e, he, rfl, h⟩ := h
    exact .along h he

/-- Two walks in turn are a walk. -/
theorem Walk.trans (h : Walk edges s m u) (h' : Walk edges u n v) : Walk edges s (m + n) v := by
  induction h' with
  | here => exact h
  | along _ he ih => exact .along ih he

theorem Reaches.refl (edges : List Edge) (s : NodeKey) : Reaches edges s s := ⟨0, .here⟩

theorem Reaches.trans (h : Reaches edges s u) (h' : Reaches edges u v) : Reaches edges s v := by
  obtain ⟨m, hm⟩ := h
  obtain ⟨n, hn⟩ := h'
  exact ⟨m + n, hm.trans hn⟩

/-- Where an edge leads from a node that is reached, is reached. -/
theorem reaches_target {e : Edge} (h : Reaches edges s e.source) (he : e ∈ edges) :
    Reaches edges s e.target := by
  obtain ⟨n, hn⟩ := h
  exact ⟨n + 1, .along hn he⟩

/-- No edge leads into the keys from elsewhere. -/
def Enclosed (edges : List Edge) (keys : List NodeKey) : Prop :=
  ∀ e ∈ edges, e.target ∈ keys → e.source ∈ keys

/-- A walk that ends in an enclosed list of keys begins in it. -/
theorem Enclosed.mem_of_reaches {keys : List NodeKey} (hk : Enclosed edges keys)
    (h : Reaches edges s v) (hv : v ∈ keys) : s ∈ keys := by
  obtain ⟨n, h⟩ := h
  induction h with
  | here => exact hv
  | along _ he ih => exact ih (hk _ he hv)

/-! ## Distances -/

/-- The shortest walk from `s` to `v` has `d` edges. -/
structure IsDistance (edges : List Edge) (s v : NodeKey) (d : Nat) : Prop where
  walk : Walk edges s d v
  le_of_walk : ∀ n, Walk edges s n v → d ≤ n

/-- A node at a distance is reached. -/
theorem IsDistance.reaches (h : IsDistance edges s v d) : Reaches edges s v := ⟨d, h.walk⟩

theorem IsDistance.unique (hm : IsDistance edges s v m) (hn : IsDistance edges s v n) : m = n :=
  Nat.le_antisymm (hm.le_of_walk n hn.walk) (hn.le_of_walk m hm.walk)

/-- Only the node itself is at distance zero. -/
theorem isDistance_zero_iff : IsDistance edges s v 0 ↔ v = s := by
  constructor
  · intro h
    exact walk_zero_iff.mp h.walk
  · intro h
    exact ⟨walk_zero_iff.mpr h, fun n _ => Nat.zero_le n⟩

/-- A node that is reached is at some distance. -/
theorem Reaches.exists_isDistance (h : Reaches edges s v) : ∃ d, IsDistance edges s v d :=
  ⟨sInf { n | Walk edges s n v }, Nat.sInf_mem h, fun _ hn => Nat.sInf_le hn⟩

/-- A shortest walk that is cut before its last edge is a shortest walk. -/
theorem IsDistance.exists_pred (h : IsDistance edges s v (d + 1)) :
    ∃ e ∈ edges, e.target = v ∧ IsDistance edges s e.source d := by
  obtain ⟨e, he, rfl, hw⟩ := walk_succ_iff.mp h.walk
  refine ⟨e, he, rfl, hw, fun n hn => ?_⟩
  have hle := h.le_of_walk (n + 1) (.along hn he)
  omega

/-- On the way to a node there is one at every lesser distance. -/
theorem IsDistance.exists_of_le (h : IsDistance edges s v (d + n)) :
    ∃ u, IsDistance edges s u d ∧ Walk edges u n v := by
  induction n generalizing v with
  | zero => exact ⟨v, h, .here⟩
  | succ n ih =>
      obtain ⟨e, he, rfl, hpred⟩ := h.exists_pred
      obtain ⟨u, hu, hw⟩ := ih hpred
      exact ⟨u, hu, .along hw he⟩

/-! ## The first of several starts -/

/-- The first of the starts from which `v` is reached is `s`. -/
def FirstStart (edges : List Edge) (starts : List NodeKey) (v s : NodeKey) : Prop :=
  ∃ before after, starts = before ++ s :: after ∧ Reaches edges s v ∧
    ∀ t ∈ before, ¬ Reaches edges t v

/-- The first start reaches the node. -/
theorem FirstStart.reaches {starts : List NodeKey} (h : FirstStart edges starts v s) :
    Reaches edges s v := by
  obtain ⟨-, -, -, h, -⟩ := h
  exact h

/-- Without starts there is no first. -/
theorem not_firstStart_nil : ¬ FirstStart edges [] v s := by
  intro h
  obtain ⟨before, after, hsplit, -⟩ := h
  simp at hsplit

/-- The first start is the one at the head if that reaches the node, and else that of the others. -/
theorem firstStart_cons {starts : List NodeKey} : FirstStart edges (t :: starts) v s ↔
    Reaches edges t v ∧ s = t ∨ ¬ Reaches edges t v ∧ FirstStart edges starts v s := by
  constructor
  · intro h
    obtain ⟨before, after, hsplit, hs, hbefore⟩ := h
    cases before with
    | nil =>
        obtain ⟨rfl, -⟩ := List.cons.inj hsplit
        exact Or.inl ⟨hs, rfl⟩
    | cons b before =>
        obtain ⟨rfl, htail⟩ := List.cons.inj hsplit
        have hrest : ∀ r ∈ before, ¬ Reaches edges r v := fun r hr =>
          hbefore r (List.mem_cons_of_mem t hr)
        exact Or.inr ⟨hbefore t List.mem_cons_self, before, after, htail, hs, hrest⟩
  · intro h
    cases h with
    | inl h =>
        obtain ⟨ht, rfl⟩ := h
        exact ⟨[], starts, rfl, ht, nofun⟩
    | inr h =>
        obtain ⟨ht, before, after, rfl, hs, hbefore⟩ := h
        refine ⟨t :: before, after, rfl, hs, fun r hr => ?_⟩
        cases List.mem_cons.mp hr with
        | inl he => rw [he]; exact ht
        | inr hr => exact hbefore r hr

theorem FirstStart.unique {starts : List NodeKey} (hs : FirstStart edges starts v s)
    (ht : FirstStart edges starts v t) : s = t := by
  induction starts with
  | nil => exact absurd hs not_firstStart_nil
  | cons r starts ih =>
      rw [firstStart_cons] at hs ht
      cases hs with
      | inl hs =>
          have ht := ht.resolve_right fun h => h.1 hs.1
          rw [hs.2, ht.2]
      | inr hs =>
          have ht := ht.resolve_left fun h => hs.1 h.1
          exact ih hs.2 ht.2

/-- A node that some start reaches has a first start. -/
theorem exists_firstStart {starts : List NodeKey} (hs : s ∈ starts) (h : Reaches edges s v) :
    ∃ t, FirstStart edges starts v t := by
  induction starts with
  | nil => contradiction
  | cons r starts ih =>
      by_cases hr : Reaches edges r v
      · exact ⟨r, firstStart_cons.mpr (Or.inl ⟨hr, rfl⟩)⟩
      · cases List.mem_cons.mp hs with
        | inl he => exact absurd (he ▸ h) hr
        | inr hs =>
            obtain ⟨t, ht⟩ := ih hs
            exact ⟨t, firstStart_cons.mpr (Or.inr ⟨hr, ht⟩)⟩

/-- A node on the way from the first start has the same first start. -/
theorem FirstStart.of_reaches {starts : List NodeKey} (h : FirstStart edges starts v s)
    (hu : Reaches edges s u) (hv : Reaches edges u v) : FirstStart edges starts u s := by
  obtain ⟨before, after, hsplit, -, hbefore⟩ := h
  exact ⟨before, after, hsplit, hu, fun t ht htu => hbefore t ht (htu.trans hv)⟩

end GraphBoard.Tree
