import GraphBoard.Proofs.Graph.Fresh
import Mathlib.Order.Bounds.Basic

/-!
# GraphBoard.Proofs.Graph.Draw

How a key is generated, number by number.  A draw counts one up; if a node has the key of the number
then drawn, there is another draw.  No number of draws is set beforehand, and the counter can run
full, so that a key is found at all, and how soon, depends on the keys that are taken:

* `draws_of_taken` — the draws pass over the numbers whose keys are taken and stop at the first that
  is not;
* `Draws.unique` — they cannot end in any other way;
* `draws_iff` — so in a graph of `n` nodes they end with the least number that is free, after at
  most `n + 1` draws.
-/

namespace GraphBoard

/-- The numbers that a counter can show are below this. -/
def counterLimit : Nat := 0x10000000000000000

namespace Graph

variable {α : Type} {g h h' : Graph α} {base : Option NodeKey} {key key' : NodeKey} {m n : Nat}

/-- The graph with the next number on its counter, unless the counter is full. -/
def draw? (g : Graph α) : Option (Graph α) :=
  if g.issued + 1 < counterLimit then some { g with issued := g.issued + 1 } else none

/-- So many draws lead from one graph to another, in which the key of the last number is found: no
node has it, while nodes had the keys of the numbers before it. -/
inductive Draws (base : Option NodeKey) : Graph α → Nat → Graph α → NodeKey → Prop where
  | free {g h : Graph α} (hdraw : g.draw? = some h)
      (hfree : h.hasNode (generatedKey base h.issued) = false) :
      Draws base g 1 h (generatedKey base h.issued)
  | taken {g g' h : Graph α} {n : Nat} {key : NodeKey} (hdraw : g.draw? = some g')
      (htaken : g'.hasNode (generatedKey base g'.issued) = true) (hrest : Draws base g' n h key) :
      Draws base g (n + 1) h key

/-- As long as the counter is below its limit, a number is drawn. -/
theorem draw?_of_lt (hlimit : g.issued + 1 < counterLimit) :
    g.draw? = some { g with issued := g.issued + 1 } := by
  rw [draw?, if_pos hlimit]

/-- The draws end in one way at most. -/
theorem Draws.unique (h₁ : Draws base g m h key) (h₂ : Draws base g n h' key') :
    m = n ∧ h = h' ∧ key = key' := by
  induction h₁ generalizing n with
  | free hdraw hfree =>
      cases h₂ with
      | free hdraw' =>
          obtain rfl := Option.some.inj (hdraw.symm.trans hdraw')
          exact ⟨rfl, rfl, rfl⟩
      | taken hdraw' htaken =>
          obtain rfl := Option.some.inj (hdraw.symm.trans hdraw')
          rw [hfree] at htaken
          contradiction
  | taken hdraw htaken _ ih =>
      cases h₂ with
      | free hdraw' hfree =>
          obtain rfl := Option.some.inj (hdraw.symm.trans hdraw')
          rw [hfree] at htaken
          contradiction
      | taken hdraw' _ hrest =>
          obtain rfl := Option.some.inj (hdraw.symm.trans hdraw')
          obtain ⟨rfl, rfl, rfl⟩ := ih hrest
          exact ⟨rfl, rfl, rfl⟩

/-- Numbers whose keys are taken are passed over. -/
theorem draws_of_taken
    (htaken : ∀ c, g.issued < c → c ≤ g.issued + n → g.hasNode (generatedKey base c) = true)
    (hfree : g.hasNode (generatedKey base (g.issued + n + 1)) = false)
    (hlimit : g.issued + n + 1 < counterLimit) :
    Draws base g (n + 1) { g with issued := g.issued + n + 1 }
      (generatedKey base (g.issued + n + 1)) := by
  induction n generalizing g with
  | zero => exact .free (draw?_of_lt hlimit) hfree
  | succ n ih =>
      have hdraw : g.draw? = some { g with issued := g.issued + 1 } := draw?_of_lt (by omega)
      have hfirst : g.hasNode (generatedKey base (g.issued + 1)) = true :=
        htaken _ (by omega) (by omega)
      refine .taken hdraw hfirst ?_
      have hnumber : g.issued + (n + 1) + 1 = g.issued + 1 + n + 1 := by omega
      rw [hnumber] at hfree hlimit ⊢
      exact ih (g := { g with issued := g.issued + 1 })
        (fun c hc hle => htaken c (Nat.lt_of_succ_lt hc) (by simp only at hle; omega)) hfree hlimit

/-! ## The number found -/

/-- The number of a fresh key is the least that is free. -/
theorem isLeast_freshNumber (g : Graph α) (base : Option NodeKey) :
    IsLeast { c | g.issued < c ∧ generatedKey base c ∉ g.keys } (g.freshNumber base) := by
  refine ⟨⟨g.issued_lt_freshNumber base, g.freshKey_not_mem_keys base⟩, fun c hc => ?_⟩
  obtain ⟨hlt, hfree⟩ := hc
  by_contra hle
  have htaken : g.hasNode (generatedKey base c) = true :=
    taken_of_lt_firstFree (Nat.succ_le_of_lt hlt) (not_le.mp hle)
  exact hfree (hasNode_iff.mp htaken)

/-- Whatever the keys of a graph are, if its counter has room for one number more than there are
nodes, then the draws end in one way.  Their number is at most the number of nodes and one; nodes
and edges stay; the counter then shows the least number above the old one whose key no node has, and
this key is found. -/
theorem draws_iff (g : Graph α) (base : Option NodeKey)
    (hlimit : g.issued + g.nodes.length + 1 < counterLimit) :
    ∃ draws ≤ g.nodes.length + 1, ∃ number, g.issued + draws = number ∧
      IsLeast { c | g.issued < c ∧ generatedKey base c ∉ g.keys } number ∧
      number = g.freshNumber base ∧ generatedKey base number = g.freshKey base ∧
      ∀ n h key, Draws base g n h key ↔
        n = draws ∧ h = { g with issued := number } ∧ key = generatedKey base number := by
  have hlt : g.issued < g.freshNumber base := g.issued_lt_freshNumber base
  have hle : g.freshNumber base ≤ g.issued + 1 + g.nodes.length := firstFree_le _ _ _
  obtain ⟨d, hd⟩ : ∃ d, g.freshNumber base = g.issued + d + 1 :=
    ⟨g.freshNumber base - g.issued - 1, by omega⟩
  have hfree : g.hasNode (generatedKey base (g.issued + d + 1)) = false := by
    rw [← hd]
    exact g.hasNode_freshKey base
  have htaken : ∀ c, g.issued < c → c ≤ g.issued + d →
      g.hasNode (generatedKey base c) = true := fun c hc hcd =>
    taken_of_lt_firstFree (Nat.succ_le_of_lt hc) (show c < g.freshNumber base by omega)
  have hdraws := draws_of_taken htaken hfree (by omega)
  rw [← hd] at hdraws
  refine ⟨d + 1, by omega, g.freshNumber base, by omega, isLeast_freshNumber g base, rfl, rfl,
    fun n h key => ⟨fun hother => hother.unique hdraws, ?_⟩⟩
  rintro ⟨rfl, rfl, rfl⟩
  exact hdraws

/-- A graph whose keys look like generated ones. -/
def blocked : Graph Float :=
  { ofItems (["_2", "n2", "_3", "_5"].map fun k => ⟨k, "", .empty, none, ⟨0.0, 0.0⟩⟩) [] with
    issued := 1 }

/-- For a copy of a node with an empty key, two numbers are passed over. -/
theorem draws_iff_blocked : blocked.issued + blocked.nodes.length + 1 < counterLimit ∧
    Draws (some "") blocked 3 { blocked with issued := 4 } "_4" := by
  have hlimit : blocked.issued + blocked.nodes.length + 1 < counterLimit := by decide
  obtain ⟨draws, -, number, hnumber, -, hfresh, -, hiff⟩ := draws_iff blocked (some "") hlimit
  have hfour : number = 4 := hfresh.trans (by decide +kernel)
  have hthree : draws = 3 := by
    have hissued : blocked.issued = 1 := rfl
    omega
  exact ⟨hlimit, (hiff 3 _ _).mpr ⟨hthree.symm, by rw [hfour], by rw [hfour]; decide +kernel⟩⟩

end Graph

end GraphBoard
