import GraphBoard.Point

/-!
# GraphBoard.Graph.Item

The items of a board: nodes and edges, the keys that name them and the kinds that decide how they
look.

An edge is named by the pair of its ends. Keys are ordered by code point, edge keys by source and
then target; `EdgeKey` has the instances that sets of keys need.
-/

namespace GraphBoard

/-! ## Kinds -/

/-- The shape of a node. -/
inductive NodeKind where
  /-- A plain circle. -/
  | empty
  /-- A diamond, for entry points. -/
  | special
  /-- A wide, flat box that holds a long title. -/
  | skinny
  /-- A hexagon. -/
  | poly
  /-- A circle with a ring inside. -/
  | complexCircle
deriving DecidableEq, Repr

/-- Every kind of node, in palette order. -/
def NodeKind.all : List NodeKind := [.empty, .special, .skinny, .poly, .complexCircle]

/-- A second shape drawn under a node's own. -/
inductive Underlay where
  /-- The faint disc that marks a child of a special node. -/
  | specialChild
deriving DecidableEq, Repr

/-- The style of an edge. -/
inductive EdgeKind where
  /-- A plain line. -/
  | empty
  /-- A moving dashed line, for edges that leave a special node. -/
  | special
deriving DecidableEq, Repr

/-- Every kind of edge. -/
def EdgeKind.all : List EdgeKind := [.empty, .special]

/-- The kind of a newly drawn edge is decided by the node it leaves. -/
def EdgeKind.ofSource : NodeKind → EdgeKind
  | .special => .special
  | _ => .empty

/-! ## Keys -/

/-- The key that names a node; unique within a graph. -/
abbrev NodeKey := String

/-- The key of an edge: the pair of its ends. -/
structure EdgeKey where
  /-- The node it leaves. -/
  source : NodeKey
  /-- The node it enters. -/
  target : NodeKey
deriving DecidableEq, Repr

namespace EdgeKey

/-- Edge keys are ordered by source, then target. -/
instance : Ord EdgeKey := ⟨compareLex (compareOn source) (compareOn target)⟩

instance : Std.TransOrd EdgeKey :=
  inferInstanceAs (Std.TransCmp (compareLex (compareOn source) (compareOn target)))

instance : Std.LawfulEqOrd EdgeKey where
  eq_of_compare {a b} h := by
    have h' := Ordering.then_eq_eq.1 (show (compare a.source b.source).then
      (compare a.target b.target) = .eq from h)
    cases a
    cases b
    simp only [Std.LawfulEqOrd.compare_eq_iff_eq] at h'
    simp [h'.1, h'.2]

/-- How an edge is named in text. -/
def text (k : EdgeKey) : String := k.source ++ "_" ++ k.target

/-- Whether a node is an end of the edge. -/
def touches (k : EdgeKey) (node : NodeKey) : Bool := k.source == node || k.target == node

end EdgeKey

/-! ## Nodes and edges -/

/-- A vertex of the graph. -/
structure Node (α : Type) where
  /-- The key that names it. -/
  key : NodeKey
  /-- The title shown, empty for none. -/
  title : String
  /-- Its shape. -/
  kind : NodeKind
  /-- The shape under its own, if any. -/
  underlay : Option Underlay
  /-- Where it is stored. -/
  position : Point α
deriving BEq, DecidableEq, Repr

/-- A directed connection of two nodes. -/
structure Edge where
  /-- The node it leaves. -/
  source : NodeKey
  /-- The node it enters. -/
  target : NodeKey
  /-- Its style. -/
  kind : EdgeKind
deriving DecidableEq, Repr

namespace Edge

/-- The pair of the ends. -/
def key (e : Edge) : EdgeKey := ⟨e.source, e.target⟩

/-- Whether a node is an end of the edge. -/
def touches (e : Edge) (node : NodeKey) : Bool := e.key.touches node

/-- The edge led between other nodes, its kind kept. -/
def between (e : Edge) (source target : NodeKey) : Edge := ⟨source, target, e.kind⟩

@[simp] theorem touches_iff {e : Edge} {node : NodeKey} :
    e.touches node = true ↔ e.source = node ∨ e.target = node := by
  simp [touches, EdgeKey.touches, key]

@[simp] theorem key_between (e : Edge) (s t : NodeKey) : (e.between s t).key = ⟨s, t⟩ := rfl

end Edge

end GraphBoard
