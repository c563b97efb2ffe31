import GraphBoard.Document.Reader
import GraphBoard.Graph.Item

/-!
# GraphBoard.Document.Record

The parts of a graph description: keys, tags, and the records of nodes and edges. Records may be
written as objects or as arrays of their fields, tags by either of two names, and keys as strings
or as integers.
-/

namespace GraphBoard.Document

open Json

/-! ## Keys -/

/-- How deep containers may be nested in a document. -/
def depthLimit : Nat := 127

/-- Reads a key in a place with `opened` containers around it: a string, or an integer, which is
held as its text. What is no key has to be sound, to the limit of nesting. -/
def nodeKey (opened : Nat) : Reader NodeKey
  | .text q => ofQuoted q
  | .number n =>
    match n.int? with
    | some i => .ok (toString i)
    | none => .error (refusal (.number n))
  | v => .error (if v.isSound (depthLimit - opened) then .misshapen else .malformed)

/-! ## Tags -/

/-- The spellings of the kinds of nodes. -/
def nodeKindNames : List (String × NodeKind) :=
  [("empty", .empty), ("EMPTY_TYPE", .empty), ("special", .special), ("SPECIAL_TYPE", .special),
    ("skinny", .skinny), ("SKINNY_TYPE", .skinny), ("poly", .poly), ("POLY_TYPE", .poly),
    ("complexCircle", .complexCircle), ("COMPLEX_CIRCLE_TYPE", .complexCircle)]

/-- The spellings of the underlays. -/
def underlayNames : List (String × Underlay) :=
  [("specialChild", .specialChild), ("SPECIAL_CHILD_SUBTYPE", .specialChild)]

/-- The spellings of the kinds of edges. -/
def edgeKindNames : List (String × EdgeKind) :=
  [("emptyEdge", .empty), ("EMPTY_EDGE_TYPE", .empty), ("specialEdge", .special),
    ("SPECIAL_EDGE_TYPE", .special)]

/-! ## Nodes -/

/-- The description of a node: a node whose kind may be left open. -/
structure NodeRecord where
  /-- The key. -/
  key : NodeKey
  /-- The title. -/
  title : String
  /-- The kind, if it is given. -/
  kind : Option NodeKind
  /-- The underlay, if there is one. -/
  underlay : Option Underlay
  /-- The place. -/
  position : Point Float
deriving BEq, DecidableEq, Repr

/-- A description of a node of which the key may not have been read yet. -/
structure NodeDraft where
  /-- The key. -/
  key : Option NodeKey := none
  /-- The title. -/
  title : String := ""
  /-- The kind. -/
  kind : Option NodeKind := none
  /-- The underlay. -/
  underlay : Option Underlay := none
  /-- The horizontal coordinate. -/
  x : Float := 0.0
  /-- The vertical coordinate. -/
  y : Float := 0.0

/-- The fields of a node in a place with `opened` containers around it. -/
def nodeFields (opened : Nat) : Fields NodeDraft where
  names := ["id", "title", "type", "subtype", "x", "y"]
  put r name v :=
    match name with
    | "id" => (nodeKey (opened + 1) v).map fun key => { r with key := some key }
    | "title" => (string v).map fun title => { r with title }
    | "type" => (optional (tag nodeKindNames) v).map fun kind => { r with kind }
    | "subtype" => (optional (tag underlayNames) v).map fun underlay => { r with underlay }
    | "x" => (double v).map fun x => { r with x }
    | _ => (double v).map fun y => { r with y }

/-- Reads a node. -/
def node (opened : Nat) : Reader NodeRecord := fun v => do
  let r ← (nodeFields opened).read {} v
  let key ← required r.key
  return ⟨key, r.title, r.kind, r.underlay, ⟨r.x, r.y⟩⟩

/-! ## Edges -/

/-- A description of an edge of which the ends may not have been read yet. -/
structure EdgeDraft where
  /-- The node it leaves. -/
  source : Option NodeKey := none
  /-- The node it enters. -/
  target : Option NodeKey := none
  /-- The kind. -/
  kind : EdgeKind := .empty

/-- The fields of an edge in a place with `opened` containers around it. -/
def edgeFields (opened : Nat) : Fields EdgeDraft where
  names := ["source", "target", "type"]
  put r name v :=
    match name with
    | "source" => (nodeKey (opened + 1) v).map fun key => { r with source := some key }
    | "target" => (nodeKey (opened + 1) v).map fun key => { r with target := some key }
    | _ => (tag edgeKindNames v).map fun kind => { r with kind }

/-- Reads an edge. -/
def edge (opened : Nat) : Reader Edge := fun v => do
  let r ← (edgeFields opened).read {} v
  let source ← required r.source
  let target ← required r.target
  return ⟨source, target, r.kind⟩

end GraphBoard.Document
