import GraphBoard.Document.Basic
import GraphBoard.Graph.Basic

/-!
# GraphBoard.Document.Load

From a description to a graph. Keys have to differ; a node whose kind is left open is skinny; an
edge that joins a node to itself or to nothing is dropped.
-/

namespace GraphBoard

/-- Why a text is no graph. -/
inductive LoadError where
  /-- The text is no description. -/
  | unreadable (fault : Document.Fault)
  /-- Two nodes have the same key. -/
  | duplicateNodeKey (key : NodeKey)
deriving DecidableEq, Repr

/-- How a repeated key is reported. -/
def LoadError.duplicateMessage (key : NodeKey) : String := "duplicate node key `" ++ key ++ "`"

namespace Document

/-- The first key of a list that stands before it, or in `seen`. -/
def firstRepeated (seen : List NodeKey) : List NodeKey → Option NodeKey
  | [] => none
  | k :: ks => if k ∈ seen then some k else firstRepeated (k :: seen) ks

/-- The node that a record describes. -/
def NodeRecord.node (r : NodeRecord) : Node Float :=
  ⟨r.key, r.title, r.kind.getD .skinny, r.underlay, r.position⟩

/-- The graph that a description describes, or the key that is repeated. -/
def graph (d : Document) : Except LoadError (Graph Float) :=
  let keys := d.nodes.map NodeRecord.key
  match firstRepeated [] keys with
  | some key => .error (.duplicateNodeKey key)
  | none =>
    .ok (.ofItems (d.nodes.map NodeRecord.node)
      (d.edges.filter fun e => e.source != e.target && keys.contains e.source &&
        keys.contains e.target))

end Document

/-- The graph that a text describes. -/
def Graph.load (s : String) : Except LoadError (Graph Float) :=
  match Document.parse s with
  | .error fault => .error (.unreadable fault)
  | .ok d => d.graph

end GraphBoard
