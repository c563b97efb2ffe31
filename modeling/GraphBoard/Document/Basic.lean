import GraphBoard.Document.Record

/-!
# GraphBoard.Document.Basic

Graph descriptions: the records of the nodes and of the edges. `parse` reads the text of a
description.
-/

namespace GraphBoard

/-- A graph description. -/
structure Document where
  /-- The nodes. -/
  nodes : List Document.NodeRecord := []
  /-- The edges. -/
  edges : List Edge := []
deriving BEq, DecidableEq, Repr

namespace Document

open Json

/-- The fields of a description. -/
def fields : Fields Document where
  names := ["nodes", "edges"]
  put r name v :=
    match name with
    | "nodes" => (list (node 2) v).map fun nodes => { r with nodes }
    | _ => (list (edge 2) v).map fun edges => { r with edges }

/-- Reads the text of one value; nothing but blanks may follow it. -/
def parseAs {ρ : Type} (reader : Reader ρ) (s : String) : Except Fault ρ := do
  let (v, trailing) := Value.ofText s
  let r ← reader v
  if trailing then .error .malformed else .ok r

/-- Reads the text of a description. -/
def parse (s : String) : Except Fault Document := parseAs (fields.read {}) s

end Document

end GraphBoard
