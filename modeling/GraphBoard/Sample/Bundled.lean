import GraphBoard.Graph.Basic

/-!
# GraphBoard.Sample.Bundled

The board that is shown first: the parts of a query with their clauses.
-/

namespace GraphBoard.Sample

variable {α : Type} [Scalar α]

/-- A node of the bundled board. -/
def part (key title : String) (x y : Nat) : Node α :=
  ⟨key, title, .skinny, none, ⟨Scalar.ofNat x, Scalar.ofNat y⟩⟩

/-- The nodes of the bundled board. -/
def parts : List (Node α) :=
  [part "1" "QUERY" 400 0,
    part "2" "FILTER_CLAUSE" 150 150,
    part "3" "SORT_CLAUSE" 650 150,
    part "4" "ATTRIBUTE" 0 300,
    part "5" "COMPARATOR" 250 300,
    part "6" "VALUE" 500 300,
    part "7" "sorted by" 650 300,
    part "8" "DIRECTION" 850 300,
    part "9" "brand color size price" 0 450,
    part "10" "above below under over equals" 250 450,
    part "11" "NUMBER" 500 450,
    part "12" "ascending descending" 850 450]

/-- The ends of the edges of the bundled board. -/
def links : List (NodeKey × NodeKey) :=
  [("1", "2"), ("1", "3"), ("2", "4"), ("2", "5"), ("2", "6"), ("3", "7"), ("3", "4"), ("3", "8"),
    ("4", "9"), ("5", "10"), ("6", "11"), ("8", "12")]

/-- The bundled board. -/
def bundled : Graph α :=
  .ofItems parts (links.map fun (source, target) => ⟨source, target, .empty⟩)

end GraphBoard.Sample
