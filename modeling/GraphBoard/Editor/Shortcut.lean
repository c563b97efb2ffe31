import GraphBoard.Editor.Event

/-!
# GraphBoard.Editor.Shortcut

The keys that mean events of the board.
-/

namespace GraphBoard

variable {α : Type}

/-- The event of a key, pressed with or without a modifier. What is pasted goes to the pointer. -/
def Event.ofKey? (key : String) (modifier : Bool) (pointer : Point α) : Option (Event α) :=
  if key = "Delete" ∨ key = "Backspace" then some .deleteSelected
  else if !modifier then none
  else if key = "c" ∨ key = "C" then some .copy
  else if key = "v" ∨ key = "V" then some (.paste pointer)
  else if key = "z" ∨ key = "Z" then some .undo
  else none

end GraphBoard
