import GraphBoard.Json.Value

/-!
# GraphBoard.Document.Reader

Reading typed values off a JSON tree. Readers go through the tree in the order of the text and
stop at the first fault, of which there are two kinds: the text is not acceptable JSON, or a value
has the wrong shape.

A value that nobody asked for only has to be complete. A value that is wanted has to be usable:
its strings have text and its numbers are in range; where it is of the wrong kind, that fault
counts only if there is no fault of the text up to the point where its kind is known.
-/

namespace GraphBoard.Document

open Json

/-- What is wrong with a document. -/
inductive Fault where
  /-- The text is not acceptable JSON. -/
  | malformed
  /-- A value does not have the wanted shape. -/
  | misshapen
deriving DecidableEq, Repr

/-- Reads a value of some type. -/
abbrev Reader (ρ : Type) := Value → Except Fault ρ

/-! ## Values of the wrong kind -/

/-- What is wrong where a value of another kind is wanted. The kind of a container is known from
its first mark, that of a string or number only at its end. -/
def refusal : Value → Fault
  | .absent => .malformed
  | .number n => if n.value?.isSome then .misshapen else .malformed
  | .text q => if q.text?.isSome then .misshapen else .malformed
  | _ => .misshapen

/-! ## Simple values -/

/-- The text of a quoted string. -/
def ofQuoted (q : Quoted) : Except Fault String :=
  match q.text? with
  | some s => .ok s
  | none => .error .malformed

/-- Reads a string. -/
def string : Reader String
  | .text q => ofQuoted q
  | v => .error (refusal v)

/-- Reads a number. -/
def double : Reader Float
  | .number n =>
    match n.value? with
    | some x => .ok x
    | none => .error .malformed
  | v => .error (refusal v)

/-- Takes note of a value that nobody asked for. -/
def skipped (v : Value) : Except Fault Unit :=
  if v.isWhole then .ok () else .error .malformed

/-- Reads a value that may be left open by `null`. -/
def optional {ρ : Type} (reader : Reader ρ) : Reader (Option ρ)
  | .null => .ok none
  | v => (reader v).map some

/-! ## Lists -/

/-- Nothing but the end of a container may follow. -/
def atEnd : Ending → Except Fault Unit
  | .closed => .ok ()
  | .broken => .error .malformed

/-- Reads all items of an array. -/
def items {ρ : Type} (reader : Reader ρ) (ending : Ending) : List Value → Except Fault (List ρ)
  | [] => (atEnd ending).map fun _ => []
  | v :: vs => do
    let r ← reader v
    let rs ← items reader ending vs
    return r :: rs

/-- Reads an array of values of one type. -/
def list {ρ : Type} (reader : Reader ρ) : Reader (List ρ)
  | .array vs ending => items reader ending vs
  | v => .error (refusal v)

/-! ## Tags -/

/-- Looks a tag up in a table of its spellings. -/
def spelled {κ : Type} (table : List (String × κ)) (name : String) : Except Fault κ :=
  match table.lookup name with
  | some k => .ok k
  | none => .error .misshapen

/-- Reads the value that goes with a tag as the name of a field; it says nothing. -/
def nothing : Reader Unit
  | .null => .ok ()
  | v => .error (refusal v)

/-- Reads a tag: one of the spellings as a string, or as the name of the one field of an object
that says nothing more. A tag can be told from its first mark, so anything else is a fault of the
text, and so is anything but a quoted name at the front of such an object. -/
def tag {κ : Type} (table : List (String × κ)) : Reader κ
  | .text q => ofQuoted q >>= spelled table
  | .object ((q, v) :: rest) ending => do
    let k ← ofQuoted q >>= spelled table
    nothing v
    match rest with
    | [] => (atEnd ending).map fun _ => k
    | _ :: _ => .error .malformed
  | _ => .error .malformed

/-! ## Records -/

/-- Reads a record: the names of its fields in the order in which they are declared, and how a
field is taken up into what was read before. -/
structure Fields (ρ : Type) where
  /-- The names of the fields. -/
  names : List String
  /-- Takes up the value of a field. -/
  put : ρ → String → Value → Except Fault ρ

namespace Fields

variable {ρ : Type}

/-- Reads the fields of an object in any order, each at most once; others are skipped, and may
repeat. -/
def ofObject (fields : Fields ρ) (ending : Ending) :
    List String → ρ → List (Quoted × Value) → Except Fault ρ
  | _, r, [] => (atEnd ending).map fun _ => r
  | seen, r, (q, v) :: rest => do
    let name ← ofQuoted q
    if name ∈ fields.names then
      if name ∈ seen then .error .misshapen
      else
        let r ← fields.put r name v
        ofObject fields ending (name :: seen) r rest
    else
      skipped v
      ofObject fields ending seen r rest

/-- Reads the fields of an array, in the order of declaration; the last ones may be missing. -/
def ofArray (put : ρ → String → Value → Except Fault ρ) (ending : Ending) :
    List String → ρ → List Value → Except Fault ρ
  | _, r, [] => (atEnd ending).map fun _ => r
  | [], _, _ :: _ => .error .malformed
  | name :: names, r, v :: vs => do
    let r ← put r name v
    ofArray put ending names r vs

/-- Reads a record, written as an object or as an array. -/
def read (fields : Fields ρ) (blank : ρ) : Reader ρ
  | .object fs ending => fields.ofObject ending [] blank fs
  | .array vs ending => ofArray fields.put ending fields.names blank vs
  | v => .error (refusal v)

end Fields

/-- The value of a field that has to be there. -/
def required {ρ : Type} : Option ρ → Except Fault ρ
  | some r => .ok r
  | none => .error .misshapen

end GraphBoard.Document
