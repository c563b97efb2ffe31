import GraphBoard.Json.Token

/-!
# GraphBoard.Json.Value

What can be told of a JSON value from a front part of its tokens. Reading never fails: a container
says how it ended, and where a value is missing the tree says so. So a reader of documents can walk
the tree in the order of the text and stop at the first thing that it cannot use, whether that is
a fault of the text or a value of the wrong kind.

`build` reads a value off a list of tokens. Containers that are still open are held as frames, the
innermost first.
-/

namespace GraphBoard.Json

/-- How a container ended. -/
inductive Ending where
  /-- It was closed. -/
  | closed
  /-- The text ends inside it, or what comes next cannot stand there. -/
  | broken
deriving DecidableEq, Repr

/-- What was read of a value. -/
inductive Value where
  /-- No value starts here. -/
  | absent
  /-- The word for no value. -/
  | null
  /-- A truth value. -/
  | bool (b : Bool)
  /-- A number. -/
  | number (n : Numeral)
  /-- A string. -/
  | text (q : Quoted)
  /-- The items of an array. -/
  | array (items : List Value) (ending : Ending)
  /-- The fields of an object, in their order and with repetitions. -/
  | object (fields : List (Quoted × Value)) (ending : Ending)
deriving Repr

/-! ## Open containers -/

/-- A container that is still open; what it holds so far is in reverse. -/
inductive Frame where
  /-- An array. -/
  | array (items : List Value)
  /-- An object between two fields. -/
  | object (fields : List (Quoted × Value))
  /-- An object in a field whose name was read. -/
  | field (fields : List (Quoted × Value)) (name : Quoted)

namespace Frame

/-- Puts a value that was read into the container around it. -/
def push (v : Value) : Frame → Frame
  | array items => array (v :: items)
  | object fields => object fields
  | field fields name => object ((name, v) :: fields)

/-- The container, cut off where it stands. -/
def cut : Frame → Value
  | array items => .array items.reverse .broken
  | object fields => .object fields.reverse .broken
  | field fields name => .object ((name, .absent) :: fields).reverse .broken

/-- The container, if a token closes it. -/
def close? : Frame → Token → Option Value
  | array items, .closeBracket => some (.array items.reverse .closed)
  | object fields, .closeBrace => some (.object fields.reverse .closed)
  | _, _ => none

end Frame

/-- The value that the open containers make if nothing usable follows. -/
def cutAll : List Frame → Value
  | [] => .absent
  | f :: fs => fs.foldl (fun v f => (f.push v).cut) f.cut

/-! ## Reading -/

/-- What comes next in a text. -/
inductive Expect where
  /-- A value. -/
  | value
  /-- A value, or the end of the array that was just opened. -/
  | firstItem
  /-- The name of a field. -/
  | name
  /-- The name of a field, or the end of the object that was just opened. -/
  | firstName
  /-- The colon behind a name. -/
  | colon
  /-- A comma, or the end of the container. -/
  | separator
deriving DecidableEq, Repr

/-- Where a token leads. -/
inductive Advance where
  /-- Some containers are open. -/
  | inside (expect : Expect) (frames : List Frame)
  /-- The value is complete. -/
  | whole (v : Value)
  /-- The token cannot stand there. -/
  | stuck

/-- Continues behind a complete value: in the container around it, if there is one. -/
def Advance.behind (v : Value) : List Frame → Advance
  | [] => whole v
  | f :: fs => inside .separator (f.push v :: fs)

/-- Where a token leads in the place of a value. -/
def Advance.atValue (frames : List Frame) : Token → Advance
  | .null => behind .null frames
  | .bool b => behind (.bool b) frames
  | .number n => behind (.number n) frames
  | .quoted q => behind (.text q) frames
  | .openBracket => inside .firstItem (.array [] :: frames)
  | .openBrace => inside .firstName (.object [] :: frames)
  | _ => stuck

/-- Where a token leads in the place of a name. -/
def Advance.atName : List Frame → Token → Advance
  | .object fields :: frames, .quoted q => inside .colon (.field fields q :: frames)
  | _, _ => stuck

/-- Where a token leads in the place of the end of a container. -/
def Advance.atClose : List Frame → Token → Advance
  | f :: frames, t =>
    match f.close? t with
    | some v => behind v frames
    | none => stuck
  | [], _ => stuck

/-- Where a token leads. -/
def advance (frames : List Frame) (t : Token) : Expect → Advance
  | .value => .atValue frames t
  | .firstItem => if t = .closeBracket then .atClose frames t else .atValue frames t
  | .name => .atName frames t
  | .firstName => if t = .closeBrace then .atClose frames t else .atName frames t
  | .colon => if t = .colon then .inside .value frames else .stuck
  | .separator =>
    match frames, t with
    | .array _ :: _, .comma => .inside .value frames
    | .object _ :: _, .comma => .inside .name frames
    | _, _ => .atClose frames t

/-- The value at the front of a list of tokens, and the tokens behind it. -/
def build (expect : Expect) (frames : List Frame) : List Token → Value × List Token
  | [] => (cutAll frames, [])
  | t :: ts =>
    match advance frames t expect with
    | .inside expect frames => build expect frames ts
    | .whole v => (v, ts)
    | .stuck => (cutAll frames, t :: ts)

namespace Value

/-- The value at the front of a text, and whether anything but blanks follows it. -/
def ofText (s : String) : Value × Bool :=
  let (v, rest) := build .value [] (Token.ofChars s.toList)
  (v, !rest.isEmpty)

/-! ## Completeness -/

/-- Whether nothing is missing in a value. What is inside a closed container is complete. -/
def isWhole : Value → Bool
  | absent => false
  | array _ ending => ending = .closed
  | object _ ending => ending = .closed
  | _ => true

mutual

/-- Whether a value is complete, its strings have text, its numbers are in range, and its
containers are nested at most `room` deep. -/
def isSound (room : Nat) : Value → Bool
  | absent => false
  | null => true
  | bool _ => true
  | number n => n.value?.isSome
  | text q => q.text?.isSome
  | array items ending => 0 < room && ending = .closed && itemsSound (room - 1) items
  | object fields ending => 0 < room && ending = .closed && fieldsSound (room - 1) fields

/-- `isSound` for the items of an array. -/
def itemsSound (room : Nat) : List Value → Bool
  | [] => true
  | v :: vs => isSound room v && itemsSound room vs

/-- `isSound` for the fields of an object, their names included. -/
def fieldsSound (room : Nat) : List (Quoted × Value) → Bool
  | [] => true
  | (q, v) :: fs => q.text?.isSome && isSound room v && fieldsSound room fs

end

end Value

end GraphBoard.Json
