/-!
# GraphBoard.Json.Quoted

Strings as they are written between quotes. An escape that names a UTF-16 unit is kept as the unit
when a string is scanned, since whether the units make characters matters only for a string whose
text is wanted: `text?` joins them.
-/

namespace GraphBoard.Json

/-- A part of a quoted string. -/
inductive Piece where
  /-- A character, written as itself or by an escape of its own. -/
  | char (c : Char)
  /-- A UTF-16 unit, written by its four hexadecimal digits. -/
  | unit (value : Nat)
deriving DecidableEq, Repr

/-- What stands between two quotes. -/
abbrev Quoted := List Piece

namespace Quoted

/-! ## Scanning -/

/-- The value of a hexadecimal digit. -/
def hexValue? (c : Char) : Option Nat :=
  if '0' ≤ c ∧ c ≤ '9' then some (c.toNat - '0'.toNat)
  else if 'a' ≤ c ∧ c ≤ 'f' then some (c.toNat - 'a'.toNat + 10)
  else if 'A' ≤ c ∧ c ≤ 'F' then some (c.toNat - 'A'.toNat + 10)
  else none

/-- The unit of four hexadecimal digits. -/
def unit? (a b c d : Char) : Option Nat := do
  return ((← hexValue? a) * 16 + (← hexValue? b)) * 256 + ((← hexValue? c) * 16 + (← hexValue? d))

/-- The character of an escape of one letter. -/
def escaped? : Char → Option Char
  | '"' => some '"'
  | '\\' => some '\\'
  | '/' => some '/'
  | 'b' => some '\x08'
  | 'f' => some '\x0c'
  | 'n' => some '\n'
  | 'r' => some '\r'
  | 't' => some '\t'
  | _ => none

/-- The pieces up to the closing quote, and the rest behind it. A control character, an unknown
escape and a missing quote are refused. -/
def scan : List Char → Option (Quoted × List Char)
  | [] => none
  | '"' :: cs => some ([], cs)
  | '\\' :: 'u' :: a :: b :: c :: d :: cs => do
    let u ← unit? a b c d
    let (q, rest) ← scan cs
    return (.unit u :: q, rest)
  | '\\' :: e :: cs => do
    let c ← escaped? e
    let (q, rest) ← scan cs
    return (.char c :: q, rest)
  | c :: cs =>
    if c < ' ' ∨ c = '\\' then none
    else do
      let (q, rest) ← scan cs
      return (.char c :: q, rest)

/-- A string is at least its closing quote. -/
theorem length_scan {cs rest : List Char} {q : Quoted} (h : scan cs = some (q, rest)) :
    rest.length < cs.length := by
  fun_induction scan cs generalizing q rest with
  | case1 => cases h
  | case2 cs =>
    simp only [Option.some.injEq, Prod.mk.injEq] at h
    simp [h.2]
  | case3 a b c d cs ih =>
    simp only [Option.bind_eq_bind, Option.bind_eq_some_iff, Prod.exists, Option.pure_def,
      Option.some.injEq, Prod.mk.injEq] at h
    obtain ⟨_, _, _, _, h1, -, rfl⟩ := h
    have := ih h1
    simp only [List.length_cons]
    omega
  | case4 e cs _ ih =>
    simp only [Option.bind_eq_bind, Option.bind_eq_some_iff, Prod.exists, Option.pure_def,
      Option.some.injEq, Prod.mk.injEq] at h
    obtain ⟨_, _, _, _, h1, -, rfl⟩ := h
    have := ih h1
    simp only [List.length_cons]
    omega
  | case5 => cases h
  | case6 c cs _ _ _ _ ih =>
    simp only [Option.bind_eq_bind, Option.bind_eq_some_iff, Prod.exists, Option.pure_def,
      Option.some.injEq, Prod.mk.injEq] at h
    obtain ⟨_, _, h1, -, rfl⟩ := h
    have := ih h1
    simp only [List.length_cons]
    omega

/-! ## Text -/

/-- Whether a unit is the first of a pair. -/
def isLeading (u : Nat) : Bool := 0xd800 ≤ u && u < 0xdc00

/-- Whether a unit is the second of a pair. -/
def isTrailing (u : Nat) : Bool := 0xdc00 ≤ u && u < 0xe000

/-- The character of a pair of units. -/
def paired (leading trailing : Nat) : Char :=
  Char.ofNat (0x10000 + (leading - 0xd800) * 0x400 + (trailing - 0xdc00))

/-- The characters of a quoted string; there are none if a unit of a pair stands alone. -/
def chars? : Quoted → Option (List Char)
  | [] => some []
  | .char c :: q => (chars? q).map (c :: ·)
  | .unit u :: .unit v :: q =>
    if isLeading u then
      if isTrailing v then (chars? q).map (paired u v :: ·) else none
    else if isTrailing u then none
    else (chars? (.unit v :: q)).map (Char.ofNat u :: ·)
  | .unit u :: q =>
    if isLeading u || isTrailing u then none else (chars? q).map (Char.ofNat u :: ·)

/-- The text of a quoted string. -/
def text? (q : Quoted) : Option String := q.chars?.map String.ofList

end Quoted

end GraphBoard.Json
