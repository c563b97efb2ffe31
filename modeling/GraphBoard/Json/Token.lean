import GraphBoard.Json.Numeral
import GraphBoard.Json.Quoted

/-!
# GraphBoard.Json.Token

The lexical parts of a JSON text. Where no part can be read the list ends with `junk`, so a text
always has tokens, and what stands before the first fault can still be told.
-/

namespace GraphBoard.Json

/-- A lexical part of a text. -/
inductive Token where
  /-- An opening brace. -/
  | openBrace
  /-- A closing brace. -/
  | closeBrace
  /-- An opening bracket. -/
  | openBracket
  /-- A closing bracket. -/
  | closeBracket
  /-- A comma. -/
  | comma
  /-- A colon. -/
  | colon
  /-- The word for no value. -/
  | null
  /-- A truth value. -/
  | bool (b : Bool)
  /-- A number. -/
  | number (n : Numeral)
  /-- A quoted string. -/
  | quoted (q : Quoted)
  /-- Nothing that a text may hold. -/
  | junk
deriving DecidableEq, Repr

namespace Token

/-- Whether a character may stand between tokens. -/
def isBlank (c : Char) : Bool := c = ' ' || c = '\n' || c = '\t' || c = '\r'

/-- The token that a mark is by itself. -/
def ofMark? : Char → Option Token
  | '{' => some .openBrace
  | '}' => some .closeBrace
  | '[' => some .openBracket
  | ']' => some .closeBracket
  | ',' => some .comma
  | ':' => some .colon
  | _ => none

/-- The word at the front of a text, and the rest behind it. -/
def scanWord : List Char → Option (Token × List Char)
  | 'n' :: 'u' :: 'l' :: 'l' :: cs => some (.null, cs)
  | 't' :: 'r' :: 'u' :: 'e' :: cs => some (.bool true, cs)
  | 'f' :: 'a' :: 'l' :: 's' :: 'e' :: cs => some (.bool false, cs)
  | _ => none

/-- The token at the front of a text that starts with no blank, and the rest behind it. -/
def scan (c : Char) (cs : List Char) : Option (Token × List Char) :=
  match ofMark? c with
  | some t => some (t, cs)
  | none =>
    if c = '"' then (Quoted.scan cs).map fun (q, rest) => (.quoted q, rest)
    else if c = '-' ∨ c.isDigit then (Numeral.scan (c :: cs)).map fun (n, rest) => (.number n, rest)
    else scanWord (c :: cs)

/-- A word is at least one character. -/
theorem length_scanWord {cs rest : List Char} {t : Token} (h : scanWord cs = some (t, rest)) :
    rest.length < cs.length := by
  unfold scanWord at h
  split at h <;> cases h
  all_goals
    simp only [List.length_cons]
    omega

/-- A token is at least one character. -/
theorem length_scan {c : Char} {cs rest : List Char} {t : Token} (h : scan c cs = some (t, rest)) :
    rest.length < (c :: cs).length := by
  unfold scan at h
  split at h
  · simp only [Option.some.injEq, Prod.mk.injEq] at h
    simp [h.2]
  · split at h
    · simp only [Option.map_eq_some_iff, Prod.exists, Prod.mk.injEq] at h
      obtain ⟨_, _, h1, -, rfl⟩ := h
      have := Quoted.length_scan h1
      simp only [List.length_cons]
      omega
    · split at h
      · simp only [Option.map_eq_some_iff, Prod.exists, Prod.mk.injEq] at h
        obtain ⟨_, _, h1, -, rfl⟩ := h
        exact Numeral.length_scan h1
      · exact length_scanWord h

/-- The tokens of a text. -/
def ofChars : List Char → List Token
  | [] => []
  | c :: cs =>
    if isBlank c then ofChars cs
    else
      match _h : scan c cs with
      | some (t, rest) => t :: ofChars rest
      | none => [.junk]
termination_by cs => cs.length
decreasing_by
  · simp
  · exact length_scan _h

end Token

end GraphBoard.Json
