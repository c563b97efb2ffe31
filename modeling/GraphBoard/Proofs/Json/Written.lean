import GraphBoard.Json.Token
import GraphBoard.Proofs.Json.Spelled
import Mathlib.Data.List.Chain

/-!
# GraphBoard.Proofs.Json.Written

How tokens are written, one behind another, and that the tokens of a text are those it was written
from.

* `Token.ofChars_of_written` — the tokens of a text are those that it is written from, if no number
  stands directly before another;
* `Token.written_ofChars` — a text without a fault is written from its tokens.
-/

namespace GraphBoard.Json

namespace Token

/-- How a token is written. -/
inductive Spelled : Token → List Char → Prop where
  | openBrace : Spelled .openBrace ['{']
  | closeBrace : Spelled .closeBrace ['}']
  | openBracket : Spelled .openBracket ['[']
  | closeBracket : Spelled .closeBracket [']']
  | comma : Spelled .comma [',']
  | colon : Spelled .colon [':']
  | null : Spelled .null ['n', 'u', 'l', 'l']
  | boolTrue : Spelled (.bool true) ['t', 'r', 'u', 'e']
  | boolFalse : Spelled (.bool false) ['f', 'a', 'l', 's', 'e']
  | number {n : Numeral} {cs : List Char} (h : n.Spelled cs) : Spelled (.number n) cs
  | quoted {q : Quoted} {cs : List Char} (h : q.Spelled cs) :
      Spelled (.quoted q) ('"' :: cs ++ ['"'])

/-- Characters that may stand between tokens, and no others. -/
def Blanks (cs : List Char) : Prop := ∀ c ∈ cs, isBlank c = true

/-- A text of tokens: the tokens in their order, with blanks anywhere between and around them. -/
inductive Written : List Token → List Char → Prop where
  | nil {bs : List Char} (hbs : Blanks bs) : Written [] bs
  | cons {t : Token} {ts : List Token} {bs ls cs : List Char} (hbs : Blanks bs)
      (ht : t.Spelled ls) (hts : Written ts cs) : Written (t :: ts) (bs ++ ls ++ cs)

/-- Whether a token is a number. -/
def isNumber : Token → Bool
  | .number _ => true
  | _ => false

/-- No number stands directly before another. -/
def Apart (ts : List Token) : Prop := ts.IsChain fun t u => t.isNumber = true → u.isNumber = false

variable {t : Token} {ts : List Token} {c : Char} {cs ls bs rest : List Char}

/-- A token that is read is the first of the text. -/
theorem ofChars_of_scan_eq_some (hc : isBlank c = false) (h : scan c cs = some (t, rest)) :
    ofChars (c :: cs) = t :: ofChars rest := by
  rw [ofChars, if_neg (by simp [hc])]
  split
  · rename_i heq
    rw [h] at heq
    cases heq
    rfl
  · rename_i heq
    rw [h] at heq
    contradiction

/-- Characters that are no token end the reading. -/
theorem ofChars_of_scan_eq_none (hc : isBlank c = false) (h : scan c cs = none) :
    ofChars (c :: cs) = [.junk] := by
  rw [ofChars, if_neg (by simp [hc])]
  split
  · rename_i heq
    rw [h] at heq
    contradiction
  · rfl

/-- Blanks before the tokens do not matter. -/
theorem ofChars_blanks_append (h : Blanks bs) : ofChars (bs ++ cs) = ofChars cs := by
  induction bs with
  | nil => rfl
  | cons b bs ih =>
      rw [List.cons_append, ofChars, if_pos (h b List.mem_cons_self)]
      exact ih fun c hc => h c (List.mem_cons_of_mem b hc)

/-! ### The first character of a token -/

/-- The blanks are the space, the two ends of line and the tab. -/
theorem isBlank_iff : isBlank c = true ↔ c = ' ' ∨ c = '\n' ∨ c = '\t' ∨ c = '\r' := by
  simp [isBlank, or_assoc]

/-- What a number starts with starts no other token, and is no blank. -/
theorem scan_of_number (h : c = '-' ∨ c.isDigit = true) (cs : List Char) : isBlank c = false ∧
    scan c cs = (Numeral.scan (c :: cs)).map fun (n, rest) => (.number n, rest) := by
  have hquote : c ≠ '"' := fun hc => by rw [hc] at h; revert h; decide
  have hblank : isBlank c = false := by
    rw [Bool.eq_false_iff, Ne, isBlank_iff]
    rintro (rfl | rfl | rfl | rfl) <;> revert h <;> decide
  have hmark : ofMark? c = none := by
    unfold ofMark?
    split <;> first | rfl | (revert h; decide)
  refine ⟨hblank, ?_⟩
  rw [scan, hmark]
  simp only [if_neg hquote, if_pos h]

/-- A token is scanned off a text that starts with it, unless it is a number with which the text
goes on. -/
theorem Spelled.scan_append (h : t.Spelled ls) (hrest : t.isNumber = true → Numeral.Stops rest) :
    ∃ c cs, ls = c :: cs ∧ isBlank c = false ∧ scan c (cs ++ rest) = some (t, rest) := by
  cases h with
  | @number n _ h =>
      have hscan : Numeral.scan (ls ++ rest) = some (n, rest) := Numeral.scan_append h (hrest rfl)
      obtain ⟨c, cs, rfl, hc⟩ := Numeral.Spelled.exists_cons h
      obtain ⟨hblank, hnumber⟩ := scan_of_number hc (cs ++ rest)
      rw [List.cons_append] at hscan
      rw [hscan] at hnumber
      exact ⟨c, cs, rfl, hblank, hnumber⟩
  | @quoted q cs h =>
      have hscan : Quoted.scan (cs ++ '"' :: rest) = some (q, rest) := Quoted.scan_append h rest
      refine ⟨'"', cs ++ ['"'], rfl, rfl, ?_⟩
      rw [List.append_assoc, List.singleton_append]
      show (Quoted.scan (cs ++ '"' :: rest)).map _ = _
      rw [hscan]
      rfl
  | _ => exact ⟨_, _, rfl, rfl, rfl⟩

/-- A token that is written first is read first; behind a number there must be its end. -/
theorem ofChars_spelled_append (h : t.Spelled ls) (hrest : t.isNumber = true → Numeral.Stops rest) :
    ofChars (ls ++ rest) = t :: ofChars rest := by
  obtain ⟨c, cs, rfl, hblank, hscan⟩ := h.scan_append hrest
  exact ofChars_of_scan_eq_some hblank hscan

/-- No number goes on with a token that is none. -/
theorem Spelled.stops (h : t.Spelled ls) (ht : t.isNumber = false) :
    Numeral.Stops (ls ++ rest) := by
  cases h with
  | number h => contradiction
  | _ =>
      intro c hc
      cases hc
      decide

/-- No number goes on with blanks. -/
theorem Blanks.stops (h : Blanks bs) (hcs : Numeral.Stops cs) : Numeral.Stops (bs ++ cs) := by
  cases bs with
  | nil => exact hcs
  | cons b bs =>
      intro c hc
      cases hc
      obtain rfl | rfl | rfl | rfl := isBlank_iff.mp (h b List.mem_cons_self) <;> decide

/-- No number goes on with tokens of which the first is none. -/
theorem Written.stops (h : Written ts cs) (hts : ∀ t ∈ ts.head?, t.isNumber = false) :
    Numeral.Stops cs := by
  cases h with
  | nil hbs =>
      have hnil : Numeral.Stops [] := by simp [Numeral.Stops]
      simpa using hbs.stops hnil
  | cons hbs ht _ =>
      rw [List.append_assoc]
      exact hbs.stops (ht.stops (hts _ rfl))

/-- The tokens of a text are those that it was written from. -/
theorem ofChars_of_written (h : Written ts cs) (hapart : Apart ts) : ofChars cs = ts := by
  induction h with
  | @nil bs hbs =>
      have hnil : ofChars (bs ++ []) = ofChars [] := ofChars_blanks_append hbs
      simpa [ofChars] using hnil
  | @cons t ts bs ls cs hbs ht hts ih =>
      have hrest : t.isNumber = true → Numeral.Stops cs := fun hnumber =>
        hts.stops fun u hu => hapart.rel_head? hu hnumber
      rw [List.append_assoc, ofChars_blanks_append hbs, ofChars_spelled_append ht hrest,
        ih hapart.tail]

/-! ### What was read is written there -/

/-- A word that is read is written at the front of the text. -/
theorem eq_append_of_scanWord (h : scanWord cs = some (t, rest)) :
    ∃ ls, t.Spelled ls ∧ cs = ls ++ rest := by
  unfold scanWord at h
  split at h
  · cases h
    exact ⟨_, .null, rfl⟩
  · cases h
    exact ⟨_, .boolTrue, rfl⟩
  · cases h
    exact ⟨_, .boolFalse, rfl⟩
  · contradiction

/-- A mark is written as one character. -/
theorem spelled_of_ofMark?_eq_some (h : ofMark? c = some t) : t.Spelled [c] := by
  unfold ofMark? at h
  split at h
  · cases h
    exact .openBrace
  · cases h
    exact .closeBrace
  · cases h
    exact .openBracket
  · cases h
    exact .closeBracket
  · cases h
    exact .comma
  · cases h
    exact .colon
  · contradiction

/-- A token that is read is written at the front of the text. -/
theorem eq_append_of_scan (h : scan c cs = some (t, rest)) :
    ∃ ls, t.Spelled ls ∧ c :: cs = ls ++ rest := by
  unfold scan at h
  split at h
  · rename_i hmark
    cases h
    exact ⟨[c], spelled_of_ofMark?_eq_some hmark, rfl⟩
  · split at h
    · rename_i hquote
      obtain ⟨⟨q, rest'⟩, hscan, heq⟩ := Option.map_eq_some_iff.mp h
      cases heq
      obtain ⟨ls, hls, rfl⟩ := Quoted.eq_append_of_scan hscan
      exact ⟨'"' :: ls ++ ['"'], .quoted hls, by simp [hquote]⟩
    · split at h
      · obtain ⟨⟨n, rest'⟩, hscan, heq⟩ := Option.map_eq_some_iff.mp h
        cases heq
        obtain ⟨ls, hls, hcs⟩ := Numeral.eq_append_of_scan hscan
        exact ⟨ls, .number hls, hcs⟩
      · exact eq_append_of_scanWord h

/-- A blank may stand before the tokens. -/
theorem Written.blank_cons (h : Written ts cs) (hc : isBlank c = true) : Written ts (c :: cs) := by
  cases h with
  | nil hbs => exact .nil (List.forall_mem_cons.mpr ⟨hc, hbs⟩)
  | @cons t ts bs ls cs hbs ht hts =>
      have hbs' : Blanks (c :: bs) := List.forall_mem_cons.mpr ⟨hc, hbs⟩
      exact .cons hbs' ht hts

/-- A text in which no fault was found is a text of its tokens. -/
theorem written_ofChars (h : junk ∉ ofChars cs) : Written (ofChars cs) cs := by
  fun_induction ofChars cs with
  | case1 => exact .nil (by simp [Blanks])
  | case2 c cs hc ih =>
      exact (ih h).blank_cons hc
  | case3 c cs hc t rest hscan ih =>
      obtain ⟨ls, hls, hcs⟩ := eq_append_of_scan hscan
      have hrest : Written (ofChars rest) rest := ih fun hmem => h (List.mem_cons_of_mem t hmem)
      rw [hcs]
      have hbs : Blanks [] := by simp [Blanks]
      exact .cons hbs hls hrest
  | case4 => exact absurd List.mem_cons_self h

end Token

end GraphBoard.Json
