/-!
# GraphBoard.Json.Numeral

Numbers as they are written: a sign, digits, digits behind a point, and an exponent. `value?` is the
double a numeral stands for, and `int?` the integer that is read of it where an integer is wanted.
-/

namespace GraphBoard.Json

/-- A written number. -/
structure Numeral where
  /-- Whether a minus stands before it. -/
  negative : Bool
  /-- The digits before the point: a lone zero, or digits that start with another. -/
  whole : List Char
  /-- The digits behind the point, none if there is no point. -/
  fraction : List Char
  /-- The exponent, if there is one: whether a minus stands before it, and its digits. -/
  exponent : Option (Bool × List Char)
deriving DecidableEq, Repr

namespace Numeral

/-! ## Scanning -/

/-- Splits off the digits at the front of a text. -/
def digits (cs : List Char) : List Char × List Char :=
  (cs.takeWhile Char.isDigit, cs.dropWhile Char.isDigit)

/-- The digits behind a point, if a point comes next; a point without digits is refused. -/
def scanFraction : List Char → Option (List Char × List Char)
  | '.' :: cs =>
    match digits cs with
    | ([], _) => none
    | (ds, rest) => some (ds, rest)
  | cs => some ([], cs)

/-- The sign that may stand before the digits of an exponent: whether it is a minus. -/
def scanSign : List Char → Bool × List Char
  | '-' :: cs => (true, cs)
  | '+' :: cs => (false, cs)
  | cs => (false, cs)

/-- The exponent, if one comes next; an exponent without digits is refused. -/
def scanExponent : List Char → Option (Option (Bool × List Char) × List Char)
  | c :: cs =>
    if c = 'e' ∨ c = 'E' then
      let (down, cs) := scanSign cs
      match digits cs with
      | ([], _) => none
      | (ds, rest) => some (some (down, ds), rest)
    else some (none, c :: cs)
  | [] => some (none, [])

/-- The digits before the point: at least one, and no further one behind a leading zero. -/
def scanWhole (cs : List Char) : Option (List Char × List Char) :=
  match digits cs with
  | ([], _) => none
  | ('0' :: _ :: _, _) => none
  | (ds, rest) => some (ds, rest)

/-- The number at the front of a text, and the rest behind it. -/
def scan (cs : List Char) : Option (Numeral × List Char) :=
  let (negative, cs) :=
    match cs with
    | '-' :: cs => (true, cs)
    | cs => (false, cs)
  do
    let (whole, cs) ← scanWhole cs
    let (fraction, cs) ← scanFraction cs
    let (exponent, cs) ← scanExponent cs
    return (⟨negative, whole, fraction, exponent⟩, cs)

/-! ## What is left is shorter -/

theorem length_digits_le (cs : List Char) : (digits cs).2.length ≤ cs.length :=
  (List.dropWhile_sublist _).length_le

/-- If there are digits, what remains is shorter. -/
theorem length_digits_lt {cs : List Char} (h : (digits cs).1 ≠ []) :
    (digits cs).2.length < cs.length := by
  have hl : ((digits cs).1 ++ (digits cs).2).length = cs.length :=
    congrArg List.length List.takeWhile_append_dropWhile
  have hp := List.length_pos_iff.2 h
  simp only [List.length_append] at hl
  omega

/-- The digits before the point are at least one character. -/
theorem length_scanWhole {cs ds rest : List Char} (h : scanWhole cs = some (ds, rest)) :
    rest.length < cs.length := by
  unfold scanWhole at h
  split at h
  · cases h
  · cases h
  · rename_i ds' rest' h1 _ hd
    simp only [Option.some.injEq, Prod.mk.injEq] at h
    obtain ⟨rfl, rfl⟩ := h
    have := length_digits_lt (show (digits cs).1 ≠ [] by rw [hd]; exact h1)
    rwa [hd] at this

/-- What remains behind the fraction is not longer. -/
theorem length_scanFraction {cs ds rest : List Char} (h : scanFraction cs = some (ds, rest)) :
    rest.length ≤ cs.length := by
  unfold scanFraction at h
  split at h
  · rename_i cs'
    split at h
    · cases h
    · rename_i hd
      simp only [Option.some.injEq, Prod.mk.injEq] at h
      obtain ⟨rfl, rfl⟩ := h
      have := length_digits_le cs'
      rw [hd] at this
      exact Nat.le_succ_of_le this
  · simp only [Option.some.injEq, Prod.mk.injEq] at h
    exact Nat.le_of_eq (congrArg List.length h.2.symm)

theorem length_scanSign_le (cs : List Char) : (scanSign cs).2.length ≤ cs.length := by
  unfold scanSign
  split <;> simp

/-- What remains behind the exponent is not longer. -/
theorem length_scanExponent {cs rest : List Char} {e : Option (Bool × List Char)}
    (h : scanExponent cs = some (e, rest)) : rest.length ≤ cs.length := by
  unfold scanExponent at h
  split at h
  · rename_i c cs'
    split at h
    · dsimp only at h
      split at h
      · cases h
      · rename_i hd
        simp only [Option.some.injEq, Prod.mk.injEq] at h
        obtain ⟨rfl, rfl⟩ := h
        have h1 := length_digits_le (scanSign cs').2
        have h2 := length_scanSign_le cs'
        rw [hd] at h1
        exact Nat.le_succ_of_le (Nat.le_trans h1 h2)
    · simp only [Option.some.injEq, Prod.mk.injEq] at h
      exact Nat.le_of_eq (congrArg List.length h.2.symm)
  · simp only [Option.some.injEq, Prod.mk.injEq] at h
    exact Nat.le_of_eq (congrArg List.length h.2.symm)

/-- A number is at least one character. -/
theorem length_scan {cs rest : List Char} {n : Numeral} (h : scan cs = some (n, rest)) :
    rest.length < cs.length := by
  have key : ∀ {negative : Bool} {ds : List Char},
      (do
        let (whole, cs) ← scanWhole ds
        let (fraction, cs) ← scanFraction cs
        let (exponent, cs) ← scanExponent cs
        return (Numeral.mk negative whole fraction exponent, cs)) = some (n, rest) →
      rest.length < ds.length := by
    intro negative ds hd
    simp only [Option.bind_eq_bind, Option.bind_eq_some_iff, Prod.exists, Option.pure_def,
      Option.some.injEq, Prod.mk.injEq] at hd
    obtain ⟨_, _, h1, _, _, h2, _, _, h3, -, rfl⟩ := hd
    have := length_scanWhole h1
    have := length_scanFraction h2
    have := length_scanExponent h3
    omega
  unfold scan at h
  split at h
  rename_i hc
  split at hc
  · simp only [Prod.mk.injEq] at hc
    obtain ⟨rfl, rfl⟩ := hc
    have := key h
    simp only [List.length_cons]
    omega
  · simp only [Prod.mk.injEq] at hc
    obtain ⟨rfl, rfl⟩ := hc
    exact key h

/-! ## Value -/

/-- The value of a decimal digit. -/
def digitValue (c : Char) : Nat := c.toNat - '0'.toNat

/-- The whole number that digits stand for. -/
def natValue (ds : List Char) : Nat := ds.foldl (fun n d => 10 * n + digitValue d) 0

/-- Whether it is written without a point and without an exponent. -/
def isWhole (n : Numeral) : Bool := n.fraction.isEmpty && n.exponent.isNone

/-- What 64 bits hold of the digits, and the power of ten that makes up for the rest. -/
structure Significand where
  /-- The leading digits. -/
  digits : Nat
  /-- The power of ten. -/
  exponent : Int
  /-- Whether a digit has been left out. -/
  full : Bool
deriving DecidableEq, Repr

namespace Significand

/-- Takes up a digit, if it fits and none has been left out. -/
def push? (s : Significand) (c : Char) : Option Nat :=
  let n := s.digits * 10 + digitValue c
  if s.full = false ∧ n < 0x10000000000000000 then some n else none

/-- A digit before the point: one that is left out still moves the others up. -/
def pushWhole (s : Significand) (c : Char) : Significand :=
  match s.push? c with
  | some n => { s with digits := n }
  | none => { s with exponent := s.exponent + 1, full := true }

/-- A digit behind the point. -/
def pushFraction (s : Significand) (c : Char) : Significand :=
  match s.push? c with
  | some n => { s with digits := n, exponent := s.exponent - 1 }
  | none => { s with full := true }

end Significand

/-- The leading digits of a numeral and their power of ten. -/
def significand (n : Numeral) : Significand :=
  let whole := n.whole.foldl Significand.pushWhole ⟨0, 0, false⟩
  let all := n.fraction.foldl Significand.pushFraction { whole with full := false }
  match n.exponent with
  | none => all
  | some (true, ds) => { all with exponent := all.exponent - natValue ds }
  | some (false, ds) => { all with exponent := all.exponent + natValue ds }

/-- The double nearest to a power of ten, up to the 308th. -/
def tenPow (e : Nat) : Float := Float.ofScientific 1 false e

/-- The magnitude of a significand, by one product or quotient with a power of ten; where the power
is too small for a double, by a quotient for each part of it. There is none where the result is too
large for a double. -/
def Significand.magnitude? (s : Significand) : Option Float :=
  let f := Float.ofNat s.digits
  if 308 < s.exponent then
    if s.digits = 0 then some f else none
  else if 0 ≤ s.exponent then
    let product := f * tenPow s.exponent.toNat
    if product.isInf then none else some product
  else if -308 ≤ s.exponent then
    some (f / tenPow (-s.exponent).toNat)
  else if -616 ≤ s.exponent then
    some (f / tenPow 308 / tenPow (-s.exponent - 308).toNat)
  else
    some 0.0

/-- The double that a numeral stands for, if it is in range. -/
def value? (n : Numeral) : Option Float :=
  n.significand.magnitude?.map fun m => if n.negative then -m else m

/-! ## Integers -/

/-- How many numbers 64 bits tell apart. -/
def wordSize : Nat := 0x10000000000000000

/-- What a number is taken for where no kind of number is asked for. -/
inductive Reading where
  /-- 64 bits without a sign. -/
  | unsigned (n : Nat)
  /-- 64 bits with a sign. -/
  | signed (i : Int)
  /-- A double. -/
  | floating (x : Float)
deriving DecidableEq, Repr

/-- Takes a number for 64 bits without a sign, or with one if it is negative, as long as it is whole
and 64 bits hold its digits, and else for a double. The sign is changed within the 64 bits; what is
not below zero then, minus zero and what has too many digits, is a double as well. -/
def reading? (n : Numeral) : Option Reading :=
  let size := natValue n.whole
  if n.isWhole && size < wordSize then
    if n.negative then
      let opposite := (-(size : Int)).bmod wordSize
      if 0 ≤ opposite then n.value?.map .floating else some (.signed opposite)
    else some (.unsigned size)
  else n.value?.map .floating

/-- What a number without a sign has to stay below to be held in 64 bits with one. -/
def signedLimit : Nat := 0x8000000000000000

/-- The integer with a sign that is made of a number; a double is never made one. -/
def Reading.int? : Reading → Option Int
  | .unsigned n => if n < signedLimit then some n else none
  | .signed i => some i
  | .floating _ => none

/-- The integer with a sign that is read of a number. -/
def int? (n : Numeral) : Option Int := n.reading?.bind Reading.int?

end Numeral

end GraphBoard.Json
