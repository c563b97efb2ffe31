import GraphBoard.Json.Quoted
import GraphBoard.Json.Numeral

/-!
# GraphBoard.Proofs.Json.Spelled

How numbers and strings are written, and that scanning is exact: what is scanned off the front of a
text is what the text starts with.

* `Numeral.scan_append`, `Numeral.eq_append_of_scan` — a number is scanned where it is written,
  unless the text goes on with it, and only there;
* `Quoted.scan_append`, `Quoted.eq_append_of_scan` — a string is scanned where it is written up to
  its closing quote, and only there.
-/

namespace GraphBoard.Json

/-! ## Numbers -/

namespace Numeral

/-- At least one digit, and digits alone. -/
structure Digits (ds : List Char) : Prop where
  ne_nil : ds ≠ []
  isDigit : ∀ c ∈ ds, c.isDigit = true

/-- How the digits behind a point are written. -/
inductive FractionSpelled : List Char → List Char → Prop where
  | none : FractionSpelled [] []
  | some {ds : List Char} (h : Digits ds) : FractionSpelled ds ('.' :: ds)

/-- How the sign of an exponent is written. -/
inductive SignSpelled : Bool → List Char → Prop where
  | none : SignSpelled false []
  | plus : SignSpelled false ['+']
  | minus : SignSpelled true ['-']

/-- How an exponent is written. -/
inductive ExponentSpelled : Option (Bool × List Char) → List Char → Prop where
  | none : ExponentSpelled none []
  | some {c : Char} {down : Bool} {sign ds : List Char} (hc : c = 'e' ∨ c = 'E')
      (hsign : SignSpelled down sign) (h : Digits ds) :
      ExponentSpelled (some (down, ds)) (c :: sign ++ ds)

/-- How a number is written. -/
inductive Spelled : Numeral → List Char → Prop where
  | mk {negative : Bool} {whole fraction fs es : List Char}
      {exponent : Option (Bool × List Char)} (hwhole : Digits whole)
      (hzero : whole.head? = some '0' → whole = ['0']) (hfraction : FractionSpelled fraction fs)
      (hexponent : ExponentSpelled exponent es) :
      Spelled ⟨negative, whole, fraction, exponent⟩
        ((if negative then ['-'] else []) ++ whole ++ fs ++ es)

/-- A text that no number could go on with. -/
def Stops (cs : List Char) : Prop :=
  ∀ c ∈ cs.head?, c.isDigit = false ∧ c ≠ '.' ∧ c ≠ 'e' ∧ c ≠ 'E'

variable {cs ds rest : List Char}

/-- A number without a point and without an exponent is written as its sign and its digits. -/
theorem Spelled.of_isWhole {n : Numeral} {ls : List Char} (h : n.Spelled ls)
    (hn : n.isWhole = true) : Digits n.whole ∧ (n.whole.head? = some '0' → n.whole = ['0']) ∧
      ls = (if n.negative then ['-'] else []) ++ n.whole := by
  obtain @⟨negative, whole, fraction, fs, es, exponent, hwhole, hzero, hfraction, hexponent⟩ := h
  refine ⟨hwhole, hzero, ?_⟩
  simp only [isWhole, Bool.and_eq_true, List.isEmpty_iff, Option.isNone_iff_eq_none] at hn
  obtain ⟨rfl, rfl⟩ := hn
  cases hexponent with
  | none =>
      cases hfraction with
      | none => simp only [List.append_nil]
      | some h => exact absurd rfl h.ne_nil

/-! ### One scanner after another -/

/-- The digits before the point are all that there are, and start with zero only if that is the only
one. -/
theorem scanWhole_eq_some_iff : scanWhole cs = some (ds, rest) ↔
    digits cs = (ds, rest) ∧ ds ≠ [] ∧ (ds.head? = some '0' → ds = ['0']) := by
  rw [scanWhole]
  split
  · rename_i heq
    rw [heq]
    simp only [reduceCtorEq, false_iff]
    rintro ⟨h, hnil, -⟩
    exact hnil (congrArg Prod.fst h).symm
  · rename_i d tail r heq
    rw [heq]
    simp only [reduceCtorEq, false_iff]
    rintro ⟨h, -, hzero⟩
    cases h
    simpa using hzero rfl
  · rename_i ds' rest' hnil hzero heq
    rw [heq]
    refine ⟨fun h => ?_, fun h => congrArg some h.1⟩
    cases h
    refine ⟨rfl, fun hds => hnil hds, fun hhead => ?_⟩
    obtain ⟨tail, rfl⟩ := List.head?_eq_some_iff.mp hhead
    cases tail with
    | nil => rfl
    | cons d tail => exact absurd rfl (hzero d tail)

/-- Behind a point there is at least one digit. -/
theorem scanFraction_point_iff : scanFraction ('.' :: cs) = some (ds, rest) ↔
    digits cs = (ds, rest) ∧ ds ≠ [] := by
  rw [scanFraction]
  split
  · rename_i heq
    rw [heq]
    simp only [reduceCtorEq, false_iff]
    rintro ⟨h, hnil⟩
    exact hnil (congrArg Prod.fst h).symm
  · rename_i hnil heq
    rw [heq]
    refine ⟨fun h => ?_, fun h => congrArg some h.1⟩
    cases h
    exact ⟨rfl, fun hds => hnil hds⟩

/-- Without a point there is no fraction. -/
theorem scanFraction_of_ne (h : ∀ tail, cs ≠ '.' :: tail) : scanFraction cs = some ([], cs) := by
  rw [scanFraction]
  exact h

/-- Behind the letter of an exponent there may be a sign, and there is at least one digit. -/
theorem scanExponent_mark_iff {c : Char} {e : Option (Bool × List Char)} (hc : c = 'e' ∨ c = 'E') :
    scanExponent (c :: cs) = some (e, rest) ↔
      ∃ ds, e = some ((scanSign cs).1, ds) ∧ digits (scanSign cs).2 = (ds, rest) ∧ ds ≠ [] := by
  rw [scanExponent, if_pos hc]
  dsimp only
  split
  · rename_i heq
    rw [heq]
    simp only [reduceCtorEq, false_iff]
    rintro ⟨ds, -, h, hnil⟩
    exact hnil (congrArg Prod.fst h).symm
  · rename_i hnil heq
    rw [heq]
    constructor
    · intro h
      cases h
      exact ⟨_, rfl, rfl, fun hds => hnil hds⟩
    · rintro ⟨ds, rfl, h, -⟩
      cases h
      rfl

/-- Without its letter there is no exponent. -/
theorem scanExponent_of_ne (h : ∀ c ∈ cs.head?, ¬ (c = 'e' ∨ c = 'E')) :
    scanExponent cs = some (none, cs) := by
  cases cs with
  | nil => rfl
  | cons c cs => rw [scanExponent, if_neg (h c rfl)]

/-- The number at the front of a text, after its sign. -/
def scanUnsigned (negative : Bool) (cs : List Char) : Option (Numeral × List Char) := do
  let (whole, cs) ← scanWhole cs
  let (fraction, cs) ← scanFraction cs
  let (exponent, cs) ← scanExponent cs
  return (⟨negative, whole, fraction, exponent⟩, cs)

/-- A minus is the sign of the number behind it. -/
theorem scan_minus : scan ('-' :: cs) = scanUnsigned true cs := rfl

/-- A number without a minus is not negative. -/
theorem scan_of_ne (h : ∀ tail, cs ≠ '-' :: tail) : scan cs = scanUnsigned false cs := by
  rw [scan]
  · rfl
  · exact h

/-- A number without its sign is read part by part. -/
theorem scanUnsigned_eq_some_iff {negative : Bool} {n : Numeral} :
    scanUnsigned negative cs = some (n, rest) ↔ ∃ whole cs₁ fraction cs₂ exponent,
      scanWhole cs = some (whole, cs₁) ∧ scanFraction cs₁ = some (fraction, cs₂) ∧
        scanExponent cs₂ = some (exponent, rest) ∧ ⟨negative, whole, fraction, exponent⟩ = n := by
  simp only [scanUnsigned, Option.bind_eq_bind, Option.bind_eq_some_iff, Prod.exists,
    Option.pure_def, Option.some.injEq, Prod.mk.injEq]
  constructor
  · rintro ⟨whole, cs₁, h₁, fraction, cs₂, h₂, exponent, cs₃, h₃, hn, rfl⟩
    exact ⟨whole, cs₁, fraction, cs₂, exponent, h₁, h₂, h₃, hn⟩
  · rintro ⟨whole, cs₁, fraction, cs₂, exponent, h₁, h₂, h₃, hn⟩
    exact ⟨whole, cs₁, h₁, fraction, cs₂, h₂, exponent, rest, h₃, hn, rfl⟩

/-! ### What is written is read -/

/-- Digits are taken up to the first character that is none. -/
theorem digits_append (hds : ∀ c ∈ ds, c.isDigit = true)
    (hrest : ∀ c ∈ rest.head?, c.isDigit = false) : digits (ds ++ rest) = (ds, rest) := by
  have hstop : rest.takeWhile Char.isDigit = [] ∧ rest.dropWhile Char.isDigit = rest := by
    cases rest with
    | nil => exact ⟨rfl, rfl⟩
    | cons c cs => simp [hrest c rfl]
  rw [digits, List.takeWhile_append_of_pos hds, List.dropWhile_append_of_pos hds, hstop.1, hstop.2,
    List.append_nil]

/-- A fraction is read as it is written. -/
theorem scanFraction_append {fs : List Char} (h : FractionSpelled ds fs)
    (hdigit : ∀ c ∈ rest.head?, c.isDigit = false) (hpoint : ∀ c ∈ rest.head?, c ≠ '.') :
    scanFraction (fs ++ rest) = some (ds, rest) := by
  cases h with
  | none =>
      rw [List.nil_append]
      exact scanFraction_of_ne fun tail he => hpoint '.' (by rw [he]; rfl) rfl
  | some h => exact scanFraction_point_iff.mpr ⟨digits_append h.isDigit hdigit, h.ne_nil⟩

/-- The sign of an exponent is read as it is written. -/
theorem scanSign_append {down : Bool} {sign : List Char} (h : SignSpelled down sign)
    (hds : Digits ds) : scanSign (sign ++ (ds ++ rest)) = (down, ds ++ rest) := by
  cases h with
  | plus => rfl
  | minus => rfl
  | none =>
      obtain ⟨d, tail, rfl⟩ := List.exists_cons_of_ne_nil hds.ne_nil
      have hd : d.isDigit = true := hds.isDigit d List.mem_cons_self
      rw [List.nil_append, List.cons_append, scanSign]
      · intro cs hcs
        cases hcs
        contradiction
      · intro cs hcs
        cases hcs
        contradiction

/-- An exponent is read as it is written. -/
theorem scanExponent_append {e : Option (Bool × List Char)} {es : List Char}
    (h : ExponentSpelled e es) (hrest : Stops rest) :
    scanExponent (es ++ rest) = some (e, rest) := by
  cases h with
  | none => exact scanExponent_of_ne fun c hc => not_or.mpr (hrest c hc).2.2
  | @some c down sign ds hc hsign hds =>
      have hscan : scanSign (sign ++ (ds ++ rest)) = (down, ds ++ rest) :=
        scanSign_append hsign hds
      rw [List.append_assoc, List.cons_append, scanExponent_mark_iff hc, hscan]
      exact ⟨ds, rfl, digits_append hds.isDigit fun c hc => (hrest c hc).1, hds.ne_nil⟩

/-- An exponent starts with neither a digit nor a point. -/
theorem ExponentSpelled.head_append {e : Option (Bool × List Char)} {es : List Char}
    (h : ExponentSpelled e es) (hrest : Stops rest) :
    ∀ c ∈ (es ++ rest).head?, c.isDigit = false ∧ c ≠ '.' := by
  cases h with
  | none => exact fun c hc => ⟨(hrest c hc).1, (hrest c hc).2.1⟩
  | some hc _ _ =>
      intro d hd
      cases hd
      rcases hc with rfl | rfl <;> decide

/-- A fraction does not start with a digit. -/
theorem FractionSpelled.head_append {fs : List Char} (h : FractionSpelled ds fs)
    (hrest : ∀ c ∈ rest.head?, c.isDigit = false) :
    ∀ c ∈ (fs ++ rest).head?, c.isDigit = false := by
  cases h with
  | none => exact hrest
  | some _ =>
      intro d hd
      cases hd
      decide

/-- A number is read off a text that starts with it, unless the text goes on with it. -/
theorem scan_append {n : Numeral} {ls : List Char} (h : n.Spelled ls) (hrest : Stops rest) :
    scan (ls ++ rest) = some (n, rest) := by
  obtain @⟨negative, whole, fraction, fs, es, exponent, hwhole, hzero, hfraction, hexponent⟩ := h
  have hafter := hexponent.head_append hrest
  have hdigits : digits (whole ++ (fs ++ (es ++ rest))) = (whole, fs ++ (es ++ rest)) :=
    digits_append hwhole.isDigit (hfraction.head_append fun c hc => (hafter c hc).1)
  have hunsigned : scanUnsigned negative (whole ++ (fs ++ (es ++ rest))) =
      some (⟨negative, whole, fraction, exponent⟩, rest) :=
    scanUnsigned_eq_some_iff.mpr ⟨whole, fs ++ (es ++ rest), fraction, es ++ rest, exponent,
      scanWhole_eq_some_iff.mpr ⟨hdigits, hwhole.ne_nil, hzero⟩,
      scanFraction_append hfraction (fun c hc => (hafter c hc).1) fun c hc => (hafter c hc).2,
      scanExponent_append hexponent hrest, rfl⟩
  simp only [List.append_assoc]
  cases negative with
  | true => exact hunsigned
  | false =>
      obtain ⟨d, tail, rfl⟩ := List.exists_cons_of_ne_nil hwhole.ne_nil
      have hd : d.isDigit = true := hwhole.isDigit d List.mem_cons_self
      have hsign : d ≠ '-' := fun he => by rw [he] at hd; contradiction
      rw [if_neg Bool.false_ne_true, List.nil_append, scan_of_ne]
      · exact hunsigned
      · exact fun cs hcs => hsign (List.cons.inj hcs).1

/-- A number starts with a minus or a digit. -/
theorem Spelled.exists_cons {n : Numeral} {ls : List Char} (h : n.Spelled ls) :
    ∃ c cs, ls = c :: cs ∧ (c = '-' ∨ c.isDigit = true) := by
  obtain @⟨negative, whole, fraction, fs, es, exponent, hwhole, -, -, -⟩ := h
  cases negative with
  | true => exact ⟨'-', whole ++ fs ++ es, rfl, Or.inl rfl⟩
  | false =>
      obtain ⟨d, tail, rfl⟩ := List.exists_cons_of_ne_nil hwhole.ne_nil
      exact ⟨d, tail ++ fs ++ es, rfl, Or.inr (hwhole.isDigit d List.mem_cons_self)⟩

/-! ### What was read is written there -/

/-- The digits that are taken, and what remains, are the text. -/
theorem eq_append_of_digits (h : digits cs = (ds, rest)) :
    cs = ds ++ rest ∧ ∀ c ∈ ds, c.isDigit = true := by
  cases h
  exact ⟨List.takeWhile_append_dropWhile.symm, List.all_eq_true.mp List.all_takeWhile⟩

/-- A fraction that is read is written at the front of the text. -/
theorem eq_append_of_scanFraction (h : scanFraction cs = some (ds, rest)) :
    ∃ fs, FractionSpelled ds fs ∧ cs = fs ++ rest := by
  by_cases hpoint : ∃ tail, cs = '.' :: tail
  · obtain ⟨tail, rfl⟩ := hpoint
    obtain ⟨hdigits, hnil⟩ := scanFraction_point_iff.mp h
    obtain ⟨rfl, hdigit⟩ := eq_append_of_digits hdigits
    exact ⟨'.' :: ds, .some ⟨hnil, hdigit⟩, rfl⟩
  · rw [scanFraction_of_ne (not_exists.mp hpoint)] at h
    cases h
    exact ⟨[], .none, rfl⟩

/-- The sign that is read is written at the front of the text. -/
theorem eq_append_scanSign (cs : List Char) :
    ∃ sign, SignSpelled (scanSign cs).1 sign ∧ cs = sign ++ (scanSign cs).2 := by
  unfold scanSign
  split
  · exact ⟨['-'], .minus, rfl⟩
  · exact ⟨['+'], .plus, rfl⟩
  · exact ⟨[], .none, rfl⟩

/-- An exponent that is read is written at the front of the text. -/
theorem eq_append_of_scanExponent {e : Option (Bool × List Char)}
    (h : scanExponent cs = some (e, rest)) : ∃ es, ExponentSpelled e es ∧ cs = es ++ rest := by
  cases cs with
  | nil =>
      cases h
      exact ⟨[], .none, rfl⟩
  | cons c cs =>
      by_cases hc : c = 'e' ∨ c = 'E'
      · obtain ⟨ds, rfl, hdigits, hnil⟩ := (scanExponent_mark_iff hc).mp h
        obtain ⟨hrest, hdigit⟩ := eq_append_of_digits hdigits
        obtain ⟨sign, hsign, hcs⟩ := eq_append_scanSign cs
        refine ⟨c :: sign ++ ds, .some hc hsign ⟨hnil, hdigit⟩, ?_⟩
        rw [List.append_assoc, ← hrest]
        exact congrArg (c :: ·) hcs
      · rw [scanExponent, if_neg hc] at h
        cases h
        exact ⟨[], .none, rfl⟩

/-- A number that is read without its sign is written at the front of the text. -/
theorem eq_append_of_scanUnsigned {negative : Bool} {n : Numeral}
    (h : scanUnsigned negative cs = some (n, rest)) :
    ∃ ls, n.Spelled ((if negative then ['-'] else []) ++ ls) ∧ cs = ls ++ rest := by
  obtain ⟨whole, cs₁, fraction, cs₂, exponent, h₁, h₂, h₃, rfl⟩ := scanUnsigned_eq_some_iff.mp h
  obtain ⟨hdigits, hnil, hzero⟩ := scanWhole_eq_some_iff.mp h₁
  obtain ⟨rfl, hdigit⟩ := eq_append_of_digits hdigits
  obtain ⟨fs, hfraction, rfl⟩ := eq_append_of_scanFraction h₂
  obtain ⟨es, hexponent, rfl⟩ := eq_append_of_scanExponent h₃
  refine ⟨whole ++ fs ++ es, ?_, by simp only [List.append_assoc]⟩
  have hspelled : Spelled ⟨negative, whole, fraction, exponent⟩ _ :=
    .mk ⟨hnil, hdigit⟩ hzero hfraction hexponent
  rwa [List.append_assoc, List.append_assoc, ← List.append_assoc whole] at hspelled

/-- A number that is read is written at the front of the text. -/
theorem eq_append_of_scan {n : Numeral} (h : scan cs = some (n, rest)) :
    ∃ ls, n.Spelled ls ∧ cs = ls ++ rest := by
  by_cases hsign : ∃ tail, cs = '-' :: tail
  · obtain ⟨tail, rfl⟩ := hsign
    obtain ⟨ls, hspelled, rfl⟩ := eq_append_of_scanUnsigned (scan_minus.symm.trans h)
    exact ⟨'-' :: ls, hspelled, rfl⟩
  · rw [scan_of_ne (not_exists.mp hsign)] at h
    exact eq_append_of_scanUnsigned h

end Numeral

/-! ## Strings -/

/-- How a part of a string is written. -/
inductive Piece.Spelled : Piece → List Char → Prop where
  | plain {c : Char} (hprintable : ¬ c < ' ') (hquote : c ≠ '"') (hslash : c ≠ '\\') :
      Spelled (.char c) [c]
  | escaped {e c : Char} (h : Quoted.escaped? e = some c) : Spelled (.char c) ['\\', e]
  | unit {a b c d : Char} {u : Nat} (h : Quoted.unit? a b c d = some u) :
      Spelled (.unit u) ['\\', 'u', a, b, c, d]

namespace Quoted

/-- How a string is written between its quotes. -/
inductive Spelled : Quoted → List Char → Prop where
  | nil : Spelled [] []
  | cons {p : Piece} {q : Quoted} {ps cs : List Char} (hp : p.Spelled ps) (hq : Spelled q cs) :
      Spelled (p :: q) (ps ++ cs)

/-- A string is read off a text up to the closing quote. -/
theorem scan_append {q : Quoted} {cs : List Char} (h : Spelled q cs) (rest : List Char) :
    scan (cs ++ '"' :: rest) = some (q, rest) := by
  induction h with
  | nil => rw [List.nil_append, scan]
  | cons hp _ ih =>
      cases hp with
      | @plain c hprintable hquote hslash =>
          have hkept : ¬ (c < ' ' ∨ c = '\\') := by simp [hprintable, hslash]
          rw [List.append_assoc, List.singleton_append, scan]
          · simp only [if_neg hkept, ih, Option.bind_eq_bind, Option.bind_some, Option.pure_def]
          all_goals
            intros
            contradiction
      | @escaped e c he =>
          have hunit : e ≠ 'u' := fun hu => by rw [hu] at he; contradiction
          rw [List.append_assoc, List.cons_append, List.singleton_append, scan]
          · simp only [he, ih, Option.bind_eq_bind, Option.bind_some, Option.pure_def]
          · intros
            contradiction
      | unit hu =>
          simp only [List.cons_append, List.nil_append]
          rw [scan]
          simp only [hu, ih, Option.bind_eq_bind, Option.bind_some, Option.pure_def]

/-- What was read of a string stands there, and the closing quote behind it. -/
theorem eq_append_of_scan {cs rest : List Char} {q : Quoted} (h : scan cs = some (q, rest)) :
    ∃ ls, Spelled q ls ∧ cs = ls ++ '"' :: rest := by
  fun_induction scan cs generalizing q rest with
  | case1 => contradiction
  | case2 cs =>
      cases h
      exact ⟨[], .nil, rfl⟩
  | case3 a b c d cs ih =>
      simp only [Option.bind_eq_bind, Option.bind_eq_some_iff, Prod.exists, Option.pure_def,
        Option.some.injEq, Prod.mk.injEq] at h
      obtain ⟨u, hu, q, rest, hq, rfl, rfl⟩ := h
      obtain ⟨ls, hls, rfl⟩ := ih hq
      exact ⟨['\\', 'u', a, b, c, d] ++ ls, .cons (.unit hu) hls, rfl⟩
  | case4 e cs _ ih =>
      simp only [Option.bind_eq_bind, Option.bind_eq_some_iff, Prod.exists, Option.pure_def,
        Option.some.injEq, Prod.mk.injEq] at h
      obtain ⟨c, hc, q, rest, hq, rfl, rfl⟩ := h
      obtain ⟨ls, hls, rfl⟩ := ih hq
      exact ⟨['\\', e] ++ ls, .cons (.escaped hc) hls, rfl⟩
  | case5 => contradiction
  | case6 c cs hquote _ _ hkept ih =>
      simp only [Option.bind_eq_bind, Option.bind_eq_some_iff, Prod.exists, Option.pure_def,
        Option.some.injEq, Prod.mk.injEq] at h
      obtain ⟨q, rest, hq, rfl, rfl⟩ := h
      obtain ⟨ls, hls, rfl⟩ := ih hq
      rw [not_or] at hkept
      exact ⟨[c] ++ ls, .cons (.plain hkept.1 hquote hkept.2) hls, rfl⟩

end Quoted

end GraphBoard.Json
