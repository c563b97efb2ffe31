import GraphBoard.Proofs.Document.Rewriting

/-!
# GraphBoard.Proofs.Document.Key

Keys that are written as whole numbers.  Such a key is held as it is written, which is also how the
number itself would be written: a whole number has one text only, minus zero apart, and minus zero
is no key.

* `parse_wholeKey_iff` — the whole numbers that are keys;
* `integerKey_exact` — which numbers are keys, and what the keys are.
-/

namespace GraphBoard.Document

open Json Numeral

variable {n : Numeral} {s : String}

/-- A number by itself is a value. -/
theorem written_of_spelled (h : n.Spelled s.toList) : (Value.number n).Written s where
  complete := .number n
  tokens := by
    have htokens : Token.Written [.number n] ([] ++ s.toList ++ []) :=
      .cons (by simp [Token.Blanks]) (.number h) (.nil (by simp [Token.Blanks]))
    simpa [Value.tokens] using htokens

/-- Which whole numbers are keys, and that they are held as they are written. -/
theorem parse_wholeKey_iff (opened : Nat) (h : n.Spelled s.toList) (hwhole : n.isWhole = true)
    {k : NodeKey} : parseAs (nodeKey opened) s = .ok k ↔
      ((-2 ^ 63 ≤ intValue n ∧ intValue n ≤ 2 ^ 63 - 1) ∧ s ≠ "-0") ∧ k = s := by
  have hminus : s = "-0" ↔ s.toList = ['-', '0'] := String.toList_inj.symm
  have hint : n.IsInt ↔
      (-2 ^ 63 ≤ intValue n ∧ intValue n ≤ 2 ^ 63 - 1) ∧ s ≠ "-0" := by
    rw [Ne, hminus, eq_minusZero_iff h hwhole, Int.le_sub_one_iff]
    exact ⟨fun hn => ⟨hn.range, hn.not_minusZero⟩, fun hn => ⟨hwhole, hn.2, hn.1⟩⟩
  have hkey (hn : n.IsInt) : toString (intValue n) = s := by
    rw [hn.toString_intValue h, String.ofList_toList]
  rw [parseAs_of_written _ (written_of_spelled h), ← hint]
  by_cases hn : n.IsInt
  · simp [nodeKey_number hn, hn, hkey hn, eq_comm]
  · simp [nodeKey_number_of_not hn, hn]

/-- A number with a point or an exponent is no key. -/
theorem parse_key_of_not_whole (opened : Nat) (h : n.Spelled s.toList)
    (hwhole : n.isWhole = false) :
    parseAs (nodeKey opened) s = .error (refusal (.number n)) := by
  have hint : ¬ n.IsInt := fun hn => by simp [hn.isWhole] at hwhole
  rw [parseAs_of_written _ (written_of_spelled h), nodeKey_number_of_not hint]

/-- A whole number is a key if it is within 64 bits with a sign and is not minus zero.  The key is
held as the number is written, and this is how the number itself would be written.  It is then the
key of a string with this text, and of no other number.  No number with a point or an exponent is a
key. -/
theorem integerKey_exact (opened : Nat) {n : Numeral} {s : String} (h : n.Spelled s.toList) :
    (n.fraction = [] ∧ n.exponent = none →
      ((∃ k, parseAs (nodeKey opened) s = .ok k) ↔
        (-2 ^ 63 ≤ intValue n ∧ intValue n ≤ 2 ^ 63 - 1) ∧ s ≠ "-0") ∧
      ∀ k, parseAs (nodeKey opened) s = .ok k →
        k = s ∧ k = toString (intValue n) ∧
        (∀ (q : Quoted) (t : String), q.text? = some s → (Value.text q).Written t →
          parseAs (nodeKey opened) t = .ok k) ∧
        ∀ (m : Numeral) (t : String), m.Spelled t.toList →
          parseAs (nodeKey opened) t = .ok k → t = s) ∧
    (n.fraction ≠ [] ∨ n.exponent ≠ none → ∃ fault, parseAs (nodeKey opened) s = .error fault) := by
  constructor
  · intro hfields
    have hwhole : n.isWhole = true := by simp [isWhole, hfields]
    refine ⟨by simp [parse_wholeKey_iff opened h hwhole], fun k hk => ?_⟩
    obtain ⟨⟨hrange, hzero⟩, rfl⟩ := (parse_wholeKey_iff opened h hwhole).mp hk
    have hminus : k.toList ≠ ['-', '0'] := fun he => hzero (String.toList_inj.mp he)
    refine ⟨rfl, ?_, ?_, ?_⟩
    · rw [toString_intValue h hwhole hminus, String.ofList_toList]
    · intro q t hq ht
      rw [parseAs_of_written _ ht, nodeKey, ofQuoted_eq_ok_iff.mpr hq]
    · intro m t hm ht
      cases hmwhole : m.isWhole with
      | true => exact ((parse_wholeKey_iff opened hm hmwhole).mp ht).2.symm
      | false =>
          rw [parse_key_of_not_whole opened hm hmwhole] at ht
          contradiction
  · intro hfields
    refine ⟨_, parse_key_of_not_whole opened h (Bool.eq_false_iff.mpr fun hwhole => ?_)⟩
    simp only [isWhole, Bool.and_eq_true, List.isEmpty_iff, Option.isNone_iff_eq_none] at hwhole
    exact hfields.elim (absurd hwhole.1) (absurd hwhole.2)

/-- The least whole number that is a key, as a number, and as a string with an escape; and five with
a point, which is none. -/
theorem integerKey_exact_least :
    parseAs (nodeKey 0) "-9223372036854775808" = .ok "-9223372036854775808" ∧
      parseAs (nodeKey 0) "\"\\u002d9223372036854775808\"" = .ok "-9223372036854775808" ∧
      ∃ fault, parseAs (nodeKey 0) "5.0" = .error fault := by
  have hleast : Spelled ⟨true, "9223372036854775808".toList, [], none⟩
      "-9223372036854775808".toList :=
    .mk ⟨by decide, List.all_eq_true.mp (by decide)⟩ (by decide) .none .none
  have hfive : Spelled ⟨false, ['5'], ['0'], none⟩ "5.0".toList :=
    .mk ⟨by decide, List.forall_mem_singleton.mpr rfl⟩ (by decide)
      (.some ⟨by decide, List.forall_mem_singleton.mpr rfl⟩) .none
  obtain ⟨hiff, hkeys⟩ := (integerKey_exact 0 hleast).1 ⟨rfl, rfl⟩
  obtain ⟨k, hk⟩ := hiff.mpr ⟨by decide, by decide⟩
  obtain ⟨rfl, -, hquoted, -⟩ := hkeys k hk
  refine ⟨hk, ?_, (integerKey_exact 0 hfive).2 (.inl (by decide))⟩
  refine hquoted (.unit 0x2d :: plain "9223372036854775808") _ (by decide) ?_
  exact Value.written_of_ofChars (.text _) (by decide +kernel)

end GraphBoard.Document
