import GraphBoard.Proofs.Json.Written

/-!
# GraphBoard.Proofs.Json.Front

The tokens of a text that breaks off.  Up to the place where it does they are those of the whole
text; the token in which it breaks off cannot be read, or it is a number and a shorter number is
read.

* `Numeral.scan_append_right`, `Token.scan_append_right` — what is read stays the same if the text
  goes on, unless it was a number at the very end;
* `Numeral.Front.of_isWhole` — what is read of a whole number that breaks off is whole;
* `Token.front_ofChars` — the tokens of a front part of a text, against those of the text.
-/

namespace GraphBoard.Json

/-! ## Texts that go on -/

namespace Numeral

variable {cs ds rest : List Char}

/-- What follows a text in which the digits end does not change them. -/
theorem digits_append_right (h : digits cs = (ds, rest)) (hne : rest ≠ []) (more : List Char) :
    digits (cs ++ more) = (ds, rest ++ more) := by
  obtain ⟨c, tail, rfl⟩ := List.exists_cons_of_ne_nil hne
  have hstop : c.isDigit = false := by
    have hdrop : cs.dropWhile Char.isDigit = c :: tail := congrArg Prod.snd h
    have hhead := List.head?_dropWhile_not Char.isDigit cs
    rwa [hdrop] at hhead
  obtain ⟨rfl, hdigit⟩ := eq_append_of_digits h
  rw [List.append_assoc]
  exact digits_append hdigit fun d hd => by
    cases hd
    exact hstop

/-- What follows does not change the digits before the point, if they end in the text. -/
theorem scanWhole_append_right (h : scanWhole cs = some (ds, rest)) (hne : rest ≠ [])
    (more : List Char) : scanWhole (cs ++ more) = some (ds, rest ++ more) := by
  obtain ⟨hdigits, hds⟩ := scanWhole_eq_some_iff.mp h
  exact scanWhole_eq_some_iff.mpr ⟨digits_append_right hdigits hne more, hds⟩

/-- What follows does not change the fraction, if it ends in the text. -/
theorem scanFraction_append_right (h : scanFraction cs = some (ds, rest)) (hne : rest ≠ [])
    (more : List Char) : scanFraction (cs ++ more) = some (ds, rest ++ more) := by
  by_cases hpoint : ∃ tail, cs = '.' :: tail
  · obtain ⟨tail, rfl⟩ := hpoint
    obtain ⟨hdigits, hds⟩ := scanFraction_point_iff.mp h
    exact scanFraction_point_iff.mpr ⟨digits_append_right hdigits hne more, hds⟩
  · rw [scanFraction_of_ne (not_exists.mp hpoint)] at h
    cases h
    obtain ⟨c, tail, rfl⟩ := List.exists_cons_of_ne_nil hne
    refine scanFraction_of_ne fun tail' he => hpoint ⟨tail, ?_⟩
    rw [(List.cons.inj he).1]

/-- What follows does not change the sign of an exponent, if it ends in the text. -/
theorem scanSign_append_right (hne : (scanSign cs).2 ≠ []) (more : List Char) :
    scanSign (cs ++ more) = ((scanSign cs).1, (scanSign cs).2 ++ more) := by
  unfold scanSign at hne ⊢
  split at hne
  · rfl
  · rfl
  · rename_i hminus hplus
    obtain ⟨c, tail, rfl⟩ := List.exists_cons_of_ne_nil hne
    have hc : c ≠ '-' ∧ c ≠ '+' :=
      ⟨fun he => hminus tail (by rw [he]), fun he => hplus tail (by rw [he])⟩
    simp [hc]

/-- What follows does not change the exponent, if it ends in the text. -/
theorem scanExponent_append_right {e : Option (Bool × List Char)}
    (h : scanExponent cs = some (e, rest)) (hne : rest ≠ []) (more : List Char) :
    scanExponent (cs ++ more) = some (e, rest ++ more) := by
  cases cs with
  | nil =>
      cases h
      contradiction
  | cons c cs =>
      by_cases hc : c = 'e' ∨ c = 'E'
      · obtain ⟨ds, rfl, hdigits, hds⟩ := (scanExponent_mark_iff hc).mp h
        have hsign : (scanSign cs).2 ≠ [] := fun hnil => by
          rw [hnil] at hdigits
          exact hne (congrArg Prod.snd hdigits).symm
        rw [List.cons_append, scanExponent_mark_iff hc, scanSign_append_right hsign more]
        exact ⟨ds, rfl, digits_append_right hdigits hne more, hds⟩
      · rw [scanExponent, if_neg hc] at h
        cases h
        rw [List.cons_append, scanExponent, if_neg hc]

/-- What follows does not change a number, if it ends in the text. -/
theorem scanUnsigned_append_right {negative : Bool} {n : Numeral}
    (h : scanUnsigned negative cs = some (n, rest)) (hne : rest ≠ []) (more : List Char) :
    scanUnsigned negative (cs ++ more) = some (n, rest ++ more) := by
  obtain ⟨whole, cs₁, fraction, cs₂, exponent, h₁, h₂, h₃, rfl⟩ := scanUnsigned_eq_some_iff.mp h
  -- what is left gets shorter, so nothing was used up before the end
  have hlength₃ := length_scanExponent h₃
  have hlength₂ := length_scanFraction h₂
  have hpos := List.length_pos_iff.mpr hne
  have hne₂ : cs₂ ≠ [] := List.length_pos_iff.mp (by omega)
  have hne₁ : cs₁ ≠ [] := List.length_pos_iff.mp (by omega)
  exact scanUnsigned_eq_some_iff.mpr ⟨whole, cs₁ ++ more, fraction, cs₂ ++ more, exponent,
    scanWhole_append_right h₁ hne₁ more, scanFraction_append_right h₂ hne₂ more,
    scanExponent_append_right h₃ hne more, rfl⟩

/-- A number that ends before the text does is read in the same way if the text goes on. -/
theorem scan_append_right {n : Numeral} (h : scan cs = some (n, rest)) (hne : rest ≠ [])
    (more : List Char) : scan (cs ++ more) = some (n, rest ++ more) := by
  by_cases hsign : ∃ tail, cs = '-' :: tail
  · obtain ⟨tail, rfl⟩ := hsign
    exact scanUnsigned_append_right (scan_minus.symm.trans h) hne more
  · have hlength := length_scan h
    rw [scan_of_ne (not_exists.mp hsign)] at h
    rw [scan_of_ne]
    · exact scanUnsigned_append_right h hne more
    · intro tail he
      cases cs with
      | nil => simp at hlength
      | cons c cs => exact hsign ⟨cs, by rw [(List.cons.inj he).1]⟩

/-- The front of a text with which no number goes on is such a text. -/
theorem Stops.mono (h : Stops cs) (hrest : rest <+: cs) : Stops rest := by
  obtain ⟨more, rfl⟩ := hrest
  cases rest with
  | nil => simp [Stops]
  | cons c tail => exact h

/-! ### Whole numbers that break off -/

/-- A number is written by the first characters of another. -/
def Front (m n : Numeral) : Prop :=
  ∃ ls more : List Char, m.Spelled ls ∧ n.Spelled (ls ++ more)

/-- A sign is told from the digits behind it. -/
theorem sign_append_inj {a b : Bool} {xs ys : List Char}
    (hxs : ∀ c ∈ xs.head?, c.isDigit = true) (hys : ∀ c ∈ ys.head?, c.isDigit = true)
    (h : (if a then ['-'] else []) ++ xs = (if b then ['-'] else []) ++ ys) : a = b ∧ xs = ys := by
  have hminus : ¬ ('-'.isDigit = true) := by decide
  cases a with
  | true =>
      cases b with
      | true => exact ⟨rfl, (List.cons.inj h).2⟩
      | false =>
          rw [← show _ = ys from h] at hys
          exact absurd (hys '-' rfl) hminus
  | false =>
      cases b with
      | true =>
          rw [show xs = _ from h] at hxs
          exact absurd (hxs '-' rfl) hminus
      | false => exact ⟨rfl, h⟩

/-- What a number could start with before a whole number's digits end, is whole as well. -/
theorem Spelled.isWhole_of_append {m : Numeral} {ls more : List Char} (hm : m.Spelled ls)
    (hds : ∀ c ∈ ds, c.isDigit = true) {negative : Bool}
    (h : ls ++ more = (if negative then ['-'] else []) ++ ds) :
    m.isWhole = true ∧ m.negative = negative ∧ m.whole <+: ds := by
  obtain @⟨negative', whole, fraction, fs, es, exponent, hwhole, hzero, hfraction, hexponent⟩ := hm
  obtain ⟨d, tail, rfl⟩ := List.exists_cons_of_ne_nil hwhole.ne_nil
  have hfirst : ∀ c ∈ (d :: tail ++ (fs ++ (es ++ more))).head?, c.isDigit = true := fun c hc => by
    cases hc
    exact hwhole.isDigit d List.mem_cons_self
  simp only [List.append_assoc] at h
  obtain ⟨rfl, rfl⟩ := sign_append_inj hfirst (fun c hc => hds c (List.mem_of_mem_head? hc)) h
  have hfs : fraction = [] ∧ fs = [] := by
    cases hfraction with
    | none => exact ⟨rfl, rfl⟩
    | some _ => exact absurd (hds '.' (by simp)) (by decide)
  have hes : exponent = none ∧ es = [] := by
    cases hexponent with
    | none => exact ⟨rfl, rfl⟩
    | @some c _ _ _ hc _ _ =>
        have hdigit : c.isDigit = true := hds c (by simp)
        obtain rfl | rfl := hc <;> contradiction
  obtain ⟨rfl, rfl⟩ := hfs
  obtain ⟨rfl, rfl⟩ := hes
  exact ⟨rfl, rfl, List.prefix_append _ _⟩

/-- The front of an integer is an integer of the same sign, with the first of its digits. -/
theorem Front.of_isWhole {m n : Numeral} (h : m.Front n) (hn : n.isWhole = true) :
    m.isWhole = true ∧ m.negative = n.negative ∧ m.whole <+: n.whole := by
  obtain ⟨ls, more, hm, hspelled⟩ := h
  obtain ⟨hdigits, -, hls⟩ := hspelled.of_isWhole hn
  exact hm.isWhole_of_append hdigits.isDigit hls

/-- More digits do not make a number less. -/
theorem natValue_le_append (ds es : List Char) : natValue ds ≤ natValue (ds ++ es) := by
  have hfold : ∀ (cs : List Char) (n : Nat),
      n ≤ cs.foldl (fun n d => 10 * n + digitValue d) n := by
    intro cs
    induction cs with
    | nil => exact fun n => Nat.le_refl n
    | cons c cs ih =>
        intro n
        have hstep : n ≤ 10 * n + digitValue c := by omega
        exact Nat.le_trans hstep (ih _)
  rw [natValue, natValue, List.foldl_append]
  exact hfold es _

/-- Digits that stand for zero start with a zero. -/
theorem head_of_natValue_eq_zero (hds : Digits ds) (h : natValue ds = 0) :
    ds.head? = some '0' := by
  obtain ⟨d, tail, rfl⟩ := List.exists_cons_of_ne_nil hds.ne_nil
  have hdigit : d.isDigit = true := hds.isDigit d List.mem_cons_self
  have hle : natValue [d] ≤ natValue ([d] ++ tail) := natValue_le_append [d] tail
  have hzero : digitValue d = 0 := by
    rw [List.singleton_append, h] at hle
    simpa [natValue] using hle
  have hlower : '0'.toNat ≤ d.toNat := by
    simp only [Char.isDigit, Bool.and_eq_true, decide_eq_true_eq] at hdigit
    exact UInt32.le_iff_toNat_le.mp hdigit.1
  have htoNat : d.toNat = '0'.toNat := by
    rw [digitValue] at hzero
    omega
  rw [List.head?_cons, ← Char.ofNat_toNat d, htoNat, Char.ofNat_toNat]

/-- No whole number but zero starts with one that is zero. -/
theorem Front.whole_eq_zero {m n : Numeral} (h : m.Front n) (hn : n.isWhole = true)
    (hzero : natValue m.whole = 0) : n.whole = ['0'] := by
  obtain ⟨hm, -, rest, hrest⟩ := h.of_isWhole hn
  obtain ⟨ls, more, hmspelled, hnspelled⟩ := h
  obtain ⟨hdigits, -, -⟩ := hmspelled.of_isWhole hm
  obtain ⟨-, hlone, -⟩ := hnspelled.of_isWhole hn
  obtain ⟨tail, htail⟩ := List.head?_eq_some_iff.mp (head_of_natValue_eq_zero hdigits hzero)
  exact hlone (by rw [← hrest, htail]; rfl)

end Numeral

/-- What follows a string does not change it. -/
theorem Quoted.scan_append_right {q : Quoted} {cs rest : List Char}
    (h : Quoted.scan cs = some (q, rest)) (more : List Char) :
    Quoted.scan (cs ++ more) = some (q, rest ++ more) := by
  obtain ⟨ls, hls, rfl⟩ := Quoted.eq_append_of_scan h
  rw [List.append_assoc, List.cons_append]
  exact Quoted.scan_append hls (rest ++ more)

namespace Token

variable {t : Token} {ts us : List Token} {c : Char} {cs ls rest : List Char}

/-- What follows a word does not change it. -/
theorem scanWord_append_right (h : scanWord cs = some (t, rest)) (more : List Char) :
    scanWord (cs ++ more) = some (t, rest ++ more) := by
  unfold scanWord at h
  split at h <;> cases h <;> rfl

/-- A token is read in the same way if the text goes on, unless it is a number that ends where the
text does. -/
theorem scan_append_right (h : scan c cs = some (t, rest))
    (hnumber : t.isNumber = true → rest ≠ []) (more : List Char) :
    scan c (cs ++ more) = some (t, rest ++ more) := by
  unfold scan at h ⊢
  split at h
  · rename_i hmark
    cases h
    rfl
  · split at h
    · rename_i hquote
      obtain ⟨⟨q, rest'⟩, hscan, heq⟩ := Option.map_eq_some_iff.mp h
      cases heq
      rw [if_pos hquote, Quoted.scan_append_right hscan more]
      rfl
    · rename_i hquote
      rw [if_neg hquote]
      split at h
      · rename_i hdigit
        obtain ⟨⟨n, rest'⟩, hscan, heq⟩ := Option.map_eq_some_iff.mp h
        cases heq
        have hmore := Numeral.scan_append_right hscan (hnumber rfl) more
        rw [List.cons_append] at hmore
        rw [if_pos hdigit, hmore]
        rfl
      · rename_i hdigit
        rw [if_neg hdigit]
        exact scanWord_append_right h more

/-! ## Texts that break off -/

/-- The tokens of a text that breaks off, against those of the whole text. -/
inductive Front : List Token → List Token → Prop where
  | nil (ts : List Token) : Front [] ts
  | cons (t : Token) {us ts : List Token} (h : Front us ts) : Front (t :: us) (t :: ts)
  | junk (t : Token) (ts : List Token) : Front [.junk] (t :: ts)
  | number {m n : Numeral} (h : m.Front n) (ts : List Token) :
      Front [.number m] (.number n :: ts)

/-- A number that is read up to the end of a text, against what is read if the text goes on. -/
theorem front_of_scan_number {m : Numeral} {more : List Char}
    (h : scan c cs = some (.number m, [])) (hmore : scan c (cs ++ more) = some (t, [])) :
    ∃ n, m.Front n ∧ t = .number n := by
  obtain ⟨ls, hm, hls⟩ := eq_append_of_scan h
  rw [List.append_nil] at hls
  rw [← hls] at hm
  cases hm with
  | number hm =>
      obtain ⟨d, ds, heq, hd⟩ := hm.exists_cons
      rw [(List.cons.inj heq).1.symm] at hd
      rw [(scan_of_number hd (cs ++ more)).2] at hmore
      obtain ⟨⟨n, rest⟩, hn, ht⟩ := Option.map_eq_some_iff.mp hmore
      cases ht
      obtain ⟨ls', hspelled, hls'⟩ := Numeral.eq_append_of_scan hn
      rw [List.append_nil] at hls'
      exact ⟨n, ⟨c :: cs, more, hm, by rwa [← hls'] at hspelled⟩, rfl⟩

/-- A text that breaks off inside a token. -/
theorem front_of_spelled {more : List Char} (h : t.Spelled (ls ++ more)) (hls : ls ≠ [])
    (hmore : more ≠ []) (ts : List Token) : Front (ofChars ls) (t :: ts) := by
  have hstops : t.isNumber = true → Numeral.Stops [] := fun _ => by simp [Numeral.Stops]
  obtain ⟨c, cs, rfl⟩ := List.exists_cons_of_ne_nil hls
  obtain ⟨c', cs', heq, hblank, hfull⟩ := h.scan_append hstops
  rw [List.cons_append] at heq
  obtain ⟨rfl, rfl⟩ := List.cons.inj heq
  rw [List.append_nil] at hfull
  cases hscan : scan c cs with
  | none =>
      rw [ofChars_of_scan_eq_none hblank hscan]
      exact .junk t ts
  | some p =>
      obtain ⟨u, rest⟩ := p
      by_cases hnumber : u.isNumber = true → rest ≠ []
      · -- what was read would be the whole token, and nothing could follow
        rw [scan_append_right hscan hnumber more] at hfull
        simp only [Option.some.injEq, Prod.mk.injEq, List.append_eq_nil_iff] at hfull
        exact absurd hfull.2.2 hmore
      · obtain ⟨hu, hrest⟩ := Classical.not_imp.mp hnumber
        obtain rfl := not_not.mp hrest
        cases u with
        | number m =>
            obtain ⟨n, hfront, rfl⟩ := front_of_scan_number hscan hfull
            rw [ofChars_of_scan_eq_some hblank hscan, ofChars]
            exact .number hfront ts
        | _ => contradiction

/-- A text that breaks off inside a token is read as the front of it. -/
theorem front_of_prefix_spelled {p : List Char} (h : t.Spelled ls) (hp : p <+: ls)
    (ts : List Token) : Front (ofChars p) (t :: ts) := by
  obtain ⟨more, rfl⟩ := hp
  by_cases hnil : p = []
  · rw [hnil, ofChars]
    exact .nil _
  · by_cases hmore : more = []
    · rw [hmore, List.append_nil] at h
      have hwhole : ofChars (p ++ []) = t :: ofChars [] :=
        ofChars_spelled_append h fun _ => by simp [Numeral.Stops]
      rw [List.append_nil, ofChars] at hwhole
      rw [hwhole]
      exact .cons t (.nil ts)
    · exact front_of_spelled h hnil hmore ts

/-- The front of two texts in turn ends in the first, or in the second. -/
theorem prefix_append_cases {α : Type} {p xs ys : List α} (h : p <+: xs ++ ys) :
    p <+: xs ∨ ∃ q, p = xs ++ q ∧ q <+: ys := by
  obtain hp | ⟨q, rfl⟩ := List.prefix_or_prefix_of_prefix h (List.prefix_append xs ys)
  · exact Or.inl hp
  · exact Or.inr ⟨q, rfl, (List.prefix_append_right_inj xs).mp h⟩

/-- The front of some tokens is the front of more. -/
theorem Front.append_right (h : Front us ts) (more : List Token) : Front us (ts ++ more) := by
  induction h with
  | nil ts => exact .nil _
  | cons t _ ih => exact .cons t ih
  | junk t ts => exact .junk t _
  | number h ts => exact .number h _

/-- A text that breaks off has no more tokens than the whole. -/
theorem Front.length_le (h : Front us ts) : us.length ≤ ts.length := by
  induction h with
  | nil ts => exact Nat.zero_le _
  | cons t _ ih => exact Nat.succ_le_succ ih
  | junk t ts => exact Nat.succ_le_succ (Nat.zero_le _)
  | number _ ts => exact Nat.succ_le_succ (Nat.zero_le _)

/-- There are no tokens in blanks. -/
theorem ofChars_of_blanks (h : Blanks cs) : ofChars cs = [] := by
  have hnil : ofChars (cs ++ []) = ofChars [] := ofChars_blanks_append h
  rwa [List.append_nil, ofChars] at hnil

/-- The tokens of a front part of a text are a front part of its tokens, but for the last. -/
theorem front_ofChars (h : Written ts cs) (hapart : Apart ts) {p : List Char} (hp : p <+: cs) :
    Front (ofChars p) ts := by
  induction h generalizing p with
  | nil hbs =>
      rw [ofChars_of_blanks fun c hc => hbs c (hp.subset hc)]
      exact .nil _
  | @cons t ts bs ls cs hbs ht hts ih =>
      rw [List.append_assoc] at hp
      obtain hp | ⟨q, rfl, hq⟩ := prefix_append_cases hp
      · rw [ofChars_of_blanks fun c hc => hbs c (hp.subset hc)]
        exact .nil _
      · rw [ofChars_blanks_append hbs]
        obtain hq | ⟨r, rfl, hr⟩ := prefix_append_cases hq
        · exact front_of_prefix_spelled ht hq ts
        · have hstops : t.isNumber = true → Numeral.Stops r := fun hnumber =>
            (hts.stops fun u hu => hapart.rel_head? hu hnumber).mono hr
          rw [ofChars_spelled_append ht hstops]
          exact .cons t (ih hapart.tail hr)

/-- Where the last token of a text is a mark, the text splits there. -/
theorem Written.split_last {m : Token} {cs : List Char} (h : Written (ts ++ [m]) cs)
    (hm : ∀ ls, m.Spelled ls → ∃ c, ls = [c]) :
    ∃ body c bs, cs = body ++ c :: bs ∧ Written ts body ∧ m.Spelled [c] ∧ Blanks bs := by
  induction ts generalizing cs with
  | nil =>
      cases h with
      | @cons _ _ bs ls cs hbs ht hts =>
          obtain ⟨c, rfl⟩ := hm ls ht
          cases hts with
          | nil hcs => exact ⟨bs, c, cs, by simp, .nil hbs, ht, hcs⟩
  | cons t ts ih =>
      cases h with
      | @cons _ _ bs ls cs hbs ht hts =>
          obtain ⟨body, c, bs', rfl, hbody, hmark, hbs'⟩ := ih hts
          exact ⟨bs ++ ls ++ body, c, bs', by simp, .cons hbs ht hbody, hmark, hbs'⟩

end Token

end GraphBoard.Json
