import GraphBoard.Json.Value
import GraphBoard.Proofs.Json.Written

/-!
# GraphBoard.Proofs.Json.Tree

How values are written, and that reading a text gives back the value.  `Value.tokens` lists the
tokens of a value, and a value is written where a text has these tokens.

* `build_tokens` — the tokens of a complete value make the value, wherever a value may stand;
* `Reached` — the states of reading, each with the tokens that lead to it; `Reached.inside` and
  `Reached.whole` are what one token does to them;
* `Value.ofText_eq_iff` — a text is read as a complete value, with nothing behind it, exactly if it
  writes the value.
-/

namespace GraphBoard.Json

/-! ## Parts with a mark between them -/

section Intercalate

variable {β : Type}

/-- All parts but the first have the mark before them. -/
theorem intercalate_cons (s : β) (x : List β) (xs : List (List β)) :
    [s].intercalate (x :: xs) = x ++ xs.flatMap (s :: ·) := by
  induction xs generalizing x with
  | nil => simp
  | cons y xs ih =>
      rw [List.intercalate_cons_cons, ih]
      simp

/-- All parts but the last have the mark behind them. -/
theorem intercalate_concat (s : β) (xs : List (List β)) (x : List β) :
    [s].intercalate (xs ++ [x]) = xs.flatMap (· ++ [s]) ++ x := by
  induction xs with
  | nil => simp
  | cons y xs ih =>
      have hcons :
          [s].intercalate (y :: (xs ++ [x])) = y ++ [s] ++ [s].intercalate (xs ++ [x]) := by
        cases xs <;> exact List.intercalate_cons_cons
      rw [List.cons_append, hcons, ih, List.flatMap_cons]
      simp only [List.append_assoc]

end Intercalate

/-! ## Values -/

namespace Value

/-- A value in which nothing is missing. -/
inductive Complete : Value → Prop where
  | null : Complete .null
  | bool (b : Bool) : Complete (.bool b)
  | number (n : Numeral) : Complete (.number n)
  | text (q : Quoted) : Complete (.text q)
  | array {vs : List Value} (h : ∀ v ∈ vs, Complete v) : Complete (.array vs .closed)
  | object {fs : List (Quoted × Value)} (h : ∀ f ∈ fs, Complete f.2) : Complete (.object fs .closed)

/-- A complete value does not break off anywhere. -/
theorem Complete.isWhole {v : Value} (h : v.Complete) : v.isWhole = true := by
  cases h <;> rfl

mutual

/-- The tokens of a value. -/
def tokens : Value → List Token
  | absent => []
  | null => [.null]
  | bool b => [.bool b]
  | number n => [.number n]
  | text q => [.quoted q]
  | array vs _ => .openBracket :: [Token.comma].intercalate (itemsTokens vs) ++ [.closeBracket]
  | object fs _ => .openBrace :: [Token.comma].intercalate (fieldsTokens fs) ++ [.closeBrace]

/-- The tokens of the items of an array, item by item. -/
def itemsTokens : List Value → List (List Token)
  | [] => []
  | v :: vs => tokens v :: itemsTokens vs

/-- The tokens of the fields of an object, field by field. -/
def fieldsTokens : List (Quoted × Value) → List (List Token)
  | [] => []
  | (q, v) :: fs => (.quoted q :: .colon :: tokens v) :: fieldsTokens fs

end

/-- The tokens of a field. -/
def fieldTokens (f : Quoted × Value) : List Token := .quoted f.1 :: .colon :: f.2.tokens

theorem itemsTokens_eq_map (vs : List Value) : itemsTokens vs = vs.map tokens := by
  induction vs with
  | nil => rfl
  | cons v vs ih => rw [itemsTokens, ih, List.map_cons]

theorem fieldsTokens_eq_map (fs : List (Quoted × Value)) :
    fieldsTokens fs = fs.map fieldTokens := by
  induction fs with
  | nil => rfl
  | cons f fs ih => rw [fieldsTokens, ih, List.map_cons, fieldTokens]

/-- The tokens of an array: those of its items between brackets, with commas between them. -/
theorem tokens_array (vs : List Value) (ending : Ending) : (array vs ending).tokens =
    .openBracket :: [Token.comma].intercalate (vs.map tokens) ++ [.closeBracket] := by
  rw [tokens, itemsTokens_eq_map]

/-- The tokens of an object: those of its fields between braces, with commas between them. -/
theorem tokens_object (fs : List (Quoted × Value)) (ending : Ending) : (object fs ending).tokens =
    .openBrace :: [Token.comma].intercalate (fs.map fieldTokens) ++ [.closeBrace] := by
  rw [tokens, fieldsTokens_eq_map]

/-- A text writes a value: it consists of the tokens of the value, which is complete, with blanks
anywhere between and around them. -/
structure Written (v : Value) (s : String) : Prop where
  complete : v.Complete
  tokens : Token.Written v.tokens s.toList

/-! ### Numbers in a value -/

/-- A mark keeps numbers apart. -/
theorem apart_append_cons {ts us : List Token} {t : Token} (hts : Token.Apart ts)
    (ht : t.isNumber = false) (hus : Token.Apart us) : Token.Apart (ts ++ t :: us) := by
  refine List.isChain_append.mpr ⟨hts, List.isChain_cons.mpr ⟨fun u _ hnumber => ?_, hus⟩, ?_⟩
  · rw [ht] at hnumber
    contradiction
  · intro u _ w hw _
    cases hw
    exact ht

/-- With commas between them, no number stands directly before another. -/
theorem apart_intercalate {xs : List (List Token)} (h : ∀ ts ∈ xs, Token.Apart ts) :
    Token.Apart ([Token.comma].intercalate xs) := by
  induction xs with
  | nil => exact .nil
  | cons x xs ih =>
      have hx : Token.Apart x := h x List.mem_cons_self
      have hxs : Token.Apart ([Token.comma].intercalate xs) :=
        ih fun ts hts => h ts (List.mem_cons_of_mem x hts)
      cases xs with
      | nil => simpa using hx
      | cons y ys =>
          rw [List.intercalate_cons_cons, List.append_assoc, List.singleton_append]
          exact apart_append_cons hx rfl hxs

/-- No number stands directly before another in a value. -/
theorem Complete.apart {v : Value} (h : v.Complete) : Token.Apart v.tokens := by
  induction h with
  | null => exact .singleton _
  | bool b => exact .singleton _
  | number n => exact .singleton _
  | text q => exact .singleton _
  | @array vs _ ih =>
      have hitems : Token.Apart ([Token.comma].intercalate (vs.map tokens)) :=
        apart_intercalate (List.forall_mem_map.mpr ih)
      rw [tokens_array]
      exact apart_append_cons (apart_append_cons .nil rfl hitems) rfl .nil
  | @object fs _ ih =>
      have hfield : ∀ f ∈ fs, Token.Apart (fieldTokens f) := fun f hf =>
        apart_append_cons (apart_append_cons .nil rfl .nil) rfl (ih f hf)
      have hfields : Token.Apart ([Token.comma].intercalate (fs.map fieldTokens)) :=
        apart_intercalate (List.forall_mem_map.mpr hfield)
      rw [tokens_object]
      exact apart_append_cons (apart_append_cons .nil rfl hfields) rfl .nil

end Value

/-! ## Reading what is written -/

/-- What is built behind a complete value. -/
def buildBehind (v : Value) (ts : List Token) : List Frame → Value × List Token
  | [] => (v, ts)
  | f :: fs => build .separator (f.push v :: fs) ts

variable {t : Token} {ts : List Token} {frames : List Frame}

/-- A step that completes a value goes on behind it. -/
theorem build_eq_buildBehind {e : Expect} {v : Value} {fs : List Frame}
    (h : advance frames t e = .behind v fs) : build e frames (t :: ts) = buildBehind v ts fs := by
  rw [build, h]
  cases fs <;> rfl

/-- A value is read wherever it is expected. -/
def Builds (v : Value) : Prop :=
  ∀ (e : Expect) (frames : List Frame) (ts : List Token), e = .value ∨ e = .firstItem →
    build e frames (v.tokens ++ ts) = buildBehind v ts frames

/-- The items of an array are read behind its first one, until it is closed. -/
theorem build_items {vs acc : List Value} (h : ∀ v ∈ vs, Builds v) :
    build .separator (.array acc :: frames)
        ((vs.map Value.tokens).flatMap (.comma :: ·) ++ .closeBracket :: ts) =
      buildBehind (.array (acc.reverse ++ vs) .closed) ts frames := by
  induction vs generalizing acc with
  | nil =>
      rw [List.append_nil]
      exact build_eq_buildBehind rfl
  | cons v vs ih =>
      have hv : Builds v := h v List.mem_cons_self
      rw [List.map_cons, List.flatMap_cons, List.append_assoc, List.cons_append, build]
      show build .value (.array acc :: frames) _ = _
      rw [hv .value _ _ (Or.inl rfl), buildBehind, Frame.push,
        ih fun w hw => h w (List.mem_cons_of_mem v hw), List.reverse_cons, List.append_assoc,
        List.singleton_append]

/-- A field of an object is read where a name is expected. -/
theorem build_field {q : Quoted} {v : Value} {acc : List (Quoted × Value)} (hv : Builds v)
    {e : Expect} (he : e = .name ∨ e = .firstName) :
    build e (.object acc :: frames) (Value.fieldTokens (q, v) ++ ts) =
      build .separator (.object ((q, v) :: acc) :: frames) ts := by
  have hname : build e (.object acc :: frames) (Value.fieldTokens (q, v) ++ ts) =
      build .value (.field acc q :: frames) (v.tokens ++ ts) := by
    obtain rfl | rfl := he <;> rfl
  rw [hname, hv .value _ _ (Or.inl rfl), buildBehind, Frame.push]

/-- The fields of an object are read behind its first one, until it is closed. -/
theorem build_fields {fs acc : List (Quoted × Value)} (h : ∀ f ∈ fs, Builds f.2) :
    build .separator (.object acc :: frames)
        ((fs.map Value.fieldTokens).flatMap (.comma :: ·) ++ .closeBrace :: ts) =
      buildBehind (.object (acc.reverse ++ fs) .closed) ts frames := by
  induction fs generalizing acc with
  | nil =>
      rw [List.append_nil]
      exact build_eq_buildBehind rfl
  | cons f fs ih =>
      obtain ⟨q, v⟩ := f
      rw [List.map_cons, List.flatMap_cons, List.append_assoc, List.cons_append, build]
      show build .name (.object acc :: frames) _ = _
      rw [build_field (h (q, v) List.mem_cons_self) (Or.inl rfl),
        ih fun g hg => h g (List.mem_cons_of_mem (q, v) hg), List.reverse_cons, List.append_assoc,
        List.singleton_append]

/-- A complete value is read from its tokens, wherever it is expected. -/
theorem build_tokens {v : Value} (h : v.Complete) : Builds v := by
  induction h with
  | null =>
      rintro e frames ts (rfl | rfl) <;> exact build_eq_buildBehind rfl
  | bool b =>
      rintro e frames ts (rfl | rfl) <;> exact build_eq_buildBehind rfl
  | number n =>
      rintro e frames ts (rfl | rfl) <;> exact build_eq_buildBehind rfl
  | text q =>
      rintro e frames ts (rfl | rfl) <;> exact build_eq_buildBehind rfl
  | @array vs _ ih =>
      intro e frames ts he
      have hopen : ∀ us, build e frames (.openBracket :: us) =
          build .firstItem (.array [] :: frames) us := fun us => by
        obtain rfl | rfl := he <;> rfl
      rw [Value.tokens_array, List.cons_append, List.cons_append, hopen, List.append_assoc,
        List.singleton_append]
      cases vs with
      | nil => exact build_eq_buildBehind rfl
      | cons v vs =>
          rw [List.map_cons, intercalate_cons, List.append_assoc,
            ih v List.mem_cons_self .firstItem _ _ (Or.inr rfl), buildBehind, Frame.push,
            build_items fun w hw => ih w (List.mem_cons_of_mem v hw)]
          rfl
  | @object fs _ ih =>
      intro e frames ts he
      have hopen : ∀ us, build e frames (.openBrace :: us) =
          build .firstName (.object [] :: frames) us := fun us => by
        obtain rfl | rfl := he <;> rfl
      rw [Value.tokens_object, List.cons_append, List.cons_append, hopen, List.append_assoc,
        List.singleton_append]
      cases fs with
      | nil => exact build_eq_buildBehind rfl
      | cons f fs =>
          rw [List.map_cons, intercalate_cons, List.append_assoc,
            build_field (ih f List.mem_cons_self) (Or.inr rfl),
            build_fields fun g hg => ih g (List.mem_cons_of_mem f hg)]
          rfl

/-- A text that writes a value is read as that value, with nothing behind it. -/
theorem Value.ofText_of_written {v : Value} {s : String} (h : v.Written s) :
    Value.ofText s = (v, false) := by
  have htokens : Token.ofChars s.toList = v.tokens :=
    Token.ofChars_of_written h.tokens h.complete.apart
  have hbuild : build .value [] v.tokens = (v, []) := by
    simpa [buildBehind] using build_tokens h.complete .value [] [] (Or.inl rfl)
  rw [Value.ofText, htokens, hbuild]
  rfl

/-! ## What was read was written -/

/-- Open containers in the place of a value, and the tokens that lead there. -/
inductive Opened : List Frame → List Token → Prop where
  | nil : Opened [] []
  | array {frames : List Frame} {us : List Token} {vs : List Value} (h : Opened frames us)
      (hvs : ∀ v ∈ vs, v.Complete) :
      Opened (.array vs :: frames)
        (us ++ .openBracket :: (vs.reverse.map Value.tokens).flatMap (· ++ [.comma]))
  | field {frames : List Frame} {us : List Token} {fs : List (Quoted × Value)} {q : Quoted}
      (h : Opened frames us) (hfs : ∀ f ∈ fs, f.2.Complete) :
      Opened (.field fs q :: frames)
        (us ++ .openBrace :: (fs.reverse.map Value.fieldTokens).flatMap (· ++ [.comma]) ++
          [.quoted q, .colon])

/-- What is expected next, in which open containers, and the tokens that lead there. -/
inductive Reached : Expect → List Frame → List Token → Prop where
  | value {frames : List Frame} {us : List Token} (h : Opened frames us) : Reached .value frames us
  | firstItem {frames : List Frame} {us : List Token} (h : Opened frames us) :
      Reached .firstItem (.array [] :: frames) (us ++ [.openBracket])
  | firstName {frames : List Frame} {us : List Token} (h : Opened frames us) :
      Reached .firstName (.object [] :: frames) (us ++ [.openBrace])
  | name {frames : List Frame} {us : List Token} {fs : List (Quoted × Value)}
      (h : Opened frames us) (hfs : ∀ f ∈ fs, f.2.Complete) :
      Reached .name (.object fs :: frames)
        (us ++ .openBrace :: (fs.reverse.map Value.fieldTokens).flatMap (· ++ [.comma]))
  | colon {frames : List Frame} {us : List Token} {fs : List (Quoted × Value)} {q : Quoted}
      (h : Opened (.field fs q :: frames) (us ++ [.colon])) :
      Reached .colon (.field fs q :: frames) us
  | behind {f : Frame} {frames : List Frame} {us : List Token} {v : Value}
      (h : Opened (f :: frames) us) (hv : v.Complete) :
      Reached .separator (f.push v :: frames) (us ++ v.tokens)

/-- A step leads to a state that its tokens lead to, or to the value that they write. -/
def Advance.Sound (us : List Token) : Advance → Prop
  | inside e frames => Reached e frames us
  | whole v => v.Complete ∧ v.tokens = us
  | stuck => True

variable {us : List Token}

/-- Behind a complete value there are its tokens, in the same containers. -/
theorem Opened.behind {v : Value} (h : Opened frames us) (hv : v.Complete) :
    (Advance.behind v frames).Sound (us ++ v.tokens) := by
  cases frames with
  | nil =>
      cases h
      exact ⟨hv, rfl⟩
  | cons f fs => exact Reached.behind h hv

/-- Where a value is expected, the containers are those around it. -/
theorem Opened.atValue (h : Opened frames us) :
    (Advance.atValue frames t).Sound (us ++ [t]) := by
  cases t with
  | null => exact h.behind .null
  | bool b => exact h.behind (.bool b)
  | number n => exact h.behind (.number n)
  | quoted q => exact h.behind (.text q)
  | openBracket => exact Reached.firstItem h
  | openBrace => exact Reached.firstName h
  | _ => trivial

/-- Behind some fields of an object there are their tokens, each with a comma. -/
theorem Opened.atName {fs : List (Quoted × Value)} (h : Opened frames us)
    (hfs : ∀ f ∈ fs, f.2.Complete) :
    (Advance.atName (.object fs :: frames) t).Sound
      (us ++ .openBrace :: (fs.reverse.map Value.fieldTokens).flatMap (· ++ [.comma]) ++ [t]) := by
  cases t with
  | quoted q =>
      refine Reached.colon ?_
      rw [List.append_assoc]
      exact .field h hfs
  | _ => trivial

/-- A closed array is a value, with its tokens behind those that lead to it. -/
theorem Opened.closeArray {vs : List Value} (h : Opened frames us) (hvs : ∀ v ∈ vs, v.Complete) :
    (Advance.behind (.array vs .closed) frames).Sound
      (us ++ .openBracket :: [Token.comma].intercalate (vs.map Value.tokens) ++
        [.closeBracket]) := by
  rw [List.append_assoc, List.cons_append, ← List.cons_append, ← Value.tokens_array vs .closed]
  exact h.behind (.array hvs)

/-- A closed object is a value, with its tokens behind those that lead to it. -/
theorem Opened.closeObject {fs : List (Quoted × Value)} (h : Opened frames us)
    (hfs : ∀ f ∈ fs, f.2.Complete) :
    (Advance.behind (.object fs .closed) frames).Sound
      (us ++ .openBrace :: [Token.comma].intercalate (fs.map Value.fieldTokens) ++
        [.closeBrace]) := by
  rw [List.append_assoc, List.cons_append, ← List.cons_append, ← Value.tokens_object fs .closed]
  exact h.behind (.object hfs)

/-- Behind an item of an array stands a comma or the end of the array. -/
theorem Opened.behindItem {vs : List Value} {v : Value} (h : Opened (.array vs :: frames) us)
    (hv : v.Complete) :
    (advance (.array (v :: vs) :: frames) t .separator).Sound (us ++ v.tokens ++ [t]) := by
  have hreverse : (v :: vs).reverse.map Value.tokens =
      vs.reverse.map Value.tokens ++ [v.tokens] := by
    rw [List.reverse_cons, List.map_append, List.map_singleton]
  cases h with
  | array h hvs =>
      have hall : ∀ w ∈ v :: vs, w.Complete := List.forall_mem_cons.mpr ⟨hv, hvs⟩
      cases t with
      | comma =>
          have hopened := Opened.array h hall
          rw [hreverse, List.flatMap_append, List.flatMap_singleton] at hopened
          refine Reached.value ?_
          simpa only [List.append_assoc, List.cons_append] using hopened
      | closeBracket =>
          have hclose := h.closeArray fun w hw => hall w (List.mem_reverse.mp hw)
          rw [hreverse, intercalate_concat, ← List.cons_append, ← List.append_assoc] at hclose
          exact hclose
      | _ => trivial

/-- Behind the value of a field, the object goes on with the next one or is closed. -/
theorem Opened.behindField {fs : List (Quoted × Value)} {q : Quoted} {v : Value}
    (h : Opened (.field fs q :: frames) us) (hv : v.Complete) :
    (advance (.object ((q, v) :: fs) :: frames) t .separator).Sound (us ++ v.tokens ++ [t]) := by
  have hreverse : ((q, v) :: fs).reverse.map Value.fieldTokens =
      fs.reverse.map Value.fieldTokens ++ [.quoted q :: .colon :: v.tokens] := by
    rw [List.reverse_cons, List.map_append, List.map_singleton, Value.fieldTokens]
  cases h with
  | field h hfs =>
      have hall : ∀ f ∈ (q, v) :: fs, f.2.Complete := List.forall_mem_cons.mpr ⟨hv, hfs⟩
      cases t with
      | comma =>
          have hname := Reached.name h hall
          rw [hreverse, List.flatMap_append, List.flatMap_singleton] at hname
          show Reached .name (.object ((q, v) :: fs) :: frames) _
          simpa only [List.append_assoc, List.cons_append, List.nil_append] using hname
      | closeBrace =>
          have hclose := h.closeObject fun f hf => hall f (List.mem_reverse.mp hf)
          rw [hreverse, intercalate_concat] at hclose
          show (Advance.behind (.object ((q, v) :: fs).reverse .closed) frames).Sound _
          simpa only [List.append_assoc, List.cons_append, List.nil_append] using hclose
      | _ => trivial

/-- One more token keeps to what its tokens lead to. -/
theorem Reached.advance {e : Expect} (h : Reached e frames us) :
    (advance frames t e).Sound (us ++ [t]) := by
  have hitems : ∀ v ∈ ([] : List Value), v.Complete := by simp
  have hfields : ∀ f ∈ ([] : List (Quoted × Value)), f.2.Complete := by simp
  cases h with
  | value h => exact h.atValue
  | firstItem h =>
      by_cases ht : t = .closeBracket
      · rw [ht]
        exact h.closeArray hitems
      · rw [Json.advance, if_neg ht]
        exact (Opened.array h hitems).atValue
  | firstName h =>
      by_cases ht : t = .closeBrace
      · rw [ht]
        exact h.closeObject hfields
      · rw [Json.advance, if_neg ht]
        exact h.atName hfields
  | name h hfs => exact h.atName hfs
  | colon h =>
      rw [Json.advance]
      split
      · rename_i ht
        rw [ht]
        exact Reached.value h
      · trivial
  | @behind f _ _ v h hv =>
      cases f with
      | array vs => exact h.behindItem hv
      | object fs => cases h
      | field fs q => exact h.behindField hv

/-! ### Where reading ends -/

/-- Containers that are still open break off. -/
theorem isWhole_cutAll (frames : List Frame) : (cutAll frames).isWhole = false := by
  have hcut : ∀ f : Frame, f.cut.isWhole = false := by
    intro f
    cases f <;> rfl
  have hfold : ∀ (fs : List Frame) (v : Value), v.isWhole = false →
      (fs.foldl (fun v f => (f.push v).cut) v).isWhole = false := by
    intro fs
    induction fs with
    | nil => exact fun v hv => hv
    | cons f fs ih => exact fun v _ => ih _ (hcut _)
  cases frames with
  | nil => rfl
  | cons f fs => exact hfold fs _ (hcut f)

/-- What is read as complete are the tokens that write it. -/
theorem Reached.build {e : Expect} {v : Value} {rest : List Token} (h : Reached e frames us)
    (hbuild : build e frames ts = (v, rest)) (hv : v.isWhole = true) :
    v.Complete ∧ us ++ ts = v.tokens ++ rest := by
  induction ts generalizing e frames us with
  | nil =>
      cases hbuild
      rw [isWhole_cutAll] at hv
      contradiction
  | cons t ts ih =>
      have hsound := h.advance (t := t)
      rw [Json.build] at hbuild
      cases hadvance : Json.advance frames t e with
      | inside e' frames' =>
          rw [hadvance] at hbuild hsound
          simpa using ih hsound hbuild
      | whole w =>
          rw [hadvance] at hbuild hsound
          cases hbuild
          obtain ⟨hcomplete, htokens⟩ := hsound
          exact ⟨hcomplete, by rw [htokens, List.append_assoc]; rfl⟩
      | stuck =>
          rw [hadvance] at hbuild
          cases hbuild
          rw [isWhole_cutAll] at hv
          contradiction

namespace Value

/-- The tokens of a complete value are all read as tokens. -/
theorem junk_not_mem_tokens {v : Value} (h : v.Complete) : Token.junk ∉ v.tokens := by
  have hlist : ∀ xs : List (List Token), (∀ ts ∈ xs, Token.junk ∉ ts) →
      Token.junk ∉ [Token.comma].intercalate xs := by
    intro xs hxs
    cases xs with
    | nil => simp
    | cons x xs =>
        rw [intercalate_cons]
        simp only [List.mem_append, List.mem_flatMap, List.mem_cons, not_or, not_exists, not_and]
        exact ⟨hxs x List.mem_cons_self, fun y hy =>
          ⟨Token.noConfusion, hxs y (List.mem_cons_of_mem x hy)⟩⟩
  induction h with
  | array _ ih =>
      rw [tokens_array]
      simpa using hlist _ (List.forall_mem_map.mpr ih)
  | object _ ih =>
      rw [tokens_object]
      simpa using hlist _ (List.forall_mem_map.mpr fun f hf => by simpa [fieldTokens] using ih f hf)
  | _ => simp [tokens]

/-- A text whose tokens are those of a complete value writes it. -/
theorem written_of_ofChars {v : Value} {s : String} (hv : v.Complete)
    (h : Token.ofChars s.toList = v.tokens) : v.Written s := by
  have hwritten : Token.Written (Token.ofChars s.toList) s.toList :=
    Token.written_ofChars (h ▸ junk_not_mem_tokens hv)
  exact ⟨hv, h ▸ hwritten⟩

/-- A text is read as a complete value, with nothing but blanks behind it, exactly if it writes
the value. -/
theorem ofText_eq_iff {v : Value} {s : String} (hv : v.isWhole = true) :
    ofText s = (v, false) ↔ v.Written s := by
  constructor
  · intro h
    rw [ofText] at h
    cases hbuild : build .value [] (Token.ofChars s.toList) with
    | mk w rest =>
        rw [hbuild] at h
        obtain ⟨rfl, hrest⟩ := Prod.mk.inj h
        have hnil : rest = [] := by simpa using hrest
        obtain ⟨hcomplete, htokens⟩ := (Reached.value .nil).build hbuild hv
        rw [List.nil_append, hnil, List.append_nil] at htokens
        exact written_of_ofChars hcomplete htokens
  · exact ofText_of_written

end Value

end GraphBoard.Json
