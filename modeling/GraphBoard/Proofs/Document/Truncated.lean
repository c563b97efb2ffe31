import GraphBoard.Document.Load
import GraphBoard.Proofs.Document.Record
import GraphBoard.Proofs.Json.Cut

/-!
# GraphBoard.Proofs.Document.Truncated

A description that breaks off is never taken for a graph.  A reader is `Patient` if it finds no
value of the wrong kind where a value that it accepts breaks off, and `Alert` if it also notices
that the value is not all there.  A number may be read although it breaks off, so the readers of
numbers and of keys are patient only; every reader of a container is alert, since a container that
breaks off is not closed.

* `Patient.alert_list`, `Fields.alert_read` — readers of containers with patient readers inside;
* `alert_node`, `alert_edge`, `alert_document` — the readers of the records are alert;
* `load_of_truncated` — so a text that breaks off before its last bracket is not acceptable JSON,
  and nothing else is found to be wrong with it.
-/

namespace GraphBoard

namespace Document

open Json

/-- A reader that finds no value of the wrong kind where a value that it accepts breaks off. -/
def Patient {ρ : Type} (reader : Reader ρ) : Prop :=
  ∀ ⦃v w : Value⦄ ⦃r : ρ⦄, reader v = .ok r → w.Front v →
    (∃ r', reader w = .ok r') ∨ reader w = .error .malformed

/-- A reader that notices, moreover, that the value breaks off. -/
def Alert {ρ : Type} (reader : Reader ρ) : Prop :=
  ∀ ⦃v w : Value⦄ ⦃r : ρ⦄, reader v = .ok r → w.Front v → w = v ∨ reader w = .error .malformed

variable {ρ σ : Type} {reader : Reader ρ}

/-- A reader that notices where a value breaks off finds no value of the wrong kind there. -/
theorem Alert.patient (h : Alert reader) : Patient reader := by
  intro v w r hv hw
  obtain rfl | hmalformed := h hv hw
  · exact Or.inl ⟨r, hv⟩
  · exact Or.inr hmalformed

/-- What is done with the result of a reader does not change how it takes a broken value. -/
theorem Patient.map (h : Patient reader) (f : ρ → σ) : Patient fun v => (reader v).map f := by
  intro v w s hv hw
  obtain ⟨r, hr, -⟩ := map_eq_ok_iff.mp hv
  obtain ⟨r', hread⟩ | hmalformed := h hr hw
  · exact Or.inl ⟨f r', map_eq_ok_iff.mpr ⟨r', hread, rfl⟩⟩
  · right
    show (reader w).map f = _
    rw [hmalformed]
    rfl

/-- A reader that goes on with what an alert reader has read is alert. -/
theorem Alert.bind (h : Alert reader) (f : ρ → Except Fault σ) : Alert fun v => reader v >>= f := by
  intro v w s hv hw
  obtain ⟨r, hr, -⟩ := bind_eq_ok_iff.mp hv
  obtain rfl | hmalformed := h hr hw
  · exact Or.inl rfl
  · right
    show (reader w >>= f) = _
    rw [hmalformed]
    rfl

/-! ## Simple values -/

/-- The reader of strings notices where one breaks off. -/
theorem alert_string : Alert string := by
  intro v w r hv hw
  cases v with
  | text q =>
      cases hw with
      | refl => exact Or.inl rfl
      | absent => exact Or.inr rfl
  | _ => contradiction

/-- A number that breaks off may still be one. -/
theorem patient_double : Patient double := by
  intro v w r hv hw
  cases v with
  | number n =>
      cases hw with
      | refl => exact Or.inl ⟨r, hv⟩
      | absent => exact Or.inr rfl
      | @number m _ h =>
          rw [double]
          cases m.value? with
          | none => exact Or.inr rfl
          | some x => exact Or.inl ⟨x, rfl⟩
  | _ => contradiction

/-- A value that is skipped is accepted, or breaks off somewhere. -/
theorem skipped_eq (v : Value) : skipped v = .ok () ∨ skipped v = .error .malformed := by
  rw [skipped]
  cases v.isWhole with
  | false => exact Or.inr rfl
  | true => exact Or.inl rfl

/-! ## Keys -/

/-- Where an integer breaks off, an integer is left. -/
theorem isInt_of_front {m n : Numeral} (h : m.Front n) (hn : n.IsInt) : m.IsInt := by
  obtain ⟨hwhole, hrange⟩ := Numeral.isInt_iff.mp hn
  obtain ⟨hm, hnegative, rest, hrest⟩ := h.of_isWhole hwhole
  have hle : Numeral.natValue m.whole ≤ Numeral.natValue n.whole := by
    rw [← hrest]
    exact Numeral.natValue_le_append m.whole rest
  refine Numeral.isInt_iff.mpr ⟨hm, ?_⟩
  rw [hnegative]
  cases hneg : n.negative with
  | false =>
      simp only [hneg, if_neg Bool.false_ne_true] at hrange ⊢
      exact Nat.lt_of_le_of_lt hle hrange
  | true =>
      simp only [hneg, if_pos] at hrange ⊢
      refine ⟨Nat.pos_of_ne_zero fun hzero => ?_, Nat.le_trans hle hrange.2⟩
      -- a zero at the front would be the whole number
      have hpos := hrange.1
      rw [h.whole_eq_zero hwhole hzero] at hpos
      contradiction

/-- A key that breaks off may still be one. -/
theorem patient_nodeKey (opened : Nat) : Patient (nodeKey opened) := by
  intro v w r hv hw
  cases nodeKey_eq_ok_iff.mp hv with
  | text h =>
      cases hw with
      | refl => exact Or.inl ⟨_, hv⟩
      | absent => exact Or.inr rfl
  | number hn =>
      cases hw with
      | refl => exact Or.inl ⟨_, hv⟩
      | absent => exact Or.inr rfl
      | @number m _ h =>
          exact Or.inl ⟨_, nodeKey_number (isInt_of_front h hn)⟩

/-! ## Tags -/

/-- A tag that breaks off is noticed, in each of its forms. -/
theorem alert_tag {κ : Type} (table : List (String × κ)) : Alert (tag table) := by
  intro v w k hv hw
  obtain ⟨q, rfl, -⟩ | ⟨q, rfl, hk⟩ := tag_eq_ok_cases hv
  · cases hw with
    | refl => exact Or.inl rfl
    | absent => exact Or.inr rfl
  · obtain rfl | rfl | rfl | ⟨u, hu, rfl⟩ := hw.cases_singleton
    · exact Or.inl rfl
    · exact Or.inr rfl
    · exact Or.inr rfl
    · right
      rw [tag, hk]
      cases hu with
      | refl => rfl
      | absent => rfl

/-- A value that may be left open is noticed if it breaks off, where a missing one is malformed. -/
theorem alert_optional (h : Alert reader) (habsent : reader .absent = .error .malformed) :
    Alert (optional reader) := by
  intro v w o hv hw
  have hoptional : ∀ u : Value, u ≠ .null → optional reader u = (reader u).map some := by
    intro u hu
    rw [optional]
    exact hu
  by_cases hnull : v = .null
  · subst hnull
    cases hw with
    | refl => exact Or.inl rfl
    | absent =>
        right
        rw [hoptional .absent (by simp), habsent]
        rfl
  · rw [hoptional v hnull] at hv
    obtain ⟨r, hr, -⟩ := map_eq_ok_iff.mp hv
    obtain rfl | hmalformed := h hr hw
    · exact Or.inl rfl
    · right
      have hw' : w ≠ .null := by
        rintro rfl
        cases hw
        exact hnull rfl
      rw [hoptional w hw', hmalformed]
      rfl

/-! ## Lists -/

/-- The items of an array that breaks off are read until the one that is not complete. -/
theorem items_broken {vs us tail : List Value} {rs : List ρ}
    (h : items reader .closed (vs ++ us) = .ok rs)
    (htail : ∀ rs, items reader .closed us = .ok rs →
      items reader .broken tail = .error .malformed) :
    items reader .broken (vs ++ tail) = .error .malformed := by
  induction vs generalizing rs with
  | nil => exact htail rs h
  | cons v vs ih =>
      obtain ⟨r, hr, h⟩ := bind_eq_ok_iff.mp h
      obtain ⟨rs', hrs, -⟩ := bind_eq_ok_iff.mp h
      rw [List.cons_append, items, hr, ih hrs]
      rfl

/-- The reader of arrays notices where one breaks off, even if that of its items does not. -/
theorem Patient.alert_list (h : Patient reader) : Alert (list reader) := by
  intro v w rs hv hw
  obtain ⟨vs, rfl, -⟩ := list_eq_ok_iff.mp hv
  cases hw with
  | refl => exact Or.inl rfl
  | absent => exact Or.inr rfl
  | array vs us =>
      right
      have hbroken : items reader .broken (vs ++ []) = .error .malformed :=
        items_broken hv fun _ _ => rfl
      rwa [List.append_nil] at hbroken
  | @item v w hw vs us =>
      refine Or.inr (items_broken hv fun rs hrs => ?_)
      obtain ⟨r, hr, -⟩ := bind_eq_ok_iff.mp hrs
      obtain ⟨r', hr'⟩ | hmalformed := h hr hw
      · rw [items, hr']
        rfl
      · rw [items, hmalformed]
        rfl

/-! ## Records -/

namespace Fields

variable {fields : Fields ρ} {r r' : ρ}

/-- The fields of an object that breaks off are read until the one that is not complete. -/
theorem ofObject_broken {seen : List String} {fs gs tail : List (Quoted × Value)}
    (h : fields.ofObject .closed seen r (fs ++ gs) = .ok r')
    (htail : ∀ seen r, fields.ofObject .closed seen r gs = .ok r' →
      fields.ofObject .broken seen r tail = .error .malformed) :
    fields.ofObject .broken seen r (fs ++ tail) = .error .malformed := by
  induction fs generalizing seen r with
  | nil => exact htail seen r h
  | cons f fs ih =>
      obtain ⟨q, v⟩ := f
      rw [List.cons_append]
      obtain ⟨name, hname, ⟨hmem, hseen, r₁, hput, hrest⟩ | ⟨hmem, hskipped, hrest⟩⟩ :=
        ofObject_cons_cases h
      · rw [ofObject_declared hname hmem hseen, hput]
        exact ih hrest
      · rw [ofObject_undeclared hname hmem, hskipped]
        exact ih hrest

/-- A field whose value breaks off is malformed, for nothing closes the object behind it. -/
theorem ofObject_broken_field (hput : ∀ r name, Patient (fields.put r name)) {seen : List String}
    {q : Quoted} {v w : Value} {gs : List (Quoted × Value)}
    (h : fields.ofObject .closed seen r ((q, v) :: gs) = .ok r') (hw : w.Front v) :
    fields.ofObject .broken seen r [(q, w)] = .error .malformed := by
  obtain ⟨name, hname, ⟨hmem, hseen, r₁, hr₁, -⟩ | ⟨hmem, -, -⟩⟩ := ofObject_cons_cases h
  · rw [ofObject_declared hname hmem hseen]
    obtain ⟨r₂, hr₂⟩ | hmalformed := hput r name hr₁ hw
    · rw [hr₂]
      rfl
    · rw [hmalformed]
      rfl
  · rw [ofObject_undeclared hname hmem]
    obtain hok | hmalformed := skipped_eq w
    · rw [hok]
      rfl
    · rw [hmalformed]
      rfl

/-- The items of a record that breaks off are read until the one that is not complete. -/
theorem ofArray_broken {put : ρ → String → Value → Except Fault ρ} {names : List String}
    {vs us tail : List Value} (h : ofArray put .closed names r (vs ++ us) = .ok r')
    (htail : ∀ names r, ofArray put .closed names r us = .ok r' →
      ofArray put .broken names r tail = .error .malformed) :
    ofArray put .broken names r (vs ++ tail) = .error .malformed := by
  induction vs generalizing names r with
  | nil => exact htail names r h
  | cons v vs ih =>
      cases names with
      | nil => contradiction
      | cons name names =>
          rw [List.cons_append, ofArray] at h ⊢
          obtain ⟨r₁, hput, h⟩ := bind_eq_ok_iff.mp h
          rw [hput]
          exact ih h

/-- An item of a record that breaks off is malformed, for nothing closes the array behind it. -/
theorem ofArray_broken_item {put : ρ → String → Value → Except Fault ρ}
    (hput : ∀ r name, Patient (put r name)) {names : List String} {v w : Value} {us : List Value}
    (h : ofArray put .closed names r (v :: us) = .ok r') (hw : w.Front v) :
    ofArray put .broken names r [w] = .error .malformed := by
  cases names with
  | nil => contradiction
  | cons name names =>
      obtain ⟨r₁, hr₁, -⟩ := bind_eq_ok_iff.mp h
      rw [ofArray]
      obtain ⟨r₂, hr₂⟩ | hmalformed := hput r name hr₁ hw
      · rw [hr₂]
        cases names <;> rfl
      · rw [hmalformed]
        rfl

/-- Only an object that is closed is accepted as a record. -/
theorem ending_of_ofObject {ending : Ending} {seen : List String} {fs : List (Quoted × Value)}
    (h : fields.ofObject ending seen r fs = .ok r') : ending = .closed := by
  induction fs generalizing seen r with
  | nil =>
      obtain ⟨_, hending, _⟩ := map_eq_ok_iff.mp h
      exact atEnd_eq_ok_iff.mp hending
  | cons f fs ih =>
      obtain ⟨name, -, ⟨-, -, r₁, -, hrest⟩ | ⟨-, -, hrest⟩⟩ := ofObject_cons_cases h
      · exact ih hrest
      · exact ih hrest

/-- Only an array that is closed is accepted as a record. -/
theorem ending_of_ofArray {put : ρ → String → Value → Except Fault ρ} {ending : Ending}
    {names : List String} {vs : List Value} (h : ofArray put ending names r vs = .ok r') :
    ending = .closed := by
  induction vs generalizing names r with
  | nil =>
      rw [ofArray] at h
      obtain ⟨_, hending, _⟩ := map_eq_ok_iff.mp h
      exact atEnd_eq_ok_iff.mp hending
  | cons v vs ih =>
      cases names with
      | nil => contradiction
      | cons name names =>
          obtain ⟨r₁, -, h⟩ := bind_eq_ok_iff.mp h
          exact ih h

/-- A record that is read is a closed container. -/
theorem read_eq_ok_cases {blank : ρ} {v : Value} (h : fields.read blank v = .ok r) :
    (∃ fs, v = .object fs .closed) ∨ ∃ vs, v = .array vs .closed := by
  cases v with
  | object fs ending => exact Or.inl ⟨fs, by rw [ending_of_ofObject h]⟩
  | array vs ending => exact Or.inr ⟨vs, by rw [ending_of_ofArray h]⟩
  | _ => contradiction

/-- A record that breaks off is noticed in both of its forms. -/
theorem alert_read (hput : ∀ r name, Patient (fields.put r name)) (blank : ρ) :
    Alert (fields.read blank) := by
  intro v w r hv hw
  obtain ⟨fs, rfl⟩ | ⟨vs, rfl⟩ := read_eq_ok_cases hv
  · cases hw with
    | refl => exact Or.inl rfl
    | absent => exact Or.inr rfl
    | object fs gs =>
        right
        have hbroken : fields.ofObject .broken [] blank (fs ++ []) = .error .malformed :=
          ofObject_broken hv fun _ _ _ => rfl
        rwa [List.append_nil] at hbroken
    | field hw fs gs q =>
        exact Or.inr (ofObject_broken hv fun _ _ h => ofObject_broken_field hput h hw)
  · cases hw with
    | refl => exact Or.inl rfl
    | absent => exact Or.inr rfl
    | array vs us =>
        right
        have hbroken : ofArray fields.put .broken fields.names blank (vs ++ []) =
            .error .malformed :=
          ofArray_broken hv fun names _ _ => by cases names <;> rfl
        rwa [List.append_nil] at hbroken
    | item hw vs us =>
        exact Or.inr (ofArray_broken hv fun _ _ h => ofArray_broken_item hput h hw)

end Fields

/-- Every field of a node is patient with values that break off. -/
theorem patient_put_node (opened : Nat) (r : NodeDraft) (name : String) :
    Patient ((nodeFields opened).put r name) := by
  simp only [nodeFields]
  split
  · exact (patient_nodeKey _).map _
  · exact alert_string.patient.map _
  · exact (alert_optional (alert_tag _) rfl).patient.map _
  · exact (alert_optional (alert_tag _) rfl).patient.map _
  · exact patient_double.map _
  · exact patient_double.map _

/-- The reader of nodes notices where one breaks off. -/
theorem alert_node (opened : Nat) : Alert (node opened) :=
  (Fields.alert_read (patient_put_node opened) {}).bind _

theorem patient_put_edge (opened : Nat) (r : EdgeDraft) (name : String) :
    Patient ((edgeFields opened).put r name) := by
  simp only [edgeFields]
  split
  · exact (patient_nodeKey _).map _
  · exact (patient_nodeKey _).map _
  · exact (alert_tag _).patient.map _

theorem alert_edge (opened : Nat) : Alert (edge opened) :=
  (Fields.alert_read (patient_put_edge opened) {}).bind _

theorem patient_put_document (r : Document) (name : String) : Patient (fields.put r name) := by
  simp only [fields]
  split
  · exact (alert_node 2).patient.alert_list.patient.map _
  · exact (alert_edge 2).patient.alert_list.patient.map _

/-- The reader of descriptions notices where one breaks off. -/
theorem alert_document : Alert (fields.read {}) := Fields.alert_read patient_put_document {}

/-! ## Texts -/

/-- A text that is accepted writes one value, from which the description is read. -/
theorem written_of_parse {s : String} {d : Document} (h : parse s = .ok d) :
    ∃ v, v.Written s ∧ fields.read {} v = .ok d := by
  obtain ⟨v, htext, hread⟩ := read_of_parse h
  have hwhole : v.isWhole = true := by
    obtain ⟨fs, rfl⟩ | ⟨vs, rfl⟩ := Fields.read_eq_ok_cases hread <;> rfl
  exact ⟨v, (Value.ofText_eq_iff hwhole).mp htext, hread⟩

/-- The last token of a record is the mark that closes it. -/
theorem exists_last_token {blank : ρ} {fields : Fields ρ} {v : Value} {r : ρ}
    (h : fields.read blank v = .ok r) : ∃ ts t, v.tokens = ts ++ [t] ∧
      ∀ ls, t.Spelled ls → ls = ['\x7d'] ∨ ls = [']'] := by
  obtain ⟨fs, rfl⟩ | ⟨vs, rfl⟩ := Fields.read_eq_ok_cases h
  · refine ⟨_, .closeBrace, Value.tokens_object fs .closed, fun ls hls => ?_⟩
    cases hls
    exact Or.inl rfl
  · refine ⟨_, .closeBracket, Value.tokens_array vs .closed, fun ls hls => ?_⟩
    cases hls
    exact Or.inr rfl

/-- A text whose value is the front of an accepted one, and not all of it, is malformed. -/
theorem parse_of_front {p : String} {v : Value} {d : Document} (hread : fields.read {} v = .ok d)
    (hfront : (Value.ofText p).1.Front v) (hne : (Value.ofText p).1 ≠ v) :
    parse p = .error .malformed := by
  have hmalformed := (alert_document hread hfront).resolve_left hne
  rw [parse, parseAs]
  show (fields.read {} (Value.ofText p).1 >>= _) = _
  rw [hmalformed]
  rfl

end Document

namespace Graph

open Document Json

/-- A text that breaks off before the bracket that closes the description is unreadable, since it is
not acceptable JSON: it is no graph, no key is found to be repeated, and no value to be of the wrong
kind. -/
theorem load_of_truncated {t : String} {d : Document} (h : parse t = .ok d) :
    ∃ body bracket blanks, t.toList = body ++ bracket :: blanks ∧
      (bracket = '\x7d' ∨ bracket = ']') ∧ Token.Blanks blanks ∧
      ∀ p : String, p.toList <+: body → load p = .error (.unreadable .malformed) := by
  obtain ⟨v, hwritten, hread⟩ := written_of_parse h
  obtain ⟨ts, last, htokens, hlast⟩ := exists_last_token hread
  have htext : Token.Written (ts ++ [last]) t.toList := htokens ▸ hwritten.tokens
  have hapart : Token.Apart ts := by
    have hall := hwritten.complete.apart
    rw [htokens] at hall
    exact (List.isChain_append.mp hall).1
  have hmark : ∀ ls, last.Spelled ls → ∃ c, ls = [c] := fun ls hls => by
    obtain rfl | rfl := hlast ls hls
    · exact ⟨_, rfl⟩
    · exact ⟨_, rfl⟩
  obtain ⟨body, bracket, blanks, hsplit, hbody, hbracket, hblanks⟩ := htext.split_last hmark
  refine ⟨body, bracket, blanks, hsplit, by simpa using hlast _ hbracket, hblanks, fun p hp => ?_⟩
  have htokens' : Token.Front (Token.ofChars p.toList) ts := Token.front_ofChars hbody hapart hp
  obtain ⟨hfront, hne⟩ := Value.front_of_tokens hwritten.complete htokens htokens'
  rw [load, parse_of_front hread hfront hne]

/-- A text of one node, with a blank behind it. -/
def lastText : String := "\x7b\"nodes\":[[-12,\"\\u0041\"]]\x7d "

/-- Where it breaks off between the digits of the key, in an escape or behind the inner brackets, it
is unreadable. -/
theorem load_of_truncated_last : (∃ d, parse lastText = .ok d) ∧
    ∀ p ∈ ["\x7b\"nodes\":[[-1", "\x7b\"nodes\":[[-12,\"\\u0",
        "\x7b\"nodes\":[[-12,\"\\u0041\"]]"],
      load p = .error (.unreadable .malformed) := by
  have hparse : parse lastText = .ok ⟨[⟨"-12", "A", none, none, ⟨0.0, 0.0⟩⟩], []⟩ := by
    decide +kernel
  obtain ⟨body, bracket, blanks, hsplit, hbracket, hblanks, hload⟩ := load_of_truncated hparse
  -- the bracket is the last character that is no blank
  have hbody : lastText.toList.reverse.dropWhile Token.isBlank = bracket :: body.reverse := by
    have hreverse : ∀ c ∈ blanks.reverse, Token.isBlank c = true := fun c hc =>
      hblanks c (List.mem_reverse.mp hc)
    rw [hsplit, List.reverse_append, List.reverse_cons, List.append_assoc,
      List.dropWhile_append_of_pos hreverse]
    obtain rfl | rfl := hbracket <;> rfl
  have heq : body = (lastText.toList.reverse.dropWhile Token.isBlank).tail.reverse := by
    rw [hbody, List.tail_cons, List.reverse_reverse]
  refine ⟨⟨_, hparse⟩, fun p hp => hload p ?_⟩
  rw [heq]
  revert p
  decide +kernel

end Graph

end GraphBoard
