import Mathlib.Data.List.Forall2
import GraphBoard.Document.Basic
import GraphBoard.Proofs.Json.Integer

/-!
# GraphBoard.Proofs.Document.Field

What a successful reading says of a value. A reader walks through the fields of a record in the
order of the text; `given?` looks a field up by its name, or by its place if the record is written
as an array.

* `nodeKey_eq_ok_iff` — a key is the text of a string, or that of an integer within 64 bits;
* `tagForm_of_tag` — a tag is one of its names, as a string or as an object that says only this;
* `list_eq_ok_iff` — an array is read item by item;
* `Fields.ofObject_cons_cases` — what one field of an object does to a record;
* `Fields.Decides.read` — a part of a record that one field decides is what is read of the value
  given for this field, wherever it stands.
-/

namespace GraphBoard.Document

open Json

/-! ## Results -/

section Results

variable {β γ : Type} {x : Except Fault β} {c : γ}

/-- Two readings in turn succeed if both do. -/
theorem bind_eq_ok_iff {f : β → Except Fault γ} :
    (x >>= f) = .ok c ↔ ∃ b, x = .ok b ∧ f b = .ok c := by
  cases x with
  | error fault => simp [bind, Except.bind]
  | ok b => simp [bind, Except.bind]

/-- A reading whose result is changed succeeds if the reading does. -/
theorem map_eq_ok_iff {f : β → γ} : x.map f = .ok c ↔ ∃ b, x = .ok b ∧ f b = c := by
  cases x with
  | error fault => simp [Except.map]
  | ok b => simp [Except.map]

end Results

/-! ## Simple values -/

/-- A string is read as the text that it stands for. -/
theorem ofQuoted_eq_ok_iff {q : Quoted} {s : String} : ofQuoted q = .ok s ↔ q.text? = some s := by
  rw [ofQuoted]
  cases q.text? <;> simp

/-- A value that is a string of some text. -/
inductive TextOf : Value → String → Prop where
  /-- What is quoted has this text. -/
  | text {q : Quoted} {s : String} (h : q.text? = some s) : TextOf (.text q) s

/-- The text that is read of a value is that of a string. -/
theorem textOf_of_string {v : Value} {s : String} (h : string v = .ok s) : TextOf v s := by
  cases v with
  | text q => exact .text (ofQuoted_eq_ok_iff.mp h)
  | _ => contradiction

/-- A value that is a number for which a double stands. -/
inductive DoubleOf : Value → Float → Prop where
  /-- The number is in range. -/
  | number {n : Numeral} {x : Float} (h : n.value? = some x) : DoubleOf (.number n) x

/-- The double that is read of a value is that of a number. -/
theorem doubleOf_of_double {v : Value} {x : Float} (h : double v = .ok x) : DoubleOf v x := by
  cases v with
  | number n =>
      rw [double] at h
      cases hvalue : n.value? with
      | none =>
          rw [hvalue] at h
          contradiction
      | some y =>
          rw [hvalue] at h
          cases h
          exact .number hvalue
  | _ => contradiction

/-! ## Keys -/

/-- A value that is a key: a string, or an integer within 64 bits, which is held as its text. -/
inductive KeyOf : Value → NodeKey → Prop where
  /-- The text of a string. -/
  | text {q : Quoted} {k : NodeKey} (h : q.text? = some k) : KeyOf (.text q) k
  /-- The text of an integer. -/
  | number {n : Numeral} (h : n.IsInt) : KeyOf (.number n) (toString n.intValue)

/-- A number is read as the key that an integer is held as. -/
theorem nodeKey_number {opened : Nat} {n : Numeral} (h : n.IsInt) :
    nodeKey opened (.number n) = .ok (toString n.intValue) := by
  rw [nodeKey, Numeral.int?_eq_some h]

/-- Of which numbers no key is read, and what is wrong with them. -/
theorem nodeKey_number_of_not {opened : Nat} {n : Numeral} (h : ¬ n.IsInt) :
    nodeKey opened (.number n) = .error (refusal (.number n)) := by
  rw [nodeKey, Numeral.int?_eq_none h]

/-- The key that is read of a value is the key that the value is. -/
theorem nodeKey_eq_ok_iff {opened : Nat} {v : Value} {k : NodeKey} :
    nodeKey opened v = .ok k ↔ KeyOf v k := by
  constructor
  · intro h
    cases v with
    | text q => exact .text (ofQuoted_eq_ok_iff.mp h)
    | number n =>
        by_cases hint : n.IsInt
        · rw [nodeKey_number hint] at h
          cases h
          exact .number hint
        · rw [nodeKey_number_of_not hint] at h
          contradiction
    | _ => contradiction
  · intro h
    cases h with
    | text h => exact ofQuoted_eq_ok_iff.mpr h
    | number h => exact nodeKey_number h

/-! ## Lists -/

/-- A container is accepted at its end only if it is closed. -/
theorem atEnd_eq_ok_iff {ending : Ending} {u : Unit} : atEnd ending = .ok u ↔ ending = .closed := by
  cases ending <;> simp [atEnd]

/-- The items of an array are read one by one, and the array is closed. -/
theorem items_eq_ok_iff {ρ : Type} {reader : Reader ρ} {ending : Ending} {vs : List Value}
    {rs : List ρ} : items reader ending vs = .ok rs ↔
      ending = .closed ∧ List.Forall₂ (fun v r => reader v = .ok r) vs rs := by
  induction vs generalizing rs with
  | nil =>
      rw [items, map_eq_ok_iff, List.forall₂_nil_left_iff]
      simp only [atEnd_eq_ok_iff, exists_const, @eq_comm _ rs []]
  | cons v vs ih =>
      simp only [items, bind_eq_ok_iff, ih, List.forall₂_cons_left_iff, pure, Except.pure,
        Except.ok.injEq]
      constructor
      · intro h
        obtain ⟨r, hr, rs', ⟨hending, hrs⟩, rfl⟩ := h
        exact ⟨hending, r, rs', hr, hrs, rfl⟩
      · intro h
        obtain ⟨hending, r, rs', hr, hrs, rfl⟩ := h
        exact ⟨r, hr, rs', ⟨hending, hrs⟩, rfl⟩

/-- A list is read from a closed array, item by item. -/
theorem list_eq_ok_iff {ρ : Type} {reader : Reader ρ} {v : Value} {rs : List ρ} :
    list reader v = .ok rs ↔
      ∃ vs, v = .array vs .closed ∧ List.Forall₂ (fun v r => reader v = .ok r) vs rs := by
  cases v with
  | array vs ending =>
      simp only [list, items_eq_ok_iff, Value.array.injEq]
      constructor
      · intro h
        exact ⟨vs, ⟨rfl, h.1⟩, h.2⟩
      · intro h
        obtain ⟨vs', ⟨rfl, hending⟩, hrs⟩ := h
        exact ⟨hending, hrs⟩
  | _ => simp [list]

/-! ## Tags -/

/-- How a tag is written: by any of its names, or as an object that says only this. -/
inductive TagForm {κ : Type} (table : List (String × κ)) (k : κ) : Value → Prop where
  | text {q : Quoted} {name : String} (hq : q.text? = some name) (h : (name, k) ∈ table) :
      TagForm table k (.text q)
  | object {q : Quoted} {name : String} (hq : q.text? = some name) (h : (name, k) ∈ table) :
      TagForm table k (.object [(q, .null)] .closed)

section Tags

variable {κ : Type} {table : List (String × κ)} {v : Value} {k : κ}

/-- A name that is found in a table stands there. -/
theorem mem_of_spelled {name : String} (h : spelled table name = .ok k) : (name, k) ∈ table := by
  rw [spelled] at h
  cases hlookup : table.lookup name with
  | none =>
      rw [hlookup] at h
      contradiction
  | some l =>
      rw [hlookup] at h
      cases h
      obtain ⟨before, after, rfl, -⟩ := List.lookup_eq_some_iff.mp hlookup
      simp

/-- A tag is a string, or an object of one field that says nothing. -/
theorem tag_eq_ok_cases (h : tag table v = .ok k) :
    (∃ q, v = .text q ∧ (ofQuoted q >>= spelled table) = .ok k) ∨
      ∃ q, v = .object [(q, .null)] .closed ∧
      (ofQuoted q >>= spelled table) = .ok k := by
  cases v with
  | text q => exact Or.inl ⟨q, rfl, h⟩
  | object fs ending =>
      cases fs with
      | nil => contradiction
      | cons f fs =>
          obtain ⟨q, u⟩ := f
          rw [tag] at h
          obtain ⟨k', hk, h⟩ := bind_eq_ok_iff.mp h
          obtain ⟨-, hnothing, h⟩ := bind_eq_ok_iff.mp h
          cases fs with
          | cons f fs => contradiction
          | nil =>
              obtain ⟨_, hending, rfl⟩ := map_eq_ok_iff.mp h
              rw [atEnd_eq_ok_iff.mp hending]
              cases u with
              | null => exact Or.inr ⟨q, rfl, hk⟩
              | _ => contradiction
  | _ => contradiction

/-- What is read of a value as a tag is a tag that the value is a form of. -/
theorem tagForm_of_tag (h : tag table v = .ok k) : TagForm table k v := by
  obtain ⟨q, rfl, hq⟩ | ⟨q, rfl, hq⟩ := tag_eq_ok_cases h
  all_goals
    obtain ⟨name, hname, hspelled⟩ := bind_eq_ok_iff.mp hq
    have htext := ofQuoted_eq_ok_iff.mp hname
  · exact .text htext (mem_of_spelled hspelled)
  · exact .object htext (mem_of_spelled hspelled)

end Tags

/-! ## Fields -/

/-- The value that is given for a field of a record with these names: in an object that of the first
field with the name, in an array that at the place of the name. -/
def given? (names : List String) (v : Value) (name : String) : Option Value :=
  match v with
  | .object fs _ => (fs.find? fun f => f.1.text? == some name).map Prod.snd
  | .array vs _ => (names.zip vs).lookup name
  | _ => none

namespace Fields

variable {ρ σ : Type}

/-- A part of a record is decided by one field, whose value `reader` reads; the other fields leave
it alone. -/
structure Decides (fields : Fields ρ) (name : String) (reader : Reader σ) (part : ρ → σ) :
    Prop where
  mem : name ∈ fields.names
  put_self : ∀ {r r' : ρ} {v : Value}, fields.put r name v = .ok r' → reader v = .ok (part r')
  put_other : ∀ {r r' : ρ} {m : String} {v : Value}, m ∈ fields.names → m ≠ name →
    fields.put r m v = .ok r' → part r' = part r

variable {fields : Fields ρ} {name : String} {reader : Reader σ} {part : ρ → σ} {r r' : ρ}

/-! ### One field of an object -/

section Step

variable {ending : Ending} {seen : List String} {q : Quoted} {v : Value}
  {fs : List (Quoted × Value)}

/-- A field that is declared and did not come before is put into the record. -/
theorem ofObject_declared (hname : ofQuoted q = .ok name) (hmem : name ∈ fields.names)
    (hseen : name ∉ seen) : fields.ofObject ending seen r ((q, v) :: fs) =
      fields.put r name v >>= fun r => fields.ofObject ending (name :: seen) r fs := by
  rw [Fields.ofObject, hname]
  simp only [bind, Except.bind, if_pos hmem, if_neg hseen]

/-- Any other is skipped. -/
theorem ofObject_undeclared (hname : ofQuoted q = .ok name) (hmem : name ∉ fields.names) :
    fields.ofObject ending seen r ((q, v) :: fs) =
      skipped v >>= fun _ => fields.ofObject ending seen r fs := by
  rw [Fields.ofObject, hname]
  simp only [bind, Except.bind, if_neg hmem]

/-- The first field of an object is a declared one that was not given yet, or another that is
skipped. -/
theorem ofObject_cons_cases (h : fields.ofObject ending seen r ((q, v) :: fs) = .ok r') :
    ∃ name, ofQuoted q = .ok name ∧
      ((name ∈ fields.names ∧ name ∉ seen ∧ ∃ r₁, fields.put r name v = .ok r₁ ∧
          fields.ofObject ending (name :: seen) r₁ fs = .ok r') ∨
        (name ∉ fields.names ∧ skipped v = .ok () ∧
          fields.ofObject ending seen r fs = .ok r')) := by
  have hread := h
  rw [Fields.ofObject] at h
  obtain ⟨name, hname, h⟩ := bind_eq_ok_iff.mp h
  refine ⟨name, hname, ?_⟩
  by_cases hmem : name ∈ fields.names
  · rw [if_pos hmem] at h
    by_cases hseen : name ∈ seen
    · rw [if_pos hseen] at h
      contradiction
    · rw [ofObject_declared hname hmem hseen] at hread
      exact Or.inl ⟨hmem, hseen, bind_eq_ok_iff.mp hread⟩
  · rw [ofObject_undeclared hname hmem] at hread
    obtain ⟨_, hskipped, hrest⟩ := bind_eq_ok_iff.mp hread
    exact Or.inr ⟨hmem, hskipped, hrest⟩

end Step

/-! ### What a field decides -/

/-- A field whose value is read and set decides the part that it sets. -/
theorem Decides.of_map {τ : Type} {read : Reader τ} {set : ρ → τ → ρ} {f : τ → σ}
    (mem : name ∈ fields.names) (put_eq : ∀ r v, fields.put r name v = (read v).map (set r))
    (part_set : ∀ r a, part (set r a) = f a)
    (put_other : ∀ {r r' : ρ} {m : String} {v : Value}, m ∈ fields.names → m ≠ name →
      fields.put r m v = .ok r' → part r' = part r) :
    fields.Decides name (fun v => (read v).map f) part where
  mem := mem
  put_self h := by
    rw [put_eq] at h
    obtain ⟨a, ha, rfl⟩ := map_eq_ok_iff.mp h
    rw [ha, part_set]
    rfl
  put_other := put_other

/-- A field decides a part if its value is read into it and no other field touches it. -/
theorem Decides.of_set {set : ρ → σ → ρ} (mem : name ∈ fields.names)
    (put_eq : ∀ r v, fields.put r name v = (reader v).map (set r))
    (part_set : ∀ r a, part (set r a) = a)
    (put_other : ∀ {r r' : ρ} {m : String} {v : Value}, m ∈ fields.names → m ≠ name →
      fields.put r m v = .ok r' → part r' = part r) : fields.Decides name reader part := by
  simpa using Decides.of_map (f := id) mem put_eq part_set put_other

/-- The part is what is read of the value that is given, or stays as it was if none is. A field that
was seen does not come again. -/
theorem Decides.ofObject (h : fields.Decides name reader part) {ending : Ending}
    {fs : List (Quoted × Value)} {seen : List String}
    (hread : fields.ofObject ending seen r fs = .ok r') :
    if name ∈ seen then part r' = part r
    else ((fs.find? fun f => f.1.text? == some name).map Prod.snd).elim (.ok (part r)) reader =
      .ok (part r') := by
  induction fs generalizing seen r with
  | nil =>
      obtain ⟨u, -, rfl⟩ := map_eq_ok_iff.mp hread
      simp
  | cons f fs ih =>
      obtain ⟨q, v⟩ := f
      obtain ⟨m, hm, ⟨hmem, hseen, r₁, hput, htail⟩ | ⟨hmem, -, htail⟩⟩ :=
        ofObject_cons_cases hread
      · have htext : q.text? = some m := ofQuoted_eq_ok_iff.mp hm
        have hafter := ih htail
        by_cases hname : m = name
        · subst hname
          rw [if_pos List.mem_cons_self] at hafter
          rw [if_neg hseen, hafter]
          simp [htext, h.put_self hput]
        · have hkept : part r₁ = part r := h.put_other hmem hname hput
          simpa [htext, hname, Ne.symm hname, hkept] using hafter
      · have htext : q.text? = some m := ofQuoted_eq_ok_iff.mp hm
        have hname : m ≠ name := fun he => hmem (he ▸ h.mem)
        simpa [htext, hname] using ih htail

/-- In an array, too, the part is what is read of the value at the place of the name. -/
theorem Decides.ofArray (h : fields.Decides name reader part) {ending : Ending}
    {names : List String} {vs : List Value} (hnames : names ⊆ fields.names) (hnodup : names.Nodup)
    (hread : Fields.ofArray fields.put ending names r vs = .ok r') :
    if name ∈ names then ((names.zip vs).lookup name).elim (.ok (part r)) reader = .ok (part r')
    else part r' = part r := by
  induction vs generalizing names r with
  | nil =>
      rw [Fields.ofArray] at hread
      obtain ⟨u, -, rfl⟩ := map_eq_ok_iff.mp hread
      simp
  | cons v vs ih =>
      cases names with
      | nil => contradiction
      | cons m names =>
          obtain ⟨r₁, hput, htail⟩ := bind_eq_ok_iff.mp hread
          rw [List.nodup_cons] at hnodup
          have hmem : m ∈ fields.names := hnames List.mem_cons_self
          have hafter := ih (fun n hn => hnames (List.mem_cons_of_mem m hn)) hnodup.2 htail
          by_cases hname : name = m
          · subst hname
            rw [if_neg hnodup.1] at hafter
            rw [if_pos List.mem_cons_self, hafter]
            simp [h.put_self hput]
          · have hkept : part r₁ = part r := h.put_other hmem (Ne.symm hname) hput
            rw [hkept] at hafter
            simpa [hname, List.lookup_cons, beq_false_of_ne hname] using hafter

/-- In a record that is read, the part is what the reader makes of the value given for the field. -/
theorem Decides.read (h : fields.Decides name reader part) (hnodup : fields.names.Nodup) {v : Value}
    (hread : fields.read r v = .ok r') :
    (given? fields.names v name).elim (.ok (part r)) reader = .ok (part r') := by
  cases v with
  | object fs ending =>
      have hpart := h.ofObject hread
      rwa [if_neg List.not_mem_nil] at hpart
  | array vs ending =>
      have hpart := h.ofArray (List.Subset.refl _) hnodup hread
      rwa [if_pos h.mem] at hpart
  | _ => contradiction

end Fields

end GraphBoard.Document
