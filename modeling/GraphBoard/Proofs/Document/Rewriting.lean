import GraphBoard.Document.Load
import GraphBoard.Proofs.Document.Form
import Mathlib.Algebra.Group.Int.Defs
import Mathlib.Logic.Relation

/-!
# GraphBoard.Proofs.Document.Rewriting

The graph of a description does not depend on how the description is written.  `DocumentStep` is a
single difference between two forms of a description; two texts say the same if their values are
joined by a chain of such differences, each at any place and in either direction.

* `KeyStep.toOption_nodeKey`, `TagForm.tag_eq_ok` — the forms of a key and of a tag;
* `regular_node`, `regular_edge`, `regular_document` — the fields of each record are regular;
* `load_of_rewriting` — texts that say the same are both descriptions or both not, and of
  descriptions the same graph is loaded, or the same key is reported.
-/

namespace GraphBoard

namespace Document

open Json

/-! ## Keys and tags -/

/-- A key as an integer of 64 bits, but not as minus zero, and as the string of the same text. -/
inductive KeyStep : Value → Value → Prop where
  | mk {n : Numeral} {q : Quoted} {ls : List Char} (hwhole : n.fraction = [] ∧ n.exponent = none)
      (hzero : ¬ (n.negative = true ∧ n.intValue = 0))
      (hrange : -2 ^ 63 ≤ n.intValue ∧ n.intValue < 2 ^ 63) (hspelled : n.Spelled ls)
      (hq : q.text? = some (String.ofList ls)) : KeyStep (.number n) (.text q)

/-- Two forms of one tag. -/
inductive TagStep {κ : Type} (table : List (String × κ)) : Value → Value → Prop where
  | mk {k : κ} {v w : Value} (hv : TagForm table k v) (hw : TagForm table k w) : TagStep table v w

/-! ## Records -/

/-- The fields of a node that may be left out, and what they are then. -/
inductive NodeDefault : String → Value → Prop where
  | title {q : Quoted} (hq : q.text? = some "") : NodeDefault "title" (.text q)
  | kind : NodeDefault "type" .null
  | underlay : NodeDefault "subtype" .null
  | x {n : Numeral} (hn : n.value? = some 0.0) : NodeDefault "x" (.number n)
  | y {n : Numeral} (hn : n.value? = some 0.0) : NodeDefault "y" (.number n)

/-- Two forms of the value of a field of a node. -/
inductive NodeInner : String → Value → Value → Prop where
  | key {v w : Value} (h : KeyStep v w) : NodeInner "id" v w
  | kind {v w : Value} (h : TagStep nodeKindNames v w) : NodeInner "type" v w
  | underlay {v w : Value} (h : TagStep underlayNames v w) : NodeInner "subtype" v w

/-- Two forms of a node. -/
def NodeStep : Value → Value → Prop :=
  RecordStep ["id", "title", "type", "subtype", "x", "y"] NodeDefault NodeInner

/-- The field of an edge that may be left out, and what it is then. -/
inductive EdgeDefault : String → Value → Prop where
  | kind {v : Value} (hv : TagForm edgeKindNames .empty v) : EdgeDefault "type" v

/-- Two forms of the value of a field of an edge. -/
inductive EdgeInner : String → Value → Value → Prop where
  | source {v w : Value} (h : KeyStep v w) : EdgeInner "source" v w
  | target {v w : Value} (h : KeyStep v w) : EdgeInner "target" v w
  | kind {v w : Value} (h : TagStep edgeKindNames v w) : EdgeInner "type" v w

/-- Two forms of an edge. -/
def EdgeStep : Value → Value → Prop := RecordStep ["source", "target", "type"] EdgeDefault EdgeInner

/-- The fields of a description that may be left out, and what they are then. -/
inductive DocumentDefault : String → Value → Prop where
  | nodes : DocumentDefault "nodes" (.array [] .closed)
  | edges : DocumentDefault "edges" (.array [] .closed)

/-- Two forms of the value of a field of a description. -/
inductive DocumentInner : String → Value → Value → Prop where
  | nodes {v w : Value} (h : ListStep NodeStep v w) : DocumentInner "nodes" v w
  | edges {v w : Value} (h : ListStep EdgeStep v w) : DocumentInner "edges" v w

/-- Two forms of a description. -/
def DocumentStep : Value → Value → Prop :=
  RecordStep ["nodes", "edges"] DocumentDefault DocumentInner

/-! ## Reading keys and tags -/

/-- An integer and the string of its text are the same key. -/
theorem KeyStep.toOption_nodeKey {v w : Value} (opened : Nat) (h : KeyStep v w) :
    (nodeKey opened v).toOption = (nodeKey opened w).toOption := by
  obtain @⟨n, q, ls, hwhole, hzero, hrange, hspelled, hq⟩ := h
  have hn : n.isWhole = true := by simp [Numeral.isWhole, hwhole]
  have hint : n.IsInt := ⟨hn, hzero, hrange⟩
  rw [nodeKey_number hint, nodeKey, toOption_ofQuoted, hq, hint.toString_intValue hspelled]
  rfl

section Tags

variable {κ : Type} {table : List (String × κ)} {k : κ} {v w : Value}

/-- A name of the table stands for its tag, if no name stands there twice. -/
theorem spelled_of_mem {name : String} (hnodup : (table.map Prod.fst).Nodup)
    (h : (name, k) ∈ table) : spelled table name = .ok k := by
  have hlookup : table.lookup name = some k := by
    induction table with
    | nil => contradiction
    | cons p table ih =>
        rw [List.map_cons, List.nodup_cons] at hnodup
        obtain rfl | hmem := List.mem_cons.mp h
        · rw [List.lookup_cons_self]
        · have hne : name ≠ p.1 := fun he => hnodup.1 (he ▸ List.mem_map_of_mem hmem)
          rw [List.lookup_cons, beq_false_of_ne hne]
          exact ih hnodup.2 hmem
  rw [spelled, hlookup]

/-- Every form of a tag is read as that tag. -/
theorem TagForm.tag_eq_ok (hnodup : (table.map Prod.fst).Nodup) (h : TagForm table k v) :
    tag table v = .ok k := by
  cases h with
  | text hq h =>
      rw [tag, ofQuoted_eq_ok_iff.mpr hq]
      exact spelled_of_mem hnodup h
  | object hq h =>
      rw [tag, ofQuoted_eq_ok_iff.mpr hq]
      simp only [bind, Except.bind, spelled_of_mem hnodup h]
      rfl

/-- It is read as that tag where the tag may be left out, too. -/
theorem TagForm.optional_eq_ok (hnodup : (table.map Prod.fst).Nodup) (h : TagForm table k v) :
    optional (tag table) v = .ok (some k) := by
  have hv : v ≠ .null := by
    rintro rfl
    cases h
  rw [optional, h.tag_eq_ok hnodup]
  · rfl
  · exact hv

/-- Two forms of one tag are read alike. -/
theorem TagStep.tag_eq (hnodup : (table.map Prod.fst).Nodup) (h : TagStep table v w) :
    tag table v = tag table w := by
  obtain ⟨hv, hw⟩ := h
  rw [hv.tag_eq_ok hnodup, hw.tag_eq_ok hnodup]

/-- They are read alike where the tag may be left out, too. -/
theorem TagStep.optional_eq (hnodup : (table.map Prod.fst).Nodup) (h : TagStep table v w) :
    optional (tag table) v = optional (tag table) w := by
  obtain ⟨hv, hw⟩ := h
  rw [hv.optional_eq_ok hnodup, hw.optional_eq_ok hnodup]

end Tags

/-! ## Reading records -/

/-- Two parts that are read by themselves may be put into a record in either order. -/
theorem bind_map_comm {ρ σ τ : Type} (x : Option σ) (y : Option τ) (f : σ → τ → ρ) :
    (x.bind fun a => y.map (f a)) = y.bind fun b => x.map fun a => f a b := by
  cases x <;> cases y <;> rfl

theorem nodeFields_put_y (opened : Nat) (r : NodeDraft) (v : Value) :
    (nodeFields opened).put r "y" v = (double v).map fun y => { r with y } := rfl

/-- The fields of a node may be reordered, left out at their defaults, and given in other forms. -/
theorem regular_node (opened : Nat) : (nodeFields opened).Regular {} NodeDefault NodeInner where
  nodup := by simp [nodeFields]
  comm {m n} hm hn hne r v w := by
    simp only [nodeFields, List.mem_cons, List.not_mem_nil, or_false] at hm hn
    obtain rfl | rfl | rfl | rfl | rfl | rfl := hm <;>
      obtain rfl | rfl | rfl | rfl | rfl | rfl := hn
    all_goals
      first
      | exact absurd rfl hne
      | simp only [↓nodeFields_put_y, nodeFields, toOption_bind, toOption_map, Option.bind_map,
          Function.comp_def]
        exact bind_map_comm _ _ _
  mem_of_default h := by cases h <;> simp [nodeFields]
  put_default h := by
    cases h with
    | title hq => simp only [nodeFields, string, ofQuoted_eq_ok_iff.mpr hq, Except.map]
    | kind => rfl
    | underlay => rfl
    | x hn => simp only [nodeFields, double, hn, Except.map]
    | y hn => simp only [nodeFields_put_y, double, hn, Except.map]
  mem_of_inner h := by cases h <;> simp [nodeFields]
  put_inner h r := by
    cases h with
    | key h => simp only [nodeFields, toOption_map, h.toOption_nodeKey]
    | kind h => simp only [nodeFields, h.optional_eq (by decide)]
    | underlay h => simp only [nodeFields, h.optional_eq (by decide)]

/-- Two forms of a node are both accepted, as the same record, or both refused. -/
theorem NodeStep.toOption_node {v w : Value} (opened : Nat) (h : NodeStep v w) :
    (node opened v).toOption = (node opened w).toOption := by
  have hread : ((nodeFields opened).read {} v).toOption =
      ((nodeFields opened).read {} w).toOption :=
    RecordStep.toOption_read (regular_node opened) h
  simp only [node, toOption_bind, hread]

theorem edgeFields_put_type (opened : Nat) (r : EdgeDraft) (v : Value) :
    (edgeFields opened).put r "type" v =
      (tag edgeKindNames v).map fun kind => { r with kind } := rfl

/-- The fields of an edge may be reordered, left out at their defaults, and given in other forms. -/
theorem regular_edge (opened : Nat) : (edgeFields opened).Regular {} EdgeDefault EdgeInner where
  nodup := by simp [edgeFields]
  comm {m n} hm hn hne r v w := by
    simp only [edgeFields, List.mem_cons, List.not_mem_nil, or_false] at hm hn
    obtain rfl | rfl | rfl := hm <;> obtain rfl | rfl | rfl := hn
    all_goals
      first
      | exact absurd rfl hne
      | simp only [↓edgeFields_put_type, edgeFields, toOption_bind, toOption_map, Option.bind_map,
          Function.comp_def]
        exact bind_map_comm _ _ _
  mem_of_default h := by cases h; simp [edgeFields]
  put_default h := by
    cases h with
    | kind hv => simp only [edgeFields_put_type, hv.tag_eq_ok (by decide), Except.map]
  mem_of_inner h := by cases h <;> simp [edgeFields]
  put_inner h r := by
    cases h with
    | source h => simp only [edgeFields, toOption_map, h.toOption_nodeKey]
    | target h => simp only [edgeFields, toOption_map, h.toOption_nodeKey]
    | kind h => simp only [edgeFields_put_type, h.tag_eq (by decide)]

/-- Two forms of an edge are both accepted, as the same edge, or both refused. -/
theorem EdgeStep.toOption_edge {v w : Value} (opened : Nat) (h : EdgeStep v w) :
    (edge opened v).toOption = (edge opened w).toOption := by
  have hread : ((edgeFields opened).read {} v).toOption =
      ((edgeFields opened).read {} w).toOption :=
    RecordStep.toOption_read (regular_edge opened) h
  simp only [edge, toOption_bind, hread]

theorem fields_put_edges (r : Document) (v : Value) :
    fields.put r "edges" v = (list (edge 2) v).map fun edges => { r with edges } := rfl

/-- The fields of a description may be reordered, left out at their defaults, and given in other
forms. -/
theorem regular_document : fields.Regular {} DocumentDefault DocumentInner where
  nodup := by simp [fields]
  comm {m n} hm hn hne r v w := by
    simp only [fields, List.mem_cons, List.not_mem_nil, or_false] at hm hn
    obtain rfl | rfl := hm <;> obtain rfl | rfl := hn
    all_goals
      first
      | exact absurd rfl hne
      | simp only [↓fields_put_edges, fields, toOption_bind, toOption_map, Option.bind_map,
          Function.comp_def]
        exact bind_map_comm _ _ _
  mem_of_default h := by cases h <;> simp [fields]
  put_default h := by cases h <;> rfl
  mem_of_inner h := by cases h <;> simp [fields]
  put_inner h r := by
    cases h with
    | nodes h =>
        have hlist := h.toOption_list fun _ _ => NodeStep.toOption_node 2
        simp only [fields, toOption_map, hlist]
    | edges h =>
        have hlist := h.toOption_list fun _ _ => EdgeStep.toOption_edge 2
        simp only [fields_put_edges, toOption_map, hlist]

/-- Two descriptions that steps lead between, in either direction, are accepted as the same one or
both refused. -/
theorem toOption_read_of_eqvGen {v w : Value} (h : Relation.EqvGen DocumentStep v w) :
    (fields.read {} v).toOption = (fields.read {} w).toOption := by
  induction h with
  | rel v w h => exact h.toOption_read regular_document
  | refl v => rfl
  | symm v w _ ih => exact ih.symm
  | trans u v w _ _ ih₁ ih₂ => exact ih₁.trans ih₂

/-- Blanks do not matter: a text that writes a value is read as the value is. -/
theorem parseAs_of_written {ρ : Type} (reader : Reader ρ) {v : Value} {s : String}
    (h : v.Written s) : parseAs reader s = reader v := by
  rw [parseAs, Value.ofText_of_written h]
  cases hread : reader v with
  | error fault => simp only [hread, bind, Except.bind]
  | ok d => simp [hread, bind, Except.bind]

/-- Of two texts that say the same both are descriptions, or neither is. -/
theorem toOption_parse_of_rewriting {s t : String} {v w : Value} (hs : v.Written s)
    (ht : w.Written t) (h : Relation.EqvGen DocumentStep v w) :
    (parse s).toOption = (parse t).toOption := by
  rw [parse, parse, parseAs_of_written _ hs, parseAs_of_written _ ht, toOption_read_of_eqvGen h]

end Document

namespace Graph

open Document Json

/-- The graph of a description does not depend on how the description is written.  Of two texts
whose values are joined by a chain of forms, with blanks anywhere in either text, both are
descriptions or neither is; and if they are, the same graph is loaded from both, or the same
repeated key is reported for both. -/
theorem load_of_rewriting {s t : String} {v w : Value} (hs : v.Written s) (ht : w.Written t)
    (h : Relation.EqvGen DocumentStep v w) :
    ((∃ d, parse s = .ok d) ↔ ∃ d, parse t = .ok d) ∧
      ∀ d, parse s = .ok d → load s = load t := by
  have hparse := toOption_parse_of_rewriting hs ht h
  cases hs' : parse s with
  | error fault =>
      cases ht' : parse t with
      | error fault => simp
      | ok d => simp [hs', ht', Except.toOption] at hparse
  | ok d =>
      cases ht' : parse t with
      | error fault => simp [hs', ht', Except.toOption] at hparse
      | ok d' =>
          obtain rfl : d = d' := by simpa [hs', ht', Except.toOption] using hparse
          simp [load, hs', ht']

/-- A node with a number as its key, written as an object. -/
def sevenText : String := "\x7b\"nodes\":[\x7b\"id\":7\x7d]\x7d"

/-- The node written as an array, with a string as its key, behind a field that is not declared. -/
def variedText : String := " \x7b \"note\" : [\x7b\x7d], \"nodes\": [[\"7\"]] \x7d"

/-- The description of a node, with other fields before it. -/
def sevenValue (before : List (Quoted × Value)) (node : Value) : Value :=
  .object (before ++ [(plain "nodes", .array [node] .closed)]) .closed

/-- The same graph is loaded from both texts. -/
theorem load_of_rewriting_seven :
    (∃ d, parse sevenText = .ok d) ∧ load sevenText = load variedText := by
  let number : Value := .number ⟨false, ['7'], [], none⟩
  let text : Value := .text (plain "7")
  let note : Value := .array [.object [] .closed] .closed
  have hnote : note.Complete := .array (by simpa using .object (by simp))
  have hs : (sevenValue [] (.object [(plain "id", number)] .closed)).Written sevenText := by
    refine Value.written_of_ofChars (.object ?_) (by decide +kernel)
    simpa using .array (by simpa using .object (by simpa using .number _))
  have ht : (sevenValue [(plain "note", note)] (.array [text] .closed)).Written variedText := by
    refine Value.written_of_ofChars (.object ?_) (by decide +kernel)
    simpa using ⟨hnote, .array (by simpa using .array (by simpa using .text _))⟩
  -- the node as an array, the key as a string, and the further field
  have hspelled : Numeral.Spelled ⟨false, ['7'], [], none⟩ ['7'] :=
    .mk ⟨by decide, List.forall_mem_singleton.mpr rfl⟩ (by decide) .none .none
  have hkey : KeyStep number text :=
    .mk ⟨rfl, rfl⟩ (by decide) (by decide) hspelled (text?_plain "7")
  have harray : NodeStep (.object [(plain "id", number)] .closed) (.array [number] .closed) :=
    .positional (by simp [text?_plain])
  have htext : NodeStep (.array [number] .closed) (.array [text] .closed) :=
    @RecordStep.insideItem _ _ _ [] [] "id" _ _ rfl (.key hkey)
  have hinside : ∀ {m n}, NodeStep m n →
      DocumentStep (sevenValue [] m) (sevenValue [] n) := fun h =>
    .insideField (text?_plain "nodes") (.nodes (@ListStep.item _ [] [] _ _ h))
  have hextra : DocumentStep (sevenValue [] (.array [text] .closed))
      (sevenValue [(plain "note", note)] (.array [text] .closed)) :=
    .extra (text?_plain "note") (by decide) hnote
  have hforms : Relation.EqvGen DocumentStep
      (sevenValue [] (.object [(plain "id", number)] .closed))
      (sevenValue [(plain "note", note)] (.array [text] .closed)) :=
    .trans _ _ _ (.rel _ _ (hinside harray))
      (.trans _ _ _ (.rel _ _ (hinside htext)) (.rel _ _ hextra))
  have hparse : parse sevenText = .ok ⟨[⟨"7", "", none, none, ⟨0.0, 0.0⟩⟩], []⟩ := by
    decide +kernel
  exact ⟨⟨_, hparse⟩, (load_of_rewriting hs ht hforms).2 _ hparse⟩

end Graph

end GraphBoard
