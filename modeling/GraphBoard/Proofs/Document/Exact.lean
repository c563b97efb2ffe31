import GraphBoard.Proofs.Document.Load
import GraphBoard.Proofs.Document.Record

/-!
# GraphBoard.Proofs.Document.Exact

Loading a text gives exactly the graph that it describes.

* `exists_split_of_firstRepeated` — the scan for repeated keys stops at the first place, in the
  order of the records, where a key comes that came before;
* `load_exact` — so a text that is no description is reported as such, whatever its records are; a
  description in which a key is repeated is refused with the key at that place; and any other one
  is loaded record by record, without the edges that cannot stand in a graph.
-/

namespace GraphBoard

open Document

namespace Document

/-- The first repeated key splits the keys: before it none is repeated, and it is there already. -/
theorem exists_split_of_firstRepeated {seen ks : List NodeKey} {k : NodeKey}
    (h : firstRepeated seen ks = some k) :
    ∃ xs ys, ks = xs ++ k :: ys ∧ firstRepeated seen xs = none ∧ (k ∈ seen ∨ k ∈ xs) := by
  induction ks generalizing seen with
  | nil => contradiction
  | cons l ks ih =>
      rw [firstRepeated] at h
      by_cases hl : l ∈ seen
      · rw [if_pos hl] at h
        cases h
        exact ⟨[], ks, rfl, rfl, Or.inl hl⟩
      · rw [if_neg hl] at h
        obtain ⟨xs, ys, rfl, hxs, hk⟩ := ih h
        refine ⟨l :: xs, ys, rfl, ?_, ?_⟩
        · rw [firstRepeated, if_neg hl]
          exact hxs
        · simpa [or_assoc, or_left_comm] using hk

/-- The record of the first repeated key is the first whose key is that of an earlier one. -/
theorem exists_record_of_firstRepeated {rs : List NodeRecord} {k : NodeKey}
    (h : firstRepeated [] (rs.map NodeRecord.key) = some k) :
    ∃ before r after, rs = before ++ r :: after ∧ (before.map NodeRecord.key).Nodup ∧
      r.key ∈ before.map NodeRecord.key ∧ r.key = k := by
  obtain ⟨xs, ys, hsplit, hxs, hk⟩ := exists_split_of_firstRepeated h
  obtain ⟨before, rest, rfl, rfl, hrest⟩ := List.map_eq_append_iff.mp hsplit
  obtain ⟨r, after, rfl, rfl, -⟩ := List.map_eq_cons_iff.mp hrest
  have hbefore : (before.map NodeRecord.key).Nodup := (firstRepeated_eq_none_iff.mp hxs).1
  have hmem : r.key ∈ before.map NodeRecord.key := hk.resolve_left List.not_mem_nil
  exact ⟨before, r, after, rfl, hbefore, hmem, rfl⟩

/-- If keys are repeated, the error names the first one that was there before. -/
theorem graph_of_not_nodup {d : Document} (h : ¬ (d.nodes.map NodeRecord.key).Nodup) :
    ∃ before r after, d.nodes = before ++ r :: after ∧ (before.map NodeRecord.key).Nodup ∧
      r.key ∈ before.map NodeRecord.key ∧ d.graph = .error (.duplicateNodeKey r.key) := by
  cases hscan : firstRepeated [] (d.nodes.map NodeRecord.key) with
  | none => exact absurd (firstRepeated_eq_none_iff.mp hscan).1 h
  | some k =>
      obtain ⟨before, r, after, hsplit, hbefore, hmem, rfl⟩ :=
        exists_record_of_firstRepeated hscan
      exact ⟨before, r, after, hsplit, hbefore, hmem, by simp only [graph, hscan]⟩

end Document

namespace Graph

/-- A text that is accepted is loaded as its description is. -/
theorem load_of_parse {s : String} {d : Document} (h : parse s = .ok d) : load s = d.graph := by
  simp only [load, h]

/-- A text that is no description is unreadable. Of one that is, the first record whose key came
before is reported; if there is none, the graph has the nodes of all records and, of the edges, in
their order, those that join two different nodes. -/
theorem load_exact (s : String) :
    match parse s with
    | .error fault => load s = .error (.unreadable fault)
    | .ok d =>
      (∃ v, Json.Value.ofText s = (v, false) ∧ DocumentRead v d) ∧
      (¬ (d.nodes.map NodeRecord.key).Nodup →
        ∃ before r after, d.nodes = before ++ r :: after ∧ (before.map NodeRecord.key).Nodup ∧
          r.key ∈ before.map NodeRecord.key ∧ load s = .error (.duplicateNodeKey r.key)) ∧
      ((d.nodes.map NodeRecord.key).Nodup →
        load s = .ok (.ofItems
          (d.nodes.map fun r => ⟨r.key, r.title, r.kind.getD .skinny, r.underlay, r.position⟩)
          (d.edges.filter fun e => e.source ≠ e.target ∧
            e.source ∈ d.nodes.map NodeRecord.key ∧ e.target ∈ d.nodes.map NodeRecord.key))) := by
  cases hparse : parse s with
  | error fault => simp only [load, hparse]
  | ok d =>
      refine ⟨documentRead_of_parse hparse, fun hrepeated => ?_, fun hnodup => ?_⟩
      · rw [load_of_parse hparse]
        exact graph_of_not_nodup hrepeated
      · rw [load_of_parse hparse, graph_eq_ok_iff]
        refine ⟨hnodup, congrArg _ (List.filter_congr fun e _ => ?_)⟩
        simp only [Bool.decide_and, List.contains_eq_mem, bne, Bool.and_assoc, decide_not]
        rfl

/-- The text of a description that repeats two keys, one of them as a number and as a string.  The
first record has every field but one, the others are written in other ways. -/
def repeatedText : String :=
  "\x7b\"nodes\":[\x7b\"id\":7,\"title\":\"first\",\"type\":\"special\",\"x\":1.5,\"y\":-20\x7d," ++
    "\x7b\"type\":null,\"id\":\"a\",\"subtype\":\x7b\"specialChild\":null\x7d\x7d," ++
    "[\"7\",\"again\",\"POLY_TYPE\"],[\"a\"]]," ++
    "\"edges\":[\x7b\"source\":7,\"target\":\"a\",\"type\":\"specialEdge\"\x7d,[\"a\",\"b\"]]\x7d"

/-- The description. -/
def repeated : Document where
  nodes := [⟨"7", "first", some .special, none, ⟨1.5, -20.0⟩⟩,
    ⟨"a", "", none, some .specialChild, ⟨0.0, 0.0⟩⟩,
    ⟨"7", "again", some .poly, none, ⟨0.0, 0.0⟩⟩, ⟨"a", "", none, none, ⟨0.0, 0.0⟩⟩]
  edges := [⟨"7", "a", .special⟩, ⟨"a", "b", .empty⟩]

/-- Every field is read, and of the two keys that are repeated, that of the third record is
reported. -/
theorem load_exact_repeated :
    parse repeatedText = .ok repeated ∧
      (∃ v, Json.Value.ofText repeatedText = (v, false) ∧ DocumentRead v repeated) ∧
      ¬ (repeated.nodes.map NodeRecord.key).Nodup ∧
      ∃ before r after, repeated.nodes = before ++ r :: after ∧
        (before.map NodeRecord.key).Nodup ∧ r.key ∈ before.map NodeRecord.key ∧
        load repeatedText = .error (.duplicateNodeKey r.key) := by
  have hparse : parse repeatedText = .ok repeated := by decide +kernel
  have hrepeated : ¬ (repeated.nodes.map NodeRecord.key).Nodup := by decide
  have hexact := load_exact repeatedText
  rw [hparse] at hexact
  exact ⟨hparse, hexact.1, hrepeated, hexact.2.1 hrepeated⟩

-- Without the last two records the description is loaded, but for the edge that leads nowhere.
example : repeated.graph = .error (.duplicateNodeKey "7") ∧
    ({ repeated with nodes := repeated.nodes.take 2 } : Document).graph = .ok (.ofItems
      [⟨"7", "first", .special, none, ⟨1.5, -20.0⟩⟩,
        ⟨"a", "", .skinny, some .specialChild, ⟨0.0, 0.0⟩⟩] [⟨"7", "a", .special⟩]) := by
  decide +kernel

-- A text that breaks off behind two records of one key is unreadable.
example : load "\x7b\"nodes\":[[\"a\"],[\"a\"]]" = .error (.unreadable .malformed) := by
  decide +kernel

end Graph

end GraphBoard
