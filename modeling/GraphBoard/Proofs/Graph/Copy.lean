import GraphBoard.Graph.Duplicate
import GraphBoard.Proofs.Graph.Valid
import GraphBoard.Proofs.Scalar.Order

/-!
# GraphBoard.Proofs.Graph.Copy

What duplicating a part of a graph adds to it.  `Duplicated` says it in terms of the chosen nodes
and the chosen edge keys alone, with a number for each copied node:

* `copyNodes_numbered` — the walk over the chosen nodes gives their copies increasing numbers and
  new keys, although the list of nodes grows with every copy;
* `duplicated_duplicate` — duplicating adds the copies of the chosen nodes and of the chosen edges
  between them, once each;
* `Valid.duplicate` — so the graph stays valid;
* `duplicate_exact` — the two cases together, with the corner that the copies are moved by.
-/

namespace GraphBoard

/-! ## The corner of a box -/

/-- In each coordinate the corner is one of the points, and it is not beyond any point whose
coordinate compares with something. -/
structure Point.IsCorner {α : Type} [Scalar α] (c : Point α) (ps : List (Point α)) : Prop where
  x_mem : c.x ∈ ps.map Point.x
  y_mem : c.y ∈ ps.map Point.y
  x_le : ∀ p ∈ ps, p.x ≤ p.x → c.x ≤ p.x
  y_le : ∀ p ∈ ps, p.y ≤ p.y → c.y ≤ p.y

/-- The corner of a box takes the least of each coordinate by itself. -/
theorem Point.corner_eq {α : Type} [Scalar α] (p : Point α) (ps : List (Point α)) :
    p.corner ps =
      ⟨(ps.map Point.x).foldl Scalar.min p.x, (ps.map Point.y).foldl Scalar.min p.y⟩ := by
  unfold corner
  induction ps generalizing p with
  | nil => rfl
  | cons q qs ih => rw [List.foldl_cons, ih]; rfl

/-- It is a corner of the points: not above any of their coordinates, and each of its own is one of
theirs. -/
theorem Point.isCorner_corner {α : Type} [Scalar α] [Scalar.LawfulOrder α] (p : Point α)
    (ps : List (Point α)) : (p.corner ps).IsCorner (p :: ps) := by
  rw [corner_eq]
  refine ⟨Scalar.foldl_min_mem _ _, Scalar.foldl_min_mem _ _, fun q hq h => ?_, fun q hq h => ?_⟩
  · exact Scalar.foldl_min_le (List.mem_map_of_mem (f := Point.x) hq) h
  · exact Scalar.foldl_min_le (List.mem_map_of_mem (f := Point.y) hq) h

namespace Graph

variable {α : Type}

/-! ## Copies of nodes -/

/-- The key of a node's copy: its own key and the number of the copy. -/
def copyKey (number : NodeKey → Nat) (k : NodeKey) : NodeKey := k ++ "_" ++ toString (number k)

/-- Numbers for the copies of nodes, in the order of the nodes: they increase from the number of
the graph on, and the keys that they make are new. -/
structure Numbered (g : Graph α) (ns : List (Node α)) (number : NodeKey → Nat) : Prop where
  increasing : (ns.map fun n => number n.key).Pairwise (· < ·)
  issued_lt : ∀ n ∈ ns, g.issued < number n.key
  fresh : ∀ n ∈ ns, copyKey number n.key ∉ g.keys
  nodup : (ns.map fun n => copyKey number n.key).Nodup

/-- Copies of different nodes get different keys. -/
theorem Numbered.copyKey_inj {g : Graph α} {ns : List (Node α)} {number : NodeKey → Nat}
    (h : g.Numbered ns number) {k l : NodeKey} (hk : k ∈ ns.map Node.key)
    (hl : l ∈ ns.map Node.key) (he : copyKey number k = copyKey number l) : k = l := by
  have hnodup : ((ns.map Node.key).map (copyKey number)).Nodup := by
    rw [List.map_map]; exact h.nodup
  exact List.inj_on_of_nodup_map hnodup hk hl he

/-- The graph after the first copy. -/
def withCopy (g : Graph α) (n : Node α) (p : Point α) : Graph α :=
  { g with
    nodes := g.nodes ++ [{ n with key := g.freshKey (some n.key), position := p }]
    issued := g.freshNumber (some n.key) }

/-- The numbers of the later copies, and the first free number for the first copy. -/
def numberFirst (g : Graph α) (n : Node α) (number : NodeKey → Nat) : NodeKey → Nat :=
  fun k => if k = n.key then g.freshNumber (some n.key) else number k

section Walk

variable {g : Graph α} {n : Node α} {ns : List (Node α)} {p : Point α} {number : NodeKey → Nat}

/-- The copy of a node is added behind the other nodes, under a fresh key. -/
theorem keys_withCopy : (g.withCopy n p).keys = g.keys ++ [g.freshKey (some n.key)] := by
  simp [withCopy, keys]

/-- The first node is copied under the number that is free before all others are copied. -/
theorem numberFirst_self : g.numberFirst n number n.key = g.freshNumber (some n.key) := if_pos rfl

/-- So its copy has the key that is fresh then. -/
theorem copyKey_numberFirst_self :
    copyKey (g.numberFirst n number) n.key = g.freshKey (some n.key) := by
  rw [copyKey, numberFirst_self]
  rfl

/-- Later nodes keep the numbers that they get. -/
theorem numberFirst_of_mem (hn : n.key ∉ ns.map Node.key) {m : Node α} (hm : m ∈ ns) :
    g.numberFirst n number m.key = number m.key := by
  have hne : m.key ≠ n.key := fun he => hn (he ▸ List.mem_map_of_mem hm)
  exact if_neg hne

/-- And so their copies keep their keys. -/
theorem copyKey_numberFirst_of_mem (hn : n.key ∉ ns.map Node.key) {m : Node α} (hm : m ∈ ns) :
    copyKey (g.numberFirst n number) m.key = copyKey number m.key := by
  rw [copyKey, copyKey, numberFirst_of_mem hn hm]

/-- Numbers for the later nodes, counted on after the first is copied, are numbers for all. -/
theorem Numbered.cons (h : (g.withCopy n p).Numbered ns number) (hn : n.key ∉ ns.map Node.key) :
    g.Numbered (n :: ns) (g.numberFirst n number) where
  increasing := by
    rw [List.map_cons, List.pairwise_cons,
      List.map_congr_left fun m hm => numberFirst_of_mem hn hm, numberFirst_self]
    refine ⟨fun i hi => ?_, h.increasing⟩
    obtain ⟨m, hm, rfl⟩ := List.mem_map.mp hi
    exact h.issued_lt m hm
  issued_lt m hm := by
    have hfirst := g.issued_lt_freshNumber (some n.key)
    cases List.mem_cons.mp hm with
    | inl he =>
        rw [he, numberFirst_self]
        exact hfirst
    | inr hm =>
        rw [numberFirst_of_mem hn hm]
        exact Nat.lt_trans hfirst (h.issued_lt m hm)
  fresh m hm := by
    cases List.mem_cons.mp hm with
    | inl he =>
        rw [he, copyKey_numberFirst_self]
        exact g.freshKey_not_mem_keys _
    | inr hm =>
        have hnew := h.fresh m hm
        rw [keys_withCopy] at hnew
        rw [copyKey_numberFirst_of_mem hn hm]
        exact fun hmem => hnew (List.mem_append_left _ hmem)
  nodup := by
    rw [List.map_cons, List.nodup_cons, copyKey_numberFirst_self,
      List.map_congr_left fun m hm => copyKey_numberFirst_of_mem hn hm]
    refine ⟨fun hmem => ?_, h.nodup⟩
    -- the later copies avoid the key of the first, which is in the graph by then
    obtain ⟨m, hm, he⟩ := List.mem_map.mp hmem
    refine h.fresh m hm ?_
    rw [he, keys_withCopy]
    exact List.mem_append_right _ (List.mem_singleton.mpr rfl)

end Walk

/-- The walk gives each node's copy a number.  The induction is on the nodes that are left, over
all graphs that the copies so far may have made. -/
theorem copyNodes_numbered (shift : Point α → Point α) (ns : List (Node α)) (g : Graph α)
    (hns : (ns.map Node.key).Nodup) :
    ∃ number, g.Numbered ns number ∧
      (copyNodes shift ns g).1.nodes = g.nodes ++ ns.map (fun n =>
        { n with key := copyKey number n.key, position := shift n.position }) ∧
      (copyNodes shift ns g).2 = ns.map fun n => (n.key, copyKey number n.key) := by
  induction ns generalizing g with
  | nil => exact ⟨fun _ => 0, ⟨.nil, nofun, nofun, List.nodup_nil⟩, by simp [copyNodes], rfl⟩
  | cons n ns ih =>
      rw [List.map_cons, List.nodup_cons] at hns
      obtain ⟨hn, hns⟩ := hns
      obtain ⟨number, hnum, hnodes, hrenamed⟩ := ih (g.withCopy n (shift n.position)) hns
      refine ⟨g.numberFirst n number, hnum.cons hn, ?_, ?_⟩
      · have hrest : ns.map (fun m => ({ m with
              key := copyKey (g.numberFirst n number) m.key
              position := shift m.position } : Node α)) =
            ns.map fun m => { m with key := copyKey number m.key, position := shift m.position } :=
          List.map_congr_left fun m hm => by rw [copyKey_numberFirst_of_mem hn hm]
        rw [List.map_cons, copyKey_numberFirst_self, hrest]
        show (copyNodes shift ns (g.withCopy n (shift n.position))).1.nodes = _
        rw [hnodes]
        simp [withCopy]
      · have hrest : ns.map (fun m => (m.key, copyKey (g.numberFirst n number) m.key)) =
            ns.map fun m => (m.key, copyKey number m.key) :=
          List.map_congr_left fun m hm => by rw [copyKey_numberFirst_of_mem hn hm]
        rw [List.map_cons, copyKey_numberFirst_self, hrest]
        show (n.key, g.freshKey (some n.key)) ::
          (copyNodes shift ns (g.withCopy n (shift n.position))).2 = _
        rw [hrenamed]

/-! ## Copies of edges -/

/-- In a table made from nodes, a key is found exactly if it is that of a node. -/
theorem lookup_map_key (f : NodeKey → NodeKey) (ns : List (Node α)) (k : NodeKey) :
    (ns.map fun n => (n.key, f n.key)).lookup k =
      if k ∈ ns.map Node.key then some (f k) else none := by
  induction ns with
  | nil => simp
  | cons n ns ih =>
      rw [List.map_cons, List.lookup_cons, ih]
      by_cases h : k = n.key
      · simp [h]
      · simp [h, beq_false_of_ne h]

/-- An edge that is looked up is there, and has the key. -/
theorem key_eq_of_edge? {g : Graph α} {k : EdgeKey} {e : Edge} (h : g.edge? k = some e) :
    e ∈ g.edges ∧ e.key = k :=
  ⟨List.mem_of_find?_eq_some h, by simpa using List.find?_some h⟩

/-- The chosen edge keys that name an edge between two chosen nodes, in ascending order. -/
def chosenEdges (g : Graph α) (s : Selection) : List EdgeKey :=
  s.edges.toList.filter fun k =>
    g.hasEdge k && decide (k.source ∈ (g.chosenNodes s).map Node.key) &&
      decide (k.target ∈ (g.chosenNodes s).map Node.key)

/-- The copies of edges, one for each key: they join the copies of the ends and have the kind of
the first edge with the key. -/
def EdgeCopies (g : Graph α) (number : NodeKey → Nat) : List EdgeKey → List Edge → Prop :=
  List.Forall₂ fun k e =>
    e.key = ⟨copyKey number k.source, copyKey number k.target⟩ ∧
      (g.edge? k).map Edge.kind = some e.kind

/-- The edge of a key is copied if both of its ends are, and joins their copies then. -/
theorem copyEdge?_eq {g : Graph α} {ns : List (Node α)} {number : NodeKey → Nat} {k : EdgeKey} :
    g.copyEdge? (ns.map fun n => (n.key, copyKey number n.key)) k =
      if k.source ∈ ns.map Node.key ∧ k.target ∈ ns.map Node.key then
        (g.edge? k).map fun e => e.between (copyKey number k.source) (copyKey number k.target)
      else none := by
  cases he : g.edge? k with
  | none => simp [copyEdge?, he]
  | some e =>
      obtain ⟨-, rfl⟩ := key_eq_of_edge? he
      rw [copyEdge?, he, Option.bind_eq_bind, Option.bind_some, lookup_map_key, lookup_map_key,
        Edge.source_key, Edge.target_key]
      by_cases hs : e.source ∈ ns.map Node.key
      · by_cases ht : e.target ∈ ns.map Node.key
        · rw [if_pos hs, if_pos ht, if_pos ⟨hs, ht⟩]; rfl
        · rw [if_pos hs, if_neg ht, if_neg fun h : _ ∧ _ => ht h.2]; rfl
      · rw [if_neg hs, if_neg fun h : _ ∧ _ => hs h.1]; rfl

/-- Dropping what a function answers nothing for, and applying the function, pairs what is kept with
the answers. -/
theorem forall₂_filter_filterMap {β γ : Type} {f : β → Option γ} {p : β → Bool}
    {R : β → γ → Prop} {l : List β}
    (hsome : ∀ a ∈ l, p a = true → ∃ b, f a = some b ∧ R a b)
    (hnone : ∀ a ∈ l, p a = false → f a = none) :
    List.Forall₂ R (l.filter p) (l.filterMap f) := by
  induction l with
  | nil => exact .nil
  | cons a l ih =>
      have ih := ih (fun b hb => hsome b (List.mem_cons_of_mem a hb))
        (fun b hb => hnone b (List.mem_cons_of_mem a hb))
      cases hp : p a with
      | true =>
          obtain ⟨b, hb, hr⟩ := hsome a List.mem_cons_self hp
          rw [List.filter_cons_of_pos hp, List.filterMap_cons_some hb]
          exact .cons hr ih
      | false =>
          rw [List.filter_cons_of_neg (by simp [hp]),
            List.filterMap_cons_none (hnone a List.mem_cons_self hp)]
          exact ih

/-- Everything in the second of two paired lists has its partner in the first. -/
theorem exists_of_forall₂_of_mem {β γ : Type} {R : β → γ → Prop} {as : List β} {bs : List γ}
    (h : List.Forall₂ R as bs) {b : γ} (hb : b ∈ bs) : ∃ a ∈ as, R a b := by
  induction h with
  | nil => contradiction
  | cons hr _ ih =>
      cases List.mem_cons.mp hb with
      | inl he => exact ⟨_, List.mem_cons_self, he ▸ hr⟩
      | inr hb =>
          obtain ⟨a, ha, hr⟩ := ih hb
          exact ⟨a, List.mem_cons_of_mem _ ha, hr⟩

/-- What is copied of the chosen edges are the edges both of whose ends are copied, in their order.
-/
theorem edgeCopies_filterMap (g : Graph α) (s : Selection) (number : NodeKey → Nat) :
    EdgeCopies g number (g.chosenEdges s) (s.edges.toList.filterMap
      (g.copyEdge? ((g.chosenNodes s).map fun n => (n.key, copyKey number n.key)))) := by
  refine forall₂_filter_filterMap (fun k _ hk => ?_) fun k _ hk => ?_
  · simp only [Bool.and_eq_true, decide_eq_true_eq, hasEdge_iff] at hk
    obtain ⟨⟨⟨e, he, hek⟩, hs⟩, ht⟩ := hk
    have hsome : (g.edge? k).isSome := List.find?_isSome.mpr ⟨e, he, by simp [hek]⟩
    obtain ⟨f, hf⟩ := Option.isSome_iff_exists.mp hsome
    rw [copyEdge?_eq, if_pos ⟨hs, ht⟩, hf]
    exact ⟨_, rfl, rfl, rfl⟩
  · rw [copyEdge?_eq]
    by_cases hst : k.source ∈ (g.chosenNodes s).map Node.key ∧
        k.target ∈ (g.chosenNodes s).map Node.key
    · have hno : g.hasEdge k = false := by
        cases he : g.hasEdge k with
        | false => rfl
        | true => simp only [he, hst.1, hst.2] at hk; contradiction
      have hnone : g.edge? k = none := by
        rw [edge?, List.find?_eq_none]
        intro e he hek
        have hyes : g.hasEdge k = true := hasEdge_iff.mpr ⟨e, he, by simpa using hek⟩
        rw [hno] at hyes
        contradiction
      rw [if_pos hst, hnone]
      rfl
    · rw [if_neg hst]

section EdgeCopies

variable {g : Graph α} {number : NodeKey → Nat} {ks : List EdgeKey} {es : List Edge}

/-- The copies join the copies of what the chosen edges join. -/
theorem EdgeCopies.map_key (h : g.EdgeCopies number ks es) :
    es.map Edge.key = ks.map fun k => ⟨copyKey number k.source, copyKey number k.target⟩ := by
  induction h with
  | nil => rfl
  | cons hr _ ih => rw [List.map_cons, List.map_cons, hr.1, ih]

/-- Every copy is that of a chosen edge. -/
theorem EdgeCopies.exists_of_mem (h : g.EdgeCopies number ks es) {e : Edge} (he : e ∈ es) :
    ∃ k ∈ ks, e.key = ⟨copyKey number k.source, copyKey number k.target⟩ := by
  obtain ⟨k, hk, hkey, -⟩ := exists_of_forall₂_of_mem h he
  exact ⟨k, hk, hkey⟩

end EdgeCopies

/-- An edge is copied exactly if it is selected and there, and both of its ends are chosen. -/
theorem mem_chosenEdges {g : Graph α} {s : Selection} {k : EdgeKey} :
    k ∈ g.chosenEdges s ↔ k ∈ s.edges ∧ (∃ e ∈ g.edges, e.key = k) ∧
      k.source ∈ (g.chosenNodes s).map Node.key ∧ k.target ∈ (g.chosenNodes s).map Node.key := by
  rw [chosenEdges, List.mem_filter, OrderedSet.mem_toList, Bool.and_eq_true, Bool.and_eq_true,
    hasEdge_iff, decide_eq_true_iff, decide_eq_true_iff, and_assoc]

/-! ## The copy as a whole -/

/-- The graph `g'` is `g` with a copy of its chosen part at `goal`, the copies moved as `corner` is
moved onto `goal`, numbered by `number`, and joined by `copies`; `s'` chooses what is new. -/
structure Duplicated [Scalar α] (g : Graph α) (s : Selection) (goal corner : Point α)
    (number : NodeKey → Nat) (copies : List Edge) (g' : Graph α) (s' : Selection) : Prop where
  numbered : g.Numbered (g.chosenNodes s) number
  nodes_eq : g'.nodes = g.nodes ++ (g.chosenNodes s).map fun n =>
    ⟨copyKey number n.key, n.title, n.kind, n.underlay,
      ⟨goal.x + (n.position.x - corner.x), goal.y + (n.position.y - corner.y)⟩⟩
  edges_eq : g'.edges = g.edges ++ copies
  edgeCopies : g.EdgeCopies number (g.chosenEdges s) copies
  keys_nodup : (copies.map Edge.key).Nodup
  no_loop : ∀ e ∈ copies, e.source ≠ e.target
  mem_nodes : ∀ k, k ∈ s'.nodes ↔ ∃ n ∈ g.chosenNodes s, copyKey number n.key = k
  mem_edges : ∀ k, k ∈ s'.edges ↔ ∃ e ∈ copies, e.key = k

/-- On a valid board no chosen node has the key of another. -/
theorem nodup_chosenNodes {g : Graph α} (hg : g.Valid) (s : Selection) :
    ((g.chosenNodes s).map Node.key).Nodup :=
  hg.keys_nodup.sublist (List.filter_sublist.map Node.key)

section Injectivity

variable {g : Graph α} {s : Selection} {number : NodeKey → Nat} {copies : List Edge}

/-- No two copies of edges have one key. -/
theorem EdgeCopies.nodup (h : g.EdgeCopies number (g.chosenEdges s) copies)
    (hnum : g.Numbered (g.chosenNodes s) number) : (copies.map Edge.key).Nodup := by
  rw [h.map_key]
  refine (List.Nodup.filter _ s.edges.nodup_toList).map_on fun k hk l hl he => ?_
  obtain ⟨-, -, hks, hkt⟩ := mem_chosenEdges.mp hk
  obtain ⟨-, -, hls, hlt⟩ := mem_chosenEdges.mp hl
  have hs := hnum.copyKey_inj hks hls (congrArg EdgeKey.source he)
  have ht := hnum.copyKey_inj hkt hlt (congrArg EdgeKey.target he)
  cases k
  cases l
  rw [EdgeKey.mk.injEq]
  exact ⟨hs, ht⟩

/-- No copy of an edge joins a node to itself. -/
theorem EdgeCopies.no_loop (h : g.EdgeCopies number (g.chosenEdges s) copies)
    (hnum : g.Numbered (g.chosenNodes s) number) (hg : g.Valid) {e : Edge} (he : e ∈ copies) :
    e.source ≠ e.target := by
  obtain ⟨k, hk, hek⟩ := h.exists_of_mem he
  obtain ⟨-, ⟨f, hf, rfl⟩, hs, ht⟩ := mem_chosenEdges.mp hk
  intro hloop
  have hcopy : copyKey number f.source = copyKey number f.target :=
    (congrArg EdgeKey.source hek).symm.trans (hloop.trans (congrArg EdgeKey.target hek))
  exact hg.no_loop f hf (hnum.copyKey_inj hs ht hcopy)

end Injectivity

/-- Duplicating is copying the chosen nodes one after the other, moved by one shift, and then the
edges between them. -/
theorem duplicate_eq [Scalar α] (g : Graph α) (s : Selection) (goal : Point α) {n : Node α}
    {ns : List (Node α)} (hc : g.chosenNodes s = n :: ns) :
    let walk := copyNodes (moveOnto goal (n.position.corner (ns.map Node.position)))
      (g.chosenNodes s) g
    let copies := s.edges.toList.filterMap (g.copyEdge? walk.2)
    g.duplicate s goal = ({ walk.1 with edges := g.edges ++ copies },
      .ofKeys (walk.2.map Prod.snd) (copies.map Edge.key)) := by
  simp only [duplicate, hc, edges_copyNodes]

/-- What is duplicated of a valid board is as it should be. -/
theorem duplicated_duplicate [Scalar α] {g : Graph α} (hg : g.Valid) (s : Selection)
    (goal : Point α) {n : Node α} {ns : List (Node α)} (hc : g.chosenNodes s = n :: ns) :
    ∃ number copies, Duplicated g s goal (n.position.corner (ns.map Node.position)) number copies
      (g.duplicate s goal).1 (g.duplicate s goal).2 := by
  obtain ⟨number, hnum, hnodes, hrenamed⟩ := copyNodes_numbered
    (moveOnto goal (n.position.corner (ns.map Node.position))) (g.chosenNodes s) g
    (nodup_chosenNodes hg s)
  have hcopies := edgeCopies_filterMap g s number
  rw [duplicate_eq g s goal hc, hrenamed]
  refine ⟨number, _, hnum, hnodes, rfl, hcopies, hcopies.nodup hnum,
    fun e he => hcopies.no_loop hnum hg he, fun k => ?_, fun k => ?_⟩
  · simp [Selection.ofKeys]
  · simp [Selection.ofKeys]

/-- If no node is chosen, the graph stays as it is and nothing is selected. -/
theorem duplicate_of_chosenNodes_nil [Scalar α] {g : Graph α} {s : Selection} (goal : Point α)
    (hc : g.chosenNodes s = []) : g.duplicate s goal = (g, .empty) := by
  simp only [duplicate, hc]

/-- If no node is chosen, nothing is copied; else the copies of the chosen nodes and of the chosen
edges between them are added behind the old ones, and the selection of the copies is answered.  The
corner that is moved to `goal` is that of the box around the chosen nodes. -/
theorem duplicate_exact [Scalar α] [Scalar.LawfulOrder α] {g : Graph α} (hg : g.Valid)
    (s : Selection) (goal : Point α) :
    (g.chosenNodes s = [] → g.duplicate s goal = (g, .empty)) ∧
      (g.chosenNodes s ≠ [] → ∃ corner number copies,
        corner.IsCorner ((g.chosenNodes s).map Node.position) ∧
        Duplicated g s goal corner number copies (g.duplicate s goal).1
          (g.duplicate s goal).2) := by
  constructor
  · exact duplicate_of_chosenNodes_nil goal
  · intro hc
    obtain ⟨n, ns, hc⟩ := List.exists_cons_of_ne_nil hc
    obtain ⟨number, copies, hdup⟩ := duplicated_duplicate hg s goal hc
    refine ⟨_, number, copies, ?_, hdup⟩
    rw [hc, List.map_cons]
    exact Point.isCorner_corner _ _

/-- A chosen key that names nothing and a chosen edge that leaves the chosen nodes are no trouble.
-/
theorem duplicate_exact_lookalike :
    let s : Selection := .ofKeys ["gone", "a_1", "a"] [⟨"a_1", "n1"⟩, ⟨"a", "a_1"⟩]
    lookalike.Valid ∧ lookalike.chosenNodes s ≠ [] ∧ ∃ corner number copies,
      corner.IsCorner ((lookalike.chosenNodes s).map Node.position) ∧
        Duplicated lookalike s ⟨10.0, 10.0⟩ corner number copies
          (lookalike.duplicate s ⟨10.0, 10.0⟩).1 (lookalike.duplicate s ⟨10.0, 10.0⟩).2 := by
  have hc : lookalike.chosenNodes
      (.ofKeys ["gone", "a_1", "a"] [⟨"a_1", "n1"⟩, ⟨"a", "a_1"⟩]) ≠ [] := by
    decide
  exact ⟨valid_lookalike, hc, (duplicate_exact valid_lookalike _ ⟨10.0, 10.0⟩).2 hc⟩

example : (lookalike.duplicate (.ofKeys ["gone", "a_1", "a"] [⟨"a_1", "n1"⟩, ⟨"a", "a_1"⟩])
    ⟨10.0, 10.0⟩).1 =
    ⟨lookalike.nodes ++ [⟨"a_2", "A", .special, none, ⟨11.0, 10.0⟩⟩,
        ⟨"a_1_3", "B", .poly, none, ⟨10.0, 14.0⟩⟩],
      lookalike.edges ++ [⟨"a_2", "a_1_3", .special⟩], 3⟩ := by
  decide +kernel

/-- What is answered is empty exactly if no node is chosen. -/
theorem isEmpty_duplicate_iff [Scalar α] {g : Graph α} (hg : g.Valid) (s : Selection)
    (goal : Point α) : (g.duplicate s goal).2.isEmpty = true ↔ g.chosenNodes s = [] := by
  cases hc : g.chosenNodes s with
  | nil =>
      rw [duplicate_of_chosenNodes_nil goal hc]
      exact iff_of_true rfl rfl
  | cons n ns =>
      obtain ⟨number, copies, hdup⟩ := duplicated_duplicate hg s goal hc
      refine iff_of_false (fun hempty => ?_) (List.cons_ne_nil n ns)
      rw [Selection.isEmpty, Bool.and_eq_true, OrderedSet.isEmpty_iff] at hempty
      exact hempty.1 _ ((hdup.mem_nodes _).mpr ⟨n, hc ▸ List.mem_cons_self, rfl⟩)

/-! ## Validity -/

section Validity

variable [Scalar α] {g g' : Graph α} {s s' : Selection} {goal corner : Point α}
  {number : NodeKey → Nat} {copies : List Edge}

/-- The keys of the copies come behind the old ones. -/
theorem Duplicated.keys_eq (h : Duplicated g s goal corner number copies g' s') :
    g'.keys = g.keys ++ (g.chosenNodes s).map fun n => copyKey number n.key := by
  rw [keys, h.nodes_eq, List.map_append, List.map_map]
  rfl

/-- The copy of every chosen node is there. -/
theorem Duplicated.copyKey_mem_keys (h : Duplicated g s goal corner number copies g' s')
    {k : NodeKey} (hk : k ∈ (g.chosenNodes s).map Node.key) : copyKey number k ∈ g'.keys := by
  obtain ⟨n, hn, rfl⟩ := List.mem_map.mp hk
  rw [h.keys_eq]
  exact List.mem_append_right _ (List.mem_map_of_mem (f := fun n => copyKey number n.key) hn)

/-- Duplicating leaves a valid graph. -/
theorem Duplicated.valid (h : Duplicated g s goal corner number copies g' s') (hg : g.Valid) :
    g'.Valid := by
  refine hg.extend ?_ ?_ fun e he => ?_
  · rw [h.keys_eq, List.nodup_append]
    refine ⟨hg.keys_nodup, h.numbered.nodup, fun k hk l hl he => ?_⟩
    obtain ⟨n, hn, rfl⟩ := List.mem_map.mp hl
    exact h.numbered.fresh n hn (he ▸ hk)
  · rw [h.keys_eq]
    exact List.subset_append_left _ _
  · rw [h.edges_eq] at he
    cases List.mem_append.mp he with
    | inl he => exact Or.inl he
    | inr he =>
        obtain ⟨k, hk, hek⟩ := h.edgeCopies.exists_of_mem he
        obtain ⟨-, -, hks, hkt⟩ := mem_chosenEdges.mp hk
        have hs : e.source = copyKey number k.source := congrArg EdgeKey.source hek
        have ht : e.target = copyKey number k.target := congrArg EdgeKey.target hek
        have hne := h.no_loop e he
        rw [hs, ht] at hne ⊢
        exact Or.inr (joinable_iff.mpr ⟨hne, h.copyKey_mem_keys hks, h.copyKey_mem_keys hkt⟩)

end Validity

/-- A valid graph is valid with its copies. -/
theorem Valid.duplicate [Scalar α] {g : Graph α} (hg : g.Valid) (s : Selection) (goal : Point α) :
    (g.duplicate s goal).1.Valid := by
  cases hc : g.chosenNodes s with
  | nil =>
      rw [duplicate_of_chosenNodes_nil goal hc]
      exact hg
  | cons n ns =>
      obtain ⟨number, copies, hdup⟩ := duplicated_duplicate hg s goal hc
      exact hdup.valid hg

end Graph

end GraphBoard
