import GraphBoard.Proofs.Document.Field

/-!
# GraphBoard.Proofs.Document.Record

What an accepted description says, record by record and field by field. Each field of a record
decides one part of it (`NodeDraft.Frame`, `EdgeDraft.Frame`), so `Fields.Decides.read` tells every
part by itself.

* `nodeRead_of_node` — the record of a node, with its kind left open if none is given or `null` is;
* `edgeRead_of_edge` — the record of an edge;
* `documentRead_of_parse` — the records of a description are those of its arrays, in their order.
-/

namespace GraphBoard.Document

open Json

variable {opened : Nat} {v : Value}

/-! ## Fields that may be missing -/

section Missing

variable {σ : Type} {R : Value → σ → Prop} {reader : Reader σ} {o : Option Value}

/-- What is said by a field that may be missing, and is `default` then. -/
inductive ReadOr (R : Value → σ → Prop) (default : σ) : Option Value → σ → Prop where
  /-- The field is missing. -/
  | missing : ReadOr R default none default
  /-- The field is given. -/
  | given {v : Value} {a : σ} (h : R v a) : ReadOr R default (some v) a

/-- What is said by a field that may be missing or left open by `null`. -/
inductive ReadOpen (R : Value → σ → Prop) : Option Value → Option σ → Prop where
  /-- The field is missing. -/
  | missing : ReadOpen R none none
  /-- The field is left open. -/
  | null : ReadOpen R (some .null) none
  /-- The field is given. -/
  | given {v : Value} {a : σ} (h : R v a) : ReadOpen R (some v) (some a)

/-- A field that may be missing is read as what it says. -/
theorem readOr_of_elim {default a : σ} (hR : ∀ {v a}, reader v = .ok a → R v a)
    (h : o.elim (.ok default) reader = .ok a) : ReadOr R default o a := by
  cases o with
  | none =>
      cases h
      exact .missing
  | some v => exact .given (hR h)

/-- A field that may be missing or left open is read as what it says. -/
theorem readOpen_of_elim {a : Option σ} (hR : ∀ {v a}, reader v = .ok a → R v a)
    (h : o.elim (.ok none) (optional reader) = .ok a) : ReadOpen R o a := by
  cases o with
  | none =>
      cases h
      exact .missing
  | some v =>
      cases v with
      | null =>
          cases h
          exact .null
      | _ =>
          obtain ⟨r, hr, rfl⟩ := map_eq_ok_iff.mp h
          exact .given (hR hr)

/-- A field that has to be there is given, and is read. -/
theorem given_of_required {a : Option σ} {k : σ}
    (h : o.elim (.ok none) (fun v => (reader v).map some) = .ok a) (ha : required a = .ok k) :
    ∃ v, o = some v ∧ reader v = .ok k := by
  cases o with
  | none =>
      cases h
      contradiction
  | some v =>
      obtain ⟨r, hr, rfl⟩ := map_eq_ok_iff.mp h
      cases ha
      exact ⟨v, rfl, hr⟩

end Missing

/-! ## Nodes -/

/-- The names of the fields of a node. -/
def nodeNames : List String := ["id", "title", "type", "subtype", "x", "y"]

/-- A record is what is written of a node. -/
structure NodeRead (v : Value) (r : NodeRecord) : Prop where
  key : ∃ w, given? nodeNames v "id" = some w ∧ KeyOf w r.key
  title : ReadOr TextOf "" (given? nodeNames v "title") r.title
  kind : ReadOpen (fun w k => TagForm nodeKindNames k w) (given? nodeNames v "type") r.kind
  underlay :
    ReadOpen (fun w k => TagForm underlayNames k w) (given? nodeNames v "subtype") r.underlay
  x : ReadOr DoubleOf 0.0 (given? nodeNames v "x") r.position.x
  y : ReadOr DoubleOf 0.0 (given? nodeNames v "y") r.position.y

/-- A field of a node leaves every part alone but its own. -/
structure NodeDraft.Frame (m : String) (r r' : NodeDraft) : Prop where
  key : m = "id" ∨ r'.key = r.key
  title : m = "title" ∨ r'.title = r.title
  kind : m = "type" ∨ r'.kind = r.kind
  underlay : m = "subtype" ∨ r'.underlay = r.underlay
  x : m = "x" ∨ r'.x = r.x
  y : m = "y" ∨ r'.y = r.y

/-- A field of a node is put into the part that it names, and into no other. -/
theorem NodeDraft.frame_put {m : String} {r r' : NodeDraft}
    (hm : m ∈ (nodeFields opened).names) (h : (nodeFields opened).put r m v = .ok r') :
    NodeDraft.Frame m r r' := by
  simp only [nodeFields, List.mem_cons, List.not_mem_nil, or_false] at hm
  obtain rfl | rfl | rfl | rfl | rfl | rfl := hm
  all_goals
    obtain ⟨a, -, rfl⟩ := map_eq_ok_iff.mp h
    constructor <;> simp

/-- The field `id` decides the key of a node. -/
theorem decides_id : (nodeFields opened).Decides "id"
    (fun v => (nodeKey (opened + 1) v).map some) NodeDraft.key :=
  .of_map (by simp [nodeFields]) (fun _ _ => rfl) (fun _ _ => rfl)
    fun hm hne h => (NodeDraft.frame_put hm h).key.resolve_left hne

theorem decides_title : (nodeFields opened).Decides "title" string NodeDraft.title :=
  .of_set (by simp [nodeFields]) (fun _ _ => rfl) (fun _ _ => rfl)
    fun hm hne h => (NodeDraft.frame_put hm h).title.resolve_left hne

theorem decides_kind : (nodeFields opened).Decides "type" (optional (tag nodeKindNames))
    NodeDraft.kind :=
  .of_set (by simp [nodeFields]) (fun _ _ => rfl) (fun _ _ => rfl)
    fun hm hne h => (NodeDraft.frame_put hm h).kind.resolve_left hne

theorem decides_underlay : (nodeFields opened).Decides "subtype" (optional (tag underlayNames))
    NodeDraft.underlay :=
  .of_set (by simp [nodeFields]) (fun _ _ => rfl) (fun _ _ => rfl)
    fun hm hne h => (NodeDraft.frame_put hm h).underlay.resolve_left hne

theorem decides_x : (nodeFields opened).Decides "x" double NodeDraft.x :=
  .of_set (by simp [nodeFields]) (fun _ _ => rfl) (fun _ _ => rfl)
    fun hm hne h => (NodeDraft.frame_put hm h).x.resolve_left hne

theorem decides_y : (nodeFields opened).Decides "y" double NodeDraft.y :=
  .of_set (by simp [nodeFields]) (fun _ _ => rfl) (fun _ _ => rfl)
    fun hm hne h => (NodeDraft.frame_put hm h).y.resolve_left hne

/-- A node that is read is what is written. -/
theorem nodeRead_of_node {r : NodeRecord} (h : node opened v = .ok r) : NodeRead v r := by
  obtain ⟨d, hread, hrest⟩ := bind_eq_ok_iff.mp h
  obtain ⟨k, hkey, hr⟩ := bind_eq_ok_iff.mp hrest
  cases hr
  have hnodup : (nodeFields opened).names.Nodup := by simp [nodeFields]
  obtain ⟨w, hw, hk⟩ := given_of_required (decides_id.read hnodup hread) hkey
  exact {
    key := ⟨w, hw, nodeKey_eq_ok_iff.mp hk⟩
    title := readOr_of_elim textOf_of_string (decides_title.read hnodup hread)
    kind := readOpen_of_elim tagForm_of_tag (decides_kind.read hnodup hread)
    underlay := readOpen_of_elim tagForm_of_tag (decides_underlay.read hnodup hread)
    x := readOr_of_elim doubleOf_of_double (decides_x.read hnodup hread)
    y := readOr_of_elim doubleOf_of_double (decides_y.read hnodup hread) }

/-! ## Edges -/

/-- The names of the fields of an edge. -/
def edgeNames : List String := ["source", "target", "type"]

/-- An edge is what is written of it. -/
structure EdgeRead (v : Value) (e : Edge) : Prop where
  source : ∃ w, given? edgeNames v "source" = some w ∧ KeyOf w e.source
  target : ∃ w, given? edgeNames v "target" = some w ∧ KeyOf w e.target
  kind : ReadOr (fun w k => TagForm edgeKindNames k w) .empty (given? edgeNames v "type") e.kind

/-- A field of an edge leaves every part alone but its own. -/
structure EdgeDraft.Frame (m : String) (r r' : EdgeDraft) : Prop where
  source : m = "source" ∨ r'.source = r.source
  target : m = "target" ∨ r'.target = r.target
  kind : m = "type" ∨ r'.kind = r.kind

/-- A field of an edge is put into the part that it names, and into no other. -/
theorem EdgeDraft.frame_put {m : String} {r r' : EdgeDraft}
    (hm : m ∈ (edgeFields opened).names) (h : (edgeFields opened).put r m v = .ok r') :
    EdgeDraft.Frame m r r' := by
  simp only [edgeFields, List.mem_cons, List.not_mem_nil, or_false] at hm
  obtain rfl | rfl | rfl := hm
  all_goals
    obtain ⟨a, -, rfl⟩ := map_eq_ok_iff.mp h
    constructor <;> simp

/-- The field `source` decides where an edge starts. -/
theorem decides_source : (edgeFields opened).Decides "source"
    (fun v => (nodeKey (opened + 1) v).map some) EdgeDraft.source :=
  .of_map (by simp [edgeFields]) (fun _ _ => rfl) (fun _ _ => rfl)
    fun hm hne h => (EdgeDraft.frame_put hm h).source.resolve_left hne

theorem decides_target : (edgeFields opened).Decides "target"
    (fun v => (nodeKey (opened + 1) v).map some) EdgeDraft.target :=
  .of_map (by simp [edgeFields]) (fun _ _ => rfl) (fun _ _ => rfl)
    fun hm hne h => (EdgeDraft.frame_put hm h).target.resolve_left hne

theorem decides_style : (edgeFields opened).Decides "type" (tag edgeKindNames) EdgeDraft.kind :=
  .of_set (by simp [edgeFields]) (fun _ _ => rfl) (fun _ _ => rfl)
    fun hm hne h => (EdgeDraft.frame_put hm h).kind.resolve_left hne

/-- An edge that is read is what is written. -/
theorem edgeRead_of_edge {e : Edge} (h : edge opened v = .ok e) : EdgeRead v e := by
  obtain ⟨d, hread, hrest⟩ := bind_eq_ok_iff.mp h
  obtain ⟨s, hs, hrest⟩ := bind_eq_ok_iff.mp hrest
  obtain ⟨t, ht, he⟩ := bind_eq_ok_iff.mp hrest
  cases he
  have hnodup : (edgeFields opened).names.Nodup := by simp [edgeFields]
  obtain ⟨v₁, hv₁, hsource⟩ := given_of_required (decides_source.read hnodup hread) hs
  obtain ⟨v₂, hv₂, htarget⟩ := given_of_required (decides_target.read hnodup hread) ht
  exact {
    source := ⟨v₁, hv₁, nodeKey_eq_ok_iff.mp hsource⟩
    target := ⟨v₂, hv₂, nodeKey_eq_ok_iff.mp htarget⟩
    kind := readOr_of_elim tagForm_of_tag (decides_style.read hnodup hread) }

/-! ## Descriptions -/

/-- The items of the array that is given for a field of a description, none if it is missing. -/
def itemsOf (v : Value) (name : String) : List Value :=
  match given? ["nodes", "edges"] v name with
  | some (.array vs _) => vs
  | _ => []

/-- A description is what is written in a text: its records are the items of its arrays. -/
structure DocumentRead (v : Value) (d : Document) : Prop where
  nodes : List.Forall₂ NodeRead (itemsOf v "nodes") d.nodes
  edges : List.Forall₂ EdgeRead (itemsOf v "edges") d.edges

/-- The field `nodes` decides the nodes of a description. -/
theorem decides_nodes : fields.Decides "nodes" (list (node 2)) Document.nodes :=
  .of_set (by simp [fields]) (fun _ _ => rfl) (fun _ _ => rfl) fun hm hne h => by
    simp only [fields, List.mem_cons, List.not_mem_nil, or_false] at hm
    obtain ⟨a, -, rfl⟩ := map_eq_ok_iff.mp ((hm.resolve_left hne) ▸ h)
    rfl

theorem decides_edges : fields.Decides "edges" (list (edge 2)) Document.edges :=
  .of_set (by simp [fields]) (fun _ _ => rfl) (fun _ _ => rfl) fun hm hne h => by
    simp only [fields, List.mem_cons, List.not_mem_nil, or_false] at hm
    obtain ⟨a, -, rfl⟩ := map_eq_ok_iff.mp ((hm.resolve_right hne) ▸ h)
    rfl

/-- The records of a field of a description are read off the items that are given for it. -/
theorem forall₂_itemsOf {σ : Type} {reader : Reader σ} {R : Value → σ → Prop} {name : String}
    {rs : List σ} (hR : ∀ w r, reader w = .ok r → R w r)
    (h : (given? fields.names v name).elim (.ok []) (list reader) = .ok rs) :
    List.Forall₂ R (itemsOf v name) rs := by
  rw [itemsOf]
  cases hgiven : given? ["nodes", "edges"] v name with
  | none =>
      have hrs : rs = [] := by
        have hnone : given? fields.names v name = none := hgiven
        rw [hnone] at h
        cases h
        rfl
      rw [hrs]
      exact .nil
  | some w =>
      have hsome : given? fields.names v name = some w := hgiven
      rw [hsome] at h
      obtain ⟨vs, rfl, hrs⟩ := list_eq_ok_iff.mp h
      exact hrs.imp hR

/-- What `parse` accepts is read off one value, and nothing follows it in the text. -/
theorem read_of_parse {s : String} {d : Document} (h : parse s = .ok d) :
    ∃ v, Value.ofText s = (v, false) ∧ fields.read {} v = .ok d := by
  rw [parse, parseAs] at h
  cases htext : Value.ofText s with
  | mk v trailing =>
      rw [htext] at h
      obtain ⟨d', hread, hrest⟩ := bind_eq_ok_iff.mp h
      cases trailing with
      | true => contradiction
      | false =>
          cases hrest
          exact ⟨v, rfl, hread⟩

/-- A description that is read is what is written, and nothing but blanks follows it in the text. -/
theorem documentRead_of_parse {s : String} {d : Document} (h : parse s = .ok d) :
    ∃ v, Value.ofText s = (v, false) ∧ DocumentRead v d := by
  obtain ⟨v, htext, hread⟩ := read_of_parse h
  have hnodup : fields.names.Nodup := by simp [fields]
  have hnodes := forall₂_itemsOf (fun _ _ => nodeRead_of_node)
    (decides_nodes.read hnodup hread)
  have hedges := forall₂_itemsOf (fun _ _ => edgeRead_of_edge)
    (decides_edges.read hnodup hread)
  exact ⟨v, htext, hnodes, hedges⟩

end GraphBoard.Document
