/-!
# GraphBoard.OrderedSet

Finite sets held as strictly ascending lists. The list is determined by the members, so two sets
with the same members are equal, and listing a set needs no sorting.

Main statements: `mem_insert`, `mem_erase`, `mem_filter`, `mem_ofList` give the members after each
operation, and `ext` says that a set is its members.
-/

namespace GraphBoard

variable {κ : Type} [Ord κ]

/-- A finite set of keys: its members, each once, in ascending order. -/
structure OrderedSet (κ : Type) [Ord κ] where
  /-- The members in ascending order. -/
  toList : List κ
  /-- Each member is below all later ones. -/
  sorted : toList.Pairwise (fun a b => compare a b = .lt)

namespace OrderedSet

/-! ## Placing a key in an ascending list -/

/-- Puts a key at its place in an ascending list that may hold it already. -/
def place (k : κ) : List κ → List κ
  | [] => [k]
  | x :: xs =>
    match compare k x with
    | .lt => k :: x :: xs
    | .eq => x :: xs
    | .gt => x :: place k xs

/-- Placing an element adds it and nothing else. -/
theorem mem_place [Std.LawfulEqOrd κ] {k a : κ} {xs : List κ} :
    a ∈ place k xs ↔ a = k ∨ a ∈ xs := by
  induction xs with
  | nil => simp [place]
  | cons x xs ih =>
    unfold place
    split
    · simp
    · rename_i h
      have hk : k = x := Std.LawfulEqOrd.eq_of_compare h
      subst hk
      simp
    · simp [ih, or_left_comm]

/-- A sorted list is sorted with the element placed. -/
theorem sorted_place [Std.TransOrd κ] [Std.LawfulEqOrd κ] (k : κ) {xs : List κ}
    (h : xs.Pairwise (fun a b => compare a b = .lt)) :
    (place k xs).Pairwise (fun a b => compare a b = .lt) := by
  induction xs with
  | nil => simp [place]
  | cons x xs ih =>
    have hx := List.pairwise_cons.1 h
    unfold place
    split
    · rename_i hk
      refine List.pairwise_cons.2 ⟨fun b hb => ?_, h⟩
      rcases List.mem_cons.1 hb with rfl | hb
      · exact hk
      · exact Std.TransCmp.lt_trans hk (hx.1 b hb)
    · exact h
    · rename_i hk
      refine List.pairwise_cons.2 ⟨fun b hb => ?_, ih hx.2⟩
      rcases mem_place.1 hb with rfl | hb
      · exact Std.OrientedCmp.lt_of_gt hk
      · exact hx.1 b hb

/-! ## Sets -/

/-- The set without members. -/
def empty : OrderedSet κ := ⟨[], .nil⟩

/-- The set with one member. -/
def singleton (k : κ) : OrderedSet κ := ⟨[k], List.pairwise_singleton _ _⟩

instance : Membership κ (OrderedSet κ) := ⟨fun s k => k ∈ s.toList⟩

instance [DecidableEq κ] (s : OrderedSet κ) (k : κ) : Decidable (k ∈ s) :=
  inferInstanceAs (Decidable (k ∈ s.toList))

instance [BEq κ] : BEq (OrderedSet κ) := ⟨fun s t => s.toList == t.toList⟩

/-- The number of members. -/
def size (s : OrderedSet κ) : Nat := s.toList.length

/-- Whether there is no member. -/
def isEmpty (s : OrderedSet κ) : Bool := s.toList.isEmpty

/-- The set with `k` as a further member. -/
def insert [Std.TransOrd κ] [Std.LawfulEqOrd κ] (s : OrderedSet κ) (k : κ) : OrderedSet κ :=
  ⟨place k s.toList, sorted_place k s.sorted⟩

/-- The members that pass a test. -/
def filter (s : OrderedSet κ) (p : κ → Bool) : OrderedSet κ :=
  ⟨s.toList.filter p, s.sorted.filter p⟩

/-- The set without `k`. -/
def erase [DecidableEq κ] (s : OrderedSet κ) (k : κ) : OrderedSet κ :=
  s.filter (· != k)

/-- The set of the keys of a list, in any order and with repetitions. -/
def ofList [Std.TransOrd κ] [Std.LawfulEqOrd κ] (ks : List κ) : OrderedSet κ :=
  ks.foldl insert empty

/-- Removes a member, adds a key that is none. -/
def toggle [DecidableEq κ] [Std.TransOrd κ] [Std.LawfulEqOrd κ] (s : OrderedSet κ) (k : κ) :
    OrderedSet κ :=
  if k ∈ s then s.erase k else s.insert k

/-! ## Members -/

/-- A set has what is in its list. -/
theorem mem_toList {s : OrderedSet κ} {k : κ} : k ∈ s.toList ↔ k ∈ s := Iff.rfl

@[simp] theorem toList_empty : (empty : OrderedSet κ).toList = [] := rfl

@[simp] theorem toList_singleton (k : κ) : (singleton k).toList = [k] := rfl

@[simp] theorem not_mem_empty (k : κ) : ¬ k ∈ (empty : OrderedSet κ) := by
  simp [← mem_toList]

@[simp] theorem mem_singleton {k a : κ} : a ∈ singleton k ↔ a = k := by
  simp [← mem_toList]

@[simp] theorem mem_insert [Std.TransOrd κ] [Std.LawfulEqOrd κ] {s : OrderedSet κ} {k a : κ} :
    a ∈ s.insert k ↔ a = k ∨ a ∈ s :=
  mem_place

@[simp] theorem mem_filter {s : OrderedSet κ} {p : κ → Bool} {a : κ} :
    a ∈ s.filter p ↔ a ∈ s ∧ p a = true := by
  simp [filter, ← mem_toList]

@[simp] theorem mem_erase [DecidableEq κ] {s : OrderedSet κ} {k a : κ} :
    a ∈ s.erase k ↔ a ∈ s ∧ a ≠ k := by
  simp [erase]

@[simp] theorem mem_toggle [DecidableEq κ] [Std.TransOrd κ] [Std.LawfulEqOrd κ]
    {s : OrderedSet κ} {k a : κ} :
    a ∈ s.toggle k ↔ (a ∈ s ∧ a ≠ k) ∨ (a = k ∧ ¬ k ∈ s) := by
  unfold toggle
  split
  · rename_i h
    simp [h]
  · rename_i h
    simp only [mem_insert]
    constructor
    · rintro (rfl | ha)
      · exact .inr ⟨rfl, h⟩
      · exact .inl ⟨ha, fun e => h (e ▸ ha)⟩
    · rintro (⟨ha, -⟩ | ⟨rfl, -⟩)
      · exact .inr ha
      · exact .inl rfl

/-- Inserting one after the other adds all of a list. -/
theorem mem_foldl_insert [Std.TransOrd κ] [Std.LawfulEqOrd κ] {ks : List κ} {s : OrderedSet κ}
    {a : κ} : a ∈ ks.foldl insert s ↔ a ∈ ks ∨ a ∈ s := by
  induction ks generalizing s with
  | nil => simp
  | cons k ks ih => simp [ih, or_left_comm, or_assoc]

@[simp] theorem mem_ofList [Std.TransOrd κ] [Std.LawfulEqOrd κ] {ks : List κ} {a : κ} :
    a ∈ ofList ks ↔ a ∈ ks := by
  simp [ofList, mem_foldl_insert]

/-- No element is listed twice. -/
theorem nodup_toList [Std.TransOrd κ] (s : OrderedSet κ) : s.toList.Nodup :=
  s.sorted.imp fun {a b} h he => by
    have hself : compare a a = .eq := Std.ReflCmp.compare_self
    rw [← he, hself] at h
    cases h

/-- A set is empty if nothing is in it. -/
theorem isEmpty_iff {s : OrderedSet κ} : s.isEmpty = true ↔ ∀ k, ¬ k ∈ s := by
  rw [isEmpty, List.isEmpty_iff, List.eq_nil_iff_forall_not_mem]
  exact Iff.rfl

/-- Two ascending lists with the same members are the same list. -/
theorem sorted_ext [Std.TransOrd κ] : ∀ {xs ys : List κ},
    xs.Pairwise (fun a b => compare a b = .lt) → ys.Pairwise (fun a b => compare a b = .lt) →
    (∀ a, a ∈ xs ↔ a ∈ ys) → xs = ys
  | [], [], _, _, _ => rfl
  | [], y :: ys, _, _, h => absurd ((h y).2 (by simp)) (by simp)
  | x :: xs, [], _, _, h => absurd ((h x).1 (by simp)) (by simp)
  | x :: xs, y :: ys, hx, hy, h => by
    have hx' := List.pairwise_cons.1 hx
    have hy' := List.pairwise_cons.1 hy
    have irrefl : ∀ a : κ, ¬ compare a a = .lt := fun a ha => by
      have he : compare a a = .eq := Std.ReflCmp.compare_self
      rw [he] at ha
      cases ha
    have asymm : ∀ a b : κ, compare a b = .lt → ¬ compare b a = .lt := fun a b h1 h2 =>
      irrefl a (Std.TransCmp.lt_trans h1 h2)
    have hxy : x = y := by
      rcases List.mem_cons.1 ((h x).1 (by simp)) with rfl | h1
      · rfl
      · rcases List.mem_cons.1 ((h y).2 (by simp)) with rfl | h2
        · rfl
        · exact absurd (hx'.1 y h2) (asymm y x (hy'.1 x h1))
    subst hxy
    refine congrArg (x :: ·) (sorted_ext hx'.2 hy'.2 fun a => ⟨fun ha => ?_, fun ha => ?_⟩)
    · rcases List.mem_cons.1 ((h a).1 (List.mem_cons_of_mem _ ha)) with rfl | h1
      · exact absurd (hx'.1 a ha) (irrefl a)
      · exact h1
    · rcases List.mem_cons.1 ((h a).2 (List.mem_cons_of_mem _ ha)) with rfl | h1
      · exact absurd (hy'.1 a ha) (irrefl a)
      · exact h1

/-- A set is its members. -/
theorem ext [Std.TransOrd κ] {s t : OrderedSet κ} (h : ∀ k, k ∈ s ↔ k ∈ t) : s = t := by
  cases s
  cases t
  congr
  exact sorted_ext ‹_› ‹_› h

end OrderedSet

end GraphBoard
