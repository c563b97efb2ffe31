import GraphBoard.Proofs.Document.Field
import GraphBoard.Proofs.Json.Tree
import Mathlib.Data.List.Nodup
import Mathlib.Data.Option.Basic

/-!
# GraphBoard.Proofs.Document.Form

The forms in which one record can be written.  `RecordStep` is a single difference between two
forms of a record, `ListStep` one between two arrays.

* `Fields.Regular` — what the fields of a record have to do with one another: they are put into it
  independently, and a field with its default changes nothing;
* `RecordStep.toOption_read` — the same record is read from both forms, or from neither.
-/

namespace GraphBoard.Document

open Json

/-! ## Forms -/

/-- Two forms of a record with these field names. `default` says which values are the default of a
field, `inner` which values of a field are two forms of one. -/
inductive RecordStep (names : List String) (default : String → Value → Prop)
    (inner : String → Value → Value → Prop) : Value → Value → Prop where
  /-- The fields of an object stand in another order. -/
  | reorder {fs gs : List (Quoted × Value)} (h : fs.Perm gs) :
      RecordStep names default inner (.object fs .closed) (.object gs .closed)
  /-- An object has a field more, with a name that is not declared. -/
  | extra {fs : List (Quoted × Value)} {q : Quoted} {name : String} {v : Value}
      (hq : q.text? = some name) (hname : name ∉ names) (hv : v.Complete) :
      RecordStep names default inner (.object fs .closed) (.object ((q, v) :: fs) .closed)
  /-- An object with the first fields in the order of declaration is written as an array. -/
  | positional {fs : List (Quoted × Value)}
      (h : fs.map (fun f => f.1.text?) <+: names.map some) :
      RecordStep names default inner (.object fs .closed) (.array (fs.map Prod.snd) .closed)
  /-- A field that was left out of an object is given its default. -/
  | field {fs : List (Quoted × Value)} {q : Quoted} {name : String} {v : Value}
      (hq : q.text? = some name) (hnew : ∀ f ∈ fs, f.1.text? ≠ some name) (hv : default name v) :
      RecordStep names default inner (.object fs .closed) (.object ((q, v) :: fs) .closed)
  /-- A field that was left out at the end of an array is given its default. -/
  | item {vs : List Value} {name : String} {v : Value} (hname : names[vs.length]? = some name)
      (hv : default name v) :
      RecordStep names default inner (.array vs .closed) (.array (vs ++ [v]) .closed)
  /-- The value of a field of an object takes another form. -/
  | insideField {fs gs : List (Quoted × Value)} {q : Quoted} {name : String} {v w : Value}
      (hq : q.text? = some name) (h : inner name v w) :
      RecordStep names default inner (.object (fs ++ (q, v) :: gs) .closed)
        (.object (fs ++ (q, w) :: gs) .closed)
  /-- The value of a field of an array takes another form. -/
  | insideItem {vs ws : List Value} {name : String} {v w : Value}
      (hname : names[vs.length]? = some name) (h : inner name v w) :
      RecordStep names default inner (.array (vs ++ v :: ws) .closed)
        (.array (vs ++ w :: ws) .closed)

/-- Two arrays of which one item takes another form. -/
inductive ListStep (step : Value → Value → Prop) : Value → Value → Prop where
  | item {vs ws : List Value} {v w : Value} (h : step v w) :
      ListStep step (.array (vs ++ v :: ws) .closed) (.array (vs ++ w :: ws) .closed)

/-! ## Reading -/

section Results

variable {β γ : Type} (x : Except Fault β)

/-- Two readings in turn, apart from the reason for a refusal. -/
theorem toOption_bind (f : β → Except Fault γ) :
    (x >>= f).toOption = x.toOption.bind fun b => (f b).toOption := by
  cases x <;> rfl

/-- A reading whose result is changed, apart from the reason for a refusal. -/
theorem toOption_map (f : β → γ) : (x.map f).toOption = x.toOption.map f := by
  cases x <;> rfl

end Results

/-- A string is accepted if it stands for some text. -/
theorem toOption_ofQuoted (q : Quoted) : (ofQuoted q).toOption = q.text? := by
  rw [ofQuoted]
  cases q.text? <;> rfl

/-- Where an item takes another form, the list is read as before. -/
theorem ListStep.toOption_list {ρ : Type} {reader : Reader ρ} {step : Value → Value → Prop}
    {v w : Value} (h : ListStep step v w)
    (hstep : ∀ v w, step v w → (reader v).toOption = (reader w).toOption) :
    (list reader v).toOption = (list reader w).toOption := by
  obtain @⟨vs, ws, v, w, h⟩ := h
  simp only [list]
  induction vs with
  | nil => simp only [List.nil_append, items, toOption_bind, hstep v w h]
  | cons u vs ih => simp only [List.cons_append, items, toOption_bind, ih]

/-- A string of which every character stands for itself. -/
def plain (s : String) : Quoted := s.toList.map Piece.char

/-- A string of characters that stand for themselves stands for its text. -/
theorem text?_plain (s : String) : (plain s).text? = some s := by
  have hchars : ∀ cs : List Char, Quoted.chars? (cs.map Piece.char) = some cs := by
    intro cs
    induction cs with
    | nil => rfl
    | cons c cs ih => rw [List.map_cons, Quoted.chars?, ih, Option.map_some]
  rw [plain, Quoted.text?, hchars, Option.map_some, String.ofList_toList]

namespace Fields

variable {ρ : Type}

/-- The fields of a record are put into it independently of one another; a field with its default
leaves a record as it is in which nothing was put; and two forms of a value come to the same. -/
structure Regular (fields : Fields ρ) (blank : ρ) (default : String → Value → Prop)
    (inner : String → Value → Value → Prop) : Prop where
  nodup : fields.names.Nodup
  comm : ∀ {m n : String}, m ∈ fields.names → n ∈ fields.names → m ≠ n → ∀ (r : ρ) (v w : Value),
    (fields.put r m v >>= fun r => fields.put r n w).toOption =
      (fields.put r n w >>= fun r => fields.put r m v).toOption
  mem_of_default : ∀ {n : String} {v : Value}, default n v → n ∈ fields.names
  put_default : ∀ {n : String} {v : Value}, default n v → fields.put blank n v = .ok blank
  mem_of_inner : ∀ {n : String} {v w : Value}, inner n v w → n ∈ fields.names
  put_inner : ∀ {n : String} {v w : Value}, inner n v w → ∀ r : ρ,
    (fields.put r n v).toOption = (fields.put r n w).toOption

variable {fields : Fields ρ} {blank r : ρ} {default : String → Value → Prop}
  {inner : String → Value → Value → Prop} {seen : List String} {fs gs : List (Quoted × Value)}

/-! ### Objects -/

/-- What the first field of an object does to the record, apart from the reason for a refusal. -/
theorem toOption_ofObject_cons (seen : List String) (r : ρ) (f : Quoted × Value)
    (fs : List (Quoted × Value)) : (fields.ofObject .closed seen r (f :: fs)).toOption =
      f.1.text?.bind fun name =>
        if name ∈ fields.names then
          if name ∈ seen then none
          else (fields.put r name f.2).toOption.bind fun r =>
            (fields.ofObject .closed (name :: seen) r fs).toOption
        else if f.2.isWhole then (fields.ofObject .closed seen r fs).toOption
        else none := by
  obtain ⟨q, v⟩ := f
  rw [ofObject, toOption_bind, toOption_ofQuoted]
  congr 1
  funext name
  by_cases hname : name ∈ fields.names
  · rw [if_pos hname, if_pos hname]
    by_cases hseen : name ∈ seen
    · rw [if_pos hseen, if_pos hseen]
      rfl
    · rw [if_neg hseen, if_neg hseen, toOption_bind]
  · rw [if_neg hname, if_neg hname, toOption_bind, skipped]
    cases v.isWhole <;> rfl

/-- Of the names that were seen only those matter that come again. -/
theorem toOption_ofObject_congr {seen' : List String}
    (h : ∀ f ∈ fs, ∀ name, f.1.text? = some name → (name ∈ seen ↔ name ∈ seen')) :
    (fields.ofObject .closed seen r fs).toOption =
      (fields.ofObject .closed seen' r fs).toOption := by
  induction fs generalizing seen seen' r with
  | nil => rfl
  | cons f fs ih =>
      have hrest : ∀ g ∈ fs, ∀ name, g.1.text? = some name → (name ∈ seen ↔ name ∈ seen') :=
        fun g hg => h g (List.mem_cons_of_mem f hg)
      rw [toOption_ofObject_cons, toOption_ofObject_cons]
      cases hf : f.1.text? with
      | none => rfl
      | some name =>
          have hname : name ∈ seen ↔ name ∈ seen' := h f List.mem_cons_self name hf
          have hafter : ∀ r, (fields.ofObject .closed (name :: seen) r fs).toOption =
              (fields.ofObject .closed (name :: seen') r fs).toOption := fun r =>
            ih fun g hg n hn => by rw [List.mem_cons, List.mem_cons, hrest g hg n hn]
          simp only [Option.bind_some, hname, hafter, ih hrest]

/-- Two declared fields side by side may change places. -/
theorem toOption_ofObject_swap_declared (hfields : fields.Regular blank default inner)
    {f g : Quoted × Value} {m n : String} (hf : f.1.text? = some m) (hg : g.1.text? = some n)
    (hm : m ∈ fields.names) (hn : n ∈ fields.names) :
    (fields.ofObject .closed seen r (f :: g :: fs)).toOption =
      (fields.ofObject .closed seen r (g :: f :: fs)).toOption := by
  simp only [toOption_ofObject_cons, hf, hg, Option.bind_some, if_pos hm, if_pos hn]
  by_cases hmn : m = n
  · simp [hmn]
  · by_cases hseen : m ∈ seen ∨ n ∈ seen
    · obtain h | h := hseen <;> simp [h]
    · rw [not_or] at hseen
      have hboth : ∀ r, (fields.ofObject .closed (n :: m :: seen) r fs).toOption =
          (fields.ofObject .closed (m :: n :: seen) r fs).toOption := fun r =>
        toOption_ofObject_congr fun _ _ name _ => by simp only [List.mem_cons, or_left_comm]
      have hcomm := hfields.comm hm hn hmn r f.2 g.2
      simp only [toOption_bind] at hcomm
      simp only [if_neg hseen.1, if_neg hseen.2, List.mem_cons, hmn, Ne.symm hmn, false_or, hboth]
      rw [← Option.bind_assoc, hcomm, Option.bind_assoc]

/-- Any two fields side by side may change places. -/
theorem toOption_ofObject_swap (hfields : fields.Regular blank default inner) (r : ρ)
    (f g : Quoted × Value) (fs : List (Quoted × Value)) :
    (fields.ofObject .closed seen r (f :: g :: fs)).toOption =
      (fields.ofObject .closed seen r (g :: f :: fs)).toOption := by
  cases hf : f.1.text? with
  | none => cases hg : g.1.text? <;> simp [toOption_ofObject_cons, hf, hg]
  | some m =>
      cases hg : g.1.text? with
      | none => simp [toOption_ofObject_cons, hf, hg]
      | some n =>
          by_cases hm : m ∈ fields.names
          · by_cases hn : n ∈ fields.names
            · exact toOption_ofObject_swap_declared hfields hf hg hm hn
            · cases hwhole : g.2.isWhole <;>
                simp [toOption_ofObject_cons, hf, hg, hm, hn, hwhole]
          · cases hwhole : f.2.isWhole <;> simp [toOption_ofObject_cons, hf, hg, hm, hwhole]

/-- The fields of an object may stand in any order. -/
theorem toOption_ofObject_perm (hfields : fields.Regular blank default inner) (h : fs.Perm gs) :
    (fields.ofObject .closed seen r fs).toOption =
      (fields.ofObject .closed seen r gs).toOption := by
  induction h generalizing seen r with
  | nil => rfl
  | cons f _ ih => simp only [toOption_ofObject_cons, ih]
  | swap f g fs => exact toOption_ofObject_swap hfields r g f fs
  | trans _ _ ih₁ ih₂ => exact ih₁.trans ih₂

/-- A field with its default may as well be left out. -/
theorem toOption_ofObject_default (hfields : fields.Regular blank default inner) {q : Quoted}
    {name : String} {v : Value} (hq : q.text? = some name)
    (hnew : ∀ f ∈ fs, f.1.text? ≠ some name) (hv : default name v) :
    (fields.ofObject .closed [] blank fs).toOption =
      (fields.ofObject .closed [] blank ((q, v) :: fs)).toOption := by
  have hseen : (fields.ofObject .closed [name] blank fs).toOption =
      (fields.ofObject .closed [] blank fs).toOption :=
    toOption_ofObject_congr fun f hf n hn => by
      have hne : n ≠ name := fun he => hnew f hf (he ▸ hn)
      simp [hne]
  rw [toOption_ofObject_cons, hq, Option.bind_some, if_pos (hfields.mem_of_default hv),
    if_neg List.not_mem_nil, hfields.put_default hv]
  exact hseen.symm

/-- A field with a name that is not declared may as well be left out. -/
theorem toOption_ofObject_extra {q : Quoted} {name : String} {v : Value}
    (hq : q.text? = some name) (hname : name ∉ fields.names) (hv : v.Complete) :
    (fields.ofObject .closed seen r fs).toOption =
      (fields.ofObject .closed seen r ((q, v) :: fs)).toOption := by
  rw [toOption_ofObject_cons, hq, Option.bind_some, if_neg hname, if_pos hv.isWhole]

/-- The value of a field of an object may take another form. -/
theorem toOption_ofObject_inner (hfields : fields.Regular blank default inner) {q : Quoted}
    {name : String} {v w : Value} (hq : q.text? = some name) (h : inner name v w) :
    (fields.ofObject .closed seen r (fs ++ (q, v) :: gs)).toOption =
      (fields.ofObject .closed seen r (fs ++ (q, w) :: gs)).toOption := by
  have hfront : ∀ u, (fields.ofObject .closed seen r (fs ++ (q, u) :: gs)).toOption =
      (fields.ofObject .closed seen r ((q, u) :: (fs ++ gs))).toOption := fun u =>
    toOption_ofObject_perm hfields List.perm_middle
  simp only [hfront, toOption_ofObject_cons, hq, Option.bind_some,
    if_pos (hfields.mem_of_inner h), hfields.put_inner h]

/-! ### Arrays -/

/-- An array is read as the object of its fields. -/
theorem ofObject_eq_ofArray {names : List String} (hsub : names ⊆ fields.names)
    (hnodup : names.Nodup) (hseen : ∀ name ∈ names, name ∉ seen)
    (h : fs.map (fun f => f.1.text?) <+: names.map some) :
    fields.ofObject .closed seen r fs =
      ofArray fields.put .closed names r (fs.map Prod.snd) := by
  induction fs generalizing names seen r with
  | nil => cases names <;> rfl
  | cons f fs ih =>
      cases names with
      | nil => simp at h
      | cons name names =>
          obtain ⟨q, v⟩ := f
          rw [List.map_cons, List.map_cons, List.cons_prefix_cons] at h
          obtain ⟨hq, hrest⟩ := h
          rw [List.nodup_cons] at hnodup
          have hafter : ∀ n ∈ names, n ∉ name :: seen := fun n hn hmem => by
            obtain rfl | hmem := List.mem_cons.mp hmem
            · exact hnodup.1 hn
            · exact hseen n (List.mem_cons_of_mem name hn) hmem
          have htail : ∀ r, fields.ofObject .closed (name :: seen) r fs =
              ofArray fields.put .closed names r (fs.map Prod.snd) := fun r =>
            ih (fun n hn => hsub (List.mem_cons_of_mem name hn)) hnodup.2 hafter hrest
          rw [ofObject_declared (ofQuoted_eq_ok_iff.mpr hq) (hsub List.mem_cons_self)
            (hseen name List.mem_cons_self), List.map_cons, ofArray]
          simp only [htail]

/-- An item of a record that is written as an array may take another form. -/
theorem toOption_ofArray_inner (hfields : fields.Regular blank default inner)
    {names : List String} {vs ws : List Value} {name : String} {v w : Value}
    (hname : names[vs.length]? = some name) (h : inner name v w) :
    (ofArray fields.put .closed names r (vs ++ v :: ws)).toOption =
      (ofArray fields.put .closed names r (vs ++ w :: ws)).toOption := by
  induction vs generalizing names r with
  | nil =>
      cases names with
      | nil => contradiction
      | cons n names =>
          cases hname
          simp only [List.nil_append, ofArray, toOption_bind, hfields.put_inner h]
  | cons u vs ih =>
      cases names with
      | nil => contradiction
      | cons n names => simp only [List.cons_append, ofArray, toOption_bind, ih hname]

/-- The values of an array can be given names. -/
theorem exists_fields {names : List String} {vs : List Value} (h : vs.length ≤ names.length) :
    ∃ fs : List (Quoted × Value), fs.map Prod.snd = vs ∧
      fs.map (fun f => f.1.text?) = (names.take vs.length).map some := by
  induction vs generalizing names with
  | nil => exact ⟨[], rfl, by simp⟩
  | cons v vs ih =>
      cases names with
      | nil => simp at h
      | cons name names =>
          obtain ⟨fs, hvalues, hnames⟩ := ih (Nat.le_of_succ_le_succ h)
          refine ⟨(plain name, v) :: fs, by rw [List.map_cons, hvalues], ?_⟩
          rw [List.map_cons, hnames, text?_plain, List.length_cons, List.take_succ_cons,
            List.map_cons]

/-- An array is read as before if the last of its fields is given its default: it is read as the
object of its fields, in which that field may stand first. -/
theorem toOption_ofArray_default (hfields : fields.Regular blank default inner) {vs : List Value}
    {name : String} {v : Value} (hname : fields.names[vs.length]? = some name)
    (hv : default name v) : (ofArray fields.put .closed fields.names blank vs).toOption =
      (ofArray fields.put .closed fields.names blank (vs ++ [v])).toOption := by
  have hlength : (vs ++ [v]).length ≤ fields.names.length := by
    obtain ⟨hlt, -⟩ := List.getElem?_eq_some_iff.mp hname
    rw [List.length_append]
    exact hlt
  have htake : fields.names.take (vs ++ [v]).length = fields.names.take vs.length ++ [name] := by
    rw [List.length_append, List.length_singleton, List.take_add_one, hname]
    rfl
  obtain ⟨fs', hvalues, hnames⟩ := exists_fields hlength
  obtain ⟨fs, gs, rfl, rfl, hgs⟩ := List.map_eq_append_iff.mp hvalues
  obtain ⟨⟨q, v'⟩, rfl, rfl⟩ := List.map_eq_singleton_iff.mp hgs
  have hprefix : (fs ++ [(q, v')]).map (fun f => f.1.text?) <+: fields.names.map some := by
    rw [hnames]
    exact (List.take_prefix _ _).map some
  have hfront : fs.map (fun f => f.1.text?) <+: fields.names.map some := by
    rw [List.map_append] at hprefix
    exact (List.prefix_append _ _).trans hprefix
  have hq : q.text? = some name := by
    rw [htake, List.map_append, List.map_append] at hnames
    exact List.singleton_inj.mp (List.append_inj' hnames rfl).2
  have hnew : ∀ f ∈ fs, f.1.text? ≠ some name := by
    have hnodup : ((fs ++ [(q, v')]).map fun f => f.1.text?).Nodup :=
      (hfields.nodup.map (Option.some_injective _)).sublist hprefix.sublist
    rw [List.map_append, List.nodup_append] at hnodup
    exact fun f hf => hnodup.2.2 _ (List.mem_map_of_mem hf) _ (by simp [hq])
  have harray : ∀ {gs : List (Quoted × Value)},
      gs.map (fun f => f.1.text?) <+: fields.names.map some →
        fields.ofObject .closed [] blank gs =
          ofArray fields.put .closed fields.names blank (gs.map Prod.snd) :=
    ofObject_eq_ofArray (List.Subset.refl _) hfields.nodup fun _ _ => List.not_mem_nil
  rw [← hvalues, ← harray hfront, ← harray hprefix, toOption_ofObject_default hfields hq hnew hv]
  exact toOption_ofObject_perm hfields (List.perm_append_singleton _ _).symm

end Fields

/-- The same record is read from two forms, or from neither. -/
theorem RecordStep.toOption_read {ρ : Type} {fields : Fields ρ} {blank : ρ}
    {default : String → Value → Prop} {inner : String → Value → Value → Prop} {v w : Value}
    (hfields : fields.Regular blank default inner)
    (h : RecordStep fields.names default inner v w) :
    (fields.read blank v).toOption = (fields.read blank w).toOption := by
  cases h with
  | reorder h => exact Fields.toOption_ofObject_perm hfields h
  | extra hq hname hv => exact Fields.toOption_ofObject_extra hq hname hv
  | positional h =>
      have hseen : ∀ name ∈ fields.names, name ∉ [] := fun _ _ => List.not_mem_nil
      exact congrArg Except.toOption
        (Fields.ofObject_eq_ofArray (List.Subset.refl _) hfields.nodup hseen h)
  | field hq hnew hv => exact Fields.toOption_ofObject_default hfields hq hnew hv
  | item hname hv => exact Fields.toOption_ofArray_default hfields hname hv
  | insideField hq h => exact Fields.toOption_ofObject_inner hfields hq h
  | insideItem hname h => exact Fields.toOption_ofArray_inner hfields hname h

end GraphBoard.Document
