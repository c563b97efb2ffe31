import GraphBoard.Proofs.Json.Front
import GraphBoard.Proofs.Json.Tree

/-!
# GraphBoard.Proofs.Json.Cut

The value of a text that breaks off.  `Value.Front` says what can have been read of a value: of the
containers around the place where the text breaks off what stands before it, and nothing of what
stands behind.  Open containers leave open what they become; `GrowsAll` says which values they can
become, whatever follows.

* `growsAll_build` — what is read is a value that the open containers can become;
* `GrowsAll.front` — and the containers, cut off where they stand, are a front part of it;
* `build_front` — so what is read of the first tokens of a text is a front part of what is read of
  all of them.
-/

namespace GraphBoard.Json

/-- What was read of a value where the text breaks off inside it. -/
inductive Value.Front : Value → Value → Prop where
  | refl (v : Value) : Front v v
  | absent (v : Value) : Front .absent v
  | number {m n : Numeral} (h : m.Front n) : Front (.number m) (.number n)
  | array (vs us : List Value) (ending : Ending) :
      Front (.array vs .broken) (.array (vs ++ us) ending)
  | item {v w : Value} (h : Front w v) (vs us : List Value) (ending : Ending) :
      Front (.array (vs ++ [w]) .broken) (.array (vs ++ v :: us) ending)
  | object (fs gs : List (Quoted × Value)) (ending : Ending) :
      Front (.object fs .broken) (.object (fs ++ gs) ending)
  | field {v w : Value} (h : Front w v) (fs gs : List (Quoted × Value)) (q : Quoted)
      (ending : Ending) :
      Front (.object (fs ++ [(q, w)]) .broken) (.object (fs ++ (q, v) :: gs) ending)

/-- An object of one field breaks off before it, or in the value of the field or behind it. -/
theorem Value.Front.cases_singleton {v w : Value} {q : Quoted} {ending : Ending}
    (h : w.Front (.object [(q, v)] ending)) :
    w = .object [(q, v)] ending ∨ w = .absent ∨ w = .object [] .broken ∨
      ∃ u : Value, u.Front v ∧ w = .object [(q, u)] .broken := by
  generalize hobject : Value.object [(q, v)] ending = o at h
  cases h with
  | refl => exact Or.inl rfl
  | absent => exact Or.inr (Or.inl rfl)
  | object fs gs =>
      obtain ⟨hfields, -⟩ := Value.object.inj hobject
      cases fs with
      | nil => exact Or.inr (Or.inr (Or.inl rfl))
      | cons f fs =>
          obtain ⟨rfl, hnil⟩ := List.cons.inj hfields
          obtain ⟨rfl, -⟩ := List.append_eq_nil_iff.mp hnil.symm
          exact Or.inr (Or.inr (Or.inr ⟨v, .refl v, rfl⟩))
  | @field _ u hu fs gs =>
      obtain ⟨hfields, -⟩ := Value.object.inj hobject
      cases fs with
      | nil =>
          obtain ⟨hfield, -⟩ := List.cons.inj hfields
          obtain ⟨rfl, rfl⟩ := Prod.mk.inj hfield
          exact Or.inr (Or.inr (Or.inr ⟨u, hu, rfl⟩))
      | cons f fs =>
          obtain ⟨-, hnil⟩ := List.cons.inj hfields
          simp at hnil
  | _ => contradiction

/-! ## What open containers can become -/

/-- What an open container can become. -/
inductive Frame.Grows : Frame → Value → Prop where
  | array (items us : List Value) (ending : Ending) :
      Grows (.array items) (.array (items.reverse ++ us) ending)
  | object (fields gs : List (Quoted × Value)) (ending : Ending) :
      Grows (.object fields) (.object (fields.reverse ++ gs) ending)
  | field (fields gs : List (Quoted × Value)) (name : Quoted) (v : Value) (ending : Ending) :
      Grows (.field fields name) (.object (fields.reverse ++ (name, v) :: gs) ending)

/-- What the containers around a value can become. -/
inductive Fills : List Frame → Value → Value → Prop where
  | nil (v : Value) : Fills [] v v
  | cons {f : Frame} {fs : List Frame} {u v w : Value} (hu : (f.push w).Grows u)
      (h : Fills fs u v) : Fills (f :: fs) w v

/-- What open containers can become. -/
inductive GrowsAll : List Frame → Value → Prop where
  | nil (v : Value) : GrowsAll [] v
  | cons {f : Frame} {fs : List Frame} {u v : Value} (hu : f.Grows u) (h : Fills fs u v) :
      GrowsAll (f :: fs) v

variable {f : Frame} {frames : List Frame} {t : Token} {u v w : Value}

namespace Frame

/-- What a container can become with one more item, it can become. -/
theorem Grows.of_push (h : (f.push v).Grows u) : f.Grows u := by
  cases f with
  | array items =>
      cases h with
      | array _ us ending =>
          rw [List.reverse_cons, List.append_assoc]
          exact .array items _ ending
  | object fields => exact h
  | field fields name =>
      cases h with
      | object _ gs ending =>
          rw [List.reverse_cons, List.append_assoc]
          exact .field fields gs name v ending

/-- What a container is when it is closed, it can become. -/
theorem Grows.of_close (h : f.close? t = some u) : f.Grows u := by
  unfold close? at h
  split at h
  · cases h
    simpa using Grows.array _ [] .closed
  · cases h
    simpa using Grows.object _ [] .closed
  · contradiction

/-- A container can become what it is where the text breaks off. -/
theorem grows_cut (f : Frame) : f.Grows f.cut := by
  cases f with
  | array items => simpa [cut] using Grows.array items [] .broken
  | object fields => simpa [cut] using Grows.object fields [] .broken
  | field fields name => simpa [cut] using Grows.field fields [] name .absent .broken

/-- A container that breaks off is the front of all that it can become. -/
theorem Grows.front_cut (h : f.Grows u) : f.cut.Front u := by
  cases h with
  | array items us ending => exact .array _ us ending
  | object fields gs ending => exact .object _ gs ending
  | field fields gs name v ending =>
      rw [cut, List.reverse_cons]
      exact .field (.absent v) _ gs name ending

/-- It is so with a last item that breaks off itself, too. -/
theorem Grows.front_push (h : (f.push v).Grows u) (hw : w.Front v) : (f.push w).cut.Front u := by
  cases f with
  | array items =>
      cases h with
      | array _ us ending =>
          rw [push, cut, List.reverse_cons, List.reverse_cons, List.append_assoc]
          exact .item hw _ us ending
  | object fields => exact h.front_cut
  | field fields name =>
      cases h with
      | object _ gs ending =>
          rw [push, cut, List.reverse_cons, List.reverse_cons, List.append_assoc]
          exact .field hw _ gs name ending

end Frame

/-- What the containers around a value become if nothing usable follows the value. -/
def cutAround (w : Value) (frames : List Frame) : Value :=
  frames.foldl (fun v f => (f.push v).cut) w

/-- The containers around a value can become what they are where the text breaks off behind it. -/
theorem fills_cutAround (w : Value) (frames : List Frame) :
    Fills frames w (cutAround w frames) := by
  induction frames generalizing w with
  | nil => exact .nil w
  | cons f fs ih => exact .cons (f.push w).grows_cut (ih _)

/-- Open containers can become what they are where the text breaks off. -/
theorem growsAll_cutAll (frames : List Frame) : GrowsAll frames (cutAll frames) := by
  cases frames with
  | nil => exact .nil _
  | cons f fs => exact .cons f.grows_cut (fills_cutAround f.cut fs)

/-- A value that breaks off within its containers is the front of what they can become around the
whole value. -/
theorem Fills.front (h : Fills frames u v) (hw : w.Front u) : (cutAround w frames).Front v := by
  induction h generalizing w with
  | nil => exact hw
  | cons hu _ ih => exact ih (hu.front_push hw)

/-- Open containers, cut off where they stand, are a front part of whatever they become. -/
theorem GrowsAll.front (h : GrowsAll frames v) : (cutAll frames).Front v := by
  cases h with
  | nil => exact .absent _
  | cons hu h => exact h.front hu.front_cut

/-- What the containers around a value can become, they can become. -/
theorem Fills.growsAll (h : Fills frames u v) : GrowsAll frames v := by
  cases h with
  | nil => exact .nil _
  | cons hu h => exact .cons hu.of_push h

/-- What open containers can become, those around the innermost can. -/
theorem GrowsAll.tail (h : GrowsAll (f :: frames) v) : GrowsAll frames v := by
  cases h with
  | cons _ h => exact h.growsAll

/-! ## Reading on -/

/-- A value that can still be read behind a step. -/
def Advance.Leads (v : Value) : Advance → Prop
  | inside _ frames => GrowsAll frames v
  | whole w => w = v
  | stuck => False

/-- A value that can still be read behind another is what the containers around that can become. -/
theorem Advance.fills_of_behind (h : (behind u frames).Leads v) : Fills frames u v := by
  cases frames with
  | nil =>
      cases h
      exact .nil _
  | cons f fs =>
      cases h with
      | cons hu h => exact .cons hu h

/-- A value that can still be read before an item is what the containers can become. -/
theorem Advance.growsAll_of_atValue (h : (atValue frames t).Leads v) : GrowsAll frames v := by
  cases t with
  | null => exact (fills_of_behind h).growsAll
  | bool b => exact (fills_of_behind h).growsAll
  | number n => exact (fills_of_behind h).growsAll
  | quoted q => exact (fills_of_behind h).growsAll
  | openBracket => exact GrowsAll.tail h
  | openBrace => exact GrowsAll.tail h
  | _ => exact False.elim h

/-- A value that can still be read before a name is what the containers can become. -/
theorem Advance.growsAll_of_atName (h : (atName frames t).Leads v) : GrowsAll frames v := by
  unfold atName at h
  split at h
  · cases h with
    | cons hu h =>
        cases hu with
        | field _ gs _ v ending => exact .cons (.object _ ((_, v) :: gs) ending) h
  · exact False.elim h

/-- A value that can still be read before the first item is what the containers can become. -/
theorem Advance.growsAll_of_atClose (h : (atClose frames t).Leads v) : GrowsAll frames v := by
  unfold atClose at h
  split at h
  · split at h
    · rename_i hclose
      exact .cons (.of_close hclose) (fills_of_behind h)
    · exact False.elim h
  · exact False.elim h

/-- What can be read behind a token could be read before it. -/
theorem Advance.growsAll_of_advance {e : Expect} (h : (advance frames t e).Leads v) :
    GrowsAll frames v := by
  cases e with
  | value => exact growsAll_of_atValue h
  | firstItem =>
      rw [advance] at h
      split at h
      · exact growsAll_of_atClose h
      · exact growsAll_of_atValue h
  | name => exact growsAll_of_atName h
  | firstName =>
      rw [advance] at h
      split at h
      · exact growsAll_of_atClose h
      · exact growsAll_of_atName h
  | colon =>
      rw [advance] at h
      split at h
      · exact h
      · exact False.elim h
  | separator =>
      unfold advance at h
      dsimp only at h
      split at h
      · exact h
      · exact h
      · exact growsAll_of_atClose h

/-- What is read is a value that the open containers can become. -/
theorem growsAll_build (e : Expect) (frames : List Frame) (ts : List Token) :
    GrowsAll frames (build e frames ts).1 := by
  induction ts generalizing e frames with
  | nil => exact growsAll_cutAll frames
  | cons t ts ih =>
      rw [build]
      cases hadvance : advance frames t e with
      | inside e' frames' =>
          refine Advance.growsAll_of_advance (t := t) (e := e) ?_
          rw [hadvance]
          exact ih e' frames'
      | whole w =>
          refine Advance.growsAll_of_advance (t := t) (e := e) ?_
          rw [hadvance]
          rfl
      | stuck => exact growsAll_cutAll frames

/-- What is built behind a value is what the containers around it can become. -/
theorem fills_buildBehind (u : Value) (frames : List Frame) (ts : List Token) :
    Fills frames u (buildBehind u ts frames).1 := by
  cases frames with
  | nil => exact .nil u
  | cons f fs =>
      have h := growsAll_build .separator (f.push u :: fs) ts
      cases h with
      | cons hu h => exact .cons hu h

/-! ## Texts that break off -/

/-- Nothing goes on with characters that are no token. -/
theorem advance_junk (e : Expect) (frames : List Frame) : advance frames .junk e = .stuck := by
  cases frames with
  | nil => cases e <;> rfl
  | cons f fs => cases f <;> cases e <;> rfl

/-- Whether a number is accepted does not depend on which one it is. -/
theorem advance_number (e : Expect) (frames : List Frame) :
    (∀ n, advance frames (.number n) e = .behind (.number n) frames) ∨
      ∀ n, advance frames (.number n) e = .stuck := by
  cases e with
  | value => exact Or.inl fun n => rfl
  | firstItem => exact Or.inl fun n => rfl
  | _ =>
      refine Or.inr fun n => ?_
      cases frames with
      | nil => rfl
      | cons f fs => cases f <;> rfl

/-- What is read of a text that breaks off is a front part of what is read of the text. -/
theorem build_front {us ts : List Token} (h : Token.Front us ts) (e : Expect)
    (frames : List Frame) : (build e frames us).1.Front (build e frames ts).1 := by
  induction h generalizing e frames with
  | nil ts => exact (growsAll_build e frames ts).front
  | cons t h ih =>
      rw [build, build]
      cases advance frames t e with
      | inside e' frames' => exact ih e' frames'
      | whole v => exact .refl v
      | stuck => exact .refl _
  | junk t ts =>
      rw [build, advance_junk]
      exact (growsAll_build e frames _).front
  | @number m n h ts =>
      obtain hbehind | hstuck := advance_number e frames
      · rw [build_eq_buildBehind (hbehind m), build_eq_buildBehind (hbehind n)]
        have hm : (buildBehind (.number m) [] frames).1 = cutAround (.number m) frames := by
          cases frames <;> rfl
        rw [hm]
        exact (fills_buildBehind (.number n) frames ts).front (.number h)
      · rw [build, build, hstuck m, hstuck n]
        exact .refl _

/-- Where all tokens of a value but the last are there at most, what is read is a front part of the
value, and not all of it. -/
theorem Value.front_of_tokens {us ts : List Token} (hv : v.Complete)
    (htokens : v.tokens = ts ++ [t]) (h : Token.Front us ts) :
    (build .value [] us).1.Front v ∧ (build .value [] us).1 ≠ v := by
  have hbuild : build .value [] (ts ++ [t]) = (v, []) := by
    simpa [buildBehind, htokens] using build_tokens hv .value [] [] (Or.inl rfl)
  have hfront := build_front (h.append_right [t]) .value []
  rw [hbuild] at hfront
  refine ⟨hfront, fun heq => ?_⟩
  -- all tokens of the value would have been there
  have hpair : build .value [] us = (v, (build .value [] us).2) := by rw [← heq]
  obtain ⟨-, hall⟩ := (Reached.value .nil).build hpair hv.isWhole
  have hlength := congrArg List.length hall
  have hle := h.length_le
  simp only [List.nil_append, htokens, List.length_append, List.length_singleton] at hlength
  omega

end GraphBoard.Json
