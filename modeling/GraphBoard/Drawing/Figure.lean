import GraphBoard.Drawing.Call

/-!
# GraphBoard.Drawing.Figure

What a list of calls does with paths. A figure is all that is done with one path, from where the
path is started to where the next is: the calls that lead the path on, those that fill it, and those
that draw along it. Calls that set colours, widths and dashes, and those that write text, are no
part of figures.
-/

namespace GraphBoard

variable {α : Type}

/-- Whether a call does something with the path: leads it on, fills it or draws along it. -/
def Call.onPath : Call α → Bool
  | .closePath | .stroke | .fill | .moveTo _ | .lineTo _ | .rect _ _ _ | .arc _ _ _ _ => true
  | _ => false

namespace Drawing

/-- What a list of calls does with the path that is there before them, and the figures after it in
the order in which they are drawn. -/
def cut : List (Call α) → List (Call α) × List (List (Call α))
  | [] => ([], [])
  | .beginPath :: cs => ([], (cut cs).1 :: (cut cs).2)
  | c :: cs => if c.onPath then (c :: (cut cs).1, (cut cs).2) else cut cs

/-- A list of calls leaves the path alone that is there before them, and draws just these figures.
-/
def Draws (cs : List (Call α)) (fs : List (List (Call α))) : Prop := cut cs = ([], fs)

/-- Calls on the path that is there start no figure. -/
theorem cut_of_onPath {cs : List (Call α)} (h : ∀ c ∈ cs, c.onPath = true) :
    cut cs = (cs, []) := by
  induction cs with
  | nil => rfl
  | cons c cs ih =>
      have hpath := h c List.mem_cons_self
      rw [cut, if_pos hpath, ih fun d hd => h d (List.mem_cons_of_mem c hd)]
      rintro rfl
      contradiction

namespace Draws

variable {xs ys : List (Call α)} {fs gs : List (List (Call α))}

theorem nil : Draws ([] : List (Call α)) [] := rfl

/-- A path by itself is one figure. -/
theorem path (h : ∀ c ∈ xs, c.onPath = true) : Draws (.beginPath :: xs) [xs] := by
  rw [Draws, cut, cut_of_onPath h]

/-- What is drawn by two lists of calls comes one after the other, since the second starts its own
paths. -/
theorem append (hx : Draws xs fs) (hy : Draws ys gs) : Draws (xs ++ ys) (fs ++ gs) := by
  have hcut : cut (xs ++ ys) = ((cut xs).1, (cut xs).2 ++ gs) := by
    clear hx
    induction xs using cut.induct with
    | case1 => exact hy
    | case2 xs ih => simp only [List.cons_append, cut, ih]
    | case3 x xs hx hpath ih =>
        rw [List.cons_append, cut, cut, if_pos hpath, if_pos hpath, ih]
        all_goals exact hx
    | case4 x xs hx hpath ih =>
        rw [List.cons_append, cut, cut, if_neg hpath, if_neg hpath, ih]
        all_goals exact hx
  rw [Draws, hcut, hx]

theorem flatMap {β : Type} {f : β → List (Call α)} {g : β → List (List (Call α))}
    (h : ∀ b, Draws (f b) (g b)) (bs : List β) : Draws (bs.flatMap f) (bs.flatMap g) := by
  induction bs with
  | nil => exact nil
  | cons b bs ih => exact (h b).append ih

end Draws

end Drawing

end GraphBoard
