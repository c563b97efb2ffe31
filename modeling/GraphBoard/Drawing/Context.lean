import GraphBoard.Drawing.Call

/-!
# GraphBoard.Drawing.Context

What a drawing context makes of the calls on it. A part of its state that `save` remembers and
`restore` brings back is given by what it is and how the other calls change it; `Context.run`
follows it through a list of calls. `Frame` is such a part: where the context puts the points that
it is given.
-/

namespace GraphBoard

/-- A part of the state of a drawing context, as it is and as it was when it was remembered, the
latest first. -/
structure Context (σ : Type) where
  /-- As it is. -/
  now : σ
  /-- As it was. -/
  saved : List σ := []

namespace Context

variable {α σ : Type}

/-- The state after a call. Going back where nothing was remembered does nothing. -/
def step (change : σ → Call α → σ) (c : Context σ) : Call α → Context σ
  | .save => { c with saved := c.now :: c.saved }
  | .restore =>
    match c.saved with
    | [] => c
    | s :: ss => ⟨s, ss⟩
  | call => { c with now := change c.now call }

/-- The state after a list of calls. -/
def run (change : σ → Call α → σ) (c : Context σ) (calls : List (Call α)) : Context σ :=
  calls.foldl (step change) c

/-- Two lists of calls are run in turn. -/
theorem run_append (change : σ → Call α → σ) (c : Context σ) (xs ys : List (Call α)) :
    c.run change (xs ++ ys) = (c.run change xs).run change ys :=
  List.foldl_append

/-- Each call of a list with the state that it finds. -/
def trace (change : σ → Call α → σ) : Context σ → List (Call α) → List (σ × Call α)
  | _, [] => []
  | c, x :: xs => (c.now, x) :: trace change (c.step change x) xs

/-- The trace of two lists of calls is that of the first, and then that of the second from where it
leads. -/
theorem trace_append (change : σ → Call α → σ) (c : Context σ) (xs ys : List (Call α)) :
    c.trace change (xs ++ ys) = c.trace change xs ++ (c.run change xs).trace change ys := by
  induction xs generalizing c with
  | nil => rfl
  | cons x xs ih => exact congrArg ((c.now, x) :: ·) (ih (c.step change x))

/-- What is remembered is left alone by calls that neither remember nor go back. -/
theorem saved_run {change : σ → Call α → σ} {calls : List (Call α)}
    (h : ∀ x ∈ calls, x ≠ .save ∧ x ≠ .restore) (c : Context σ) :
    (c.run change calls).saved = c.saved := by
  induction calls generalizing c with
  | nil => rfl
  | cons x xs ih =>
      have hx : (c.step change x).saved = c.saved := by
        have hkept := h x List.mem_cons_self
        cases x <;> first | rfl | simp at hkept
      exact (ih (fun y hy => h y (List.mem_cons_of_mem x hy)) (c.step change x)).trans hx

/-- What no call of a list changes is as it was. -/
theorem now_run_of_forall {β : Type} {change : σ → Call α → σ} (f : σ → β) {calls : List (Call α)}
    (hkept : ∀ x ∈ calls, x ≠ .save ∧ x ≠ .restore)
    (hf : ∀ x ∈ calls, ∀ s, f (change s x) = f s) (c : Context σ) :
    f (c.run change calls).now = f c.now := by
  induction calls generalizing c with
  | nil => rfl
  | cons x xs ih =>
      obtain ⟨hx, hxs⟩ := List.forall_mem_cons.mp hkept
      obtain ⟨hfx, hfxs⟩ := List.forall_mem_cons.mp hf
      have hstep : (c.step change x).now = change c.now x := by
        cases x <;> first | rfl | simp at hx
      rw [run, List.foldl_cons, ← run, ih hxs hfxs, hstep, hfx]

/-- Going back brings what was remembered last. -/
theorem run_restore {change : σ → Call α → σ} {c : Context σ} {s : σ} {ss : List σ}
    (h : c.saved = s :: ss) : c.run change [.restore] = ⟨s, ss⟩ := by
  rw [run, List.foldl_cons, List.foldl_nil, step, h]

end Context

/-- Where a drawing context puts points: where the origin is, and how long a unit is along each of
the axes. -/
structure Frame (α : Type) where
  /-- Where the origin is. -/
  origin : Point α
  /-- The pixels of a unit from left to right. -/
  scaleX : α
  /-- The pixels of a unit from above. -/
  scaleY : α

namespace Frame

variable {α : Type}

/-- Whether a call leaves every frame alone. -/
def keeps : Call α → Bool
  | .translate _ | .scale _ _ | .save | .restore => false
  | _ => true

variable [Scalar α]

/-- Units are pixels. -/
def pixels : Frame α := ⟨.origin, 1.0, 1.0⟩

/-- Where a point comes to be. -/
def place (f : Frame α) (p : Point α) : Point α :=
  ⟨f.origin.x + f.scaleX * p.x, f.origin.y + f.scaleY * p.y⟩

/-- How a call changes the frame. -/
def change (f : Frame α) : Call α → Frame α
  | .translate shift => { f with origin := f.place shift }
  | .scale x y => { f with scaleX := f.scaleX * x, scaleY := f.scaleY * y }
  | _ => f

end Frame

end GraphBoard
