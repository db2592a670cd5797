import SharedWorkspace.Progress.Basic

/-!
A share of a monitor's progress. Nested work announces a total of its own; a share scales it onto
the units it was allotted, charges its parent as the work proceeds, and charges what is left of the
allotment when the work is done.
-/

namespace SharedWorkspace

def maxUnits : Nat :=
  UInt64.size - 1

structure Share where
  allotment : Nat
  total : Nat := 0
  worked : Nat := 0
  reported : Nat := 0
  finished : Bool := false
  deriving DecidableEq

namespace Share

def target (s : Share) : Nat :=
  if s.finished then
    s.allotment
  else if s.total = 0 then
    0
  else
    min (s.allotment * s.worked) maxUnits / s.total

/--
Charge up to the target: the units of the charge, zero if there is none, and the share after it.
-/
def settle (s : Share) : Nat × Share :=
  (s.target - s.reported, { s with reported := max s.reported s.target })

def beginTask (s : Share) (total : Nat) : Share :=
  { s with total, worked := 0 }

/--
Work beyond the announced total does not count, and none does once the share is finished.
-/
def work (s : Share) (units : Nat) : Nat × Share :=
  if s.finished then
    (0, s)
  else
    settle { s with worked := min (s.worked + units) s.total }

def finish (s : Share) : Nat × Share :=
  if s.finished then
    (0, s)
  else
    settle { s with finished := true }

/--
What holds of a new share and is kept by every operation.
-/
structure WellFormed (s : Share) : Prop where
  worked_le_total : s.worked ≤ s.total
  reported_le_allotment : s.reported ≤ s.allotment

theorem target_le_allotment {s : Share} (h : s.worked ≤ s.total) : s.target ≤ s.allotment := by
  unfold target
  split
  . exact Nat.le_refl _
  . split
    . exact Nat.zero_le _
    . apply Nat.div_le_of_le_mul
      refine Nat.le_trans (Nat.min_le_left _ _) ?_
      rw [Nat.mul_comm s.total]
      exact Nat.mul_le_mul_left _ h

theorem settle_reported (s : Share) : s.settle.2.reported = s.reported + s.settle.1 := by
  simp only [settle]
  omega

theorem settle_wellFormed {s : Share} (h : s.WellFormed) : s.settle.2.WellFormed where
  worked_le_total := h.worked_le_total
  reported_le_allotment :=
    Nat.max_le.2 ⟨h.reported_le_allotment, target_le_allotment h.worked_le_total⟩

theorem wellFormed_new (units : Nat) : WellFormed { allotment := units } where
  worked_le_total := Nat.le_refl _
  reported_le_allotment := Nat.zero_le _

theorem wellFormed_beginTask {s : Share} (h : s.WellFormed) (total : Nat) :
    (s.beginTask total).WellFormed where
  worked_le_total := Nat.zero_le _
  reported_le_allotment := h.reported_le_allotment

theorem wellFormed_work {s : Share} (h : s.WellFormed) (units : Nat) :
    (s.work units).2.WellFormed := by
  unfold work
  split
  . exact h
  . exact settle_wellFormed ⟨Nat.min_le_right _ _, h.reported_le_allotment⟩

theorem wellFormed_finish {s : Share} (h : s.WellFormed) : s.finish.2.WellFormed := by
  unfold finish
  split
  . exact h
  . exact settle_wellFormed ⟨h.worked_le_total, h.reported_le_allotment⟩

theorem finish_reported {s : Share} (h : s.WellFormed) (hf : s.finished = false) :
    s.finish.2.reported = s.allotment := by
  have := h.reported_le_allotment
  simp only [finish, hf, settle, target, Bool.false_eq_true, if_false, if_true]
  omega

end Share

namespace Activity

variable {E : Interface} {α : Type}

def charge (units : Nat) (next : Activity E α) : Activity E α :=
  if units = 0 then next else .ask (.inl (.worked units)) fun _ => next

/--
Work whose reports go to the share `s`. The parent hears of the charges that `s` makes; names of
tasks and questions about cancellation are passed on to it, totals and ends of tasks are not.
-/
def onShare (s : Share) : Activity E α → Activity E (α × Share)
  | .result a => .result (a, s)
  | .ask (.inl (.beginTask _ total)) k => onShare (s.beginTask total) (k ())
  | .ask (.inl (.setTaskName name)) k =>
    .ask (.inl (.setTaskName name)) fun _ => onShare s (k ())
  | .ask (.inl (.worked units)) k =>
    charge (s.work units).1 (onShare (s.work units).2 (k ()))
  | .ask (.inl .done) k => charge s.finish.1 (onShare s.finish.2 (k ()))
  | .ask (.inl .isCancelled) k => .ask (.inl .isCancelled) fun b => onShare s (k b)
  | .ask (.inl .cancel) k => .ask (.inl .cancel) fun _ => onShare s (k ())
  | .ask (.inr c) k => .ask (.inr c) fun x => onShare s (k x)

def share (units : Nat) (body : Activity E α) : Activity E α := do
  let (a, s) ← body.onShare { allotment := units }
  charge s.finish.1 (pure a)

end Activity
end SharedWorkspace
