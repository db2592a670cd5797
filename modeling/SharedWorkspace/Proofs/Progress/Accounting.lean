import SharedWorkspace.Proofs.Progress.Activity

/-!
What a share of the progress charges its parent. Whatever the work on it reports, in whatever order, the
parent is charged the allotment in the end, in positive amounts (`run_share_exact`).
-/

namespace SharedWorkspace

open Dialogue

namespace Share

structure Steady (s : Share) : Prop extends s.WellFormed where
  paid : s.finished = true → s.reported = s.allotment

variable {s : Share}

theorem steady_new (n : Nat) : Steady { allotment := n } where
  toWellFormed := wellFormed_new n
  paid := nofun

theorem Steady.beginTask (h : s.Steady) (total : Nat) : (s.beginTask total).Steady where
  toWellFormed := wellFormed_beginTask h.toWellFormed total
  paid := h.paid

theorem Steady.work (h : s.Steady) (n : Nat) : (s.work n).2.Steady where
  toWellFormed := wellFormed_work h.toWellFormed n
  paid := by
    unfold Share.work
    split
    . exact h.paid
    . next hs =>
      intro hf
      exact absurd hf hs

theorem Steady.finish (h : s.Steady) : s.finish.2.Steady where
  toWellFormed := wellFormed_finish h.toWellFormed
  paid _ := by
    cases hs : s.finished with
    | true =>
      unfold Share.finish
      rw [if_pos hs]
      exact h.paid hs
    | false =>
      rw [finish_reported h.toWellFormed hs]
      unfold Share.finish
      rw [if_neg (by simp [hs])]
      rfl

theorem work_reported (s : Share) (n : Nat)
    : (s.work n).2.reported = s.reported + (s.work n).1 := by
  unfold work
  split
  . rfl
  . exact settle_reported _

theorem work_allotment (s : Share) (n : Nat) : (s.work n).2.allotment = s.allotment := by
  unfold work
  split <;> rfl

theorem finish_reported_eq_add (s : Share) : s.finish.2.reported = s.reported + s.finish.1 := by
  unfold finish
  split
  . rfl
  . exact settle_reported _

theorem finish_allotment (s : Share) : s.finish.2.allotment = s.allotment := by
  unfold finish
  split <;> rfl

end Share

namespace Activity

variable {E : Interface} {α : Type}

def units : Event (Progress.calls.sum E) → Nat
  | ⟨.inl (.worked n), _⟩ => n
  | _ => 0

def charged (es : List (Event (Progress.calls.sum E))) : Nat :=
  es.foldr (units · + ·) 0

def Quiet : Event (Progress.calls.sum E) → Prop
  | ⟨.inl (.beginTask _ _), _⟩ | ⟨.inl .done, _⟩ => False
  | ⟨.inl (.worked n), _⟩ => 0 < n
  | _ => True

section Charged

variable {es fs : List (Event (Progress.calls.sum E))}

@[simp]
theorem charged_nil : charged ([] : List (Event (Progress.calls.sum E))) = 0 := rfl

@[simp]
theorem charged_cons (e : Event (Progress.calls.sum E)) : charged (e :: es) = units e + charged es := rfl

@[simp]
theorem charged_append : charged (es ++ fs) = charged es + charged fs := by
  induction es with
  | nil => exact (Nat.zero_add _).symm
  | cons e es ih => rw [List.cons_append, charged_cons, charged_cons, ih, Nat.add_assoc]

theorem charged_le_of_prefix (h : es <+: fs) : charged es ≤ charged fs := by
  obtain ⟨gs, rfl⟩ := h
  rw [charged_append]
  exact Nat.le_add_right _ _

theorem charged_le_of_prefix_append {due : List (Event (Progress.calls.sum E)) → Nat}
    (hdue : ∀ es fs, due (es ++ fs) = due es + due fs)
    (h : ∀ before, before <+: es → charged before ≤ due before) (hexact : charged es = due es)
    (h' : ∀ before, before <+: fs → charged before ≤ due before)
    : ∀ before, before <+: es ++ fs → charged before ≤ due before := by
  rintro before ⟨after, ha⟩
  rcases List.append_eq_append_iff.1 ha with ⟨gs, hes, _⟩ | ⟨gs, rfl, hfs⟩
  . exact h before ⟨gs, hes.symm⟩
  . rw [charged_append, hdue, hexact]
    exact Nat.add_le_add_left (h' gs ⟨after, hfs.symm⟩) _

end Charged

theorem charged_charges (n : Nat) : charged (charges n : List (Event (Progress.calls.sum E))) = n := by
  unfold charges
  split
  . next h => exact h.symm
  . rfl

theorem quiet_charges (n : Nat) : ∀ e ∈ (charges n : List (Event (Progress.calls.sum E))), Quiet e := by
  unfold charges
  split
  . simp
  . next h => simpa [Quiet] using Nat.pos_of_ne_zero h

variable {d : Activity E α} {es : List (Event (Progress.calls.sum E))}

structure Meters (s t : Share) (es : List (Event (Progress.calls.sum E))) : Prop where
  steady : t.Steady
  allotment : t.allotment = s.allotment
  reported : t.reported = s.reported + charged es
  quiet : ∀ e ∈ es, Quiet e

namespace Meters

variable {s t u : Share} {fs : List (Event (Progress.calls.sum E))}

theorem nil (hs : s.Steady) : Meters s s ([] : List (Event (Progress.calls.sum E))) where
  steady := hs
  allotment := rfl
  reported := rfl
  quiet := by simp

theorem trans (h : Meters s t es) (h' : Meters t u fs) : Meters s u (es ++ fs) where
  steady := h'.steady
  allotment := h'.allotment.trans h.allotment
  reported := by
    rw [h'.reported, h.reported, charged_append, Nat.add_assoc]
  quiet e he := (List.mem_append.1 he).elim (h.quiet e) (h'.quiet e)

theorem cons {e : Event (Progress.calls.sum E)} (h : Meters s t es) (hu : units e = 0) (hq : Quiet e)
    : Meters s t (e :: es) where
  steady := h.steady
  allotment := h.allotment
  reported := by
    rw [charged_cons, hu, Nat.zero_add, h.reported]
  quiet := List.forall_mem_cons.2 ⟨hq, h.quiet⟩

theorem work (hs : s.Steady) (n : Nat)
    : Meters s (s.work n).2 (charges (s.work n).1 : List (Event (Progress.calls.sum E))) where
  steady := hs.work n
  allotment := s.work_allotment n
  reported := by
    rw [charged_charges, s.work_reported]
  quiet := quiet_charges _

theorem finish (hs : s.Steady)
    : Meters s s.finish.2 (charges s.finish.1 : List (Event (Progress.calls.sum E))) where
  steady := hs.finish
  allotment := s.finish_allotment
  reported := by
    rw [charged_charges, s.finish_reported_eq_add]
  quiet := quiet_charges _

end Meters

theorem meters_relay {s : Share} (hs : s.Steady) (es : List (Event (Progress.calls.sum E)))
    : Meters s (es.foldl heed s) (relay s es) := by
  induction es generalizing s with
  | nil => exact .nil hs
  | cons e es ih =>
    obtain ⟨c, x⟩ := e
    cases c with
    | inl c =>
      cases c with
      | beginTask name total =>
        obtain ⟨hsteady, hallotment, hreported, hquiet⟩ := ih (hs.beginTask total)
        exact ⟨hsteady, hallotment, hreported, hquiet⟩
      | worked units => exact (Meters.work hs units).trans (ih (hs.work units))
      | done => exact (Meters.finish hs).trans (ih hs.finish)
      | _ => exact (ih hs).cons rfl trivial
    | inr c => exact (ih hs).cons rfl trivial

theorem run_share_exact {n : Nat} {a : α} (h : (share n d).Run es a)
    : charged es = n ∧ ∀ e ∈ es, Quiet e := by
  obtain ⟨fs, -, rfl⟩ := run_share_relay h
  have hs := meters_relay (Share.steady_new n) fs
  generalize fs.foldl heed { allotment := n } = s at hs ⊢
  generalize relay { allotment := n } fs = es at hs ⊢
  have hn : Meters { allotment := n } s.finish.2 (es ++ charges s.finish.1) :=
    hs.trans (.finish hs.steady)
  have hfinished : s.finish.2.finished = true := by
    unfold Share.finish
    split
    . assumption
    . rfl
  refine ⟨?_, hn.quiet⟩
  calc charged (es ++ charges s.finish.1)
      = 0 + charged (es ++ charges s.finish.1) := (Nat.zero_add _).symm
    _ = s.finish.2.reported := hn.reported.symm
    _ = s.finish.2.allotment := hn.steady.paid hfinished
    _ = n := hn.allotment

end Activity
end SharedWorkspace
