import Mathlib.Algebra.GroupWithZero.Nat
import SharedWorkspace.Proofs.Progress.Conservation

/-!
How a share scales the work that it is told of, as long as it is not finished. `midway` is what it then is, in
closed form, however the work is split (`foldl_hear_midway`). The product is cut off before it is divided, and
so the scale is exact only where the product cannot be that large (`scales_iff`).
-/

namespace SharedWorkspace

open Progress

namespace Share

def scaled (a t w : Nat) : Nat :=
  min (a * w) maxUnits / t

def midway (a t w : Nat) : Share where
  allotment := a
  total := t
  worked := w
  reported := scaled a t w

variable {a t w u : Nat}

theorem scaled_mono (a t : Nat) (h : w ≤ u) : scaled a t w ≤ scaled a t u := by
  have hproduct : a * w ≤ a * u := Nat.mul_le_mul_left a h
  unfold scaled
  apply Nat.div_le_div_right
  omega

theorem scaled_eq (h : a * w ≤ maxUnits) : scaled a t w = a * w / t := by
  unfold scaled
  rw [Nat.min_eq_left h]

theorem scaled_le (h : w ≤ t) : scaled a t w ≤ a := by
  unfold scaled
  apply Nat.div_le_of_le_mul
  rw [Nat.mul_comm t]
  exact (Nat.min_le_left _ _).trans (Nat.mul_le_mul_left a h)

theorem scaled_self_eq_iff (ht : 0 < t) : scaled a t t = a ↔ a * t ≤ maxUnits := by
  constructor
  . intro h
    have hle : a * t ≤ min (a * t) maxUnits := by
      conv_lhs => rw [← h]
      exact Nat.div_mul_le_self _ _
    omega
  . intro h
    rw [scaled_eq h, Nat.mul_div_cancel a ht]

theorem scaled_zero (a t : Nat) : scaled a t 0 = 0 := by
  unfold scaled
  simp

theorem beginTask_new (a t : Nat) : ({ allotment := a } : Share).beginTask t = midway a t 0 := by
  unfold beginTask midway
  rw [scaled_zero]

theorem target_midway (a t w : Nat) : (midway a t w).target = scaled a t w := by
  unfold target midway scaled
  simp only [Bool.false_eq_true, if_false]
  split
  . next ht => rw [ht, Nat.div_zero]
  . rfl

theorem work_midway (hw : w ≤ t) (u : Nat)
    : (midway a t w).work u
        = (scaled a t (min (w + u) t) - scaled a t w, midway a t (min (w + u) t)) := by
  have hmono : scaled a t w ≤ scaled a t (min (w + u) t) := scaled_mono a t (by omega)
  have hmax : max (scaled a t w) (midway a t (min (w + u) t)).target = scaled a t (min (w + u) t) := by
    rw [target_midway, Nat.max_eq_right hmono]
  unfold work
  rw [if_neg (by simp [midway])]
  unfold settle
  exact Prod.ext (congrArg (· - _) (target_midway _ _ _)) (congrArg (Share.mk a t _ · false) hmax)

theorem finish_midway (hw : w ≤ t)
    : (midway a t w).finish
        = (a - scaled a t w, { midway a t w with reported := a, finished := true }) := by
  unfold finish settle target midway
  simp only [Bool.false_eq_true, if_false, if_true]
  rw [Nat.max_eq_right (scaled_le hw)]

theorem foldl_hear_midway (hw : w ≤ t) (us : List Nat)
    : (us.map Call.worked).foldl hear (midway a t w) = midway a t (min (w + us.sum) t) := by
  induction us generalizing w with
  | nil =>
    rw [List.sum_nil, Nat.add_zero, Nat.min_eq_left hw]
    rfl
  | cons u us ih =>
    have hstep : (midway a t w).hear (.worked u) = midway a t (min (w + u) t) := by
      unfold hear
      dsimp only
      rw [work_midway hw]
    rw [List.map_cons, List.foldl_cons, hstep, ih (Nat.min_le_right _ _), List.sum_cons]
    congr 1
    omega

def course (name : String) (t : Nat) (us : List Nat) : List Call :=
  .beginTask name t :: us.map .worked

theorem foldl_hear_course (a t : Nat) (name : String) (us : List Nat)
    : (course name t us).foldl hear { allotment := a } = midway a t (min us.sum t) := by
  have hbegin : ({ allotment := a } : Share).hear (.beginTask name t) = midway a t 0 := beginTask_new a t
  rw [course, List.foldl_cons, hbegin, foldl_hear_midway (Nat.zero_le t), Nat.zero_add]

theorem total_passes_course (a t : Nat) (name : String) (us : List Nat)
    : Call.total (passes { allotment := a } (course name t us)) = scaled a t (min us.sum t) := by
  rw [total_passes, foldl_hear_course a t]
  rfl

theorem passes_course_done (a t : Nat) (name : String) (us : List Nat)
    : passes { allotment := a } (course name t us ++ [.done])
        = passes { allotment := a } (course name t us)
          ++ (Call.report? (a - scaled a t (min us.sum t))).toList := by
  rw [passes_append, foldl_hear_course a t, passes, passOn?, finish_midway (Nat.min_le_right _ _)]
  exact congrArg _ (List.append_nil _)

/--
The scale is exact, for every way to split the work, if and only if the product of the allotment and the
announced total is no more than an amount of work can have. Then, and only then, all that was allotted has been
charged when all of the work is done, and nothing is left to charge at the end. In any case the product is cut
off before it is divided.
-/
theorem scales_iff (a t : Nat) (ht : 0 < t) (hmax : t ≤ maxUnits)
    : ((∀ name us, (∀ u ∈ us, u ≤ maxUnits) →
            Call.total (passes { allotment := a } (course name t us)) = a * min us.sum t / t)
          ↔ a * t ≤ maxUnits) ∧
        (∀ name us, t ≤ us.sum →
          (Call.total (passes { allotment := a } (course name t us)) = a ∧
              passes { allotment := a } (course name t us ++ [.done])
                = passes { allotment := a } (course name t us)
            ↔ a * t ≤ maxUnits)) ∧
        ∀ name us, Call.total (passes { allotment := a } (course name t us))
          = min (a * min us.sum t) maxUnits / t := by
  refine ⟨⟨?_, ?_⟩, ?_, total_passes_course a t⟩
  . intro h
    have hwhole := h "" [t] (by simpa using hmax)
    rw [total_passes_course a t, List.sum_singleton, Nat.min_self, Nat.mul_div_cancel a ht] at hwhole
    exact (scaled_self_eq_iff ht).1 hwhole
  . intro h name us _
    rw [total_passes_course a t]
    exact scaled_eq ((Nat.mul_le_mul_left a (Nat.min_le_right _ _)).trans h)
  . intro name us hsum
    rw [total_passes_course a t, passes_course_done a t, Nat.min_eq_right hsum, scaled_self_eq_iff ht]
    constructor
    . exact And.left
    . intro h
      refine ⟨h, ?_⟩
      rw [(scaled_self_eq_iff ht).2 h, Nat.sub_self]
      exact List.append_nil _

/--
A share of three units, whose task of five units is over with the second report.
-/
theorem scales_iff_thirds
    : 0 < 5 ∧ 5 ≤ maxUnits ∧ 3 * 5 ≤ maxUnits ∧
        Call.total (passes { allotment := 3 } (course "" 5 [2, 4])) = 3 ∧
        passes { allotment := 3 } (course "" 5 [2, 4] ++ [.done])
          = passes { allotment := 3 } (course "" 5 [2, 4]) := by
  have hmax : 5 ≤ maxUnits := by decide
  have hproduct : 3 * 5 ≤ maxUnits := by decide
  obtain ⟨-, hwhole, -⟩ := scales_iff 3 5 (by decide) hmax
  exact ⟨by decide, hmax, hproduct, (hwhole "" [2, 4] (by decide)).2 hproduct⟩

/--
All of the work is done, and three of a thousand units are charged for it.
-/
theorem not_scales_large
    : ¬ Call.total (passes { allotment := 1000 } (course "" (2 ^ 62) [2 ^ 62]))
        = 1000 * min [2 ^ 62].sum (2 ^ 62) / 2 ^ 62 := by
  rw [total_passes_course]
  decide

theorem steady_midway (hw : w ≤ t) : (midway a t w).Steady where
  worked_le_total := hw
  reported_le_allotment := scaled_le hw
  paid := nofun

end Share

namespace Activity

open Dialogue Share

variable {E : Interface} {a t w : Nat} {es : List (Event (Progress.calls.sum E))}

theorem foldl_heed_midway (hw : w ≤ t) (hes : ∀ e ∈ es, Quiet e)
    : es.foldl heed (midway a t w) = midway a t (min (w + charged es) t) := by
  induction es generalizing w with
  | nil =>
    rw [charged_nil, Nat.add_zero, Nat.min_eq_left hw]
    rfl
  | cons e es ih =>
    obtain ⟨he, hes⟩ := List.forall_mem_cons.1 hes
    have hstep : heed (midway a t w) e = midway a t (min (w + units e) t) := by
      have hidle : midway a t w = midway a t (min (w + 0) t) := by
        rw [Nat.add_zero, Nat.min_eq_left hw]
      obtain ⟨c, x⟩ := e
      cases c with
      | inl c =>
        cases c with
        | beginTask => exact he.elim
        | done => exact he.elim
        | worked n => exact congrArg Prod.snd (work_midway hw n)
        | _ => exact hidle
      | inr c => exact hidle
    rw [List.foldl_cons, hstep, ih (Nat.min_le_right _ _) hes, charged_cons]
    congr 1
    omega

theorem charged_relay_midway (hes : ∀ e ∈ es, Quiet e)
    : charged (relay (midway a t 0) es) = scaled a t (min (charged es) t) := by
  have hreported := (meters_relay (steady_midway (a := a) (Nat.zero_le t)) es).reported
  rw [foldl_heed_midway (Nat.zero_le t) hes, Nat.zero_add] at hreported
  calc charged (relay (midway a t 0) es)
      = scaled a t 0 + charged (relay (midway a t 0) es) := by rw [scaled_zero, Nat.zero_add]
    _ = scaled a t (min (charged es) t) := hreported.symm

end Activity
end SharedWorkspace
