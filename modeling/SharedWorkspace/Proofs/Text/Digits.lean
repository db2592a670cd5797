import Mathlib.Algebra.Group.Nat.Defs
import SharedWorkspace.Text.Digits

/-!
The digits of a number: it has no leading zeros, and padded with zeros to a width it reads back.
-/

namespace SharedWorkspace
namespace Text

variable {n width : Nat}

theorem digits_head_ne_zero {n : Nat} (h : 0 < n) (cs : List Char) : digits n ≠ '0' :: cs := by
  induction n using Nat.strongRecOn generalizing cs with
  | ind n ih =>
    intro heq
    by_cases hn : n < 10
    . rw [digits_of_lt hn, List.cons.injEq] at heq
      have hvalue := congrArg digitValue heq.1
      rw [digitValue_digitChar hn] at hvalue
      exact absurd hvalue (Nat.ne_of_gt h)
    . rw [digits_of_le (Nat.le_of_not_lt hn)] at heq
      cases hd : digits (n / 10) with
      | nil => exact digits_ne_nil _ hd
      | cons c ds =>
        rw [hd, List.cons_append, List.cons.injEq] at heq
        exact ih (n / 10) (by omega) (by omega) ds (heq.1 ▸ hd)

theorem length_digits_le (h : n < 10 ^ (width + 1)) : (digits n).length ≤ width + 1 := by
  induction width generalizing n with
  | zero =>
    rw [digits_of_lt h]
    exact Nat.le_refl 1
  | succ width ih =>
    by_cases hn : n < 10
    . rw [digits_of_lt hn]
      exact Nat.le_add_left 1 _
    . rw [digits_of_le (Nat.le_of_not_lt hn), List.length_append]
      refine Nat.add_le_add_right (ih ?_) 1
      rw [Nat.pow_succ] at h
      omega

theorem length_digitsPadded (h : n < 10 ^ (width + 1)) : (digitsPadded (width + 1) n).length = width + 1 := by
  have hlength := length_digits_le h
  unfold digitsPadded
  rw [List.length_append, List.length_replicate]
  omega

theorem isDigit_of_mem_digitsPadded {c : Char} (h : c ∈ digitsPadded width n) : c.isDigit = true := by
  rcases List.mem_append.1 h with h | h
  . rw [List.eq_of_mem_replicate h]
    rfl
  . exact isDigit_of_mem_digits h

theorem digitsPadded_ne_nil (width n : Nat) : digitsPadded width n ≠ [] :=
  List.append_ne_nil_of_right_ne_nil _ (digits_ne_nil n)

theorem readDigits_digitsPadded (width n : Nat) : readDigits (digitsPadded width n) = n := by
  have hzeros : ∀ k, (List.replicate k '0').foldl (fun n c => 10 * n + digitValue c) 0 = 0 := by
    intro k
    induction k with
    | zero => rfl
    | succ k ih => exact ih
  unfold readDigits digitsPadded
  rw [List.foldl_append, hzeros]
  exact readDigits_digits n

end Text
end SharedWorkspace
