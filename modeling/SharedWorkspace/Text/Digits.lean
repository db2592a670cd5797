/-!
Decimal numbers: printing a natural number with the fewest digits or padded to a width, and reading
a run of digits back. Main statement: `readDigits_digits`, the digits of a number read back as that
number.
-/

namespace SharedWorkspace
namespace Text

def digitChar (d : Nat) : Char :=
  Char.ofNat (48 + d)

def digitValue (c : Char) : Nat :=
  c.toNat - 48

def digits.go (n : Nat) (rest : List Char) : List Char :=
  if n < 10 then
    digitChar n :: rest
  else
    go (n / 10) (digitChar (n % 10) :: rest)
termination_by n

def digits (n : Nat) : List Char :=
  digits.go n []

def digitsPadded (width n : Nat) : List Char :=
  List.replicate (width - (digits n).length) '0' ++ digits n

def readDigits (cs : List Char) : Nat :=
  cs.foldl (fun n c => 10 * n + digitValue c) 0

theorem digitChar_isDigit {d : Nat} (h : d < 10) : (digitChar d).isDigit = true := by
  have : ∀ d : Fin 10, (digitChar d).isDigit = true := by decide
  exact this ⟨d, h⟩

theorem digitValue_digitChar {d : Nat} (h : d < 10) : digitValue (digitChar d) = d := by
  have : ∀ d : Fin 10, digitValue (digitChar d) = d := by decide
  exact this ⟨d, h⟩

theorem digits.go_eq (n : Nat) (rest : List Char) : digits.go n rest = digits n ++ rest := by
  induction n using Nat.strongRecOn generalizing rest with
  | ind n ih =>
    by_cases h : n < 10
    . rw [digits, digits.go.eq_def n rest, digits.go.eq_def n [], if_pos h, if_pos h]; simp
    . rw [digits, digits.go.eq_def n rest, digits.go.eq_def n [], if_neg h, if_neg h,
        ih (n / 10) (by omega), ih (n / 10) (by omega) [digitChar (n % 10)]]
      simp

theorem digits_of_lt {n : Nat} (h : n < 10) : digits n = [digitChar n] := by
  rw [digits, digits.go, if_pos h]

theorem digits_of_le {n : Nat} (h : 10 ≤ n) :
    digits n = digits (n / 10) ++ [digitChar (n % 10)] := by
  rw [digits, digits.go, if_neg (by omega), digits.go_eq]

theorem digits_ne_nil (n : Nat) : digits n ≠ [] := by
  by_cases h : n < 10
  . simp [digits_of_lt h]
  . simp [digits_of_le (Nat.le_of_not_lt h)]

theorem isDigit_of_mem_digits {n : Nat} {c : Char} (h : c ∈ digits n) : c.isDigit = true := by
  induction n using Nat.strongRecOn with
  | ind n ih =>
    by_cases hn : n < 10
    . rw [digits_of_lt hn, List.mem_singleton] at h
      exact h ▸ digitChar_isDigit hn
    . rw [digits_of_le (Nat.le_of_not_lt hn), List.mem_append, List.mem_singleton] at h
      rcases h with h | h
      . exact ih (n / 10) (by omega) h
      . exact h ▸ digitChar_isDigit (Nat.mod_lt _ (by omega))

theorem readDigits_append (cs : List Char) (c : Char) :
    readDigits (cs ++ [c]) = 10 * readDigits cs + digitValue c := by
  simp [readDigits]

theorem readDigits_digits (n : Nat) : readDigits (digits n) = n := by
  induction n using Nat.strongRecOn with
  | ind n ih =>
    by_cases h : n < 10
    . rw [digits_of_lt h]
      simp [readDigits, digitValue_digitChar h]
    . rw [digits_of_le (Nat.le_of_not_lt h), readDigits_append, ih (n / 10) (by omega),
        digitValue_digitChar (Nat.mod_lt _ (by omega))]
      omega

theorem digits_injective {m n : Nat} (h : digits m = digits n) : m = n := by
  rw [← readDigits_digits m, h, readDigits_digits]

end Text
end SharedWorkspace
