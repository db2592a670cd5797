import SharedWorkspace.Instant
import SharedWorkspace.Proofs.Text.Digits

/-!
A written instant reads back (`parse?_render`).
-/

namespace SharedWorkspace
namespace Instant

variable {c : Char} {cs ds rest : List Char} {n max width : Nat}

theorem not_isBlank_of_isDigit (h : c.isDigit = true) : Text.isBlank c = false := by
  have hrange : 48 ≤ c.toNat ∧ c.toNat ≤ 57 := by
    simp only [Char.isDigit, Bool.and_eq_true, decide_eq_true_eq] at h
    exact ⟨h.1, h.2⟩
  -- The digits lie between two of the ranges.
  refine List.any_eq_false.2 ?_
  simp only [Text.blankRanges, List.forall_mem_cons, List.not_mem_nil, decide_eq_true_eq, false_implies,
    implies_true, and_true]
  omega

theorem skipBlank_cons (h : Text.isBlank c = false) (cs : List Char) : skipBlank (c :: cs) = c :: cs := by
  unfold skipBlank
  rw [List.dropWhile_cons_of_neg (by rw [h]; exact Bool.false_ne_true)]

theorem skipBlank_digitsPadded (width n : Nat) (rest : List Char)
    : skipBlank (Text.digitsPadded width n ++ rest) = Text.digitsPadded width n ++ rest := by
  cases hd : Text.digitsPadded width n with
  | nil => exact absurd hd (Text.digitsPadded_ne_nil width n)
  | cons c cs =>
    refine skipBlank_cons (not_isBlank_of_isDigit ?_) _
    exact Text.isDigit_of_mem_digitsPadded (hd ▸ List.mem_cons_self)

theorem readNumber?_digitsPadded (hlength : (Text.digitsPadded width n).length ≤ max)
    (hrest : (Text.digitsPadded width n).length = max ∨ ∀ c ∈ rest.head?, c.isDigit = false)
    : readNumber? max (Text.digitsPadded width n ++ rest) = some (n, rest) := by
  have htaken : (rest.take (max - (Text.digitsPadded width n).length)).takeWhile Char.isDigit = [] := by
    rcases hrest with heq | hrest
    . rw [heq, Nat.sub_self]
      rfl
    . cases rest with
      | nil => rw [List.take_nil]; rfl
      | cons c rest =>
        have hc := hrest c rfl
        cases max - (Text.digitsPadded width n).length with
        | zero => rfl
        | succ k => rw [List.take_succ_cons, List.takeWhile_cons_of_neg (by rw [hc]; exact Bool.false_ne_true)]
  unfold readNumber?
  rw [List.take_append, List.take_of_length_le hlength,
    List.takeWhile_append_of_pos fun _ => Text.isDigit_of_mem_digitsPadded, htaken, List.append_nil]
  dsimp only
  rw [if_neg (Text.digitsPadded_ne_nil width n), Text.readDigits_digitsPadded, List.drop_left]

theorem readField?_digitsPadded (h : n < 100) (rest : List Char)
    : readField? 2 (Text.digitsPadded 2 n ++ rest) = some (n, rest) := by
  have hlength : (Text.digitsPadded 2 n).length = 2 := Text.length_digitsPadded h
  unfold readField?
  rw [skipBlank_digitsPadded, readNumber?_digitsPadded (Nat.le_of_eq hlength) (.inl hlength)]

theorem readMark?_digitsPadded (h : Text.isBlank c = false) (width n : Nat) (rest : List Char)
    : readMark? c (c :: (Text.digitsPadded width n ++ rest)) = some (Text.digitsPadded width n ++ rest) := by
  unfold readMark?
  rw [skipBlank_cons h]
  dsimp only
  rw [if_pos rfl, skipBlank_digitsPadded]

theorem readYear?_minus (cs : List Char)
    : readYear? ('-' :: cs) = (readNumber? cs.length cs).map fun (n, cs) => (-(n : Int), cs) := rfl

theorem readYear?_plus (cs : List Char)
    : readYear? ('+' :: cs) = (readNumber? cs.length cs).map fun (n, cs) => ((n : Int), cs) := rfl

theorem readYear?_of_isDigit (h : c.isDigit = true) (cs : List Char)
    : readYear? (c :: cs) = (readNumber? 4 (c :: cs)).map fun (n, cs) => ((n : Int), cs) := by
  unfold readYear?
  rw [skipBlank_cons (not_isBlank_of_isDigit h)]
  split
  . next heq =>
    cases heq
    contradiction
  . next heq =>
    cases heq
    contradiction
  . rfl

theorem readYear?_renderYear (year : Int) (rest : List Char)
    : readYear? (renderYear year ++ '-' :: rest) = some (year, '-' :: rest) := by
  have hdash : ∀ c ∈ ('-' :: rest).head?, c.isDigit = false := by
    rintro c ⟨⟩
    rfl
  have hsigned : ∀ n, readNumber? (Text.digitsPadded 4 n ++ '-' :: rest).length
      (Text.digitsPadded 4 n ++ '-' :: rest) = some (n, '-' :: rest) := by
    intro n
    refine readNumber?_digitsPadded ?_ (.inr hdash)
    rw [List.length_append]
    exact Nat.le_add_right _ _
  unfold renderYear
  split
  . next h =>
    have hlength : (Text.digitsPadded 4 year.toNat).length = 4 := Text.length_digitsPadded (by omega)
    have hread : readNumber? 4 (Text.digitsPadded 4 year.toNat ++ '-' :: rest)
        = some (year.toNat, '-' :: rest) :=
      readNumber?_digitsPadded (Nat.le_of_eq hlength) (.inl hlength)
    cases hd : Text.digitsPadded 4 year.toNat with
    | nil => exact absurd hd (Text.digitsPadded_ne_nil _ _)
    | cons c cs =>
      have hc : c.isDigit = true := Text.isDigit_of_mem_digitsPadded (hd ▸ List.mem_cons_self)
      rw [hd] at hread
      rw [List.cons_append, readYear?_of_isDigit hc, ← List.cons_append, hread, Option.map_some]
      dsimp only
      rw [Int.toNat_of_nonneg h.1]
  . next h =>
    split
    . next hneg =>
      rw [List.cons_append, readYear?_minus, hsigned, Option.map_some]
      dsimp only
      rw [Int.ofNat_natAbs_of_nonpos (Int.le_of_lt hneg), Int.neg_neg]
    . next hneg =>
      rw [List.cons_append, readYear?_plus, hsigned, Option.map_some]
      dsimp only
      rw [Int.natAbs_of_nonneg (Int.le_of_not_gt hneg)]

theorem readNano?_point (cs : List Char)
    : readNano? ('.' :: cs) = (readNumber? 9 cs).map fun (n, rest) =>
        (n * 10 ^ (9 - (cs.length - rest.length)), rest.dropWhile Char.isDigit) := by
  show (readNumber? 9 cs).bind _ = _
  cases readNumber? 9 cs <;> rfl

theorem readNano?_digitsPadded (width : Nat) (h : n < 10 ^ (width + 1)) (hwidth : width + 1 ≤ 9)
    : readNano? ('.' :: Text.digitsPadded (width + 1) n ++ ['Z'])
        = some (n * 10 ^ (9 - (width + 1)), ['Z']) := by
  have hlength := Text.length_digitsPadded h
  have hread : readNumber? 9 (Text.digitsPadded (width + 1) n ++ ['Z']) = some (n, ['Z']) :=
    readNumber?_digitsPadded (by rwa [hlength]) (.inr (by rintro c ⟨⟩; rfl))
  rw [List.cons_append, readNano?_point, hread, Option.map_some]
  dsimp only
  rw [List.length_append, Nat.add_sub_cancel, hlength]
  rfl

theorem readNano?_renderNano (h : n < 1000000000)
    : readNano? (renderNano n ++ ['Z']) = some (n, ['Z']) := by
  unfold renderNano
  split
  . next hn =>
    subst hn
    rfl
  split
  . next hn =>
    rw [readNano?_digitsPadded 2 (by omega) (by decide)]
    congr 2
    omega
  split
  . next hn =>
    rw [readNano?_digitsPadded 5 (by omega) (by decide)]
    congr 2
    omega
  . rw [readNano?_digitsPadded 8 (by omega) (by decide)]
    congr 2
    omega

theorem atOffset_zero {t : Instant} (hhour : t.hour < 24) (hminute : t.minute < 60) : t.atOffset 0 = t := by
  unfold atOffset
  dsimp only
  rw [if_neg (by omega), if_pos (by omega)]
  have htime : (60 * (t.hour : Int) + t.minute - 0).toNat = 60 * t.hour + t.minute := by omega
  rw [htime]
  have hdiv : (60 * t.hour + t.minute) / 60 = t.hour := by omega
  have hmod : (60 * t.hour + t.minute) % 60 = t.minute := by omega
  rw [hdiv, hmod]

theorem daysInMonth_le (year : Int) (month : Nat) : daysInMonth year month ≤ 31 := by
  unfold daysInMonth
  split
  . split <;> decide
  all_goals decide

theorem parse?_render {t : Instant} (h : t.IsValid) : parse? t.render = some t := by
  have hvalid := h
  obtain ⟨hyear, -, hmonth, -, hday, hhour, hminute, hsecond, hnano⟩ := h
  have hmark : ∀ {c}, c = '-' ∨ c = ':' → Text.isBlank c = false := by
    rintro c (rfl | rfl) <;> decide
  have hdash := hmark (.inl rfl)
  have hcolon := hmark (.inr rfl)
  have hdays : t.day < 100 :=
    Nat.lt_of_le_of_lt (Nat.le_trans hday (daysInMonth_le _ _)) (by decide)
  have hseparator : ∀ cs, readDayEnd? ('T' :: cs) = some cs := fun _ => rfl
  have hoffset : readOffset? ['Z'] = some (0, []) := rfl
  unfold parse? render
  simp only [List.append_assoc, List.cons_append, List.nil_append]
  dsimp only [Option.bind_eq_bind]
  -- Each part is read in turn, and what follows it is left.
  rw [readYear?_renderYear, Option.bind_some, readMark?_digitsPadded hdash, Option.bind_some,
    readField?_digitsPadded (by omega), Option.bind_some, readMark?_digitsPadded hdash, Option.bind_some,
    readField?_digitsPadded hdays, Option.bind_some, hseparator, Option.bind_some,
    readField?_digitsPadded (by omega), Option.bind_some, readMark?_digitsPadded hcolon, Option.bind_some,
    readField?_digitsPadded (by omega), Option.bind_some, readMark?_digitsPadded hcolon, Option.bind_some,
    readField?_digitsPadded (by omega), Option.bind_some, readNano?_renderNano hnano, Option.bind_some,
    hoffset, Option.bind_some]
  dsimp only
  rw [atOffset_zero hhour hminute]
  rw [if_pos ⟨hvalid, rfl⟩, if_pos hyear]

end Instant
end SharedWorkspace
