import Mathlib.Data.List.DropRight
import SharedWorkspace.Json.Parser
import SharedWorkspace.Proofs.Text.Digits

/-!
What a reader of JSON makes of a written text or number, and of one item or field after another.
-/

namespace SharedWorkspace
namespace Json

variable {c : Char} {cs rest : List Char} {j : Json} {steps level : Nat}

section Texts

abbrev Reads (cs : List Char) (c : Char) (rest : List Char) : Prop :=
  readText? cs = (readText? rest).map fun (cs, rest) => (cs.map (c :: ·), rest)

theorem reads_plain (hquote : c ≠ '"') (hslash : c ≠ '\\') (hspace : ¬ c.toNat < 0x20)
    : Reads (c :: rest) c rest := by
  unfold Reads
  rw [readText?.eq_def]
  split
  . contradiction
  . next heq => exact absurd (List.cons.inj heq).1 hquote
  . next heq => exact absurd (List.cons.inj heq).1 hslash
  . next heq => exact absurd (List.cons.inj heq).1 hslash
  . next heq => exact absurd (List.cons.inj heq).1 hslash
  . next heq =>
    cases heq
    rw [if_neg (not_or.2 ⟨hslash, hspace⟩)]

theorem hexQuad?_hexChar {n : Nat} (h : n < 0x20)
    : hexQuad? '0' '0' (hexChar (n / 16)) (hexChar (n % 16)) = some n := by
  have : ∀ n : Fin 0x20, hexQuad? '0' '0' (hexChar (n / 16)) (hexChar (n % 16)) = some n.1 := by decide
  exact this ⟨n, h⟩

theorem reads_control {n : Nat} (h : n < 0x20)
    : Reads ('\\' :: 'u' :: '0' :: '0' :: hexChar (n / 16) :: hexChar (n % 16) :: rest)
        (Char.ofNat n) rest := by
  have hquad := hexQuad?_hexChar h
  have hhigh : isHighSurrogate n = false := by
    rw [isHighSurrogate, decide_eq_false_iff_not]
    omega
  have hlow : isLowSurrogate n = false := by
    rw [isLowSurrogate, decide_eq_false_iff_not]
    omega
  -- Whether another escape follows or not, it is read on its own.
  unfold Reads
  rw [readText?.eq_def]
  split
  . contradiction
  . next heq => exact absurd (List.cons.inj heq).1 (by decide)
  . next heq =>
    cases heq
    simp [hquad, hhigh, hlow]
  . next heq =>
    cases heq
    simp [hquad, hhigh, hlow]
  . next hne heq =>
    cases heq
    exact absurd rfl (hne _ _ _ _ _ rfl)
  . next hne heq =>
    cases heq
    exact absurd rfl (hne _ _ rfl)

theorem reads_escape (c : Char) (rest : List Char) : Reads (escape c ++ rest) c rest := by
  unfold escape
  split
  . next h => subst h; rfl
  split
  . next h => subst h; rfl
  split
  . next h => subst h; rfl
  split
  . next h => subst h; rfl
  split
  . next h => subst h; rfl
  split
  . next h => subst h; rfl
  split
  . next h => subst h; rfl
  split
  . next h =>
    have hread := @reads_control rest _ h
    rw [Char.ofNat_toNat] at hread
    exact hread
  . exact reads_plain ‹_› ‹_› ‹_›

theorem readText?_flatMap_escape (s rest : List Char)
    : readText? (s.flatMap escape ++ '"' :: rest) = some (some s, rest) := by
  induction s with
  | nil => rfl
  | cons c s ih =>
    rw [List.flatMap_cons, List.append_assoc, reads_escape, ih]
    rfl

end Texts

section Numbers

def Ends (rest : List Char) : Prop :=
  ∀ c ∈ rest.head?, c.isDigit = false ∧ c ≠ '.' ∧ c ≠ 'e' ∧ c ≠ 'E'

theorem Ends.nil : Ends [] := nofun

theorem ends_cons (h : c.isDigit = false ∧ c ≠ '.' ∧ c ≠ 'e' ∧ c ≠ 'E') : Ends (c :: cs) := by
  rintro _ ⟨⟩
  exact h

theorem takeWhile_isDigit (h : Ends rest) : rest.takeWhile Char.isDigit = [] := by
  cases rest with
  | nil => rfl
  | cons c rest => rw [List.takeWhile_cons_of_neg (by rw [(h c rfl).1]; exact Bool.false_ne_true)]

theorem dropWhile_isDigit (h : Ends rest) : rest.dropWhile Char.isDigit = rest := by
  cases rest with
  | nil => rfl
  | cons c rest => rw [List.dropWhile_cons_of_neg (by rw [(h c rfl).1]; exact Bool.false_ne_true)]

theorem readWhole?_digits (n : Nat) (h : Ends rest)
    : readWhole? (Text.digits n ++ rest) = some (Text.digits n, rest) := by
  rcases Nat.eq_zero_or_pos n with rfl | hn
  . rw [Text.digits_of_lt (by decide)]
    cases rest with
    | nil => rfl
    | cons c rest =>
      have hc := (h c rfl).1
      show (if c.isDigit = true then none else some (['0'], c :: rest)) = some (['0'], c :: rest)
      rw [if_neg (by rw [hc]; exact Bool.false_ne_true)]
  . unfold readWhole?
    split
    . next heq =>
      cases hd : Text.digits n with
      | nil => exact absurd hd (Text.digits_ne_nil n)
      | cons c ds =>
        rw [hd, List.cons_append, List.cons.injEq] at heq
        exact absurd (heq.1 ▸ hd) (Text.digits_head_ne_zero hn ds)
    . rw [List.takeWhile_append_of_pos fun _ => Text.isDigit_of_mem_digits, takeWhile_isDigit h,
        List.dropWhile_append_of_pos fun _ => Text.isDigit_of_mem_digits, dropWhile_isDigit h, List.append_nil]
      exact if_neg (Text.digits_ne_nil n)

theorem skipFraction?_of_ends (h : Ends rest) : skipFraction? rest = some (false, rest) := by
  unfold skipFraction?
  split
  . exact absurd rfl (h '.' rfl).2.1
  . rfl

theorem skipExponent?_of_ends (h : Ends rest) : skipExponent? rest = some (false, rest) := by
  unfold skipExponent?
  split
  . next c _ => rw [if_neg (not_or.2 (h c rfl).2.2)]
  . rfl

def readUnsigned? (negative : Bool) (cs : List Char) : Option (Json × List Char) := do
  let (ds, cs) ← readWhole? cs
  let (hasFraction, cs) ← skipFraction? cs
  let (hasExponent, cs) ← skipExponent? cs
  let n := Text.readDigits ds
  if hasFraction ∨ hasExponent ∨ (negative ∧ n = 0) then
    some (.fraction, cs)
  else
    some (.integer (if negative then -(n : Int) else n), cs)

theorem readNumber?_minus (cs : List Char) : readNumber? ('-' :: cs) = readUnsigned? true cs := rfl

theorem readNumber?_of_ne (h : c ≠ '-') (cs : List Char)
    : readNumber? (c :: cs) = readUnsigned? false (c :: cs) := by
  unfold readNumber?
  split
  next hsign =>
    split at hsign
    . next heq => exact absurd (List.cons.inj heq).1 h
    . cases hsign
      rfl

theorem readUnsigned?_digits {negative : Bool} {n : Nat} (h : Ends rest) (hn : negative = true → n ≠ 0)
    : readUnsigned? negative (Text.digits n ++ rest)
        = some (.integer (if negative then -(n : Int) else n), rest) := by
  have hsign : ¬ (negative = true ∧ n = 0) := fun ⟨hneg, hzero⟩ => hn hneg hzero
  unfold readUnsigned?
  simp [readWhole?_digits n h, skipFraction?_of_ends h, skipExponent?_of_ends h, Text.readDigits_digits, hsign]

theorem exists_renderInteger_eq_cons (n : Int)
    : ∃ c cs, renderInteger n = c :: cs ∧ (c = '-' ∨ c.isDigit = true) := by
  unfold renderInteger
  split
  . exact ⟨_, _, rfl, .inl rfl⟩
  . cases hd : Text.digits n.natAbs with
    | nil => exact absurd hd (Text.digits_ne_nil _)
    | cons c cs => exact ⟨c, cs, rfl, .inr (Text.isDigit_of_mem_digits (hd ▸ List.mem_cons_self))⟩

theorem readNumber?_renderInteger (n : Int) (h : Ends rest)
    : readNumber? (renderInteger n ++ rest) = some (.integer n, rest) := by
  unfold renderInteger
  split
  . next hn =>
    rw [List.cons_append, readNumber?_minus, readUnsigned?_digits h (by omega), if_pos rfl]
    congr 3
    omega
  . next hn =>
    have hread : readUnsigned? false (Text.digits n.natAbs ++ rest) = some (.integer n.natAbs, rest) :=
      readUnsigned?_digits h nofun
    cases hd : Text.digits n.natAbs with
    | nil => exact absurd hd (Text.digits_ne_nil _)
    | cons c cs =>
      have hc : c ≠ '-' := by
        rintro rfl
        exact absurd (Text.isDigit_of_mem_digits (hd ▸ List.mem_cons_self)) (by decide)
      rw [List.cons_append, readNumber?_of_ne hc, ← List.cons_append, ← hd, hread]
      congr 3
      show (n.natAbs : Int) = n
      omega

end Numbers

section Blanks

def Blank (cs : List Char) : Prop :=
  ∀ c ∈ cs, isSpace c = true

variable {blank : List Char}

theorem skipSpace_append (h : Blank blank) (hc : isSpace c = false) (rest : List Char)
    : skipSpace (blank ++ c :: rest) = c :: rest := by
  unfold skipSpace
  rw [List.dropWhile_append_of_pos h, List.dropWhile_cons_of_neg (by rw [hc]; exact Bool.false_ne_true)]

theorem skipSpace_skipSpace (cs : List Char) : skipSpace (skipSpace cs) = skipSpace cs := by
  unfold skipSpace
  exact List.dropWhile_idempotent _ _

theorem Ends.append (h : Blank blank) (hrest : Ends rest) : Ends (blank ++ rest) := by
  cases blank with
  | nil => exact hrest
  | cons c blank =>
    have hc : isSpace c = true := h c List.mem_cons_self
    unfold isSpace at hc
    rw [decide_eq_true_iff] at hc
    rcases hc with rfl | rfl | rfl | rfl <;> exact ends_cons (by decide)

end Blanks

section Steps

variable {k : Option String} {rest' rest'' : List Char}

theorem readValue?_skipSpace (steps : Nat) (cs : List Char)
    : readValue? steps (skipSpace cs) = readValue? steps cs := by
  cases steps with
  | zero => rfl
  | succ => rw [readValue?, readValue?, skipSpace_skipSpace]

theorem readItems?_skipSpace (steps : Nat) (cs : List Char)
    : readItems? steps (skipSpace cs) = readItems? steps cs := by
  cases steps with
  | zero => rfl
  | succ => rw [readItems?, readItems?, readValue?_skipSpace]

theorem readFields?_skipSpace (steps : Nat) (cs : List Char)
    : readFields? steps (skipSpace cs) = readFields? steps cs := by
  cases steps with
  | zero => rfl
  | succ => rw [readFields?, readFields?, readKey?, readKey?, skipSpace_skipSpace]

theorem readValue?_quote {s : String} (h : skipSpace cs = quote s ++ rest)
    : readValue? (steps + 1) cs = some (.text s, rest) := by
  have htext : readText? (s.toList.flatMap escape ++ ['"'] ++ rest) = some (some s.toList, rest) := by
    rw [List.append_assoc]
    exact readText?_flatMap_escape _ _
  rw [readValue?, h]
  show (readText? (s.toList.flatMap escape ++ ['"'] ++ rest)).map _ = _
  rw [htext]
  show some (Json.text (String.ofList s.toList), rest) = _
  rw [String.ofList_toList]

theorem readKey?_quote {s : String} (h : skipSpace cs = quote s ++ rest)
    : readKey? cs = some (some s, rest) := by
  have htext : readText? (s.toList.flatMap escape ++ ['"'] ++ rest) = some (some s.toList, rest) := by
    rw [List.append_assoc]
    exact readText?_flatMap_escape _ _
  rw [readKey?, h]
  show (readText? (s.toList.flatMap escape ++ ['"'] ++ rest)).map _ = _
  rw [htext]
  show some (some (String.ofList s.toList), rest) = _
  rw [String.ofList_toList]

theorem readValue?_number {n : Int} (h : skipSpace cs = renderInteger n ++ rest) (hrest : Ends rest)
    : readValue? (steps + 1) cs = some (.integer n, rest) := by
  obtain ⟨c, ds, hds, hc⟩ := exists_renderInteger_eq_cons n
  have hread := readNumber?_renderInteger n hrest
  have hne : ∀ d : Char, d ≠ '-' → d.isDigit = false → c ≠ d := by
    rintro d hsign hdigit rfl
    rcases hc with rfl | hc
    . exact hsign rfl
    . rw [hc] at hdigit
      contradiction
  rw [hds] at h hread
  rw [readValue?, h]
  -- No other value begins like a number.
  split
  . next heq => exact absurd (List.cons.inj heq).1 (hne 'n' (by decide) (by decide))
  . next heq => exact absurd (List.cons.inj heq).1 (hne 't' (by decide) (by decide))
  . next heq => exact absurd (List.cons.inj heq).1 (hne 'f' (by decide) (by decide))
  . next heq => exact absurd (List.cons.inj heq).1 (hne '"' (by decide) (by decide))
  . next heq => exact absurd (List.cons.inj heq).1 (hne '[' (by decide) (by decide))
  . next heq => exact absurd (List.cons.inj heq).1 (hne '\x7b' (by decide) (by decide))
  . exact hread

theorem readValue?_eq_none_of_bracket (h : skipSpace cs = ']' :: rest) : readValue? steps cs = none := by
  cases steps with
  | zero => rfl
  | succ =>
    rw [readValue?, h]
    rfl

theorem readItems?_eq_none_of_bracket (h : skipSpace cs = ']' :: rest) : readItems? steps cs = none := by
  cases steps with
  | zero => rfl
  | succ => rw [readItems?, readValue?_eq_none_of_bracket h]

theorem readFields?_eq_none_of_brace (h : skipSpace cs = '\x7d' :: rest) : readFields? steps cs = none := by
  cases steps with
  | zero => rfl
  | succ =>
    rw [readFields?, readKey?, h]
    rfl

theorem readValue?_bracket (h : skipSpace cs = '[' :: rest)
    : readValue? (steps + 1) cs
        =
      match skipSpace rest with
      | ']' :: rest => some (array [], rest)
      | rest => (readItems? steps rest).map fun (js, rest) => (array js, rest) := by
  rw [readValue?, h]
  rfl

theorem readValue?_items {js : List Json} (h : skipSpace cs = '[' :: rest)
    (hitems : readItems? steps rest = some (js, rest'))
    : readValue? (steps + 1) cs = some (.array js, rest') := by
  rw [readValue?_bracket h]
  split
  . next heq =>
    rw [readItems?_eq_none_of_bracket heq] at hitems
    contradiction
  . rw [readItems?_skipSpace, hitems]
    rfl

theorem readValue?_brace (h : skipSpace cs = '\x7b' :: rest)
    : readValue? (steps + 1) cs
        =
      match skipSpace rest with
      | '\x7d' :: rest => some (object [], rest)
      | rest => (readFields? steps rest).map fun (fs, rest) => (object fs, rest) := by
  rw [readValue?, h]
  rfl

theorem readValue?_fields {fs : List (Option String × Json)} (h : skipSpace cs = '\x7b' :: rest)
    (hfields : readFields? steps rest = some (fs, rest'))
    : readValue? (steps + 1) cs = some (.object fs, rest') := by
  rw [readValue?_brace h]
  split
  . next heq =>
    rw [readFields?_eq_none_of_brace heq] at hfields
    contradiction
  . rw [readFields?_skipSpace, hfields]
    rfl

theorem readItems?_last (h : readValue? steps cs = some (j, rest)) (hrest : skipSpace rest = ']' :: rest')
    : readItems? (steps + 1) cs = some ([j], rest') := by
  simp only [readItems?, h, hrest]

theorem readItems?_next (h : readValue? steps cs = some (j, rest)) (hrest : skipSpace rest = ',' :: rest')
    : readItems? (steps + 1) cs
        = (readItems? steps rest').map fun (js, rest) => (j :: js, rest) := by
  simp only [readItems?, h, hrest]

variable {cs' : List Char}

theorem readFields?_last (hk : readKey? cs = some (k, rest)) (hcolon : skipSpace rest = ':' :: cs')
    (h : readValue? steps cs' = some (j, rest')) (hrest : skipSpace rest' = '\x7d' :: rest'')
    : readFields? (steps + 1) cs = some ([(k, j)], rest'') := by
  simp only [readFields?, hk, hcolon, h, hrest]

theorem readFields?_next (hk : readKey? cs = some (k, rest)) (hcolon : skipSpace rest = ':' :: cs')
    (h : readValue? steps cs' = some (j, rest')) (hrest : skipSpace rest' = ',' :: rest'')
    : readFields? (steps + 1) cs
        = (readFields? steps rest'').map fun (fs, rest) => ((k, j) :: fs, rest) := by
  simp only [readFields?, hk, hcolon, h, hrest]

end Steps

end Json
end SharedWorkspace
