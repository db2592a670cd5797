import Mathlib.Algebra.GroupWithZero.Nat
import SharedWorkspace.Yaml.Tokens

/-!
The tokens of a text that holds one field in each line, its name and a word after a colon.
-/

namespace SharedWorkspace
namespace Yaml

def isWordChar (c : Char) : Bool :=
  c.isAlphanum || c = '_'

theorem ne_of_isWordChar {c d : Char} (hc : isWordChar c = true) (hd : isWordChar d = false)
    : c ≠ d := by
  rintro rfl
  rw [hc] at hd
  contradiction

variable {c : Char} {cs : List Char} {line column offset : Nat}

theorem isBreak_of_isWordChar (h : isWordChar c = true) : isBreak c = false := by
  unfold isBreak
  have := fun d => @ne_of_isWordChar c d h
  simp [this '\n' (by decide), this '\r' (by decide), this '\u0085' (by decide),
    this '\u2028' (by decide), this '\u2029' (by decide)]

theorem isBlank_of_isWordChar (h : isWordChar c = true) : isBlank c = false := by
  unfold isBlank
  simp [ne_of_isWordChar h (d := ' ') (by decide), ne_of_isWordChar h (d := '\t') (by decide)]

theorem isPrintable_of_isWordChar (h : isWordChar c = true) : isPrintable c = true := by
  have hrange : ∀ lower upper : UInt32, 32 ≤ lower.toNat → upper.toNat ≤ 126 →
      decide (c.val ≥ lower) = true ∧ decide (c.val ≤ upper) = true → ' ' ≤ c ∧ c ≤ '~' := by
    rintro lower upper hlower hupper ⟨h, h'⟩
    exact ⟨Nat.le_trans hlower (of_decide_eq_true h), Nat.le_trans (of_decide_eq_true h') hupper⟩
  have hle : ' ' ≤ c ∧ c ≤ '~' := by
    rcases Bool.or_eq_true_iff.1 h with halphanum | hunderscore
    . rcases Bool.or_eq_true_iff.1 halphanum with halpha | hdigit
      . rcases Bool.or_eq_true_iff.1 halpha with hupper | hlower
        . obtain ⟨h, h'⟩ := of_decide_eq_true hupper
          exact hrange 65 90 (by decide) (by decide) ⟨decide_eq_true h, decide_eq_true h'⟩
        . exact hrange 97 122 (by decide) (by decide) (Bool.and_eq_true_iff.1 hlower)
      . exact hrange 48 57 (by decide) (by decide) (Bool.and_eq_true_iff.1 hdigit)
    . rw [of_decide_eq_true hunderscore]
      decide
  simp [isPrintable, hle]

theorem place_cons (h : isBreak c = false)
    : place line column offset (c :: cs)
        = ⟨c, line, column, offset⟩ :: place line (column + 1) (offset + c.utf8Size) cs := by
  rw [place]
  . rw [if_neg (by simp [h])]
  . rintro cs' rfl
    contradiction

theorem place_newline
    : place line column offset ('\n' :: cs)
        = ⟨'\n', line, column, offset⟩ :: place (line + 1) 0 0 cs := by
  rw [place]
  . rfl
  . rintro cs' ⟨⟩

theorem atMark_of_ne {mark : Char} {c : Placed} (h : c.char ≠ mark) (rest : Source)
    : atMark mark (c :: rest) = false := by
  unfold atMark
  split
  . next h' =>
    cases h'
    simp [h]
  . rfl

theorem length_place (h : '\r' ∉ cs) : (place line column offset cs).length = cs.length := by
  induction cs generalizing line column offset with
  | nil => rfl
  | cons c cs ih =>
    rw [List.mem_cons, not_or] at h
    rw [place]
    . split <;> simp [ih h.2]
    . rintro cs' rfl
      exact absurd rfl h.1

def bytes (cs : List Char) : Nat :=
  (cs.map Char.utf8Size).sum

structure IsWord (w : List Char) : Prop where
  nonempty : w ≠ []
  chars : ∀ c ∈ w, isWordChar c = true

namespace Plain

variable {w : List Char} {indent : Nat}

theorem take_word (h : ∀ c ∈ w, isWordChar c = true)
    : take false indent {} (place line column offset (w ++ cs))
        = (take false indent {} (place line (column + w.length) (offset + bytes w) cs)).map
          fun r => { r with text := w ++ r.text } := by
  induction w generalizing column offset with
  | nil =>
    show _ = Option.map (fun r => r) _
    rw [Option.map_id']
    rfl
  | cons c w ih =>
    obtain ⟨hc, hw⟩ := List.forall_mem_cons.1 h
    rw [List.cons_append, place_cons (isBreak_of_isWordChar hc), take, ih hw]
    have hcolon := ne_of_isWordChar hc (d := ':') (by decide)
    simp [isBlank_of_isWordChar hc, isBreak_of_isWordChar hc, Gap.isEmpty, endsAt, hcolon, Gap.text,
      Function.comp_def, bytes, Nat.add_assoc, Nat.add_comm 1]

theorem take_colon
    : take false indent {} (place line column offset (':' :: ' ' :: cs))
        = some ⟨[], false, place line column offset (':' :: ' ' :: cs)⟩ := by
  rw [place_cons rfl, place_cons rfl]
  rfl

theorem take_name (h : ∀ c ∈ w, isWordChar c = true)
    : take false indent {} (place line column offset (w ++ ':' :: ' ' :: cs))
        = some ⟨w, false, place line (column + w.length) (offset + bytes w) (':' :: ' ' :: cs)⟩ := by
  rw [take_word h, take_colon, Option.map_some, List.append_nil]

theorem take_newline (hcs : ∀ c, cs.head? = some c → isWordChar c = true)
    : take false 1 {} (place line column offset ('\n' :: cs)) = some ⟨[], true, place (line + 1) 0 0 cs⟩ := by
  rw [place_newline]
  cases cs with
  | nil => rfl
  | cons c cs =>
    have hc := hcs c rfl
    rw [place_cons (isBreak_of_isWordChar hc)]
    have hn : isBreak '\n' = true := rfl
    simp [take, isBlank_of_isWordChar hc, isBreak_of_isWordChar hc, Gap.add, hn, Gap.isEmpty,
      endsBeforeWord]

theorem take_value (h : ∀ c ∈ w, isWordChar c = true)
    (hcs : ∀ c, cs.head? = some c → isWordChar c = true)
    : take false 1 {} (place line column offset (w ++ '\n' :: cs))
        = some ⟨w, true, place (line + 1) 0 0 cs⟩ := by
  rw [take_word h, take_newline hcs, Option.map_some, List.append_nil]

theorem startsHere_of_isWordChar {c : Placed} (h : isWordChar c.char = true) (rest : Source)
    : startsHere false (c :: rest) = true := by
  have hsigns : ",[]\x7b\x7d#&*!|>'\"%@`".toList.any isWordChar = false := by decide
  have hsign : ",[]\x7b\x7d#&*!|>'\"%@`".toList.contains c.char = false := by
    rw [List.contains_eq_mem, decide_eq_false_iff_not]
    intro hmem
    exact List.any_eq_false.1 hsigns _ hmem h
  unfold startsHere
  dsimp only
  rw [if_neg (ne_of_isWordChar h (by decide)), if_neg, isBlank_of_isWordChar h,
    isBreak_of_isWordChar h, hsign]
  . rfl
  . rintro (hq | hq)
    . exact ne_of_isWordChar h (d := '?') (by decide) hq
    . exact ne_of_isWordChar h (d := ':') (by decide) hq

end Plain

namespace Layout

variable {l : Layout}

theorem dedentTo_of_le {column : Int} (h : l.indent ≤ column) : l.dedentTo column = l := by
  have hgo : dedentTo.go column l.tokens l.indent l.outer = (l.tokens, l.indent, l.outer) := by
    cases l.outer with
    | nil => rfl
    | cons i outer => exact if_neg (Int.not_lt.2 h)
  unfold dedentTo
  rw [hgo, ite_self]

theorem giveUpOutdated?_eq (h : l.around = []) {c : Placed}
    (hk : ∀ k, l.keyPlace = some k → k.outdated c = false)
    : l.giveUpOutdated? c = some l := by
  obtain ⟨tokens, indent, outer, keyAllowed, keyPlace, around⟩ := l
  subst h
  unfold giveUpOutdated?
  cases keyPlace with
  | none => rfl
  | some k => simp [hk k rfl]

structure AtField (l : Layout) : Prop where
  around : l.around = []
  keyAllowed : l.keyAllowed = true
  keyPlace : l.keyPlace = none
  indent : l.indent ≤ 0

theorem AtField.noteKey?_eq (h : l.AtField) {c : Placed}
    : l.noteKey? c = some { l with
        keyPlace := some { place := c, index := l.tokens.size, required := l.indent = c.column } } := by
  obtain ⟨tokens, indent, outer, keyAllowed, keyPlace, around⟩ := l
  obtain ⟨rfl, rfl, rfl, _⟩ := h
  rfl

theorem inFlow_of_around (h : l.around = []) : l.inFlow = false := by
  unfold inFlow
  rw [h]
  rfl

end Layout

theorem insertIdx_append_length {α : Type} (xs ys : List α) (a : α)
    : (xs ++ ys).insertIdx xs.length a = xs ++ a :: ys := by
  induction xs with
  | nil => rfl
  | cons x xs ih => exact congrArg (x :: ·) ih

theorem insertIdxIfInBounds_append {α : Type} (xs ys : Array α) (a : α)
    : (xs ++ ys).insertIdxIfInBounds xs.size a = xs ++ #[a] ++ ys := by
  obtain ⟨xs⟩ := xs
  obtain ⟨ys⟩ := ys
  have : xs.length ≤ xs.length + ys.length := Nat.le_add_right _ _
  simp [Array.insertIdxIfInBounds, this, insertIdx_append_length]

namespace Token

variable {l : Layout} {steps : Nat}

theorem skipIdle_of_isWordChar {c : Placed} (h : isWordChar c.char = true) (rest : Source)
    (keyAllowed : Bool) : skipIdle false keyAllowed false (c :: rest) = (keyAllowed, c :: rest) := by
  rw [skipIdle, isBreak_of_isWordChar h, if_neg Bool.false_ne_true, if_neg Bool.false_ne_true,
    if_neg (ne_of_isWordChar h (by decide)), if_neg]
  rintro (hc | ⟨hc, _⟩ | ⟨hc, _⟩)
  . exact ne_of_isWordChar h (d := ' ') (by decide) hc
  . exact ne_of_isWordChar h (d := '\t') (by decide) hc
  . exact ne_of_isWordChar h (d := '\ufeff') (by decide) hc

theorem take?_of_isWordChar {c : Placed} (h : isWordChar c.char = true) (rest : Source)
    : take? l c rest = takeContent? l c rest := by
  have hne := fun d => @ne_of_isWordChar c.char d h
  unfold take? atBoundary
  dsimp only
  rw [atMark_of_ne (hne '-' (by decide)), atMark_of_ne (hne '.' (by decide))]
  simp [hne '%' (by decide), hne '[' (by decide), hne '\x7b' (by decide), hne ']' (by decide),
    hne '\x7d' (by decide), hne ',' (by decide), hne '-' (by decide), hne '?' (by decide),
    hne ':' (by decide), hne '|' (by decide), hne '>' (by decide)]

theorem content?_of_isWordChar {c : Placed} (h : isWordChar c.char = true) {rest : Source}
    (hl : l.around = []) {r : Plain.Reading}
    (hr : Plain.take false (l.indent + 1).toNat {} (c :: rest) = some r)
    : content? l c rest = some (.scalar .plain r.text, r.crossed, r.rest) := by
  have hne := fun d => @ne_of_isWordChar c.char d h
  unfold content?
  split
  . next hc => exact absurd hc (hne '*' (by decide))
  . next hc => exact absurd hc (hne '&' (by decide))
  . next hc => exact absurd hc (hne '!' (by decide))
  . next hc => exact absurd hc (hne '\'' (by decide))
  . next hc => exact absurd hc (hne '"' (by decide))
  . rw [Layout.inFlow_of_around hl, if_pos (Plain.startsHere_of_isWordChar h rest), hr]
    rfl

theorem takeAll?_step {l₁ l₂ : Layout} {s rest s' : Source} {keyAllowed : Bool} {c : Placed}
    (hl : l.around = []) (hidle : skipIdle false l.keyAllowed false s = (keyAllowed, c :: rest))
    (hoff : (l.allowKey keyAllowed).giveUpOutdated? c = some l₁) (hle : l₁.indent ≤ c.column)
    (htake : take? l₁ c rest = some (l₂, s'))
    : takeAll? (steps + 1) l s = takeAll? steps l₂ s' := by
  rw [takeAll?, Layout.inFlow_of_around hl, hidle]
  dsimp only
  rw [hoff, Option.bind_eq_bind, Option.bind_some, Layout.dedentTo_of_le hle, htake]
  rfl

def afterName (l : Layout) (c : Placed) (name : List Char) : Layout :=
  { l with
    tokens := l.tokens.push (.scalar .plain name)
    keyAllowed := false
    keyPlace := some { place := c, index := l.tokens.size, required := l.indent = c.column } }

theorem takeContent?_name {c : Placed} {rest s : Source} {name : List Char} (hl : l.AtField)
    (hc : isWordChar c.char = true)
    (htake : Plain.take false (l.indent + 1).toNat {} (c :: rest) = some ⟨name, false, s⟩)
    : takeContent? l c rest = some (afterName l c name, s) := by
  unfold takeContent?
  rw [hl.noteKey?_eq, Option.bind_eq_bind, Option.bind_some,
    content?_of_isWordChar hc (by exact hl.around) (by exact htake)]
  rfl

theorem takeAll?_name {name : List Char} (hl : l.AtField) (hc : isWordChar c = true)
    (hname : ∀ d ∈ name, isWordChar d = true)
    : takeAll? (steps + 1) l (place line 0 0 (c :: name ++ ':' :: ' ' :: cs))
        = takeAll? steps (afterName l ⟨c, line, 0, 0⟩ (c :: name))
          (place line (name.length + 1) (bytes (c :: name)) (':' :: ' ' :: cs)) := by
  have htake : Plain.take false (l.indent + 1).toNat {} (place line 0 0 (c :: name ++ ':' :: ' ' :: cs))
      = _ := Plain.take_name (List.forall_mem_cons.2 ⟨hc, hname⟩)
  rw [List.cons_append, place_cons (isBreak_of_isWordChar hc)] at htake ⊢
  have hidle := @skipIdle_of_isWordChar ⟨c, line, 0, 0⟩ hc (place line (0 + 1) (0 + c.utf8Size)
    (name ++ ':' :: ' ' :: cs)) l.keyAllowed
  have hoff : (l.allowKey l.keyAllowed).giveUpOutdated? ⟨c, line, 0, 0⟩ = some l := by
    apply Layout.giveUpOutdated?_eq hl.around
    intro k hk
    cases hl.keyPlace.symm.trans hk
  rw [takeAll?_step hl.around hidle hoff hl.indent
    ((take?_of_isWordChar hc _).trans (takeContent?_name hl hc htake))]
  rw [Nat.zero_add, Nat.zero_add, List.length_cons]

def nameTokens (indent : Int) (name : List Char) : Array Token :=
  (if indent < 0 then #[.blockMappingStart] else #[]) ++ #[.key, .scalar .plain name, .value]

def afterColon (l : Layout) (name : List Char) : Layout where
  tokens := l.tokens ++ nameTokens l.indent name
  indent := 0
  outer := if l.indent < 0 then l.indent :: l.outer else l.outer
  keyAllowed := false

theorem value?_afterName {c' : Placed} {name : List Char} (hl : l.AtField)
    : (afterName l ⟨c, line, 0, 0⟩ name).value? c' = some (afterColon l name) := by
  obtain ⟨tokens, indent, outer, keyAllowed, keyPlace, around⟩ := l
  obtain ⟨rfl, rfl, rfl, hindent⟩ := hl
  have htokens : (tokens.push (.scalar .plain name)).insertIdxIfInBounds tokens.size .key
      = tokens ++ #[.key, .scalar .plain name] := by
    rw [Array.push_eq_append, insertIdxIfInBounds_append, Array.append_assoc]
    rfl
  have hstart : (tokens ++ (#[.key, .scalar .plain name] : Array Token)).insertIdxIfInBounds
      tokens.size .blockMappingStart = tokens ++ #[.blockMappingStart, .key, .scalar .plain name] := by
    rw [insertIdxIfInBounds_append, Array.append_assoc]
    rfl
  have hpush : ∀ ts : Array Token, (tokens ++ ts).push .value = tokens ++ (ts ++ #[.value]) := by
    intro ts
    rw [Array.push_eq_append, Array.append_assoc]
  unfold Layout.value? afterName afterColon nameTokens Layout.indentTo Layout.inFlow Layout.push
    Layout.allowKey
  dsimp only at hindent ⊢
  rw [htokens]
  by_cases h : indent < 0
  . have hlt : indent < ((0 : Nat) : Int) := h
    simp only [hlt, h, hstart, hpush, List.isEmpty_nil, Bool.not_true, Bool.not_false, Bool.true_and,
      decide_true, if_true]
    rfl
  . obtain rfl : indent = 0 := by omega
    show some (Layout.mk ((tokens ++ _).push .value) _ _ _ _ _) = _
    rw [hpush]
    rfl

theorem takeAll?_colon {name : List Char} (hl : l.AtField) (hname : bytes name ≤ 1024)
    : takeAll? (steps + 1) (afterName l ⟨c, line, 0, 0⟩ name)
          (place line column (bytes name) (':' :: ' ' :: cs))
        = takeAll? steps (afterColon l name) (place line (column + 1) (bytes name + 1) (' ' :: cs)) := by
  rw [place_cons rfl]
  have hoff : ((afterName l ⟨c, line, 0, 0⟩ name).allowKey false).giveUpOutdated?
      ⟨':', line, column, bytes name⟩ = some (afterName l ⟨c, line, 0, 0⟩ name) := by
    refine Layout.giveUpOutdated?_eq (by exact hl.around) ?_
    rintro k ⟨⟩
    simp [KeyPlace.outdated, hname]
  refine takeAll?_step hl.around rfl hoff (Int.le_trans hl.indent (Int.natCast_nonneg column)) ?_
  rw [place_cons rfl]
  unfold take? atBoundary
  simp [atWordEnd, isBlank, value?_afterName hl, atMark_of_ne]
  rfl

def afterField (l : Layout) (field : List Char × List Char) : Layout where
  tokens := (l.tokens ++ nameTokens l.indent field.1).push (.scalar .plain field.2)
  indent := 0
  outer := if l.indent < 0 then l.indent :: l.outer else l.outer

theorem takeContent?_value {c : Placed} {rest s : Source} {name value : List Char}
    (hc : isWordChar c.char = true)
    (htake : Plain.take false 1 {} (c :: rest) = some ⟨value, true, s⟩)
    : takeContent? (afterColon l name) c rest = some (afterField l (name, value), s) := by
  have hnote : (afterColon l name).noteKey? c = some (afterColon l name) := rfl
  unfold takeContent?
  rw [hnote, Option.bind_eq_bind, Option.bind_some,
    content?_of_isWordChar (l := afterColon l name) hc rfl htake]
  rfl

theorem takeAll?_value {name value : List Char} (hc : isWordChar c = true)
    (hvalue : ∀ d ∈ value, isWordChar d = true) (hcs : ∀ d, cs.head? = some d → isWordChar d = true)
    : takeAll? (steps + 1) (afterColon l name)
          (place line column offset (' ' :: c :: value ++ '\n' :: cs))
        = takeAll? steps (afterField l (name, c :: value)) (place (line + 1) 0 0 cs) := by
  have htake : Plain.take false 1 {} (place line (column + 1) (offset + 1) (c :: value ++ '\n' :: cs))
      = _ := Plain.take_value (List.forall_mem_cons.2 ⟨hc, hvalue⟩) hcs
  rw [List.cons_append, place_cons rfl]
  rw [List.cons_append, place_cons (isBreak_of_isWordChar hc)] at htake ⊢
  have hoff : ((afterColon l name).allowKey false).giveUpOutdated?
      ⟨c, line, column + 1, offset + 1⟩ = some (afterColon l name) :=
    Layout.giveUpOutdated?_eq rfl nofun
  have hidle := @skipIdle_of_isWordChar ⟨c, line, column + 1, offset + 1⟩ hc
    (place line (column + 1 + 1) (offset + 1 + c.utf8Size) (value ++ '\n' :: cs)) false
  refine takeAll?_step rfl hidle hoff (Int.natCast_nonneg _) ?_
  rw [take?_of_isWordChar hc]
  exact takeContent?_value hc htake

def fieldsText (fields : List (List Char × List Char)) : List Char :=
  fields.flatMap fun f => f.1 ++ ':' :: ' ' :: f.2 ++ ['\n']

structure IsField (f : List Char × List Char) : Prop where
  name : IsWord f.1
  short : bytes f.1 ≤ 1024
  value : IsWord f.2

theorem atField_afterField (l : Layout) (f : List Char × List Char) : (afterField l f).AtField where
  around := rfl
  keyAllowed := rfl
  keyPlace := rfl
  indent := Int.le_refl 0

theorem takeAll?_field {f : List Char × List Char} (hl : l.AtField) (hf : IsField f)
    (hcs : ∀ d, cs.head? = some d → isWordChar d = true)
    : takeAll? (steps + 3) l (place line 0 0 (f.1 ++ ':' :: ' ' :: f.2 ++ '\n' :: cs))
        = takeAll? steps (afterField l f) (place (line + 1) 0 0 cs) := by
  obtain ⟨name, value⟩ := f
  obtain ⟨⟨hname, hnames⟩, hshort, ⟨hvalue, hvalues⟩⟩ := hf
  obtain ⟨c, name, rfl⟩ := List.exists_cons_of_ne_nil hname
  obtain ⟨d, value, rfl⟩ := List.exists_cons_of_ne_nil hvalue
  obtain ⟨hc, hnames⟩ := List.forall_mem_cons.1 hnames
  obtain ⟨hd, hvalues⟩ := List.forall_mem_cons.1 hvalues
  rw [List.append_assoc]
  show takeAll? _ l (place line 0 0 (c :: name ++ ':' :: ' ' :: (d :: value ++ '\n' :: cs))) = _
  rw [takeAll?_name hl hc hnames, takeAll?_colon hl hshort]
  exact takeAll?_value hd hvalues hcs

def fieldTokens (f : List Char × List Char) : List Token :=
  [.key, .scalar .plain f.1, .value, .scalar .plain f.2]

theorem foldl_afterField (tokens : Array Token) (outer : List Int) (fields : List (List Char × List Char))
    : fields.foldl afterField { tokens, indent := 0, outer }
        = { tokens := tokens ++ (fields.flatMap fieldTokens).toArray, indent := 0, outer } := by
  induction fields generalizing tokens with
  | nil => exact congrArg (Layout.mk · 0 outer true none []) Array.append_empty.symm
  | cons f fields ih =>
    have htokens : (tokens ++ nameTokens 0 f.1).push (.scalar .plain f.2)
        = tokens ++ (fieldTokens f).toArray := by
      rw [Array.push_eq_append, Array.append_assoc]
      rfl
    rw [List.foldl_cons, List.flatMap_cons, ← List.append_toArray, ← Array.append_assoc, ← htokens]
    exact ih _

theorem takeAll?_fields {fields : List (List Char × List Char)} (hl : l.AtField)
    (hf : ∀ f ∈ fields, IsField f) (hsteps : 3 * fields.length < steps)
    : ∃ n, takeAll? steps l (place line 0 0 (fieldsText fields))
        = takeAll? (n + 1) (fields.foldl afterField l) [] := by
  induction fields generalizing steps l line with
  | nil =>
    obtain ⟨n, rfl⟩ := Nat.exists_eq_add_of_lt hsteps
    exact ⟨_, rfl⟩
  | cons f fields ih =>
    obtain ⟨hf, hfields⟩ := List.forall_mem_cons.1 hf
    have hcs : ∀ d, (fieldsText fields).head? = some d → isWordChar d = true := by
      cases fields with
      | nil => nofun
      | cons g fields =>
        obtain ⟨⟨hname, hnames⟩, _, _⟩ := (List.forall_mem_cons.1 hfields).1
        obtain ⟨c, name, hc⟩ := List.exists_cons_of_ne_nil hname
        intro d hd
        unfold fieldsText at hd
        rw [List.flatMap_cons, hc] at hd
        cases hd
        exact hnames c (hc ▸ List.mem_cons_self)
    rw [List.length_cons] at hsteps
    obtain ⟨steps, rfl⟩ : ∃ k, steps = k + 3 := ⟨steps - 3, by omega⟩
    have htext : fieldsText (f :: fields) = f.1 ++ ':' :: ' ' :: f.2 ++ '\n' :: fieldsText fields := by
      unfold fieldsText
      simp
    rw [htext, takeAll?_field hl hf hcs, List.foldl_cons]
    exact ih (atField_afterField l f) hfields (by omega)

theorem mem_fieldsText {fields : List (List Char × List Char)} (hf : ∀ f ∈ fields, IsField f)
    (hc : c ∈ fieldsText fields) : isWordChar c = true ∨ c = ':' ∨ c = ' ' ∨ c = '\n' := by
  obtain ⟨f, hmem, hc⟩ := List.mem_flatMap.1 hc
  obtain ⟨⟨_, hname⟩, _, ⟨_, hvalue⟩⟩ := hf f hmem
  simp only [List.mem_append, List.mem_cons, List.mem_nil_iff, or_false] at hc
  grind

theorem length_fieldsText (fields : List (List Char × List Char))
    : 3 * fields.length ≤ (fieldsText fields).length := by
  induction fields with
  | nil => exact Nat.le_refl 0
  | cons f fields ih =>
    have hcons : fieldsText (f :: fields) = f.1 ++ ':' :: ' ' :: f.2 ++ ['\n'] ++ fieldsText fields :=
      List.flatMap_cons
    rw [hcons]
    simp only [List.length_append, List.length_cons, List.length_nil]
    omega

theorem ofSource?_fieldsText {f : List Char × List Char} {fields : List (List Char × List Char)}
    (hf : ∀ g ∈ f :: fields, IsField g)
    : ofSource? (place 0 0 0 (fieldsText (f :: fields)))
        = some (.blockMappingStart :: (f :: fields).flatMap fieldTokens ++ [.blockEnd]) := by
  have hsteps : 3 * (f :: fields).length < (place 0 0 0 (fieldsText (f :: fields))).length + 1 := by
    rw [length_place]
    . exact Nat.lt_succ_of_le (length_fieldsText _)
    . intro hmem
      rcases mem_fieldsText hf hmem with h | h | h | h <;> contradiction
  have hstart : ({} : Layout).AtField := ⟨rfl, rfl, rfl, by decide⟩
  obtain ⟨n, hn⟩ : ∃ n, takeAll? _ {} (place 0 0 0 (fieldsText (f :: fields)))
      = takeAll? (n + 1) ((f :: fields).foldl afterField {}) [] := takeAll?_fields hstart hf hsteps
  have hfirst : afterField {} f
      = { tokens := (Token.blockMappingStart :: fieldTokens f).toArray, indent := 0, outer := [-1] } := rfl
  unfold ofSource?
  rw [hn, List.foldl_cons, hfirst, foldl_afterField, List.append_toArray]
  show some ((Array.push _ _).toList) = _
  rw [Array.push_eq_append, List.append_toArray]
  rfl

end Token

end Yaml
end SharedWorkspace
