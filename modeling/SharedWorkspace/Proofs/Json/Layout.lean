import SharedWorkspace.Proofs.Json.Reading

/-!
Written JSON values read back. Both ways of writing a value are instances of one, a `Layout`, so there is one
proof for them (`readValue?_write`); it follows that `parse?` undoes `render` and `renderIndented`.
-/

namespace SharedWorkspace
namespace Json

inductive Plain : Json → Prop where
  | null : Plain .null
  | bool (b : Bool) : Plain (.bool b)
  | integer (n : Int) : Plain (.integer n)
  | text (s : String) : Plain (.text s)
  | array {items : List Json} (h : ∀ j ∈ items, Plain j) : Plain (.array items)
  | object {fields : List (Option String × Json)} (hk : ∀ f ∈ fields, f.1.isSome = true)
      (h : ∀ f ∈ fields, Plain f.2) : Plain (.object fields)

structure Layout where
  gap : Nat → List Char
  colonGap : List Char
  blank_gap : ∀ level, Blank (gap level)
  blank_colonGap : Blank colonGap

theorem blank_newline (level : Nat) : Blank (newline level) := by
  intro c hc
  rcases List.mem_cons.1 hc with rfl | hc
  . rfl
  . rw [List.eq_of_mem_replicate hc]
    rfl

namespace Layout

def compact : Layout where
  gap _ := []
  colonGap := []
  blank_gap _ := nofun
  blank_colonGap := nofun

def indented : Layout where
  gap := newline
  colonGap := [' ']
  blank_gap := blank_newline
  blank_colonGap := by simp [Blank, isSpace]

mutual

def write (l : Layout) (level : Nat) : Json → List Char
  | .array [] => ['[', ']']
  | .array (j :: js) => '[' :: l.writeItems (level + 1) (j :: js) ++ l.gap level ++ [']']
  | .object [] => ['\x7b', '\x7d']
  | .object (f :: fs) => '\x7b' :: l.writeFields (level + 1) (f :: fs) ++ l.gap level ++ ['\x7d']
  | j => j.render

def writeItems (l : Layout) (level : Nat) : List Json → List Char
  | [] => []
  | [j] => l.gap level ++ l.write level j
  | j :: j' :: js => l.gap level ++ l.write level j ++ [','] ++ l.writeItems level (j' :: js)

def writeFields (l : Layout) (level : Nat) : List (Option String × Json) → List Char
  | [] => []
  | [(k, j)] => l.gap level ++ renderKey k ++ [':'] ++ l.colonGap ++ l.write level j
  | (k, j) :: f :: fs =>
    l.gap level ++ renderKey k ++ [':'] ++ l.colonGap ++ l.write level j ++ [','] ++
      l.writeFields level (f :: fs)

end

mutual

theorem write_compact (level : Nat) : ∀ j : Json, compact.write level j = j.render
  | .null | .bool _ | .integer _ | .fraction | .text _ | .brokenText => rfl
  | .array [] | .object [] => rfl
  | .array (j :: js) => by
    rw [write, writeItems_compact, render]
    simp [compact]
  | .object (f :: fs) => by
    rw [write, writeFields_compact, render]
    simp [compact]

theorem writeItems_compact (level : Nat) : ∀ js, compact.writeItems level js = renderItems js
  | [] => rfl
  | [j] => by
    rw [writeItems, write_compact, renderItems]
    rfl
  | j :: j' :: js => by
    rw [writeItems, write_compact, writeItems_compact, renderItems]
    rfl

theorem writeFields_compact (level : Nat) : ∀ fs, compact.writeFields level fs = renderFields fs
  | [] => rfl
  | [(k, j)] => by
    rw [writeFields, write_compact, renderFields]
    simp [compact]
  | (k, j) :: f :: fs => by
    rw [writeFields, write_compact, writeFields_compact, renderFields]
    simp [compact]

end

mutual

theorem write_indented (level : Nat) : ∀ j : Json, indented.write level j = j.renderIndented level
  | .null | .bool _ | .integer _ | .fraction | .text _ | .brokenText => rfl
  | .array [] | .object [] => rfl
  | .array (j :: js) => by
    rw [write, writeItems_indented, renderIndented]
    rfl
  | .object (f :: fs) => by
    rw [write, writeFields_indented, renderIndented]
    rfl

theorem writeItems_indented (level : Nat)
    : ∀ js, indented.writeItems level js = renderItemsIndented level js
  | [] => rfl
  | [j] => by
    rw [writeItems, write_indented, renderItemsIndented]
    rfl
  | j :: j' :: js => by
    rw [writeItems, write_indented, writeItems_indented, renderItemsIndented]
    rfl

theorem writeFields_indented (level : Nat)
    : ∀ fs, indented.writeFields level fs = renderFieldsIndented level fs
  | [] => rfl
  | [(k, j)] => by
    rw [writeFields, write_indented, renderFieldsIndented]
    simp [indented]
  | (k, j) :: f :: fs => by
    rw [writeFields, write_indented, writeFields_indented, renderFieldsIndented]
    simp [indented]

end

variable {l : Layout} {level : Nat} {j : Json} {js : List Json} {fs : List (Option String × Json)}
variable {blank rest : List Char}

theorem exists_write_eq_cons (l : Layout) (level : Nat) (j : Json)
    : ∃ c cs, l.write level j = c :: cs ∧ isSpace c = false := by
  cases j with
  | null | fraction | brokenText => exact ⟨'n', _, rfl, by decide⟩
  | bool b => cases b <;> exact ⟨_, _, rfl, by decide⟩
  | text s => exact ⟨'"', _, rfl, by decide⟩
  | array items => cases items <;> exact ⟨'[', _, rfl, by decide⟩
  | object fields => cases fields <;> exact ⟨'\x7b', _, rfl, by decide⟩
  | integer n =>
    obtain ⟨c, cs, hcs, hc⟩ := exists_renderInteger_eq_cons n
    refine ⟨c, cs, hcs, ?_⟩
    rcases hc with rfl | hc
    . rfl
    . unfold isSpace
      rw [decide_eq_false_iff_not]
      rintro (rfl | rfl | rfl | rfl) <;> contradiction

def ReadsBack (l : Layout) (j : Json) : Prop :=
  ∀ level steps blank rest, Blank blank → Ends rest → 2 * (l.write level j).length ≤ steps →
    readValue? steps (blank ++ (l.write level j ++ rest)) = some (j, rest)

theorem skipSpace_write (l : Layout) (level : Nat) (j : Json) (hb : Blank blank) (rest : List Char)
    : skipSpace (blank ++ (l.write level j ++ rest)) = l.write level j ++ rest := by
  obtain ⟨c, cs, hcs, hc⟩ := exists_write_eq_cons l level j
  rw [hcs]
  exact skipSpace_append hb hc _

theorem readItems?_write (h : ∀ i ∈ j :: js, l.ReadsBack i) (hb : Blank blank) (rest : List Char)
    : ∀ steps, 2 * (l.writeItems level (j :: js)).length + 1 ≤ steps →
        readItems? steps (l.writeItems level (j :: js) ++ (blank ++ ']' :: rest)) = some (j :: js, rest) := by
  have hends : ∀ {c}, c = ',' ∨ c = ']' → ∀ cs, Ends (c :: cs) := by
    rintro c (rfl | rfl) cs <;> exact ends_cons (by decide)
  induction js generalizing j with
  | nil =>
    intro steps hsteps
    obtain ⟨steps, rfl⟩ := Nat.exists_eq_add_of_le' (Nat.le_of_add_left_le hsteps)
    rw [writeItems, List.length_append] at hsteps
    rw [writeItems, List.append_assoc]
    have hread := h j List.mem_cons_self level steps (l.gap level) (blank ++ ']' :: rest) (l.blank_gap level)
      (.append hb (hends (.inr rfl) _)) (by omega)
    exact readItems?_last hread (skipSpace_append hb (by decide) rest)
  | cons j' js ih =>
    intro steps hsteps
    obtain ⟨steps, rfl⟩ := Nat.exists_eq_add_of_le' (Nat.le_of_add_left_le hsteps)
    rw [writeItems] at hsteps
    simp only [List.length_append, List.length_singleton] at hsteps
    have hread := h j List.mem_cons_self level steps (l.gap level)
      (',' :: (l.writeItems level (j' :: js) ++ (blank ++ ']' :: rest))) (l.blank_gap level)
      (hends (.inl rfl) _) (by omega)
    have htext : l.writeItems level (j :: j' :: js) ++ (blank ++ ']' :: rest)
        = l.gap level ++ (l.write level j ++ ',' :: (l.writeItems level (j' :: js) ++ (blank ++ ']' :: rest))) := by
      simp [writeItems]
    rw [htext, readItems?_next hread rfl, ih (fun i hi => h i (List.mem_cons_of_mem j hi)) steps (by omega)]
    rfl

theorem readKey?_append (hb : Blank blank) (k : String) (rest : List Char)
    : readKey? (blank ++ (quote k ++ rest)) = some (some k, rest) :=
  readKey?_quote (skipSpace_append hb (by decide) _)

theorem readFields?_write {f : Option String × Json} (hk : ∀ g ∈ f :: fs, g.1.isSome = true)
    (h : ∀ g ∈ f :: fs, l.ReadsBack g.2) (hb : Blank blank) (rest : List Char)
    : ∀ steps, 2 * (l.writeFields level (f :: fs)).length + 1 ≤ steps →
        readFields? steps (l.writeFields level (f :: fs) ++ (blank ++ '\x7d' :: rest))
          = some (f :: fs, rest) := by
  have hends : ∀ {c}, c = ',' ∨ c = '\x7d' → ∀ cs, Ends (c :: cs) := by
    rintro c (rfl | rfl) cs <;> exact ends_cons (by decide)
  induction fs generalizing f with
  | nil =>
    intro steps hsteps
    obtain ⟨steps, rfl⟩ := Nat.exists_eq_add_of_le' (Nat.le_of_add_left_le hsteps)
    obtain ⟨k, j⟩ := f
    obtain ⟨k, rfl⟩ := Option.isSome_iff_exists.1 (hk _ List.mem_cons_self)
    rw [writeFields] at hsteps
    simp only [List.length_append, List.length_singleton] at hsteps
    have hj : l.ReadsBack j := h _ List.mem_cons_self
    have hread := hj level steps l.colonGap (blank ++ '\x7d' :: rest) l.blank_colonGap
      (.append hb (hends (.inr rfl) _)) (by omega)
    have htext : l.writeFields level [(some k, j)] ++ (blank ++ '\x7d' :: rest)
        = l.gap level ++ (quote k ++ ':' :: (l.colonGap ++ (l.write level j ++ (blank ++ '\x7d' :: rest)))) := by
      simp [writeFields, renderKey]
    rw [htext]
    exact readFields?_last (readKey?_append (l.blank_gap level) k _) rfl hread
      (skipSpace_append hb (by decide) rest)
  | cons f' fs ih =>
    intro steps hsteps
    obtain ⟨steps, rfl⟩ := Nat.exists_eq_add_of_le' (Nat.le_of_add_left_le hsteps)
    obtain ⟨k, j⟩ := f
    obtain ⟨k, rfl⟩ := Option.isSome_iff_exists.1 (hk _ List.mem_cons_self)
    rw [writeFields] at hsteps
    simp only [List.length_append, List.length_singleton] at hsteps
    have hj : l.ReadsBack j := h _ List.mem_cons_self
    have hread := hj level steps l.colonGap
      (',' :: (l.writeFields level (f' :: fs) ++ (blank ++ '\x7d' :: rest))) l.blank_colonGap
      (hends (.inl rfl) _) (by omega)
    have htext : l.writeFields level ((some k, j) :: f' :: fs) ++ (blank ++ '\x7d' :: rest)
        = l.gap level ++ (quote k ++ ':' :: (l.colonGap ++ (l.write level j ++
            ',' :: (l.writeFields level (f' :: fs) ++ (blank ++ '\x7d' :: rest))))) := by
      simp [writeFields, renderKey]
    rw [htext, readFields?_next (readKey?_append (l.blank_gap level) k _) rfl hread rfl,
      ih (fun g hg => hk g (List.mem_cons_of_mem _ hg)) (fun g hg => h g (List.mem_cons_of_mem _ hg)) steps
        (by omega)]
    rfl

theorem ReadsBack.intro (h : ∀ level steps cs rest, skipSpace cs = l.write level j ++ rest → Ends rest →
    2 * (l.write level j).length ≤ steps + 1 → readValue? (steps + 1) cs = some (j, rest)) : l.ReadsBack j := by
  intro level steps blank rest hb hrest hsteps
  have hskip := skipSpace_write l level j hb rest
  obtain ⟨c, cs, hcs, -⟩ := exists_write_eq_cons l level j
  cases steps with
  | zero =>
    rw [hcs, List.length_cons] at hsteps
    omega
  | succ steps => exact h level steps _ rest hskip hrest hsteps

theorem readsBack (l : Layout) (h : j.Plain) : l.ReadsBack j := by
  induction h with
  | null =>
    refine .intro fun level steps cs rest hcs _ _ => ?_
    rw [readValue?, hcs]
    rfl
  | bool b =>
    refine .intro fun level steps cs rest hcs _ _ => ?_
    rw [readValue?, hcs]
    cases b <;> rfl
  | integer n => exact .intro fun level steps cs rest hcs hrest _ => readValue?_number hcs hrest
  | text s => exact .intro fun level steps cs rest hcs _ _ => readValue?_quote hcs
  | @array items h ih =>
    refine .intro fun level steps cs rest hcs _ hsteps => ?_
    cases items with
    | nil =>
      rw [readValue?, hcs]
      rfl
    | cons j js =>
      rw [write] at hsteps
      simp only [List.length_append, List.length_cons, List.length_nil] at hsteps
      have htext : l.write level (.array (j :: js)) ++ rest
          = '[' :: (l.writeItems (level + 1) (j :: js) ++ (l.gap level ++ ']' :: rest)) := by
        simp [write]
      rw [htext] at hcs
      exact readValue?_items hcs (readItems?_write ih (l.blank_gap level) rest steps (by omega))
  | @object fields hk h ih =>
    refine .intro fun level steps cs rest hcs _ hsteps => ?_
    cases fields with
    | nil =>
      rw [readValue?, hcs]
      rfl
    | cons f fs =>
      rw [write] at hsteps
      simp only [List.length_append, List.length_cons, List.length_nil] at hsteps
      have htext : l.write level (.object (f :: fs)) ++ rest
          = '\x7b' :: (l.writeFields (level + 1) (f :: fs) ++ (l.gap level ++ '\x7d' :: rest)) := by
        simp [write]
      rw [htext] at hcs
      exact readValue?_fields hcs (readFields?_write hk ih (l.blank_gap level) rest steps (by omega))

theorem parse?_write (l : Layout) (h : j.Plain) : parse? (l.write 0 j) = some j := by
  have hread := l.readsBack h 0 (2 * (l.write 0 j).length + 2) [] [] nofun .nil (Nat.le_add_right _ _)
  rw [List.nil_append, List.append_nil] at hread
  unfold parse?
  rw [hread]
  rfl

end Layout

variable {j : Json}

theorem parse?_render (h : j.Plain) : parse? j.render = some j := by
  rw [← Layout.write_compact 0]
  exact Layout.compact.parse?_write h

theorem parse?_renderIndented (h : j.Plain) : parse? (j.renderIndented 0) = some j := by
  rw [← Layout.write_indented 0]
  exact Layout.indented.parse?_write h

end Json
end SharedWorkspace
