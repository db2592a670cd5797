import SharedWorkspace.Text.Lines

/-!
The two ways to cut a text into lines agree, once the ends are cut off, exactly for the texts in which every
carriage return stands before a line feed (`isInfix_lines_iff`). In all other texts a line goes on behind a
carriage return for one of them, and ends there for the other.
-/

namespace SharedWorkspace
namespace Text

variable {line line' cs : List Char} {s : String}

def ReturnsPaired : List Char → Prop
  | [] => True
  | c :: cs => (c = '\r' → cs.head? = some '\n') ∧ ReturnsPaired cs

instance ReturnsPaired.decidable : (cs : List Char) → Decidable (ReturnsPaired cs)
  | [] => inferInstanceAs (Decidable True)
  | c :: cs =>
    have := decidable cs
    inferInstanceAs (Decidable ((c = '\r' → cs.head? = some '\n') ∧ ReturnsPaired cs))

def trimmed (line : List Char) : List Char :=
  (line.reverse.dropWhile isLineEnd).reverse

theorem trimLineEnd_ofList (line : List Char)
    : trimLineEnd (String.ofList line) = String.ofList (trimmed line) := by
  unfold trimLineEnd trimmed
  rw [String.toList_ofList]

theorem map_trimLineEnd_terminatedLines (s : String)
    : (terminatedLines s).map trimLineEnd
        =
      ((terminatedLines.go [] s.toList).map trimmed).map String.ofList := by
  unfold terminatedLines
  rw [List.map_map, List.map_map]
  apply List.map_congr_left
  intro line _
  exact trimLineEnd_ofList line

theorem trimmed_reverse (h : ∀ c ∈ line, isLineEnd c = false) : trimmed line.reverse = line.reverse := by
  unfold trimmed
  rw [List.reverse_reverse]
  cases line with
  | nil => rfl
  | cons c line => rw [List.dropWhile_cons_of_neg (by simp [h c List.mem_cons_self])]

theorem trimmed_cons_reverse {c : Char} (hc : isLineEnd c = true) (line : List Char)
    : trimmed (c :: line).reverse = trimmed line.reverse := by
  unfold trimmed
  rw [List.reverse_reverse, List.reverse_reverse, List.dropWhile_cons_of_pos hc]

theorem dropReturn_of_not_mem (h : '\r' ∉ line) : dropReturn line = line := by
  unfold dropReturn
  split
  . simp at h
  . rfl

theorem return_not_mem (h : ∀ c ∈ line, isLineEnd c = false) : '\r' ∉ line := by
  intro hmem
  have := h _ hmem
  contradiction

theorem lines_go_return (line cs : List Char)
    : lines.go line ('\r' :: '\n' :: cs) = line.reverse :: lines.go [] cs := by
  rw [lines.go, if_neg (by decide), lines.go, if_pos rfl]
  rfl

theorem map_trimmed_go (hline : ∀ c ∈ line, isLineEnd c = false) (hcs : ReturnsPaired cs)
    : (terminatedLines.go line cs).map trimmed = lines.go line cs := by
  fun_induction terminatedLines.go line cs with
  | case1 => rfl
  | case2 line hne =>
    rw [lines.go, if_neg hne, List.map_singleton, trimmed_reverse hline]
  | case3 line rest ih =>
    obtain ⟨_, _, hcs⟩ := hcs
    rw [lines_go_return, List.map_cons, trimmed_cons_reverse rfl, trimmed_cons_reverse rfl,
      trimmed_reverse hline, ih (List.forall_mem_nil _) hcs]
  | case4 line c rest hpair hc ih =>
    -- A carriage return would have been taken together with its line feed.
    obtain ⟨hreturn, hcs⟩ := hcs
    have hfeed : c = '\n' := by
      have : c = '\n' ∨ c = '\r' := by simpa [isLineEnd] using hc
      refine this.resolve_right ?_
      intro hr
      obtain ⟨rest', hrest⟩ := List.head?_eq_some_iff.1 (hreturn hr)
      exact hpair rest' hr hrest
    rw [lines.go, if_pos hfeed, dropReturn_of_not_mem (return_not_mem hline), List.map_cons,
      trimmed_cons_reverse hc, trimmed_reverse hline, ih (List.forall_mem_nil _) hcs]
  | case5 line c rest _ hc ih =>
    have hc : isLineEnd c = false := by simpa using hc
    have hfeed : c ≠ '\n' := by
      rintro rfl
      contradiction
    rw [lines.go, if_neg hfeed]
    exact ih (List.forall_mem_cons.2 ⟨hc, hline⟩) hcs.2

theorem forall_mem_trimmed_go (hline : ∀ c ∈ line, isLineEnd c = false)
    : ∀ l ∈ (terminatedLines.go line cs).map trimmed, ∀ c ∈ l, isLineEnd c = false := by
  have htrimmed : ∀ line : List Char,
      (∀ c ∈ line, isLineEnd c = false) → ∀ c ∈ trimmed line.reverse, isLineEnd c = false := by
    intro line h c hc
    rw [trimmed_reverse h, List.mem_reverse] at hc
    exact h c hc
  fun_induction terminatedLines.go line cs with
  | case1 => exact List.forall_mem_nil _
  | case2 line hne => simpa using htrimmed line hline
  | case3 line rest ih =>
    rw [List.map_cons, trimmed_cons_reverse rfl, trimmed_cons_reverse rfl]
    exact List.forall_mem_cons.2 ⟨htrimmed line hline, ih (List.forall_mem_nil _)⟩
  | case4 line c rest hpair hc ih =>
    rw [List.map_cons, trimmed_cons_reverse hc]
    exact List.forall_mem_cons.2 ⟨htrimmed line hline, ih (List.forall_mem_nil _)⟩
  | case5 line c rest _ hc ih =>
    exact ih (List.forall_mem_cons.2 ⟨by simpa using hc, hline⟩)

theorem return_not_mem_trimmed_go (hline : ∀ c ∈ line, isLineEnd c = false)
    : ∀ l ∈ (terminatedLines.go line cs).map trimmed, '\r' ∉ l :=
  fun l hl => return_not_mem (forall_mem_trimmed_go hline l hl)

theorem feed_not_mem_trimLineEnd {l : String} (h : l ∈ terminatedLines s) : '\n' ∉ (trimLineEnd l).toList := by
  obtain ⟨cs, hcs, rfl⟩ := List.mem_map.1 h
  rw [trimLineEnd_ofList, String.toList_ofList]
  intro hfeed
  have := forall_mem_trimmed_go (List.forall_mem_nil _) _ (List.mem_map_of_mem hcs) _ hfeed
  contradiction

theorem mem_of_mem_dropReturn (h : '\r' ∈ dropReturn line) : '\r' ∈ line := by
  unfold dropReturn at h
  split at h
  . exact List.mem_cons_of_mem _ h
  . exact h

theorem mem_dropReturn_cons (h : '\r' ∈ line) (c : Char) : '\r' ∈ dropReturn (c :: line) := by
  unfold dropReturn
  split
  . next heq =>
    cases heq
    exact h
  . exact List.mem_cons_of_mem _ h

theorem exists_return_mem_of_mem (h : '\r' ∈ dropReturn line) : ∃ l ∈ lines.go line cs, '\r' ∈ l := by
  fun_induction lines.go line cs with
  | case1 => contradiction
  | case2 line _ =>
    exact ⟨line.reverse, List.mem_singleton_self _, List.mem_reverse.2 (mem_of_mem_dropReturn h)⟩
  | case3 line _ _ => exact ⟨_, List.mem_cons_self, List.mem_reverse.2 h⟩
  | case4 line c _ _ ih => exact ih (mem_dropReturn_cons (mem_of_mem_dropReturn h) c)

theorem exists_return_mem_lines_go (h : ¬ ReturnsPaired cs) : ∃ l ∈ lines.go line cs, '\r' ∈ l := by
  fun_induction lines.go line cs with
  | case1 => exact absurd trivial h
  | case2 => exact absurd trivial h
  | case3 line rest ih =>
    obtain ⟨l, hl, hreturn⟩ := ih (fun hrest => h ⟨nofun, hrest⟩)
    exact ⟨l, List.mem_cons_of_mem _ hl, hreturn⟩
  | case4 line c rest _ ih =>
    by_cases hrest : ReturnsPaired rest
    . have hlone : c = '\r' ∧ rest.head? ≠ some '\n' := by
        simpa [ReturnsPaired, hrest] using h
      obtain ⟨rfl, hhead⟩ := hlone
      cases rest with
      | nil => exact ⟨_, List.mem_singleton_self _, by simp⟩
      | cons c rest =>
        rw [lines.go, if_neg (by simpa using hhead)]
        exact exists_return_mem_of_mem (mem_dropReturn_cons List.mem_cons_self c)
    . exact ih hrest

theorem length_lines_go_le (line line' cs : List Char)
    : (lines.go line cs).length
        ≤ (terminatedLines.go line' cs).length + if line ≠ [] ∧ line' = [] then 1 else 0 := by
  -- At a lone carriage return one way starts a line and the other goes on with its own: that is the one to spare.
  fun_induction terminatedLines.go line' cs generalizing line with
  | case1 =>
    unfold lines.go
    split <;> simp [*]
  | case2 =>
    unfold lines.go
    split <;> simp
  | case3 line' rest ih =>
    have := ih []
    rw [lines_go_return]
    simp at this ⊢
    omega
  | case4 line' c rest _ hc ih =>
    unfold lines.go
    split
    . have := ih []
      simp at this ⊢
      omega
    . have := ih (c :: line)
      simp at this ⊢
      omega
  | case5 line' c rest _ hc ih =>
    have hfeed : c ≠ '\n' := by
      rintro rfl
      simp [isLineEnd] at hc
    have := ih (c :: line)
    rw [lines.go, if_neg hfeed]
    simpa using Nat.le_trans this (Nat.le_add_right _ _)

theorem map_trimLineEnd_eq_lines (h : ReturnsPaired s.toList)
    : (terminatedLines s).map trimLineEnd = lines s := by
  rw [map_trimLineEnd_terminatedLines, map_trimmed_go (by simp) h]
  rfl

/--
The lines that one way finds stand in a row among those of the other if and only if both find the
same.
-/
theorem isInfix_lines_iff
    : (terminatedLines s).map trimLineEnd <:+: lines s ↔ ReturnsPaired s.toList := by
  constructor
  . intro h
    rw [map_trimLineEnd_terminatedLines, lines] at h
    apply Classical.byContradiction
    intro hlone
    obtain ⟨l, hl, hreturn⟩ : ∃ l ∈ lines.go [] s.toList, '\r' ∈ l := exists_return_mem_lines_go hlone
    -- There are no more lines than tokens, so those in a row are all there are.
    have hlength := length_lines_go_le [] [] s.toList
    have heq := h.eq_of_length_le (by simpa using hlength)
    obtain ⟨l', hl', hll⟩ := List.mem_map.1 (heq ▸ List.mem_map_of_mem (f := String.ofList) hl)
    rw [String.ofList_injective hll] at hl'
    exact return_not_mem_trimmed_go (by simp) l hl' hreturn
  . intro h
    exact map_trimLineEnd_eq_lines h ▸ List.infix_rfl

end Text
end SharedWorkspace
