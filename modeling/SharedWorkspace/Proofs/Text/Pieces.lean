import SharedWorkspace.Text.Split

/-!
Cutting a text and joining pieces undo one another, if no piece has the separator in it (`joined_pieces`,
`pieces_joined`). The segments of a text are its pieces, with the difference that the empty text has none: so
every list of segments that are not empty is that of a single text (`segments_joined`).
-/

namespace SharedWorkspace
namespace Text

variable {sep : Char} {s t p : String} {ps qs : List String}

theorem joined_pieces (sep : Char) (s : String) : joined sep (pieces sep s) = s := by
  unfold joined pieces
  simp [Function.comp_def, List.intercalate_splitOn]

theorem pieces_joined (hne : ps ≠ []) (h : ∀ s ∈ ps, sep ∉ s.toList)
    : pieces sep (joined sep ps) = ps := by
  have hsep : ∀ cs ∈ ps.map String.toList, sep ∉ cs := by
    intro cs hcs
    obtain ⟨s, hs, rfl⟩ := List.mem_map.1 hcs
    exact h s hs
  unfold pieces joined
  rw [String.toList_ofList, List.splitOn_intercalate _ hsep (by simpa using hne), List.map_map]
  simp [Function.comp_def]

theorem not_mem_of_mem_splitOn {cs ds : List Char} (h : ds ∈ cs.splitOn sep) : sep ∉ ds := by
  induction cs generalizing ds with
  | nil =>
    rw [List.splitOn_eq_singleton List.not_mem_nil, List.mem_singleton] at h
    rw [h]
    exact List.not_mem_nil
  | cons c cs ih =>
    rw [List.splitOn_cons_eq_if_modifyHead] at h
    split at h
    . rcases List.mem_cons.1 h with rfl | h
      . exact List.not_mem_nil
      . exact ih h
    . next hc =>
      obtain ⟨es, rest, heq⟩ := List.exists_cons_of_ne_nil (List.splitOn_ne_nil sep cs)
      rw [heq, List.modifyHead_cons] at h
      rcases List.mem_cons.1 h with rfl | h
      . have hne : sep ≠ c := fun heq => hc (by simp [heq])
        have hes : sep ∉ es := ih (heq ▸ List.mem_cons_self)
        simp [hne, hes]
      . exact ih (heq ▸ List.mem_cons_of_mem _ h)

theorem not_mem_of_mem_pieces (h : p ∈ pieces sep s) : sep ∉ p.toList := by
  obtain ⟨cs, hcs, rfl⟩ := List.mem_map.1 h
  rw [String.toList_ofList]
  exact not_mem_of_mem_splitOn hcs

theorem pieces_ne_nil (sep : Char) (s : String) : pieces sep s ≠ [] := by
  simp [pieces, List.splitOn_ne_nil]

@[simp]
theorem pieces_empty (sep : Char) : pieces sep "" = [""] := rfl

theorem pieces_of_not_mem (h : sep ∉ s.toList) : pieces sep s = [s] := by
  rw [pieces, List.splitOn_eq_singleton h, List.map_singleton, String.ofList_toList]

theorem pieces_append {cs ds : List Char} (hs : s.toList = cs ++ sep :: ds)
    : pieces sep s = pieces sep (String.ofList cs) ++ pieces sep (String.ofList ds) := by
  unfold pieces
  rw [hs, List.splitOn_append_cons_self, List.map_append, String.toList_ofList, String.toList_ofList]

def segments (sep : Char) (s : String) : List String :=
  if s = "" then [] else pieces sep s

@[simp]
theorem segments_empty (sep : Char) : segments sep "" = [] := rfl

theorem segments_of_ne (h : s ≠ "") : segments sep s = pieces sep s :=
  if_neg h

@[simp]
theorem joined_nil (sep : Char) : joined sep [] = "" := rfl

theorem joined_segments (sep : Char) (s : String) : joined sep (segments sep s) = s := by
  unfold segments
  split
  . next h => rw [h, joined_nil]
  . exact joined_pieces sep s

theorem segments_inj : segments sep s = segments sep t ↔ s = t := by
  constructor
  . intro h
    rw [← joined_segments sep s, h, joined_segments]
  . exact congrArg _

theorem segments_eq_nil_iff : segments sep s = [] ↔ s = "" := by
  rw [← segments_empty sep, segments_inj]

theorem not_mem_of_mem_segments (h : p ∈ segments sep s) : sep ∉ p.toList := by
  unfold segments at h
  split at h
  . contradiction
  . exact not_mem_of_mem_pieces h

theorem joined_ne_empty (hne : ps ≠ []) (h : ∀ p ∈ ps, p ≠ "" ∧ sep ∉ p.toList) : joined sep ps ≠ "" := by
  intro hempty
  have hpieces := pieces_joined hne fun p hp => (h p hp).2
  rw [hempty, pieces_empty] at hpieces
  exact (h "" (hpieces ▸ List.mem_singleton_self _)).1 rfl

theorem segments_joined (h : ∀ p ∈ ps, p ≠ "" ∧ sep ∉ p.toList) : segments sep (joined sep ps) = ps := by
  by_cases hne : ps = []
  . rw [hne, joined_nil, segments_empty]
  . rw [segments_of_ne (joined_ne_empty hne h), pieces_joined hne fun p hp => (h p hp).2]

theorem segments_append {cs ds : List Char} (hs : s.toList = cs ++ sep :: ds)
    : segments sep s = pieces sep (String.ofList cs) ++ pieces sep (String.ofList ds) := by
  rw [segments_of_ne, pieces_append hs]
  rintro rfl
  simp at hs

theorem joined_eq_intercalate (sep : Char) (ps : List String)
    : joined sep ps = (String.singleton sep).intercalate ps := by
  rw [← String.toList_inj, joined, String.toList_ofList, String.toList_intercalate, String.toList_singleton]

theorem joined_eq (ps : List String) : joined '/' ps = "/".intercalate ps :=
  joined_eq_intercalate '/' ps

theorem toList_joined_append (hp : ps ≠ []) (hq : qs ≠ [])
    : (joined sep (ps ++ qs)).toList = (joined sep ps).toList ++ sep :: (joined sep qs).toList := by
  simp only [joined_eq_intercalate, String.intercalate_append_of_ne_nil hp hq, String.toList_append,
    String.toList_singleton, List.append_assoc, List.singleton_append]

end Text
end SharedWorkspace
