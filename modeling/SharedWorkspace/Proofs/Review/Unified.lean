import SharedWorkspace.Proofs.Review.Matching
import SharedWorkspace.Proofs.Text.Pieces
import SharedWorkspace.Review.Basic

/-!
The unified form of a hunk, from which the hunk can be told: where it starts, and each of its lines with its
kind (`unified_determines`). All that is needed is that no line has a line feed in it, and none has in the
hunks of a diff.
-/

namespace SharedWorkspace

namespace Text

variable {m n : Nat} {c : Char} {xs ys : List Char} {ls : List String}

theorem digits_append_inj (hc : c.isDigit = false) (h : digits m ++ c :: xs = digits n ++ c :: ys)
    : m = n ∧ xs = ys := by
  have htake : ∀ k zs, (digits k ++ c :: zs).takeWhile Char.isDigit = digits k := by
    intro k zs
    rw [List.takeWhile_append_of_pos fun _ => isDigit_of_mem_digits,
      List.takeWhile_cons_of_neg (by simp [hc]), List.append_nil]
  have hdigits := congrArg (List.takeWhile Char.isDigit) h
  rw [htake, htake] at hdigits
  rw [hdigits] at h
  exact ⟨digits_injective hdigits, (List.cons.inj (List.append_cancel_left h)).2⟩

theorem pieces_flatMap (h : ∀ l ∈ ls, '\n' ∉ l.toList)
    : pieces '\n' (String.ofList (ls.flatMap fun l => l.toList ++ ['\n'])) = ls ++ [""] := by
  induction ls with
  | nil => rfl
  | cons l ls ih =>
    obtain ⟨hl, hls⟩ := List.forall_mem_cons.1 h
    have hs : (String.ofList ((l :: ls).flatMap fun l => l.toList ++ ['\n'])).toList
        = l.toList ++ '\n' :: ls.flatMap fun l => l.toList ++ ['\n'] := by
      simp
    rw [pieces_append hs, String.ofList_toList, pieces_of_not_mem hl, ih hls]
    rfl

end Text

namespace Hunk

def IsCut (h : Hunk) : Prop :=
  ∀ l ∈ h.lines, '\n' ∉ l.text.toList

def signed (l : HunkLine) : String :=
  String.ofList (l.kind.sign :: l.text.toList)

def headerLine (h : Hunk) (old new : Nat) : String :=
  String.ofList
    ("@@ -".toList ++ rangeText h.oldStart old ++ " +".toList ++ rangeText h.newStart new ++ " @@".toList)

def countSigned (signs : List Char) (ls : List String) : Nat :=
  ls.countP fun l => l.toList.head?.any (· ∈ signs)

structure Layout (h : Hunk) (body : List String) : Prop where
  lines : Text.pieces '\n' h.unified
      =
    h.headerLine (countSigned [' ', '-'] body) (countSigned [' ', '+'] body) :: body ++ [""]
  body : body = h.lines.map signed

variable {h k : Hunk} {l : HunkLine} {m n m' n' : Nat}

theorem countSigned_signed (signs : List Char) (ls : List HunkLine)
    : countSigned signs (ls.map signed) = (ls.filter fun l => l.kind.sign ∈ signs).length := by
  unfold countSigned
  rw [List.countP_map, List.countP_eq_length_filter]
  congr 2
  funext l
  simp [signed]

theorem length_linesExcept (h : Hunk) (signs : List Char) (k : LineKind)
    (hk : ∀ k', k'.sign ∈ signs ↔ k' ≠ k)
    : (h.linesExcept k).length = countSigned signs (h.lines.map signed) := by
  rw [countSigned_signed, linesExcept, List.length_map]
  simp only [hk]

theorem unified_eq (h : Hunk)
    : h.unified
        =
      String.ofList ((h.headerLine h.oldLines.length h.newLines.length :: h.lines.map signed).flatMap
        fun l => l.toList ++ ['\n']) := by
  have hend : " @@\n".toList = " @@".toList ++ ['\n'] := rfl
  unfold unified header headerLine
  rw [hend, List.flatMap_cons, String.toList_ofList, List.flatMap_map]
  congr 1
  simp [signed]
  rfl

theorem feed_not_mem_rangeText (start length : Nat) : '\n' ∉ rangeText start length := by
  have hdigits : ∀ n, '\n' ∉ Text.digits n := by
    intro n hn
    have := Text.isDigit_of_mem_digits hn
    contradiction
  unfold rangeText
  simp [hdigits]

theorem feed_not_mem_headerLine (h : Hunk) (old new : Nat) : '\n' ∉ (h.headerLine old new).toList := by
  unfold headerLine
  simp [feed_not_mem_rangeText]

theorem IsCut.layout (hcut : h.IsCut) : h.Layout (h.lines.map signed) where
  lines := by
    have hold := length_linesExcept h [' ', '-'] .added (by rintro (_ | _ | _) <;> decide)
    have hnew := length_linesExcept h [' ', '+'] .removed (by rintro (_ | _ | _) <;> decide)
    rw [← hold, ← hnew, unified_eq, Text.pieces_flatMap]
    . rfl
    . refine List.forall_mem_cons.2 ⟨feed_not_mem_headerLine h _ _, ?_⟩
      intro l hl
      obtain ⟨l, hmem, rfl⟩ := List.mem_map.1 hl
      have hsign : '\n' ≠ l.kind.sign := by
        cases l.kind <;> decide
      simpa [signed, hsign] using hcut l hmem
  body := rfl

theorem signed_injective : Function.Injective signed := by
  intro l l' heq
  have hsign : ∀ k k' : LineKind, k.sign = k'.sign → k = k' := by
    rintro (_ | _ | _) (_ | _ | _) <;> decide
  obtain ⟨hkind, htext⟩ := List.cons.inj (String.ofList_injective heq)
  cases l
  cases l'
  rw [HunkLine.mk.injEq]
  exact ⟨hsign _ _ hkind, String.toList_inj.1 htext⟩

theorem starts_eq_of_headerLine (heq : h.headerLine m n = k.headerLine m n)
    : h.oldStart = k.oldStart ∧ h.newStart = k.newStart := by
  have hchars := String.ofList_injective heq
  unfold rangeText at hchars
  simp only [List.append_assoc, List.cons_append] at hchars
  obtain ⟨hold, hrest⟩ := Text.digits_append_inj (by decide) (List.append_cancel_left hchars)
  have hrest := List.append_cancel_left (List.append_cancel_left hrest)
  obtain ⟨hnew, _⟩ := Text.digits_append_inj (by decide) hrest
  exact ⟨hold, hnew⟩

theorem unified_inj (hh : h.IsCut) (hk : k.IsCut) (heq : h.unified = k.unified) : h = k := by
  have hpieces := hh.layout.lines.symm.trans ((congrArg _ heq).trans hk.layout.lines)
  obtain ⟨hheader, hrest⟩ := List.cons.inj hpieces
  have hbody : h.lines.map signed = k.lines.map signed := List.append_cancel_right hrest
  rw [hbody] at hheader
  obtain ⟨hold, hnew⟩ := starts_eq_of_headerLine hheader
  have hlines : h.lines = k.lines := List.map_injective_iff.2 signed_injective hbody
  cases h
  cases k
  rw [Hunk.mk.injEq]
  exact ⟨hold, hnew, hlines⟩

end Hunk

namespace FileDiff

variable {xs ys : List String} {l : HunkLine} {k : Hunk}

theorem exists_trimLineEnd_of_mem_blockLines {b : Block} (h : l ∈ blockLines xs ys b)
    : ∃ t, (t ∈ xs ∨ t ∈ ys) ∧ l.text = Text.trimLineEnd t := by
  have htexts : ∀ (kind : LineKind) (ls : List String) (i n : Nat),
      l ∈ (Diff.slice ls i n).map (fun t => ⟨kind, Text.trimLineEnd t⟩) →
        ∃ t ∈ ls, l.text = Text.trimLineEnd t := by
    intro kind ls i n hl
    obtain ⟨t, ht, rfl⟩ := List.mem_map.1 hl
    exact ⟨t, List.mem_of_mem_drop (List.mem_of_mem_take ht), rfl⟩
  unfold blockLines at h
  dsimp only at h
  split at h
  . rcases List.mem_append.1 h with h | h
    . obtain ⟨t, ht, hl⟩ := htexts _ _ _ _ h
      exact ⟨t, .inl ht, hl⟩
    . obtain ⟨t, ht, hl⟩ := htexts _ _ _ _ h
      exact ⟨t, .inr ht, hl⟩
  . obtain ⟨t, ht, hl⟩ := htexts _ _ _ _ h
    exact ⟨t, .inl ht, hl⟩

theorem isCut_of_mem_hunks {edits : List String → List String → List Edit} {old new : String}
    (h : k ∈ hunksBy edits old new) : k.IsCut := by
  obtain ⟨g, _, hg⟩ := List.mem_filterMap.1 h
  intro l hl
  rw [lines_of_hunkOfGroup hg] at hl
  obtain ⟨b, _, hb⟩ := List.mem_flatMap.1 hl
  obtain ⟨t, ht | ht, htext⟩ := exists_trimLineEnd_of_mem_blockLines hb
  . exact htext ▸ Text.feed_not_mem_trimLineEnd ht
  . exact htext ▸ Text.feed_not_mem_trimLineEnd ht

end FileDiff

def Hunk.IsBuilt (h : Hunk) : Prop :=
  ∃ p old new, h ∈ (FileDiff.ofContents p old new).hunks

theorem Hunk.IsBuilt.isCut {h : Hunk} : h.IsBuilt → h.IsCut := by
  rintro ⟨_, _, _, hmem⟩
  exact FileDiff.isCut_of_mem_hunks hmem

def Review.seed (r : Review) (h : Hunk) : Option String :=
  let (id, r) := r.addEditor h
  (r.editors.find? id).map Editor.text

theorem Review.seed_eq (r : Review) (h : Hunk) : r.seed h = some h.unified := by
  unfold seed addEditor
  dsimp only
  rw [OrderedMap.find?_insert_self]
  rfl

/--
The unified form of a hunk determines the hunk, if no line of it has a line feed in it; then it is cut at the
line feeds into the header, which tells how many of the other lines there are, and one line for each. The hunks
of a diff are all of this kind, so they can be told from the text that an editor for them starts with.
-/
theorem Hunk.unified_determines
    : (∀ h k : Hunk, h.IsCut → k.IsCut → h.unified = k.unified → h = k) ∧
        (∀ h : Hunk, h.IsCut → ∃ body, h.Layout body) ∧
        (∀ h : Hunk, h.IsBuilt → h.IsCut) ∧
        ∀ (r s : Review) (h k : Hunk), h.IsBuilt → k.IsBuilt →
          (r.seed h).isSome ∧ (r.seed h = s.seed k → h = k) := by
  refine ⟨fun _ _ => unified_inj, fun _ hcut => ⟨_, hcut.layout⟩, fun _ => IsBuilt.isCut, ?_⟩
  intro r s h k hh hk
  rw [Review.seed_eq, Review.seed_eq, Option.some_inj]
  exact ⟨rfl, unified_inj hh.isCut hk.isCut⟩

/--
Lines that look like a header and, with a carriage return, like one of another kind, and an empty
one.
-/
theorem Hunk.unified_determines_disguised
    : let h : Hunk := ⟨7, 7, [⟨.context, "@@ -1,1 +1,1 @@"⟩, ⟨.removed, "+\r𝄞"⟩, ⟨.added, ""⟩]⟩
      let k : Hunk := ⟨7, 7, [⟨.context, "@@ -1,1 +1,1 @@"⟩, ⟨.added, "\r𝄞"⟩, ⟨.added, ""⟩]⟩
      h.IsCut ∧ k.IsCut ∧ h.unified = "@@ -7,2 +7,2 @@\n @@ -1,1 +1,1 @@\n-+\r𝄞\n+\n" ∧
        h.unified ≠ k.unified ∧ (∃ body, h.Layout body) ∧
        ∀ b ∈ (FileDiff.ofContents ⟨"notes.txt"⟩ (some "a\r\nb") (some "a\rb")).hunks, b.IsCut := by
  intro h k
  obtain ⟨hinj, hlayout, hbuilt, _⟩ := unified_determines
  have hh : h.IsCut := by
    unfold IsCut
    decide +kernel
  have hk : k.IsCut := by
    unfold IsCut
    decide +kernel
  refine ⟨hh, hk, by decide +kernel, ?_, hlayout h hh, fun b hb => hbuilt b ⟨_, _, _, hb⟩⟩
  intro heq
  exact absurd (hinj h k hh hk heq) (by decide +kernel)

end SharedWorkspace
