import Mathlib.Data.List.GetD
import SharedWorkspace.Proofs.Diff.Alike
import SharedWorkspace.Proofs.Diff.Hunks
import SharedWorkspace.Proofs.Text.Lines
import SharedWorkspace.Review.Matching

/-!
For which texts the diffs that were made from them match them again (`complete_ofContents_iff`). A hunk has
the lines of its text in a row, and it has none only if the text has none (`isInfix_of_mem_hunks`,
`linesOn_ne_nil_of_mem_hunks`); but the lines of a diff are cut in another way than those of a file.
-/

namespace SharedWorkspace

open Diff Hunk

variable {α β : Type} {xs ys : List String} {es : List Edit} {b b' : Block} {g g' bs : List Block}
variable {gs : List (List Block)} {c d : Cut} {k k' : Hunk} {n : Nat} {old new t : String}

namespace Hunk.Side

theorem texts_ne_nil_of_context {ls : List HunkLine} {l : HunkLine} (hl : l ∈ ls) (hk : l.kind = .context)
    (s : Side) : s.texts ls ≠ [] := by
  have hmem : l.text ∈ s.texts ls := by
    refine List.mem_map_of_mem (List.mem_filter.2 ⟨hl, ?_⟩)
    rw [hk]
    cases s <;> decide
  exact List.ne_nil_of_mem hmem

end Hunk.Side

namespace FileDiff

theorem exists_of_mem_forall₂ {R : α → β → Prop} {as : List α} {bs : List β} {a : α}
    (h : List.Forall₂ R as bs) (ha : a ∈ as) : ∃ b ∈ bs, R a b := by
  induction h with
  | nil => contradiction
  | cons hab _ ih =>
    rcases List.mem_cons.1 ha with rfl | ha
    . exact ⟨_, List.mem_cons_self, hab⟩
    . obtain ⟨b, hb, hab⟩ := ih ha
      exact ⟨b, List.mem_cons_of_mem _ hb, hab⟩

theorem lines_of_hunkOfGroup (h : hunkOfGroup? xs ys g = some k)
    : k.lines = g.flatMap (blockLines xs ys) := by
  cases g with
  | nil => contradiction
  | cons b g =>
    cases h
    rfl

theorem exists_context_mem_blockLines (hb : b.Fits xs ys) (hk : b.Keeps)
    : ∃ l ∈ blockLines xs ys b, l.kind = .context := by
  obtain ⟨hc, hpos⟩ := hk
  have hlength := length_slice hb.old
  obtain ⟨l, hl⟩ := List.exists_mem_of_length_pos (hlength ▸ hpos)
  refine ⟨⟨.context, Text.trimLineEnd l⟩, ?_, rfl⟩
  unfold blockLines
  rw [if_neg (by simp [hc])]
  exact List.mem_map_of_mem hl

def textLines (t : String) : List String :=
  (Text.terminatedLines t).map Text.trimLineEnd

section Traverses

variable {edits : List String → List String → List Edit}

theorem isInfix_of_mem_hunks
    (h : Traverses (Text.terminatedLines old) (Text.terminatedLines new)
      (edits (Text.terminatedLines old) (Text.terminatedLines new)))
    (s : Side) (hk : k ∈ hunksBy edits old new) : k.linesOn s <:+: textLines (s.choose old new) := by
  obtain ⟨bs, hbs, ht⟩ := h
  have hbridges := bridges_of_spread (Block.spread_groups contextLines ht) rfl
  -- The hunks that the blocks lead to are where they say.
  have hsame := map_lines_eq_of_alike (Text.terminatedLines old) (Text.terminatedLines new)
    (Block.forall₂_groups (n := contextLines) hbs)
  obtain ⟨k', hk', hlines⟩ := List.mem_map.1 (hsame ▸ List.mem_map_of_mem hk)
  have there : k'.linesOn s
      = slice (textLines (s.choose old new)) (k'.start s - 1) (k'.linesOn s).length := by
    cases s with
    | old => exact (hbridges.there k' hk').2
    | new => exact (hbridges.symm.there k' hk').2
  rw [linesOn_eq, ← hlines, ← linesOn_eq, there]
  exact (List.take_prefix _ _).isInfix.trans (List.drop_suffix _ _).isInfix

end Traverses

theorem context_or_whole (hk : k ∈ hunksBy compactScript old new)
    : (∃ l ∈ k.lines, l.kind = .context) ∨
        ∀ s : Side, k.linesOn s = textLines (s.choose old new) := by
  obtain ⟨g, hg, hgk⟩ := List.mem_filterMap.1 hk
  have hleads := leads_compactScript (Text.terminatedLines old) (Text.terminatedLines new)
  obtain ⟨bs, hbs, ht⟩ := hleads.traverses
  rcases (Block.spaced_ofScript hleads.length_pos).of_mem_groups (by decide) hg
    with ⟨b, hb, hkeeps⟩ | ⟨b, hb, rfl⟩
  . obtain ⟨g', hg', halike⟩ := exists_of_mem_forall₂ (Block.forall₂_groups hbs) hg
    obtain ⟨b', hb', hbb⟩ := exists_of_mem_forall₂ halike hb
    have hfits := (Block.spread_groups contextLines ht).fits g' hg' b' hb'
    rw [hbb.eq_of_kept hkeeps.1] at hfits
    obtain ⟨l, hl, hcontext⟩ := exists_context_mem_blockLines hfits hkeeps
    refine .inl ⟨l, ?_, hcontext⟩
    rw [lines_of_hunkOfGroup hgk]
    exact List.mem_flatMap.2 ⟨b, hb, hl⟩
  . -- The only block there is takes both texts whole.
    right
    obtain ⟨m, n, hstop, hold, hnew⟩ := exists_texts_tiles ht
    obtain ⟨hm, hn⟩ := Cut.mk.inj hstop
    have hlines := lines_of_hunkOfGroup hgk
    rw [← hb, ← flatMap_blockLines_eq hbs] at hlines
    intro s
    rw [linesOn_eq, hlines]
    cases s with
    | old =>
      rw [hold, slice_eq_drop hm.symm]
      rfl
    | new =>
      rw [hnew, slice_eq_drop hn.symm]
      rfl

theorem linesOn_ne_nil_of_mem_hunks (s : Side) (hk : k ∈ hunksBy compactScript old new)
    (hs : textLines (s.choose old new) ≠ []) : k.linesOn s ≠ [] := by
  rcases context_or_whole hk with ⟨l, hl, hcontext⟩ | hwhole
  . rw [linesOn_eq]
    exact s.texts_ne_nil_of_context hl hcontext
  . rw [hwhole s]
    exact hs

theorem linesOn_eq_of_other_nil (s : Side) (hk : k ∈ hunksBy compactScript old new)
    (hs : textLines (s.other.choose old new) = []) : k.linesOn s = textLines (s.choose old new) := by
  rcases context_or_whole hk with ⟨l, hl, hcontext⟩ | hwhole
  . have hnil := isInfix_of_mem_hunks (leads_compactScript _ _).traverses s.other hk
    rw [hs, List.infix_nil, linesOn_eq] at hnil
    exact absurd hnil (s.other.texts_ne_nil_of_context hl hcontext)
  . exact hwhole s

theorem exists_mem_hunks (h : old ≠ new) : ∃ k, k ∈ hunksBy compactScript old new := by
  apply List.exists_mem_of_ne_nil
  intro hnil
  apply h
  rw [← Text.terminatedLines_inj]
  exact (hunks_eq_nil_iff_of_sound (sound_compactScript _ _) contextLines).1 hnil

end FileDiff

namespace Matching

open FileDiff

def Complete (m : Matching) : Prop :=
  ∀ i < m.diff.hunks.length, m.isMatched i = true

theorem occursIn_iff (part lines : List String) : occursIn part lines = true ↔ part <:+: lines := by
  induction lines with
  | nil =>
    rw [occursIn, List.isEmpty_iff, List.infix_nil]
  | cons l lines ih =>
    rw [occursIn, Bool.or_eq_true, List.isPrefixOf_iff_prefix, ih, List.infix_cons_iff]

theorem hunkMatches_iff (k : Hunk) (lines : List String) (reversed present : Bool)
    : hunkMatches k lines reversed present = true ↔
        k.expectedLines reversed <:+: lines ∧
          (k.expectedLines reversed = [] → present = false ∨ lines = []) := by
  unfold hunkMatches
  dsimp only
  split
  . next h => simp [h]
  . next h => simp [h, occursIn_iff]

theorem complete_againstContents_iff (d : FileDiff) (reversed : Bool) (contents : Option String)
    : (againstContents d reversed contents).Complete ↔
        ∀ k ∈ d.hunks,
          hunkMatches k ((contents.map Text.lines).getD []) reversed contents.isSome = true := by
  unfold Complete isMatched againstContents ofFlags
  rw [List.forall_mem_iff_getElem]
  apply forall₂_congr
  intro i hi
  rw [List.getD_eq_getElem _ _ (by simpa using hi), List.getElem_map]

def side (reversed : Bool) : Side :=
  if reversed then .new else .old

theorem expectedLines_eq (k : Hunk) (reversed : Bool)
    : k.expectedLines reversed = k.linesOn (side reversed) := by
  cases reversed <;> rfl

theorem lines_getD (contents : Option String)
    : (contents.map Text.lines).getD [] = Text.lines (contents.getD "") := by
  cases contents <;> rfl

theorem choose_getD (s : Side) (old new : Option String)
    : s.choose (old.getD "") (new.getD "") = (s.choose old new).getD "" := by
  cases s <;> rfl

def again (p : Path) (reversed : Bool) (old new : Option String) : Matching :=
  againstContents (.ofContents p old new) reversed ((side reversed).choose old new)

theorem complete_again (p : Path) (reversed : Bool) (old new : Option String)
    (h : Text.ReturnsPaired (((side reversed).choose old new).getD "").toList)
    : (again p reversed old new).Complete := by
  unfold again
  rw [complete_againstContents_iff, lines_getD, ← Text.map_trimLineEnd_eq_lines h]
  intro k hk
  have hpart := isInfix_of_mem_hunks (leads_compactScript _ _).traverses (side reversed) hk
  have hne := linesOn_ne_nil_of_mem_hunks (side reversed) hk
  rw [choose_getD] at hpart hne
  rw [hunkMatches_iff, expectedLines_eq]
  refine ⟨hpart, fun hnil => .inr ?_⟩
  exact Classical.byContradiction fun hs => hne hs hnil

theorem not_complete_again (p : Path) (reversed : Bool) (old new : Option String)
    (h : ¬ Text.ReturnsPaired (((side reversed).choose old new).getD "").toList)
    (hother : (side reversed).other.choose old new = none) : ¬ (again p reversed old new).Complete := by
  have hother' : (side reversed).other.choose (old.getD "") (new.getD "") = "" := by
    rw [choose_getD, hother]
    rfl
  have hne : old.getD "" ≠ new.getD "" := by
    intro heq
    have hboth : (side reversed).choose (old.getD "") (new.getD "")
        = (side reversed).other.choose (old.getD "") (new.getD "") := by
      rw [heq]
      cases side reversed <;> rfl
    rw [← choose_getD, hboth, hother'] at h
    exact h trivial
  -- There is nothing on the other side, so the hunk expects every line that a diff finds in the text.
  obtain ⟨k, hk⟩ := exists_mem_hunks hne
  have hwhole := linesOn_eq_of_other_nil (side reversed) hk (by rw [hother']; rfl)
  unfold again
  rw [complete_againstContents_iff, lines_getD]
  intro hall
  obtain ⟨hpart, _⟩ := (hunkMatches_iff ..).1 (hall k hk)
  rw [expectedLines_eq, hwhole, choose_getD] at hpart
  exact h (Text.isInfix_lines_iff.1 hpart)

/--
A text is matched by all the diffs that were made from it, and likewise by all that were made to it once they
are to be taken back, if and only if every carriage return in it stands before a line feed.
-/
theorem complete_ofContents_iff (p : Path) (t : Option String)
    : ((∀ new, (againstContents (.ofContents p t new) false t).Complete)
          ↔ Text.ReturnsPaired (t.getD "").toList) ∧
        ((∀ old, (againstContents (.ofContents p old t) true t).Complete)
          ↔ Text.ReturnsPaired (t.getD "").toList) := by
  refine ⟨⟨fun h => ?_, fun h new => ?_⟩, ⟨fun h => ?_, fun h old => ?_⟩⟩
  . exact Classical.byContradiction fun hlone =>
      not_complete_again p false t none hlone rfl (h none)
  . exact complete_again p false t new h
  . exact Classical.byContradiction fun hlone =>
      not_complete_again p true none t hlone rfl (h none)
  . exact complete_again p true old t h

theorem not_complete_lone_return
    : ¬ (againstContents (.ofContents ⟨"lone.txt"⟩ (some "a\rb") (some "c")) false
          (some "a\rb")).Complete := by
  -- The hunk expects two lines where the file has one.
  rw [complete_againstContents_iff]
  have hfound : Diff.script 0 0 (Text.terminatedLines "a\rb") (Text.terminatedLines "c")
      = [.delete 0 2 0, .insert 2 0 1] := by
    decide +kernel
  have hhunks : (FileDiff.ofContents ⟨"lone.txt"⟩ (some "a\rb") (some "c")).hunks
      = [⟨1, 1, [⟨.removed, "a"⟩, ⟨.removed, "b"⟩, ⟨.added, "c"⟩]⟩] := by
    rw [FileDiff.hunks_ofContents_some hfound]
    cbv
  rw [hhunks]
  decide

end Matching
end SharedWorkspace
