import SharedWorkspace.Proofs.Review.Matching
import SharedWorkspace.Review.Basic

/-!
How a diff is classified that nobody has touched since it was made: by the side that it starts from
(`classify?_fresh`). The point is that texts that differ have a hunk that matches (`hasMatches_again_iff`). A
hunk with no lines on that side matches only where there are none, but then not all hunks are like that
(`exists_linesOn_ne_nil`).
-/

namespace SharedWorkspace

open Diff Hunk

namespace Block

variable {xs ys : List String} {bs : List Block} {b : Block} {c d : Cut} {s : Side} {n : Nat}

theorem takes_iff_keeps (hb : b.Fits xs ys) (hc : b.changed = false) : b.Takes s ↔ b.Keeps := by
  have hlength := (hb.same hc).1
  unfold Takes Keeps Side.choose
  cases s <;> simp [hc, hlength, Nat.pos_iff_ne_zero]

theorem Tiles.choose_eq (h : Tiles xs ys c bs d) (hbs : ∀ b ∈ bs, ¬ b.Takes s)
    : s.choose d.old d.new = s.choose c.old c.new := by
  induction h with
  | nil => rfl
  | @cons b _ _ _ hs _ _ ih =>
    obtain ⟨hb, hbs⟩ := List.forall_mem_cons.1 hbs
    have hzero : s.choose b.oldLength b.newLength = 0 := Decidable.not_not.1 hb
    rw [ih hbs, ← hs]
    cases s with
    | old => exact congrArg (b.oldStart + ·) hzero
    | new => exact congrArg (b.newStart + ·) hzero

theorem exists_takes_mem_groups {a : Block} (h : Tiles xs ys c bs d) (hn : 0 < n) (ha : a.changed = true)
    (hmem : a ∈ bs) (hb : b ∈ bs) (ht : b.Takes s) : ∃ g ∈ groups n bs, ∃ b ∈ g, b.Takes s := by
  cases hc : b.changed with
  | true =>
    obtain ⟨g, hg, hbg⟩ := exists_mem_groups hb hc
    exact ⟨g, hg, b, hbg, ht⟩
  | false =>
    -- What is kept may be left out, but not all of it.
    have hkeeps := (takes_iff_keeps (h.fits b hb) hc).1 ht
    obtain ⟨g, hg, k, hk, hkeeps⟩ := exists_keeps_mem_groups hn hkeeps hb ha hmem
    have hfits := (spread_groups n h).fits g hg k hk
    exact ⟨g, hg, k, hk, (takes_iff_keeps hfits hkeeps.1).2 hkeeps⟩

end Block

namespace FileDiff

variable {xs ys : List String} {b : Block} {g : List Block} {gs : List (List Block)} {s : Side}
variable {old new : String}

theorem texts_flatMap_ne_nil (hb : b ∈ g) (h : s.texts (blockLines xs ys b) ≠ [])
    : s.texts (g.flatMap (blockLines xs ys)) ≠ [] := by
  obtain ⟨before, after, rfl⟩ := List.append_of_mem hb
  rw [List.flatMap_append, List.flatMap_cons, Side.texts_append, Side.texts_append]
  simp [h]

theorem flatMap_blockLines_mem (xs ys : List String) (hg : g ∈ gs) (hb : b ∈ g)
    : g.flatMap (blockLines xs ys) ∈ (gs.filterMap (hunkOfGroup? xs ys)).map Hunk.lines := by
  cases g with
  | nil => contradiction
  | cons b' g => exact List.mem_map.2 ⟨_, List.mem_filterMap.2 ⟨_, hg, rfl⟩, rfl⟩

variable {edits : List String → List String → List Edit}

theorem exists_linesOn_ne_nil
    (h : Traverses (Text.terminatedLines old) (Text.terminatedLines new)
      (edits (Text.terminatedLines old) (Text.terminatedLines new)))
    (hne : old ≠ new) (hs : textLines (s.choose old new) ≠ [])
    : ∃ k ∈ hunksBy edits old new, k.linesOn s ≠ [] := by
  obtain ⟨bs, hbs, ht⟩ := h
  have hchanged : ∃ a ∈ bs, a.changed = true := by
    apply Classical.byContradiction
    intro hall
    apply hne
    rw [← Text.terminatedLines_inj]
    exact (ht.kept fun b hb => by simpa using fun hc => hall ⟨b, hb, hc⟩).eq_of_ends
  have htakes : ∃ b ∈ bs, b.Takes s := by
    apply Classical.byContradiction
    intro hall
    have hlength := ht.choose_eq (s := s) fun b hb htakes => hall ⟨b, hb, htakes⟩
    apply hs
    cases s with
    | old => exact congrArg _ (List.eq_nil_of_length_eq_zero hlength)
    | new => exact congrArg _ (List.eq_nil_of_length_eq_zero hlength)
  obtain ⟨a, hmem, ha⟩ := hchanged
  obtain ⟨b, hb, htakes⟩ := htakes
  obtain ⟨g, hg, b, hb, htakes⟩ :=
    Block.exists_takes_mem_groups (n := contextLines) ht (by decide) ha hmem hb htakes
  have hfits := (Block.spread_groups contextLines ht).fits g hg b hb
  have htexts := texts_flatMap_ne_nil hb ((texts_blockLines_ne_nil_iff hfits s).2 htakes)
  -- The hunk of the script has the same lines as that of the group.
  have hk := flatMap_blockLines_mem (Text.terminatedLines old) (Text.terminatedLines new) hg hb
  rw [map_lines_eq_of_alike _ _ (Block.forall₂_groups hbs)] at hk
  obtain ⟨k, hk, hlines⟩ := List.mem_map.1 hk
  refine ⟨k, hk, ?_⟩
  rw [linesOn_eq, hlines]
  exact htexts

end FileDiff

namespace Matching

open FileDiff

variable {edits : List String → List String → List Edit} {old new : Option String}

theorem hasMatches_againstContents_iff (d : FileDiff) (reversed : Bool) (contents : Option String)
    : (againstContents d reversed contents).hasMatches = true ↔
        ∃ k ∈ d.hunks,
          hunkMatches k ((contents.map Text.lines).getD []) reversed contents.isSome = true := by
  unfold hasMatches count againstContents ofFlags
  rw [decide_eq_true_iff, List.count_pos_iff, List.mem_map]

theorem hasMatches_again_iff
    (h : Sound (Text.terminatedLines (old.getD "")) (Text.terminatedLines (new.getD ""))
      (edits (Text.terminatedLines (old.getD "")) (Text.terminatedLines (new.getD ""))))
    (p : Path) (reversed : Bool)
    (hpaired : Text.ReturnsPaired (((side reversed).choose old new).getD "").toList)
    : (againstContents (ofContentsBy edits p old new) reversed
          ((side reversed).choose old new)).hasMatches = true ↔ old.getD "" ≠ new.getD "" := by
  rw [hasMatches_againstContents_iff, lines_getD, ← Text.map_trimLineEnd_eq_lines hpaired]
  constructor
  . rintro ⟨k, hk, -⟩ heq
    have hnil := (hunks_eq_nil_iff_of_sound h contextLines).2 (congrArg _ heq)
    exact List.ne_nil_of_mem hk hnil
  . intro hne
    have hpart : ∀ k ∈ hunksBy edits (old.getD "") (new.getD ""),
        k.linesOn (side reversed) <:+: textLines (((side reversed).choose old new).getD "") := by
      intro k hk
      rw [← choose_getD]
      exact isInfix_of_mem_hunks h.traverses _ hk
    by_cases hs : textLines (((side reversed).choose old new).getD "") = []
    . obtain ⟨k, hk⟩ := List.exists_mem_of_ne_nil _ fun hnil =>
        hne (Text.terminatedLines_inj.1 ((hunks_eq_nil_iff_of_sound h contextLines).1 hnil))
      refine ⟨k, hk, ?_⟩
      rw [hunkMatches_iff, expectedLines_eq]
      exact ⟨hpart k hk, fun _ => .inr hs⟩
    . have hs' : textLines ((side reversed).choose (old.getD "") (new.getD "")) ≠ [] := by
        rwa [choose_getD]
      obtain ⟨k, hk, hlines⟩ := exists_linesOn_ne_nil h.traverses hne hs'
      refine ⟨k, hk, ?_⟩
      rw [hunkMatches_iff, expectedLines_eq]
      exact ⟨hpart k hk, fun hnil => absurd hnil hlines⟩

theorem classify_of_not_cached {m : Matching} {c : EditCache} (h : c.hasCached m.diff = false)
    : m.classify c = ⟨m.baseKind, .ofReversed m.reversed⟩ := by
  unfold classify
  simp [h]

theorem classify_again
    (h : Sound (Text.terminatedLines (old.getD "")) (Text.terminatedLines (new.getD ""))
      (edits (Text.terminatedLines (old.getD "")) (Text.terminatedLines (new.getD ""))))
    (p : Path) (reversed : Bool)
    (hpaired : Text.ReturnsPaired (((side reversed).choose old new).getD "").toList) {c : EditCache}
    (hc : c.hasCached (ofContentsBy edits p old new) = false)
    : (againstContents (ofContentsBy edits p old new) reversed ((side reversed).choose old new)).classify c
        =
      ⟨if old.getD "" = new.getD "" then .noChange
        else .ofType ((ofContentsBy edits p old new).type reversed), .ofReversed reversed⟩ := by
  have hmatches := hasMatches_again_iff h p reversed hpaired
  rw [classify_of_not_cached hc, baseKind]
  congr 1
  split
  . next hm =>
    rw [if_neg (hmatches.1 hm)]
    rfl
  . next hm => rw [if_pos (Classical.not_not.1 fun hne => hm (hmatches.2 hne))]

end Matching

theorem Text.returnsPaired_of_not_mem {cs : List Char} (h : '\r' ∉ cs) : Text.ReturnsPaired cs := by
  induction cs with
  | nil => trivial
  | cons c cs ih =>
    obtain ⟨hc, hcs⟩ := not_or.1 fun hmem => h (List.mem_cons.2 hmem)
    exact ⟨fun heq => absurd heq.symm hc, ih hcs⟩

namespace Review

open FileDiff Matching

/--
Whatever finds a sound script for the lines of two texts without carriage returns, and as long as nothing is
kept that was edited by hand: a node for their diff that was matched with the old text, and one that was
matched with the new text to take the diff back, are without change if and only if the texts are the same, and
otherwise tell what becomes of the file.
-/
theorem classify?_again (edits : List String → List String → List Edit) (p : Path)
    (old new : Option String)
    (h : Sound (Text.terminatedLines (old.getD "")) (Text.terminatedLines (new.getD ""))
      (edits (Text.terminatedLines (old.getD "")) (Text.terminatedLines (new.getD ""))))
    (hold : '\r' ∉ (old.getD "").toList) (hnew : '\r' ∉ (new.getD "").toList) (r : Review)
    (hr : r.cache.hasCached (ofContentsBy edits p old new) = false)
    : let d := ofContentsBy edits p old new
      ∀ id n, r.nodes.find? id = some n →
        (n.matching = againstContents d false old →
          r.classify? id = some ⟨
            if old.getD "" = new.getD "" then .noChange
            else if old = none then .addition
            else if new = none then .deletion
            else .change, .incoming⟩) ∧
          (n.matching = againstContents d true new →
            r.classify? id = some ⟨
              if old.getD "" = new.getD "" then .noChange
              else if old = none then .deletion
              else if new = none then .addition
              else .change, .outgoing⟩) := by
  intro d id n hn
  have hnode : r.classify? id = some (n.matching.classify r.cache) := by
    unfold classify?
    rw [hn]
    rfl
  constructor
  . intro hm
    have hclass := classify_again h p false (Text.returnsPaired_of_not_mem hold) hr
    rw [hnode, hm]
    refine congrArg some (hclass.trans ?_)
    cases old <;> cases new <;> rfl
  . intro hm
    have hclass := classify_again h p true (Text.returnsPaired_of_not_mem hnew) hr
    rw [hnode, hm]
    refine congrArg some (hclass.trans ?_)
    cases old <;> cases new <;> rfl

/--
A file goes away, and comes back when the diff is taken back. Contents of another file are kept.
-/
theorem classify?_again_poem
    : let d := FileDiff.ofContents ⟨"poem.txt"⟩ (some "roses\nare\nred\n") none
      let kept : EditCache := ({} : EditCache).cache (.opaqueAt ⟨"other.txt"⟩) "violets"
      let start : Review := { cache := kept }
      let r := ((start.addNode (againstContents d false (some "roses\nare\nred\n"))).2.addNode
        (againstContents d true none)).2
      r.cache.hasCached d = false ∧
        r.classify? 0 = some ⟨.deletion, .incoming⟩ ∧
        r.classify? 1 = some ⟨.addition, .outgoing⟩ := by
  intro d kept start r
  have hr : r.cache.hasCached d = false := by
    decide +kernel
  have h := classify?_again compactScript ⟨"poem.txt"⟩ (some "roses\nare\nred\n") none
    (sound_compactScript _ _) (by decide) (by decide) r hr
  exact ⟨hr, (h 0 _ rfl).1 rfl, (h 1 _ rfl).2 rfl⟩

end Review
end SharedWorkspace
