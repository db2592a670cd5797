import SharedWorkspace.Diff.FileDiff
import SharedWorkspace.Proofs.Diff.Alike

/-!
What the hunks of a diff tell. Their lines are enough to get either text from the other one, but where they
start is told wrongly on a side if they begin with a change that has no line on that side
(`not_reconstructs_exchanged`). The main statement is `ofContentsBy_reconstructs`, for whatever finds scripts
for the lines.
-/

namespace SharedWorkspace

open Diff

namespace Hunk

variable {α : Type}

inductive Side where
  | old
  | new
  deriving DecidableEq

namespace Side

def other : Side → Side
  | old => new
  | new => old

@[simp]
theorem other_other (s : Side) : s.other.other = s := by
  cases s <;> rfl

def choose (s : Side) (old new : α) : α :=
  match s with
  | .old => old
  | .new => new

def missing : Side → LineKind
  | old => .added
  | new => .removed

def texts (s : Side) (ls : List HunkLine) : List String :=
  (ls.filter (·.kind ≠ s.missing)).map HunkLine.text

theorem texts_append (s : Side) (ls ms : List HunkLine)
    : s.texts (ls ++ ms) = s.texts ls ++ s.texts ms := by
  unfold texts
  rw [List.filter_append, List.map_append]

theorem texts_map (s : Side) (k : LineKind) (ls : List String)
    : s.texts (ls.map fun l => ⟨k, Text.trimLineEnd l⟩)
        =
      if k = s.missing then [] else ls.map Text.trimLineEnd := by
  unfold texts
  split
  . next hk =>
    rw [List.filter_eq_nil_iff.2 (by simp [hk])]
    rfl
  . next hk =>
    rw [List.filter_eq_self.2 (by simp [hk]), List.map_map]
    rfl

end Side

def start (s : Side) (h : Hunk) : Nat :=
  match s with
  | .old => h.oldStart
  | .new => h.newStart

def linesOn (s : Side) (h : Hunk) : List String :=
  match s with
  | .old => h.oldLines
  | .new => h.newLines

theorem linesOn_eq (s : Side) (h : Hunk) : h.linesOn s = s.texts h.lines := by
  cases s <;> rfl

def stop (s : Side) (h : Hunk) : Nat :=
  h.start s - 1 + (h.linesOn s).length

/--
The lines from the position `i` on that no hunk has: those before the first hunk, between neighbours, and
after the last.
-/
def uncovered (s : Side) (ls : List String) (i : Nat) : List Hunk → List (List String)
  | [] => [ls.drop i]
  | h :: hs => slice ls i (h.start s - 1 - i) :: uncovered s ls (h.stop s) hs

/--
The lines from the position `i` on, where those that a hunk has on this side give way to the others.
-/
def replaced (s : Side) (ls : List String) (i : Nat) : List Hunk → List String
  | [] => ls.drop i
  | h :: hs => slice ls i (h.start s - 1 - i) ++ h.linesOn s.other ++ replaced s ls (h.stop s) hs

structure Reconstructs (s : Side) (ls ms : List String) (hs : List Hunk) : Prop where
  there : ∀ h ∈ hs, 1 ≤ h.start s ∧ h.linesOn s = slice ls (h.start s - 1) (h.linesOn s).length
  ordered : hs.Pairwise fun h k => h.start s + (h.linesOn s).length ≤ k.start s
  uncovered : uncovered s ls 0 hs = uncovered s.other ms 0 hs
  replaced : replaced s ls 0 hs = ms

/--
From the positions `i` in `ls` and `j` in `ms` on, the lines are the same but for those of the hunks.
-/
inductive Bridges (s : Side) (ls ms : List String) : Nat → Nat → List Hunk → Prop where
  | nil {i j : Nat} (h : ls.drop i = ms.drop j) : Bridges s ls ms i j []
  | cons {i j n : Nat} {h : Hunk} {hs : List Hunk} (hi : h.start s = i + n + 1)
      (hj : h.start s.other = j + n + 1) (hn : slice ls i n = slice ms j n)
      (hl : h.linesOn s = slice ls (i + n) (h.linesOn s).length)
      (hm : h.linesOn s.other = slice ms (j + n) (h.linesOn s.other).length)
      (hr : Bridges s ls ms (h.stop s) (h.stop s.other) hs) : Bridges s ls ms i j (h :: hs)

namespace Bridges

variable {s : Side} {ls ms : List String} {i j : Nat} {hs : List Hunk}

theorem symm (h : Bridges s ls ms i j hs) : Bridges s.other ms ls j i hs := by
  induction h with
  | nil h => exact .nil h.symm
  | cons hi hj hn hl hm _ ih =>
    refine .cons hj ?_ hn.symm hm ?_ ?_
    . rw [Side.other_other, hi]
    . rw [Side.other_other]
      exact hl
    . rw [Side.other_other]
      exact ih

theorem of_kept {n : Nat} (hn : slice ls i n = slice ms j n) (h : Bridges s ls ms (i + n) (j + n) hs)
    : Bridges s ls ms i j hs := by
  cases h with
  | nil h =>
    apply Bridges.nil
    rw [← slice_append_drop ls i n, ← slice_append_drop ms j n, hn, h]
  | @cons _ _ m _ _ hi hj hm hl hl' hr =>
    refine .cons (n := n + m) ?_ ?_ ?_ ?_ ?_ hr
    . rw [hi, Nat.add_assoc i]
    . rw [hj, Nat.add_assoc j]
    . rw [slice_add, slice_add, hn, hm]
    . rw [← Nat.add_assoc]
      exact hl
    . rw [← Nat.add_assoc]
      exact hl'

theorem there (h : Bridges s ls ms i j hs)
    : ∀ h ∈ hs, 1 ≤ h.start s ∧ h.linesOn s = slice ls (h.start s - 1) (h.linesOn s).length := by
  induction h with
  | nil => simp
  | cons hi _ _ hl _ _ ih =>
    refine List.forall_mem_cons.2 ⟨?_, ih⟩
    rw [hi, Nat.add_sub_cancel]
    exact ⟨Nat.le_add_left _ _, hl⟩

theorem lt_start (h : Bridges s ls ms i j hs) : ∀ h ∈ hs, i < h.start s := by
  induction h with
  | nil => simp
  | cons hi _ _ _ _ _ ih =>
    refine List.forall_mem_cons.2 ⟨by omega, ?_⟩
    intro k hk
    have := ih k hk
    unfold stop at this
    omega

theorem ordered (h : Bridges s ls ms i j hs)
    : hs.Pairwise fun h k => h.start s + (h.linesOn s).length ≤ k.start s := by
  induction h with
  | nil => exact .nil
  | @cons _ _ _ h _ hi _ _ _ _ hr ih =>
    refine .cons ?_ ih
    intro k hk
    have := hr.lt_start k hk
    unfold stop at this
    omega

theorem uncovered (h : Bridges s ls ms i j hs) : uncovered s ls i hs = uncovered s.other ms j hs := by
  induction h with
  | nil h => exact congrArg (fun x => [x]) h
  | @cons i j n _ _ hi hj hn _ _ _ ih =>
    have hi' : i + n + 1 - 1 - i = n := by omega
    have hj' : j + n + 1 - 1 - j = n := by omega
    rw [Hunk.uncovered, Hunk.uncovered, hi, hj, hi', hj', hn, ih]

theorem replaced (h : Bridges s ls ms i j hs) : replaced s ls i hs = ms.drop j := by
  induction h with
  | nil h => exact h
  | @cons i j n h _ hi hj hn _ hm _ ih =>
    have hi' : i + n + 1 - 1 - i = n := by omega
    have hj' : h.stop s.other = j + n + (h.linesOn s.other).length := by
      unfold stop
      rw [hj, Nat.add_sub_cancel]
    calc Hunk.replaced s ls i (h :: _)
        = slice ls i n ++ h.linesOn s.other ++ ms.drop (h.stop s.other) := by
          rw [Hunk.replaced, hi, hi', ih]
      _ = slice ms j n ++ (slice ms (j + n) (h.linesOn s.other).length
            ++ ms.drop (j + n + (h.linesOn s.other).length)) := by
          rw [hn, hj', ← hm, List.append_assoc]
      _ = ms.drop j := by
          rw [slice_append_drop, slice_append_drop]

theorem reconstructs (h : Bridges s ls ms 0 0 hs) : Reconstructs s ls ms hs where
  there := h.there
  ordered := h.ordered
  uncovered := h.uncovered
  replaced := h.replaced

end Bridges

def lead (h : Hunk) : List HunkLine :=
  h.lines.takeWhile (·.kind ≠ .context)

/--
The hunk does not begin with a change that has no line on the side.
-/
def Anchored (s : Side) (h : Hunk) : Prop :=
  h.lead = [] ∨ s.texts h.lead ≠ []

instance (s : Side) (h : Hunk) : Decidable (h.Anchored s) :=
  inferInstanceAs (Decidable (_ ∨ _))

/--
The hunk has the lines of `k`, and starts where `k` does on each side on which it is anchored.
-/
structure Tells (h k : Hunk) : Prop where
  lines : h.lines = k.lines
  start (s : Side) : h.Anchored s → h.start s = k.start s

theorem Tells.eq {h k : Hunk} (ht : h.Tells k) (hs : ∀ s, h.Anchored s) : h = k := by
  obtain ⟨hlines, hstart⟩ := ht
  have hold : h.oldStart = k.oldStart := hstart .old (hs .old)
  have hnew : h.newStart = k.newStart := hstart .new (hs .new)
  cases h
  cases k
  cases hlines
  cases hold
  cases hnew
  rfl

end Hunk

namespace Block

open Hunk

variable {b b' : Block}

def Takes (s : Side) (b : Block) : Prop :=
  s.choose b.oldLength b.newLength ≠ 0

theorem Alike.start_eq (h : b.Alike b') (s : Side) (ht : b'.changed = false ∨ b'.Takes s)
    : s.choose b.oldStart b.newStart = s.choose b'.oldStart b'.newStart := by
  unfold Takes at ht
  rw [h.changed, h.oldLength, h.newLength] at ht
  cases s with
  | old => exact (h.oldStart ht).symm
  | new => exact (h.newStart ht).symm

end Block

namespace FileDiff

open Hunk

variable {xs ys : List String} {b b' : Block} {g g' bs : List Block} {gs gs' : List (List Block)}
variable {c d e : Cut}

theorem texts_blockLines (hb : b.Fits xs ys)
    : Side.old.texts (blockLines xs ys b) = (slice xs b.oldStart b.oldLength).map Text.trimLineEnd ∧
        Side.new.texts (blockLines xs ys b)
          =
        (slice ys b.newStart b.newLength).map Text.trimLineEnd := by
  unfold blockLines
  dsimp only
  split
  . rw [Side.texts_append, Side.texts_append]
    simp only [Side.texts_map]
    exact ⟨List.append_nil _, rfl⟩
  . next hc =>
    obtain ⟨hlength, hslice⟩ := hb.same (by simpa using hc)
    simp only [Side.texts_map]
    refine ⟨rfl, ?_⟩
    rw [hlength, ← hslice]
    rfl

theorem exists_texts_tiles (h : Block.Tiles xs ys c bs d)
    : ∃ m n, d = ⟨c.old + m, c.new + n⟩ ∧
        Side.old.texts (bs.flatMap (blockLines xs ys)) = (slice xs c.old m).map Text.trimLineEnd ∧
        Side.new.texts (bs.flatMap (blockLines xs ys)) = (slice ys c.new n).map Text.trimLineEnd := by
  induction h with
  | nil c => exact ⟨0, 0, rfl, rfl, rfl⟩
  | @cons b bs c d hs hb h ih =>
    obtain ⟨m, n, rfl, hold, hnew⟩ := ih
    obtain ⟨hold', hnew'⟩ := texts_blockLines hb
    subst hs
    refine ⟨b.oldLength + m, b.newLength + n, ?_, ?_, ?_⟩
    . unfold Block.stop Block.start
      rw [Nat.add_assoc, Nat.add_assoc]
    . rw [List.flatMap_cons, Side.texts_append, hold', hold, ← List.map_append, slice_add]
      rfl
    . rw [List.flatMap_cons, Side.texts_append, hnew', hnew, ← List.map_append, slice_add]
      rfl

theorem exists_hunk (h : Block.Tiles xs ys c (b :: bs) d)
    : ∃ k, hunkOfGroup? xs ys (b :: bs) = some k ∧
        k.start .old = c.old + 1 ∧ k.stop .old = d.old ∧
        k.linesOn .old = slice (xs.map Text.trimLineEnd) c.old (k.linesOn .old).length ∧
        k.start .new = c.new + 1 ∧ k.stop .new = d.new ∧
        k.linesOn .new = slice (ys.map Text.trimLineEnd) c.new (k.linesOn .new).length := by
  obtain ⟨m, n, rfl, hold, hnew⟩ := exists_texts_tiles h
  cases h with
  | cons hs hb h =>
    obtain ⟨hx, hy⟩ := h.le_length ⟨hb.old, hb.new⟩
    subst hs
    have hm : (slice (xs.map Text.trimLineEnd) b.start.old m).length = m :=
      length_slice (by rw [List.length_map]; exact hx)
    have hn : (slice (ys.map Text.trimLineEnd) b.start.new n).length = n :=
      length_slice (by rw [List.length_map]; exact hy)
    rw [map_slice] at hold hnew
    refine ⟨_, rfl, rfl, ?_, ?_, rfl, ?_, ?_⟩
    . unfold Hunk.stop
      rw [linesOn_eq, hold, hm]
      rfl
    . rw [linesOn_eq, hold, hm]
    . unfold Hunk.stop
      rw [linesOn_eq, hnew, hn]
      rfl
    . rw [linesOn_eq, hnew, hn]

theorem texts_blockLines_ne_nil_iff (hb : b.Fits xs ys) (s : Side)
    : s.texts (blockLines xs ys b) ≠ [] ↔ b.Takes s := by
  obtain ⟨hold, hnew⟩ := texts_blockLines hb
  unfold Block.Takes
  rw [← List.length_pos_iff, ← Nat.pos_iff_ne_zero]
  cases s with
  | old => rw [hold, List.length_map, length_slice hb.old, Side.choose]
  | new => rw [hnew, List.length_map, length_slice hb.new, Side.choose]

theorem blockLines_ne_nil (hb : b.Fits xs ys) (hf : b.Filled) : blockLines xs ys b ≠ [] := by
  have htakes : ∃ s : Side, b.Takes s := by
    rcases hf with hf | ⟨-, hf⟩
    . exact ⟨.old, Nat.ne_zero_of_lt hf⟩
    . exact ⟨.new, Nat.ne_zero_of_lt hf⟩
  obtain ⟨s, hs⟩ := htakes
  intro hnil
  apply (texts_blockLines_ne_nil_iff hb s).2 hs
  rw [hnil]
  rfl

theorem kind_of_mem_blockLines {l : HunkLine} (hl : l ∈ blockLines xs ys b)
    : l.kind ≠ .context ↔ b.changed = true := by
  unfold blockLines at hl
  dsimp only at hl
  split at hl
  . next hc =>
    refine iff_of_true ?_ hc
    rcases List.mem_append.1 hl with hl | hl
    . obtain ⟨_, _, rfl⟩ := List.mem_map.1 hl
      nofun
    . obtain ⟨_, _, rfl⟩ := List.mem_map.1 hl
      nofun
  . next hc =>
    refine iff_of_false ?_ hc
    obtain ⟨_, _, rfl⟩ := List.mem_map.1 hl
    exact fun h => h rfl

theorem takeWhile_blockLines_of_keeps (hb : b.Fits xs ys) (hk : b.Keeps) (ls : List HunkLine)
    : (blockLines xs ys b ++ ls).takeWhile (·.kind ≠ .context) = [] := by
  have hne := blockLines_ne_nil hb hk.filled
  cases hls : blockLines xs ys b with
  | nil => contradiction
  | cons l rest =>
    have hl := kind_of_mem_blockLines (b := b) (hls ▸ List.mem_cons_self)
    rw [List.cons_append, List.takeWhile_cons_of_neg]
    simp [hl, hk.1]

theorem takeWhile_flatMap_blockLines (hfits : ∀ b' ∈ b :: g, b'.Fits xs ys) (h : Block.Spaced (b :: g))
    : ((b :: g).flatMap (blockLines xs ys)).takeWhile (·.kind ≠ .context)
        =
      if b.changed then blockLines xs ys b else [] := by
  obtain ⟨hb, hg⟩ := List.forall_mem_cons.1 hfits
  rw [List.flatMap_cons]
  split
  . next hc =>
    rw [List.takeWhile_append_of_pos fun l hl => by simpa using (kind_of_mem_blockLines hl).2 hc]
    cases g with
    | nil => exact List.append_nil _
    | cons b' rest =>
      rw [List.flatMap_cons, takeWhile_blockLines_of_keeps (hg b' List.mem_cons_self) (h.keeps_second hc),
        List.append_nil]
  . next hc =>
    have hkeeps := (h.filled b List.mem_cons_self).keeps (by simpa using hc)
    exact takeWhile_blockLines_of_keeps hb hkeeps _

theorem blockLines_eq_of_alike (h : b.Alike b') : blockLines xs ys b' = blockLines xs ys b := by
  have slice_eq : ∀ (ls : List String) {i j m : Nat}, (m ≠ 0 → j = i) → slice ls j m = slice ls i m := by
    intro ls i j m hij
    cases m with
    | zero => rfl
    | succ m => rw [hij (Nat.succ_ne_zero m)]
  -- A position counts only where something is taken.
  unfold blockLines
  rw [h.changed, h.oldLength, h.newLength, slice_eq xs fun hm => h.oldStart (.inr hm),
    slice_eq ys fun hm => h.newStart (.inr hm)]

theorem flatMap_blockLines_eq (h : List.Forall₂ Block.Alike g g')
    : g'.flatMap (blockLines xs ys) = g.flatMap (blockLines xs ys) := by
  induction h with
  | nil => rfl
  | cons hb _ ih => rw [List.flatMap_cons, List.flatMap_cons, blockLines_eq_of_alike hb, ih]

theorem map_lines_eq_of_alike (xs ys : List String) (h : List.Forall₂ (List.Forall₂ Block.Alike) gs gs')
    : (gs'.filterMap (hunkOfGroup? xs ys)).map Hunk.lines
        =
      (gs.filterMap (hunkOfGroup? xs ys)).map Hunk.lines := by
  induction h with
  | nil => rfl
  | @cons g g' _ _ hg _ ih =>
    have hlines : g'.flatMap (blockLines xs ys) = g.flatMap (blockLines xs ys) := flatMap_blockLines_eq hg
    cases hg with
    | nil => exact ih
    | cons => exact congrArg₂ List.cons hlines ih

theorem exists_tells (h : List.Forall₂ Block.Alike (b :: g) g') (hfits : ∀ b' ∈ g', b'.Fits xs ys)
    (hspaced : Block.Spaced g')
    : ∃ k k', hunkOfGroup? xs ys (b :: g) = some k ∧ hunkOfGroup? xs ys g' = some k' ∧ k.Tells k' := by
  have hlines : g'.flatMap (blockLines xs ys) = (b :: g).flatMap (blockLines xs ys) :=
    flatMap_blockLines_eq h
  cases h with
  | @cons _ b' _ g' hb h =>
    refine ⟨_, _, rfl, rfl, hlines.symm, ?_⟩
    intro s hs
    unfold Anchored lead at hs
    dsimp only at hs
    rw [← hlines, takeWhile_flatMap_blockLines hfits hspaced] at hs
    have hb' := hfits b' List.mem_cons_self
    have htakes : b'.changed = false ∨ b'.Takes s := by
      split at hs
      . right
        rw [← texts_blockLines_ne_nil_iff hb']
        exact hs.resolve_left (blockLines_ne_nil hb' (hspaced.filled b' List.mem_cons_self))
      . next hc => exact .inl (by simpa using hc)
    have := hb.start_eq s htakes
    cases s with
    | old => exact congrArg (· + 1) this
    | new => exact congrArg (· + 1) this

theorem forall₂_tells (h : List.Forall₂ (List.Forall₂ Block.Alike) gs gs')
    (hfits : ∀ g ∈ gs', ∀ b ∈ g, b.Fits xs ys) (hspaced : ∀ g ∈ gs', Block.Spaced g)
    : List.Forall₂ Tells (gs.filterMap (hunkOfGroup? xs ys)) (gs'.filterMap (hunkOfGroup? xs ys)) := by
  induction h with
  | nil => exact .nil
  | @cons g g' _ _ hg _ ih =>
    obtain ⟨hf, hfits⟩ := List.forall_mem_cons.1 hfits
    obtain ⟨hs, hspaced⟩ := List.forall_mem_cons.1 hspaced
    have hrest := ih hfits hspaced
    cases g with
    | nil =>
      cases hg
      exact hrest
    | cons b g =>
      obtain ⟨k, k', hk, hk', ht⟩ := exists_tells hg hf hs
      rw [List.filterMap_cons_some hk, List.filterMap_cons_some hk']
      exact .cons ht hrest

theorem bridges_of_spread (h : Block.Spread xs ys c gs e) (he : e = ⟨xs.length, ys.length⟩)
    : Bridges .old (xs.map Text.trimLineEnd) (ys.map Text.trimLineEnd) c.old c.new
        (gs.filterMap (hunkOfGroup? xs ys)) := by
  have map_kept : ∀ i j n, slice xs i n = slice ys j n →
      slice (xs.map Text.trimLineEnd) i n = slice (ys.map Text.trimLineEnd) j n := by
    intro i j n hn
    rw [← map_slice, ← map_slice, hn]
  induction h with
  | nil hk =>
    obtain ⟨n, rfl, hn⟩ := hk
    obtain ⟨hx, hy⟩ := Cut.mk.inj he
    apply Bridges.of_kept (map_kept _ _ n hn)
    apply Bridges.nil
    rw [hx, hy, List.drop_of_length_le (by simp), List.drop_of_length_le (by simp)]
  | @cons c _ d _ g gs hk hg _ ih =>
    obtain ⟨n, rfl, hn⟩ := hk
    have hn := map_kept _ _ n hn
    cases g with
    | nil =>
      cases hg
      exact (ih he).of_kept hn
    | cons b bs =>
      obtain ⟨k, hk, hstart, hstop, hl, hstart', hstop', hl'⟩ := exists_hunk hg
      rw [List.filterMap_cons_some hk]
      refine .cons hstart hstart' hn hl hl' ?_
      show Bridges _ _ _ (k.stop .old) (k.stop .new) _
      rw [hstop, hstop']
      exact ih he

theorem hunks_ne_nil (hb : b ∈ bs) (hc : b.changed = true) (n : Nat)
    : (Block.groups n bs).filterMap (hunkOfGroup? xs ys) ≠ [] := by
  obtain ⟨g, hg, hbg⟩ := Block.exists_mem_groups (n := n) hb hc
  cases g with
  | nil => contradiction
  | cons b' g =>
    apply List.ne_nil_of_mem
    exact List.mem_filterMap.2 ⟨_, hg, rfl⟩

theorem eq_of_forall₂_tells {hs ks : List Hunk} (h : List.Forall₂ Tells hs ks)
    (ha : ∀ h ∈ hs, ∀ s, h.Anchored s) : hs = ks := by
  induction h with
  | nil => rfl
  | cons ht _ ih =>
    obtain ⟨hfirst, ha⟩ := List.forall_mem_cons.1 ha
    rw [ht.eq hfirst, ih ha]

theorem hunks_eq_nil_iff_of_sound {es : List Edit} (h : Diff.Sound xs ys es) (n : Nat)
    : (Block.groups n (Block.ofScript es)).filterMap (hunkOfGroup? xs ys) = [] ↔ xs = ys := by
  constructor
  . intro hnil
    apply h.traverses.eq_of_kept
    intro b hb
    cases hc : b.changed with
    | false => rfl
    | true => exact absurd hnil (hunks_ne_nil hb hc n)
  . intro hxy
    have hkept := h.kept_of_eq hxy
    rcases Block.ofScript_eq_nil_or_singleton hkept with hbs | ⟨b, hbs⟩
    . rw [hbs]
      rfl
    . rw [hbs, Block.groups_singleton (hkept b (hbs ▸ List.mem_singleton_self b))]
      rfl

theorem exists_bridges {es : List Edit} (h : Diff.Proper xs ys es)
    : ∃ ks,
        List.Forall₂ Tells
          ((Block.groups contextLines (Block.ofScript es)).filterMap (hunkOfGroup? xs ys)) ks ∧
        Bridges .old (xs.map Text.trimLineEnd) (ys.map Text.trimLineEnd) 0 0 ks := by
  obtain ⟨bs, hbs, ht⟩ := h.traverses
  have hspread := Block.spread_groups contextLines ht
  have hspaced : Block.Spaced bs := (Block.spaced_ofScript h.length_pos).of_alike hbs
  refine ⟨_, forall₂_tells (Block.forall₂_groups hbs) hspread.fits ?_, bridges_of_spread hspread rfl⟩
  intro g hg
  exact Block.spaced_of_mem_groups (by decide) hspaced hg

/--
Whatever finds a proper script for the lines of two texts, the lines of the hunks of their diff lead from
either text to the other one, and so do the hunks themselves if they are anchored on both sides. All that they
leave out is the same in both texts, and there is none if and only if the texts are the same.
-/
theorem ofContentsBy_reconstructs (edits : List String → List String → List Edit) (p : Path)
    (old new : Option String)
    (h : Diff.Proper (Text.terminatedLines (old.getD "")) (Text.terminatedLines (new.getD ""))
      (edits (Text.terminatedLines (old.getD "")) (Text.terminatedLines (new.getD ""))))
    : let xs := Text.terminatedLines (old.getD "")
      let ys := Text.terminatedLines (new.getD "")
      let os := xs.map Text.trimLineEnd
      let ns := ys.map Text.trimLineEnd
      let hs := (ofContentsBy edits p old new).hunks
      (∃ ks, List.Forall₂ Hunk.Tells hs ks ∧ Reconstructs .old os ns ks ∧ Reconstructs .new ns os ks) ∧
        ((∀ h ∈ hs, ∀ s, h.Anchored s) → Reconstructs .old os ns hs ∧ Reconstructs .new ns os hs) ∧
        (hs = [] ↔ xs = ys) ∧ (xs = ys ↔ old.getD "" = new.getD "") := by
  intro xs ys os ns hs
  obtain ⟨ks, htells, hbridges⟩ : ∃ ks, List.Forall₂ Tells hs ks ∧ Bridges .old os ns 0 0 ks :=
    exists_bridges h
  refine ⟨⟨ks, htells, hbridges.reconstructs, hbridges.symm.reconstructs⟩, ?_,
    hunks_eq_nil_iff_of_sound h.toSound contextLines, Text.terminatedLines_inj⟩
  intro ha
  rw [eq_of_forall₂_tells htells ha]
  exact ⟨hbridges.reconstructs, hbridges.symm.reconstructs⟩

theorem hunks_ofContents_some {es : List Edit} {p : Path} {old new : String}
    (h : Diff.script 0 0 (Text.terminatedLines old) (Text.terminatedLines new) = es)
    : (ofContents p (some old) (some new)).hunks = hunksBy (fun xs ys => Diff.compact xs ys es) old new := by
  rw [← h]
  rfl

/--
One line is replaced, and another one added at some distance from it.
-/
theorem ofContents_reconstructs_numbers
    : let xs := Text.terminatedLines "1\n2\n3\n4\n5\n6\n7\n8\n9\n10\n"
      let ys := Text.terminatedLines "1\ntwo\n3\n4\n5\n6\n7\n8\n9\n10\n11"
      let hs := (ofContents ⟨"numbers"⟩ (some "1\n2\n3\n4\n5\n6\n7\n8\n9\n10\n")
        (some "1\ntwo\n3\n4\n5\n6\n7\n8\n9\n10\n11")).hunks
      Diff.Proper xs ys (Diff.compactScript xs ys) ∧
        (hs.map fun h => (h.oldStart, h.oldLines, h.newStart, h.newLines))
          =
        [(1, ["1", "2", "3", "4", "5"], 1, ["1", "two", "3", "4", "5"]),
          (8, ["8", "9", "10"], 8, ["8", "9", "10", "11"])] ∧
        Reconstructs .old (xs.map Text.trimLineEnd) (ys.map Text.trimLineEnd) hs ∧
        Reconstructs .new (ys.map Text.trimLineEnd) (xs.map Text.trimLineEnd) hs ∧
        (hs = [] ↔ xs = ys) := by
  have hfound : Diff.script 0 0 (Text.terminatedLines "1\n2\n3\n4\n5\n6\n7\n8\n9\n10\n")
      (Text.terminatedLines "1\ntwo\n3\n4\n5\n6\n7\n8\n9\n10\n11")
      = [.equal 0 0 1, .insert 1 1 1, .delete 1 1 2, .equal 2 2 8, .insert 10 10 1] := by
    decide +kernel
  have h := Diff.proper_compactScript (Text.terminatedLines "1\n2\n3\n4\n5\n6\n7\n8\n9\n10\n")
    (Text.terminatedLines "1\ntwo\n3\n4\n5\n6\n7\n8\n9\n10\n11")
  obtain ⟨_, hanchored, hnil, _⟩ :=
    ofContentsBy_reconstructs Diff.compactScript ⟨"numbers"⟩ (some _) (some _) h
  have hhunks : (ofContents ⟨"numbers"⟩ (some "1\n2\n3\n4\n5\n6\n7\n8\n9\n10\n")
      (some "1\ntwo\n3\n4\n5\n6\n7\n8\n9\n10\n11")).hunks
        =
      [⟨1, 1, [⟨.context, "1"⟩, ⟨.removed, "2"⟩, ⟨.added, "two"⟩, ⟨.context, "3"⟩, ⟨.context, "4"⟩,
          ⟨.context, "5"⟩]⟩,
        ⟨8, 8, [⟨.context, "8"⟩, ⟨.context, "9"⟩, ⟨.context, "10"⟩, ⟨.added, "11"⟩]⟩] := by
    rw [hunks_ofContents_some hfound]
    cbv
  have hboth : ∀ s, ∀ h ∈ (ofContents ⟨"numbers"⟩ (some "1\n2\n3\n4\n5\n6\n7\n8\n9\n10\n")
      (some "1\ntwo\n3\n4\n5\n6\n7\n8\n9\n10\n11")).hunks, h.Anchored s := by
    intro s
    rw [hhunks]
    cases s <;> decide
  obtain ⟨hold, hnew⟩ := hanchored fun k hk s => hboth s k hk
  refine ⟨h, ?_, hold, hnew, hnil⟩
  rw [hhunks]
  decide +kernel

/--
A deletion that compaction has exchanged with an insertion keeps its old place in the new list: the hunk is
said to start at the second line of the new text, though its first line is the first one there.
-/
theorem not_reconstructs_exchanged
    : let hs := (ofContents ⟨"f.txt"⟩ (some "b\na\n") (some "a\na\n")).hunks
      hs = [⟨1, 2, [⟨.removed, "b"⟩, ⟨.context, "a"⟩, ⟨.added, "a"⟩]⟩] ∧
        ¬ Reconstructs .old ["b", "a"] ["a", "a"] hs ∧ ¬ Reconstructs .new ["a", "a"] ["b", "a"] hs := by
  have hfound : Diff.script 0 0 (Text.terminatedLines "b\na\n") (Text.terminatedLines "a\na\n")
      = [.insert 0 0 1, .delete 0 1 1, .equal 1 1 1] := by
    decide +kernel
  have hhunks : (ofContents ⟨"f.txt"⟩ (some "b\na\n") (some "a\na\n")).hunks
      = [⟨1, 2, [⟨.removed, "b"⟩, ⟨.context, "a"⟩, ⟨.added, "a"⟩]⟩] := by
    rw [hunks_ofContents_some hfound]
    cbv
  dsimp only
  rw [hhunks]
  refine ⟨rfl, ?_, ?_⟩
  . intro h
    exact absurd h.uncovered (by decide)
  . intro h
    exact absurd h.uncovered (by decide)

end FileDiff
end SharedWorkspace
