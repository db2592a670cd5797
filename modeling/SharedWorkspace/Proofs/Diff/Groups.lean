import SharedWorkspace.Proofs.Diff.Block

/-!
Groups of blocks. They leave out nothing but tokens that both lists have in common (`spread_groups`), and
lose no change (`exists_mem_groups`).
-/

namespace SharedWorkspace

open Diff

namespace Block

variable {α : Type} {xs ys : List α} {b : Block} {bs rest group : List Block} {gs : List (List Block)}
variable {c d e : Cut} {n : Nat}

def inner (b : Block) (m : Nat) : Cut :=
  ⟨b.oldStart + m, b.newStart + m⟩

namespace Fits

theorem stop_eq (hb : b.Fits xs ys) (hc : b.changed = false) : b.stop = b.inner b.oldLength := by
  unfold stop inner
  rw [(hb.same hc).1]

theorem kept_inner (hb : b.Fits xs ys) (hc : b.changed = false) {m k : Nat} (hmk : m ≤ k)
    (hk : k ≤ b.oldLength) : Kept xs ys (b.inner m) (b.inner k) := by
  have hsum : m + (k - m) = k := by omega
  refine ⟨k - m, ?_, ?_⟩
  . unfold inner
    dsimp only
    rw [Nat.add_assoc, Nat.add_assoc, hsum]
  . unfold inner
    dsimp only
    rw [← slice_slice (hsum ▸ hk), ← slice_slice (hsum ▸ hk), (hb.same hc).2]

theorem part (hb : b.Fits xs ys) (hc : b.changed = false) {m k : Nat} (h : m + k ≤ b.oldLength)
    : (kept (b.oldStart + m) (b.newStart + m) k).Fits xs ys where
  old := by
    have := hb.old
    dsimp [kept]
    omega
  new := by
    have := hb.new
    have := (hb.same hc).1
    dsimp [kept]
    omega
  same _ := by
    refine ⟨rfl, ?_⟩
    dsimp only [kept]
    rw [← slice_slice h, ← slice_slice h, (hb.same hc).2]

theorem firstPart (hb : b.Fits xs ys) (hc : b.changed = false) (n : Nat)
    : (b.firstPart n).Fits xs ys := by
  unfold Block.firstPart
  apply hb.part hc (m := 0)
  omega

theorem lastPart (hb : b.Fits xs ys) (hc : b.changed = false) (n : Nat)
    : (b.lastPart n).Fits xs ys := by
  unfold Block.lastPart
  apply hb.part hc
  omega

theorem lastPart_stop (hb : b.Fits xs ys) (hc : b.changed = false) (n : Nat)
    : (b.lastPart n).stop = b.stop := by
  rw [hb.stop_eq hc]
  unfold Block.lastPart stop kept inner
  dsimp only
  congr 1 <;> omega

end Fits

theorem firstPart_stop (b : Block) (n : Nat) : (b.firstPart n).stop = b.inner (min n b.oldLength) := rfl

theorem lastPart_start (b : Block) (n : Nat) : (b.lastPart n).start = b.inner (b.oldLength - n) := rfl

/--
From a point to another one there are groups of blocks, and kept tokens around them.
-/
inductive Spread (xs ys : List α) : Cut → List (List Block) → Cut → Prop where
  | nil {c d : Cut} (hk : Kept xs ys c d) : Spread xs ys c [] d
  | cons {c s d e : Cut} {g : List Block} {gs : List (List Block)} (hk : Kept xs ys c s)
      (hg : Tiles xs ys s g d) (h : Spread xs ys d gs e) : Spread xs ys c (g :: gs) e

theorem Spread.of_kept (hk : Kept xs ys c d) (h : Spread xs ys d gs e) : Spread xs ys c gs e := by
  cases h with
  | nil hk' => exact .nil (hk.trans hk')
  | cons hk' hg h => exact .cons (hk.trans hk') hg h

theorem Spread.append_kept (h : Spread xs ys c gs d) (hk : Kept xs ys d e) : Spread xs ys c gs e := by
  induction h with
  | nil hk' => exact .nil (hk'.trans hk)
  | cons hk' hg _ ih => exact .cons hk' hg (ih hk)

theorem Spread.fits (h : Spread xs ys c gs d) : ∀ g ∈ gs, ∀ b ∈ g, b.Fits xs ys := by
  induction h with
  | nil => nofun
  | cons _ hg _ ih => exact List.forall_mem_cons.2 ⟨hg.fits, ih⟩

theorem spread_go (hg : Tiles xs ys c group d) (hr : Tiles xs ys d rest e)
    : Spread xs ys c (groups.go n group rest) e := by
  induction rest generalizing group c d with
  | nil =>
    cases hr
    unfold groups.go
    split
    . exact .cons (.refl c) hg (.nil (.refl _))
    . next hc => exact .nil (hg.kept (by simpa using hc))
  | cons b rest ih =>
    cases hr with
    | cons hs hb hr =>
      subst hs
      unfold groups.go
      split
      . next h =>
        obtain ⟨hc, hn⟩ : b.changed = false ∧ 2 * n < b.oldLength := by simpa using h
        -- Between its two parts, the block is left out.
        refine .cons (.refl c) (hg.append (.cons rfl (hb.firstPart hc n) (.nil _))) ?_
        have hkept : Kept xs ys (b.firstPart n).stop (b.lastPart n).start := by
          rw [firstPart_stop, lastPart_start]
          exact hb.kept_inner hc (by omega) (by omega)
        have hlast : Tiles xs ys (b.lastPart n).start [b.lastPart n] b.stop := by
          rw [← hb.lastPart_stop hc n]
          exact .cons rfl (hb.lastPart hc n) (.nil _)
        exact .of_kept hkept (ih hlast hr)
      . exact ih (hg.append (.cons rfl hb (.nil _))) hr

theorem exists_tiles_trimFirst (n : Nat) (h : Tiles xs ys c bs e)
    : ∃ d, Kept xs ys c d ∧ Tiles xs ys d (trimFirst n bs) e := by
  cases h with
  | nil => exact ⟨c, .refl c, .nil c⟩
  | @cons b bs _ _ hs hb h =>
    subst hs
    rw [trimFirst]
    split
    . exact ⟨b.start, .refl _, .cons rfl hb h⟩
    . next hc =>
      have hc : b.changed = false := by simpa using hc
      refine ⟨(b.lastPart n).start, hb.kept_inner hc (Nat.zero_le _) (Nat.sub_le _ _), ?_⟩
      exact .cons rfl (hb.lastPart hc n) (hb.lastPart_stop hc n ▸ h)

theorem exists_tiles_trimLast (n : Nat) (h : Tiles xs ys c bs e)
    : ∃ d, Tiles xs ys c (trimLast n bs) d ∧ Kept xs ys d e := by
  induction h with
  | nil c => exact ⟨c, .nil c, .refl c⟩
  | @cons b bs c d hs hb h ih =>
    subst hs
    cases bs with
    | nil =>
      cases h
      unfold trimLast
      split
      . exact ⟨b.stop, .cons rfl hb (.nil _), .refl _⟩
      . next hc =>
        have hc : b.changed = false := by simpa using hc
        refine ⟨(b.firstPart n).stop, .cons rfl (hb.firstPart hc n) (.nil _), ?_⟩
        rw [firstPart_stop, hb.stop_eq hc]
        exact hb.kept_inner hc (Nat.min_le_right _ _) (Nat.le_refl _)
    | cons b' rest =>
      obtain ⟨d, ht, hk⟩ := ih
      exact ⟨d, .cons rfl hb ht, hk⟩

theorem spread_groups (n : Nat) (h : Tiles xs ys c bs e) : Spread xs ys c (groups n bs) e := by
  obtain ⟨d, hfirst, h⟩ := exists_tiles_trimFirst n h
  obtain ⟨d', h, hlast⟩ := exists_tiles_trimLast n h
  exact ((spread_go (.nil d) h).append_kept hlast).of_kept hfirst

theorem mem_trimFirst (hb : b ∈ bs) (hc : b.changed = true) : b ∈ trimFirst n bs := by
  cases bs with
  | nil => contradiction
  | cons b' rest =>
    rw [trimFirst]
    split
    . exact hb
    . next h =>
      rcases List.mem_cons.1 hb with rfl | hb
      . exact absurd hc h
      . exact List.mem_cons_of_mem _ hb

theorem mem_trimLast (hb : b ∈ bs) (hc : b.changed = true) : b ∈ trimLast n bs := by
  fun_induction trimLast n bs with
  | case1 => contradiction
  | case2 => exact hb
  | case3 b' h =>
    cases List.mem_singleton.1 hb
    exact absurd hc h
  | case4 b' b'' rest ih =>
    rcases List.mem_cons.1 hb with rfl | hb
    . exact List.mem_cons_self
    . exact List.mem_cons_of_mem _ (ih hb)

theorem exists_mem_go (hb : b ∈ group ++ rest) (hc : b.changed = true)
    : ∃ g ∈ groups.go n group rest, b ∈ g := by
  induction rest generalizing group with
  | nil =>
    rw [List.append_nil] at hb
    unfold groups.go
    rw [if_pos (List.any_eq_true.2 ⟨b, hb, hc⟩)]
    exact ⟨group, List.mem_singleton_self _, hb⟩
  | cons b' rest ih =>
    unfold groups.go
    split
    . next h =>
      obtain ⟨hc', _⟩ : b'.changed = false ∧ 2 * n < b'.oldLength := by simpa using h
      rcases List.mem_append.1 hb with hb | hb
      . exact ⟨_, List.mem_cons_self, List.mem_append_left _ hb⟩
      . rcases List.mem_cons.1 hb with rfl | hb
        . rw [hc'] at hc
          contradiction
        . obtain ⟨g, hg, hbg⟩ := ih (List.mem_append_right [b'.lastPart n] hb)
          exact ⟨g, List.mem_cons_of_mem _ hg, hbg⟩
    . apply ih
      rwa [List.append_assoc]

theorem exists_mem_groups (hb : b ∈ bs) (hc : b.changed = true) : ∃ g ∈ groups n bs, b ∈ g :=
  exists_mem_go (mem_trimLast (mem_trimFirst hb hc) hc) hc

theorem groups_singleton (hc : b.changed = false) : groups n [b] = [] := by
  have hpart : ((b.lastPart n).firstPart n).oldLength ≤ n := Nat.min_le_left _ _
  rw [groups, trimFirst, if_neg (by simp [hc]), trimLast, if_neg (by simp [Block.lastPart, kept]),
    groups.go, if_neg]
  . rfl
  . simp only [Bool.and_eq_true, decide_eq_true_eq, not_and]
    omega

end Block
end SharedWorkspace
