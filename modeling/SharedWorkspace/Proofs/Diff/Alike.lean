import Mathlib.Data.List.Chain
import SharedWorkspace.Proofs.Diff.Groups
import SharedWorkspace.Proofs.Diff.Script

/-!
Blocks that are alike: they take the same tokens, but may differ in the position on a side of which they take
nothing. The blocks of a script that leads through two lists are alike with blocks that tile them
(`exists_tiles_ofScript`), and blocks that are alike are grouped alike (`forall₂_groups`). That much is said of
a script by `Diff.Sound`, and that no edit is empty by `Diff.Proper`; the script by which texts are compared
always is both (`proper_compactScript`).
-/

namespace SharedWorkspace

open Diff

variable {α : Type} {xs ys : List α} {c d : Cut} {e : Edit} {es : List Edit}

namespace Block

variable {a a' b b' : Block} {bs bs' group group' g : List Block} {n : Nat}

structure Alike (b b' : Block) : Prop where
  changed : b'.changed = b.changed
  oldLength : b'.oldLength = b.oldLength
  newLength : b'.newLength = b.newLength
  oldStart : b.changed = false ∨ b.oldLength ≠ 0 → b'.oldStart = b.oldStart
  newStart : b.changed = false ∨ b.newLength ≠ 0 → b'.newStart = b.newStart

namespace Alike

theorem refl (b : Block) : b.Alike b where
  changed := rfl
  oldLength := rfl
  newLength := rfl
  oldStart _ := rfl
  newStart _ := rfl

theorem eq_of_kept (h : b.Alike b') (hc : b.changed = false) : b' = b := by
  obtain ⟨changed, oldLength, newLength, oldStart, newStart⟩ := h
  cases b
  cases b'
  simp_all

theorem join (ha : a.Alike a') (hb : b.Alike b') : (a.join b).Alike (a'.join b') where
  changed := rfl
  oldLength := congrArg₂ _ ha.oldLength hb.oldLength
  newLength := congrArg₂ _ ha.newLength hb.newLength
  oldStart h := by
    dsimp [Block.join] at h ⊢
    rw [ha.oldLength, hb.oldLength]
    split
    . exact hb.oldStart (by omega)
    . exact ha.oldStart (by simp_all)
  newStart h := by
    dsimp [Block.join] at h ⊢
    rw [ha.newLength, hb.newLength]
    split
    . exact hb.newStart (by omega)
    . exact ha.newStart (by simp_all)

end Alike

theorem join_start (h : a.stop = b.start) : (a.join b).start = a.start := by
  obtain ⟨hold, hnew⟩ := Cut.mk.inj h
  unfold start join
  dsimp
  congr 1
  . split <;> omega
  . split <;> omega

theorem join_stop (h : a.stop = b.start) : (a.join b).stop = b.stop := by
  obtain ⟨hold, hnew⟩ := Cut.mk.inj h
  obtain ⟨hold', hnew'⟩ := Cut.mk.inj (join_start h)
  unfold stop
  rw [hold', hnew']
  dsimp [join]
  congr 1 <;> omega

theorem Fits.join (hb : b.Fits xs ys) (h : a.stop = b.start) : (a.join b).Fits xs ys where
  old := by
    have := (Cut.mk.inj (join_stop h)).1
    rw [this]
    exact hb.old
  new := by
    have := (Cut.mk.inj (join_stop h)).2
    rw [this]
    exact hb.new
  same := by
    intro hc
    contradiction

def merge (a b : Block) : Block :=
  { a with
    oldLength := a.oldLength + b.oldLength
    newLength := a.newLength + b.newLength }

theorem Fits.merge (ha : a.Fits xs ys) (hb : b.Fits xs ys) (h : a.stop = b.start)
    (hca : a.changed = false) (hcb : b.changed = false) : (a.merge b).Fits xs ys := by
  obtain ⟨hold, hnew⟩ := Cut.mk.inj h
  obtain ⟨halength, haslice⟩ := ha.same hca
  obtain ⟨hblength, hbslice⟩ := hb.same hcb
  have := hb.old
  have := hb.new
  constructor
  . dsimp [Block.merge]
    omega
  . dsimp [Block.merge]
    omega
  . intro _
    refine ⟨congrArg₂ _ halength hblength, ?_⟩
    dsimp [Block.merge]
    rw [slice_add, slice_add, haslice, hold, hbslice, ← hnew, halength]

theorem merge_stop (h : a.stop = b.start) : (a.merge b).stop = b.stop := by
  obtain ⟨hold, hnew⟩ := Cut.mk.inj h
  unfold stop Block.merge
  dsimp
  congr 1 <;> omega

def placed (b : Block) (c : Cut) : Block :=
  { b with
    oldStart := c.old
    newStart := c.new }

theorem placed_stop (e : Edit) (c : Cut) : ((ofEdit e).placed c).stop = e.stop c := by
  cases e <;> rfl

theorem alike_placed (he : e.Fits xs ys c) : (ofEdit e).Alike ((ofEdit e).placed c) where
  changed := rfl
  oldLength := rfl
  newLength := rfl
  oldStart h := by
    cases e with
    | equal => exact he.1.symm
    | delete => exact he.1.symm
    | insert => simp [ofEdit] at h
  newStart h := by
    cases e with
    | equal => exact he.2.1.symm
    | delete => simp [ofEdit] at h
    | insert => exact he.1.symm

theorem fits_placed (he : e.Fits xs ys c)
    (hle : (e.stop c).old ≤ xs.length ∧ (e.stop c).new ≤ ys.length)
    : ((ofEdit e).placed c).Fits xs ys where
  old := by
    rw [← placed_stop] at hle
    exact hle.1
  new := by
    rw [← placed_stop] at hle
    exact hle.2
  same hc := by
    cases e with
    | equal =>
      obtain ⟨rfl, rfl, _, hslice⟩ := he
      exact ⟨rfl, hslice⟩
    | delete => contradiction
    | insert => contradiction

theorem exists_tiles_go (hb : b.Alike b') (hf : b'.Fits xs ys)
    (h : Leads xs ys b'.stop es ⟨xs.length, ys.length⟩)
    : ∃ bs, List.Forall₂ Alike (ofScript.go b es) bs ∧
        Tiles xs ys b'.start bs ⟨xs.length, ys.length⟩ := by
  -- Each block is followed by the one that has its positions from where the script has come, instead of from
  -- the edits.
  induction es generalizing b b' with
  | nil =>
    refine ⟨[b'], .cons hb .nil, ?_⟩
    generalize hd : (⟨xs.length, ys.length⟩ : Cut) = d at h ⊢
    cases h
    exact .cons rfl hf (.nil _)
  | cons e es ih =>
    obtain ⟨he, h⟩ := Leads.cons_iff.1 h
    have ha := alike_placed he
    have hfe := fits_placed he h.le
    rw [← placed_stop] at h
    have hnext : ∃ bs, List.Forall₂ Alike (b :: ofScript.go (ofEdit e) es) bs ∧
        Tiles xs ys b'.start bs ⟨xs.length, ys.length⟩ := by
      obtain ⟨bs, hbs, ht⟩ := ih ha hfe h
      exact ⟨b' :: bs, .cons hb hbs, .cons rfl hf ht⟩
    unfold ofScript.go
    dsimp only
    split
    . split
      . obtain ⟨bs, hbs, ht⟩ := ih (hb.join ha) (hfe.join rfl) (by rwa [join_stop rfl])
        rw [join_start rfl] at ht
        exact ⟨bs, hbs, ht⟩
      . exact hnext
    . next hc =>
      split
      . exact hnext
      . next hce =>
        have hc : b.changed = false := by simpa using hc
        have hce : (ofEdit e).changed = false := by simpa using hce
        have hkept := hb.eq_of_kept hc
        have hekept := ha.eq_of_kept hce
        subst hkept
        rw [hekept] at hfe h
        have hstart : b'.stop = (ofEdit e).start := by
          rw [← hekept]
          rfl
        obtain ⟨bs, hbs, ht⟩ := ih (.refl (b'.merge (ofEdit e))) (hf.merge hfe hstart hc hce)
          (by rwa [merge_stop hstart])
        exact ⟨bs, hbs, ht⟩

/--
The blocks of a script that leads through two lists tile them, but for positions that do not matter.
-/
theorem exists_tiles_ofScript (h : Leads xs ys ⟨0, 0⟩ es ⟨xs.length, ys.length⟩)
    : ∃ bs, List.Forall₂ Alike (ofScript es) bs ∧ Tiles xs ys ⟨0, 0⟩ bs ⟨xs.length, ys.length⟩ := by
  cases es with
  | nil =>
    generalize hd : (⟨xs.length, ys.length⟩ : Cut) = d at h ⊢
    cases h
    exact ⟨[], .nil, .nil _⟩
  | cons e es =>
    obtain ⟨he, h⟩ := Leads.cons_iff.1 h
    exact exists_tiles_go (alike_placed he) (fits_placed he h.le) (by rwa [placed_stop])

theorem forall₂_eq_of_kept (h : List.Forall₂ Alike bs bs') (hkept : ∀ b ∈ bs, b.changed = false)
    : bs' = bs := by
  induction h with
  | nil => rfl
  | cons hb _ ih =>
    obtain ⟨hc, hkept⟩ := List.forall_mem_cons.1 hkept
    rw [hb.eq_of_kept hc, ih hkept]

theorem forall₂_trimFirst (h : List.Forall₂ Alike bs bs')
    : List.Forall₂ Alike (trimFirst n bs) (trimFirst n bs') := by
  cases h with
  | nil => exact .nil
  | cons hb h =>
    rw [trimFirst, trimFirst, hb.changed]
    split
    . exact .cons hb h
    . next hc =>
      rw [hb.eq_of_kept (by simpa using hc)]
      exact .cons (.refl _) h

theorem forall₂_trimLast (h : List.Forall₂ Alike bs bs')
    : List.Forall₂ Alike (trimLast n bs) (trimLast n bs') := by
  induction h with
  | nil => exact .nil
  | @cons b b' bs bs' hb h ih =>
    cases h with
    | nil =>
      unfold trimLast
      rw [hb.changed]
      split
      . exact .cons hb .nil
      . next hc =>
        rw [hb.eq_of_kept (by simpa using hc)]
        exact .cons (.refl _) .nil
    | cons => exact .cons hb ih

theorem map_changed_eq (h : List.Forall₂ Alike bs bs') : bs'.map changed = bs.map changed := by
  induction h with
  | nil => rfl
  | cons hb _ ih => rw [List.map_cons, List.map_cons, hb.changed, ih]

theorem any_changed_eq (h : List.Forall₂ Alike bs bs') : bs'.any changed = bs.any changed := by
  have := congrArg (fun cs => cs.any id) (map_changed_eq h)
  rwa [List.any_map, List.any_map] at this

theorem forall₂_go (hg : List.Forall₂ Alike group group') (h : List.Forall₂ Alike bs bs')
    : List.Forall₂ (List.Forall₂ Alike) (groups.go n group bs) (groups.go n group' bs') := by
  induction h generalizing group group' with
  | nil =>
    unfold groups.go
    rw [any_changed_eq hg]
    split
    . exact .cons hg .nil
    . exact .nil
  | @cons b b' bs bs' hb h ih =>
    unfold groups.go
    rw [hb.changed, hb.oldLength]
    split
    . next hc =>
      have hc : b.changed = false := (by simpa using hc : b.changed = false ∧ _).1
      rw [hb.eq_of_kept hc]
      exact .cons (List.rel_append hg (.cons (.refl _) .nil)) (ih (.cons (.refl _) .nil))
    . exact ih (List.rel_append hg (.cons hb .nil))

theorem forall₂_groups (h : List.Forall₂ Alike bs bs')
    : List.Forall₂ (List.Forall₂ Alike) (groups n bs) (groups n bs') := by
  unfold groups
  exact forall₂_go .nil (forall₂_trimLast (forall₂_trimFirst h))

def Keeps (b : Block) : Prop :=
  b.changed = false ∧ 0 < b.oldLength

theorem exists_keeps_of_mem_go (hn : 0 < n) (hg : ∃ b ∈ group, b.Keeps)
    (h : g ∈ groups.go n group bs) : ∃ b ∈ g, b.Keeps := by
  induction bs generalizing group with
  | nil =>
    unfold groups.go at h
    split at h
    . cases List.mem_singleton.1 h
      exact hg
    . contradiction
  | cons b bs ih =>
    obtain ⟨k, hk, hkeeps⟩ := hg
    unfold groups.go at h
    split at h
    . next hc =>
      obtain ⟨hc, hlength⟩ : b.changed = false ∧ 2 * n < b.oldLength := by simpa using hc
      rcases List.mem_cons.1 h with rfl | h
      . exact ⟨k, List.mem_append_left _ hk, hkeeps⟩
      . refine ih ⟨b.lastPart n, List.mem_singleton_self _, rfl, ?_⟩ h
        dsimp [lastPart, kept]
        omega
    . exact ih ⟨k, List.mem_append_left _ hk, hkeeps⟩ h

theorem Keeps.firstPart (h : b.Keeps) (hn : 0 < n) : (b.firstPart n).Keeps :=
  ⟨rfl, Nat.lt_min.2 ⟨hn, h.2⟩⟩

theorem Keeps.lastPart (h : b.Keeps) (hn : 0 < n) : (b.lastPart n).Keeps := by
  obtain ⟨_, hlength⟩ := h
  refine ⟨rfl, ?_⟩
  dsimp [Block.lastPart, kept]
  omega

theorem exists_keeps_of_mem_go_cons (hn : 0 < n) (hb : b.Keeps) (h : g ∈ groups.go n group (b :: bs))
    : ∃ b ∈ g, b.Keeps := by
  unfold groups.go at h
  split at h
  . rcases List.mem_cons.1 h with rfl | h
    . exact ⟨_, List.mem_append_right _ (List.mem_singleton_self _), hb.firstPart hn⟩
    . exact exists_keeps_of_mem_go hn ⟨_, List.mem_singleton_self _, hb.lastPart hn⟩ h
  . exact exists_keeps_of_mem_go hn ⟨b, List.mem_append_right _ (List.mem_singleton_self _), hb⟩ h

theorem exists_keeps_trimFirst (hn : 0 < n) (hk : b.Keeps) (hb : b ∈ bs) : ∃ b ∈ trimFirst n bs, b.Keeps := by
  cases bs with
  | nil => contradiction
  | cons b' rest =>
    rw [trimFirst]
    split
    . exact ⟨b, hb, hk⟩
    . rcases List.mem_cons.1 hb with rfl | hb
      . exact ⟨_, List.mem_cons_self, hk.lastPart hn⟩
      . exact ⟨b, List.mem_cons_of_mem _ hb, hk⟩

theorem exists_keeps_trimLast (hn : 0 < n) (hk : b.Keeps) (hb : b ∈ bs) : ∃ b ∈ trimLast n bs, b.Keeps := by
  fun_induction trimLast n bs with
  | case1 => contradiction
  | case2 => exact ⟨b, hb, hk⟩
  | case3 b' =>
    cases List.mem_singleton.1 hb
    exact ⟨_, List.mem_singleton_self _, hk.firstPart hn⟩
  | case4 b' b'' rest ih =>
    rcases List.mem_cons.1 hb with rfl | hb
    . exact ⟨b, List.mem_cons_self, hk⟩
    . obtain ⟨k, hmem, hk⟩ := ih hb
      exact ⟨k, List.mem_cons_of_mem _ hmem, hk⟩

theorem exists_keeps_go {a : Block} (hn : 0 < n) (hk : b.Keeps) (hb : b ∈ group ++ bs)
    (ha : a.changed = true) (hmem : a ∈ group ++ bs) : ∃ g ∈ groups.go n group bs, ∃ b ∈ g, b.Keeps := by
  induction bs generalizing group with
  | nil =>
    rw [List.append_nil] at hb hmem
    unfold groups.go
    rw [if_pos (List.any_eq_true.2 ⟨a, hmem, ha⟩)]
    exact ⟨group, List.mem_singleton_self _, b, hb, hk⟩
  | cons b' bs ih =>
    unfold groups.go
    split
    . next hc =>
      -- The group that ends here ends with something kept.
      obtain ⟨hc, hlength⟩ : b'.changed = false ∧ 2 * n < b'.oldLength := by simpa using hc
      have hk' : b'.Keeps := ⟨hc, Nat.zero_lt_of_lt hlength⟩
      exact ⟨_, List.mem_cons_self, _, List.mem_append_right _ (List.mem_singleton_self _),
        hk'.firstPart hn⟩
    . apply ih
      . rwa [List.append_assoc]
      . rwa [List.append_assoc]

theorem exists_keeps_mem_groups {a : Block} (hn : 0 < n) (hk : b.Keeps) (hb : b ∈ bs)
    (ha : a.changed = true) (hmem : a ∈ bs) : ∃ g ∈ groups n bs, ∃ b ∈ g, b.Keeps := by
  obtain ⟨b, hb, hk⟩ := exists_keeps_trimFirst hn hk hb
  obtain ⟨b, hb, hk⟩ := exists_keeps_trimLast hn hk hb
  exact exists_keeps_go hn hk hb ha (mem_trimLast (mem_trimFirst hmem ha) ha)

theorem exists_trimLast_cons (hn : 0 < n) (b : Block) (bs : List Block)
    : ∃ b' bs', trimLast n (b :: bs) = b' :: bs' ∧ (b.Keeps → b'.Keeps) := by
  cases bs with
  | nil =>
    unfold trimLast
    split
    . exact ⟨b, [], rfl, id⟩
    . exact ⟨_, [], rfl, fun h => h.firstPart hn⟩
  | cons b' bs => exact ⟨b, _, rfl, id⟩

def Filled (b : Block) : Prop :=
  0 < b.oldLength ∨ b.changed = true ∧ 0 < b.newLength

theorem Filled.keeps (h : b.Filled) (hc : b.changed = false) : b.Keeps :=
  ⟨hc, h.resolve_right (by simp [hc])⟩

theorem Keeps.filled (h : b.Keeps) : b.Filled :=
  .inl h.2

theorem Filled.join (ha : a.Filled) : (a.join b).Filled := by
  rcases ha with ha | ⟨-, ha⟩
  . exact .inl (Nat.add_pos_left ha _)
  . exact .inr ⟨rfl, Nat.add_pos_left ha _⟩

theorem filled_ofEdit (h : 0 < e.oldLength + e.newLength) : (ofEdit e).Filled := by
  cases e with
  | equal _ _ n =>
    have : 0 < n + n := h
    exact .inl (by dsimp [ofEdit, kept]; omega)
  | delete => exact .inl h
  | insert => exact .inr ⟨rfl, by simpa [ofEdit, Edit.oldLength, Edit.newLength] using h⟩

theorem Alike.filled (h : b.Alike b') (hb : b.Filled) : b'.Filled := by
  unfold Filled
  rw [h.changed, h.oldLength, h.newLength]
  exact hb

/--
The blocks take something, and no change follows upon another one.
-/
structure Spaced (bs : List Block) : Prop where
  filled : ∀ b ∈ bs, b.Filled
  apart : (bs.map changed).IsChain fun c c' => c = true → c' = false

theorem Spaced.keeps_second (h : Spaced (b :: b' :: bs)) (hc : b.changed = true) : b'.Keeps :=
  (h.filled b' (List.mem_cons_of_mem _ List.mem_cons_self)).keeps
    ((List.isChain_cons_cons.1 h.apart).1 hc)

theorem Spaced.of_mem_groups (h : Spaced bs) (hn : 0 < n) (hg : g ∈ groups n bs)
    : (∃ b ∈ g, b.Keeps) ∨ ∃ b, bs = [b] ∧ g = [b] := by
  unfold groups at hg
  match bs, h with
  | [], _ => contradiction
  | [b], h =>
    cases hc : b.changed with
    | false =>
      rw [← groups, groups_singleton hc] at hg
      contradiction
    | true =>
      rw [trimFirst, if_pos hc, trimLast, if_pos hc] at hg
      refine .inr ⟨b, rfl, ?_⟩
      simpa [groups.go, hc] using hg
  | b :: b' :: rest, h =>
    left
    obtain ⟨b'', rest', htrim, hkeeps⟩ := exists_trimLast_cons hn b' rest
    cases hc : b.changed with
    | false =>
      rw [trimFirst, if_neg (by simp [hc]), trimLast] at hg
      exact exists_keeps_of_mem_go_cons hn (((h.filled b List.mem_cons_self).keeps hc).lastPart hn) hg
    | true =>
      rw [trimFirst, if_pos hc, trimLast, htrim, groups.go, if_neg (by simp [hc])] at hg
      exact exists_keeps_of_mem_go_cons hn (hkeeps (h.keeps_second hc)) hg

theorem Spaced.cons (hb : b.Filled) (h : Spaced bs)
    (hc : ∀ b' ∈ bs.head?, b.changed = true → b'.changed = false) : Spaced (b :: bs) where
  filled := List.forall_mem_cons.2 ⟨hb, h.filled⟩
  apart := by
    rw [List.map_cons]
    refine h.apart.cons ?_
    rw [List.head?_map]
    intro c hmem hb
    obtain ⟨b', hb', rfl⟩ := Option.map_eq_some_iff.1 hmem
    exact hc b' hb' hb

theorem spaced_go (hb : b.Filled) (hes : ∀ e ∈ es, 0 < e.oldLength + e.newLength)
    : Spaced (ofScript.go b es) := by
  induction es generalizing b with
  | nil => exact ⟨List.forall_mem_singleton.2 hb, .singleton _⟩
  | cons e es ih =>
    obtain ⟨he, hes⟩ := List.forall_mem_cons.1 hes
    obtain ⟨b', bs, hbs, hc'⟩ := exists_go_eq_cons (ofEdit e) es
    have hnext : b.changed = false ∨ (ofEdit e).changed = false
        → Spaced (b :: ofScript.go (ofEdit e) es) := by
      intro h
      refine .cons hb (ih (filled_ofEdit he) hes) ?_
      rw [hbs]
      rintro _ ⟨⟩ hc
      rw [hc']
      exact h.resolve_left (by simp [hc])
    unfold ofScript.go
    dsimp only
    split
    . split
      . exact ih hb.join hes
      . next hce => exact hnext (.inr (by simpa using hce))
    . next hc =>
      have hc : b.changed = false := by simpa using hc
      split
      . exact hnext (.inl hc)
      . exact ih (.inl (Nat.add_pos_left (hb.keeps hc).2 _)) hes

theorem spaced_ofScript (h : ∀ e ∈ es, 0 < e.oldLength + e.newLength) : Spaced (ofScript es) := by
  cases es with
  | nil => exact ⟨List.forall_mem_nil _, .nil⟩
  | cons e es =>
    obtain ⟨he, hes⟩ := List.forall_mem_cons.1 h
    exact spaced_go (filled_ofEdit he) hes

theorem Spaced.of_alike (h : Spaced bs) (ha : List.Forall₂ Alike bs bs') : Spaced bs' := by
  obtain ⟨hfilled, hapart⟩ := h
  rw [← map_changed_eq ha] at hapart
  refine ⟨?_, hapart⟩
  clear hapart
  induction ha with
  | nil => exact hfilled
  | cons hb _ ih =>
    obtain ⟨hf, hfilled⟩ := List.forall_mem_cons.1 hfilled
    exact List.forall_mem_cons.2 ⟨hb.filled hf, ih hfilled⟩

theorem spaced_trimFirst (hn : 0 < n) (h : Spaced bs) : Spaced (trimFirst n bs) := by
  cases bs with
  | nil => exact h
  | cons b bs =>
    obtain ⟨hb, hbs⟩ := List.forall_mem_cons.1 h.filled
    rw [trimFirst]
    split
    . exact h
    . next hc =>
      have hc : b.changed = false := by simpa using hc
      refine ⟨List.forall_mem_cons.2 ⟨((hb.keeps hc).lastPart hn).filled, hbs⟩, ?_⟩
      have := h.apart
      rw [List.map_cons, hc] at this
      exact this

theorem map_changed_trimLast (n : Nat) (bs : List Block) : (trimLast n bs).map changed = bs.map changed := by
  fun_induction trimLast n bs with
  | case1 => rfl
  | case2 => rfl
  | case3 b hc =>
    have hc : b.changed = false := by simpa using hc
    exact congrArg (fun c => [c]) hc.symm
  | case4 b b' rest ih => exact congrArg (b.changed :: ·) ih

theorem filled_trimLast (hn : 0 < n) (h : ∀ b ∈ bs, b.Filled) : ∀ b ∈ trimLast n bs, b.Filled := by
  fun_induction trimLast n bs with
  | case1 => exact h
  | case2 => exact h
  | case3 b hc =>
    have hb := (List.forall_mem_singleton.1 h).keeps (by simpa using hc)
    exact List.forall_mem_singleton.2 (hb.firstPart hn).filled
  | case4 b b' rest ih =>
    obtain ⟨hb, hrest⟩ := List.forall_mem_cons.1 h
    exact List.forall_mem_cons.2 ⟨hb, ih hrest⟩

theorem Spaced.split (hn : 0 < n) (h : Spaced (group ++ b :: bs)) (hc : b.changed = false)
    : Spaced (group ++ [b.firstPart n]) ∧ Spaced (b.lastPart n :: bs) := by
  obtain ⟨hgroup, hrest⟩ := List.forall_mem_append.1 h.filled
  obtain ⟨hb, hbs⟩ := List.forall_mem_cons.1 hrest
  have hapart := h.apart
  rw [List.map_append, List.map_cons, hc, List.isChain_split] at hapart
  refine ⟨⟨?_, ?_⟩, ?_, hapart.2⟩
  . exact List.forall_mem_append.2 ⟨hgroup, List.forall_mem_singleton.2 ((hb.keeps hc).firstPart hn).filled⟩
  . rw [List.map_append]
    exact hapart.1
  . exact List.forall_mem_cons.2 ⟨((hb.keeps hc).lastPart hn).filled, hbs⟩

theorem spaced_of_mem_go (hn : 0 < n) (h : Spaced (group ++ bs)) (hg : g ∈ groups.go n group bs)
    : Spaced g := by
  induction bs generalizing group with
  | nil =>
    rw [List.append_nil] at h
    unfold groups.go at hg
    split at hg
    . cases List.mem_singleton.1 hg
      exact h
    . contradiction
  | cons b bs ih =>
    unfold groups.go at hg
    split at hg
    . next hc =>
      obtain ⟨hfirst, hlast⟩ := h.split hn (by simpa using hc : b.changed = false ∧ _).1
      rcases List.mem_cons.1 hg with rfl | hg
      . exact hfirst
      . exact ih hlast hg
    . refine ih ?_ hg
      rwa [List.append_assoc]

theorem spaced_of_mem_groups (hn : 0 < n) (h : Spaced bs) (hg : g ∈ groups n bs) : Spaced g := by
  obtain ⟨hfilled, hapart⟩ := spaced_trimFirst hn h
  refine spaced_of_mem_go hn ⟨filled_trimLast hn hfilled, ?_⟩ hg
  rw [List.nil_append, map_changed_trimLast]
  exact hapart

end Block

namespace Diff

def Traverses (xs ys : List α) (es : List Edit) : Prop :=
  ∃ bs, List.Forall₂ Block.Alike (Block.ofScript es) bs ∧
    Block.Tiles xs ys ⟨0, 0⟩ bs ⟨xs.length, ys.length⟩

theorem Leads.traverses (h : Leads xs ys ⟨0, 0⟩ es ⟨xs.length, ys.length⟩) : Traverses xs ys es :=
  Block.exists_tiles_ofScript h

/--
What a script is good for, though it may give any position on a side of which it takes nothing: it leads
through both lists, and changes nothing if there is no difference.
-/
structure Sound (xs ys : List α) (es : List Edit) : Prop where
  traverses : Traverses xs ys es
  kept_of_eq : xs = ys → ∀ b ∈ Block.ofScript es, b.changed = false

theorem Traverses.eq_of_kept (h : Traverses xs ys es) (hkept : ∀ b ∈ Block.ofScript es, b.changed = false)
    : xs = ys := by
  obtain ⟨bs, hbs, ht⟩ := h
  have hsame := Block.forall₂_eq_of_kept hbs hkept
  subst hsame
  exact (ht.kept hkept).eq_of_ends

theorem sound_compactScript [DecidableEq α] (xs ys : List α) : Sound xs ys (compactScript xs ys) where
  traverses := (leads_compactScript xs ys).traverses
  kept_of_eq := by
    rintro rfl b hb
    rw [compactScript_self, keep] at hb
    split at hb
    . contradiction
    . cases List.mem_singleton.1 hb
      rfl

/--
A sound script of which no edit is empty.
-/
structure Proper (xs ys : List α) (es : List Edit) : Prop extends Sound xs ys es where
  length_pos : ∀ e ∈ es, 0 < e.oldLength + e.newLength

theorem proper_compactScript [DecidableEq α] (xs ys : List α) : Proper xs ys (compactScript xs ys) where
  toSound := sound_compactScript xs ys
  length_pos := (leads_compactScript xs ys).length_pos

end Diff
end SharedWorkspace
