import SharedWorkspace.Diff.Block

/-!
Blocks as ways through two lists of tokens. `Tiles` says what it means that they lead from one point to another
one, tokens that are kept being the same in both lists.
-/

namespace SharedWorkspace

open Diff

variable {α : Type} {xs ys : List α}

namespace Diff

theorem slice_add (xs : List α) (i m n : Nat)
    : slice xs i (m + n) = slice xs i m ++ slice xs (i + m) n := by
  unfold slice
  rw [List.take_add, List.drop_drop]

theorem slice_append_drop (xs : List α) (i n : Nat)
    : slice xs i n ++ xs.drop (i + n) = xs.drop i := by
  unfold slice
  rw [← List.drop_drop]
  exact List.take_append_drop n _

theorem slice_eq_drop {i n : Nat} (h : i + n = xs.length) : slice xs i n = xs.drop i := by
  unfold slice
  apply List.take_of_length_le
  rw [List.length_drop]
  omega

theorem length_slice {i n : Nat} (h : i + n ≤ xs.length) : (slice xs i n).length = n := by
  unfold slice
  rw [List.length_take, List.length_drop]
  omega

theorem slice_slice {i n m k : Nat} (h : m + k ≤ n) : slice (slice xs i n) m k = slice xs (i + m) k := by
  unfold slice
  rw [List.drop_take, List.take_take, List.drop_drop, Nat.min_eq_left (by omega)]

theorem map_slice {β : Type} (f : α → β) (xs : List α) (i n : Nat)
    : (slice xs i n).map f = slice (xs.map f) i n := by
  unfold slice
  rw [List.map_take, List.map_drop]

def Kept (xs ys : List α) (c d : Cut) : Prop :=
  ∃ n, d = ⟨c.old + n, c.new + n⟩ ∧ slice xs c.old n = slice ys c.new n

namespace Kept

variable {c d e : Cut}

theorem refl (c : Cut) : Kept xs ys c c :=
  ⟨0, rfl, rfl⟩

theorem trans (h : Kept xs ys c d) (h' : Kept xs ys d e) : Kept xs ys c e := by
  obtain ⟨n, rfl, hn⟩ := h
  obtain ⟨m, rfl, hm⟩ := h'
  refine ⟨n + m, ?_, ?_⟩
  . rw [Nat.add_assoc, Nat.add_assoc]
  . rw [slice_add, slice_add, hn, hm]

theorem eq_of_ends (h : Kept xs ys ⟨0, 0⟩ ⟨xs.length, ys.length⟩) : xs = ys := by
  obtain ⟨n, hn, hs⟩ := h
  obtain ⟨hx, hy⟩ := Cut.mk.inj hn
  rw [slice_eq_drop hx.symm, slice_eq_drop hy.symm] at hs
  exact hs

end Kept
end Diff

namespace Block

def start (b : Block) : Cut :=
  ⟨b.oldStart, b.newStart⟩

def stop (b : Block) : Cut :=
  ⟨b.oldStart + b.oldLength, b.newStart + b.newLength⟩

structure Fits (xs ys : List α) (b : Block) : Prop where
  old : b.oldStart + b.oldLength ≤ xs.length
  new : b.newStart + b.newLength ≤ ys.length
  same : b.changed = false →
    b.newLength = b.oldLength ∧ slice xs b.oldStart b.oldLength = slice ys b.newStart b.oldLength

/--
One after another, the blocks lead from a point to another one.
-/
inductive Tiles (xs ys : List α) : Cut → List Block → Cut → Prop where
  | nil (c : Cut) : Tiles xs ys c [] c
  | cons {b : Block} {bs : List Block} {c d : Cut} (hs : b.start = c) (hb : b.Fits xs ys)
      (h : Tiles xs ys b.stop bs d) : Tiles xs ys c (b :: bs) d

namespace Tiles

variable {c d e : Cut} {bs bs' : List Block}

theorem append (h : Tiles xs ys c bs d) (h' : Tiles xs ys d bs' e) : Tiles xs ys c (bs ++ bs') e := by
  induction h with
  | nil => exact h'
  | cons hs hb _ ih => exact .cons hs hb (ih h')

theorem fits (h : Tiles xs ys c bs d) : ∀ b ∈ bs, b.Fits xs ys := by
  induction h with
  | nil => nofun
  | cons _ hb _ ih => exact List.forall_mem_cons.2 ⟨hb, ih⟩

theorem le_length (h : Tiles xs ys c bs d) (hc : c.old ≤ xs.length ∧ c.new ≤ ys.length)
    : d.old ≤ xs.length ∧ d.new ≤ ys.length := by
  induction h with
  | nil => exact hc
  | cons _ hb _ ih => exact ih ⟨hb.old, hb.new⟩

theorem kept (h : Tiles xs ys c bs d) (hbs : ∀ b ∈ bs, b.changed = false) : Kept xs ys c d := by
  induction h with
  | nil c => exact .refl c
  | @cons b bs c d hs hb _ ih =>
    obtain ⟨hb', hbs⟩ := List.forall_mem_cons.1 hbs
    obtain ⟨hlength, hslice⟩ := hb.same hb'
    subst hs
    refine Kept.trans ⟨b.oldLength, ?_, hslice⟩ (ih hbs)
    unfold stop start
    rw [hlength]

end Tiles

theorem exists_go_eq_cons (b : Block) (es : List Edit)
    : ∃ b' bs, ofScript.go b es = b' :: bs ∧ b'.changed = b.changed := by
  induction es generalizing b with
  | nil => exact ⟨b, [], rfl, rfl⟩
  | cons e es ih =>
    unfold ofScript.go
    dsimp only
    split
    . next hb =>
      split
      . obtain ⟨b', bs, hbs, hc⟩ := ih (b.join (ofEdit e))
        exact ⟨b', bs, hbs, hc.trans hb.symm⟩
      . exact ⟨b, _, rfl, rfl⟩
    . split
      . exact ⟨b, _, rfl, rfl⟩
      . exact ih _

theorem go_eq_singleton {b : Block} {es : List Edit}
    (h : ∀ b' ∈ ofScript.go b es, b'.changed = false) : ∃ b', ofScript.go b es = [b'] := by
  induction es generalizing b with
  | nil => exact ⟨b, rfl⟩
  | cons e es ih =>
    unfold ofScript.go at h ⊢
    dsimp only at h ⊢
    split at h
    . next hb =>
      rw [if_pos hb]
      split at h
      . next he =>
        rw [if_pos he]
        exact ih h
      . rw [h b List.mem_cons_self] at hb
        contradiction
    . next hb =>
      rw [if_neg hb]
      split at h
      . next he =>
        -- What follows begins with a change.
        obtain ⟨b', bs, hbs, hc⟩ := exists_go_eq_cons (ofEdit e) es
        rw [h b' (List.mem_cons_of_mem _ (hbs ▸ List.mem_cons_self)), he] at hc
        contradiction
      . next he =>
        rw [if_neg he]
        exact ih h

theorem ofScript_eq_nil_or_singleton {es : List Edit} (h : ∀ b ∈ ofScript es, b.changed = false)
    : ofScript es = [] ∨ ∃ b, ofScript es = [b] := by
  cases es with
  | nil => exact .inl rfl
  | cons e es => exact .inr (go_eq_singleton h)

end Block

end SharedWorkspace
