import SharedWorkspace.Proofs.Diff.Block

/-!
Scripts as ways through two lists of tokens. The edits of a script take up both lists, one after another
(`Leads`), but an edit may give a wrong position on the side of which it takes nothing: when compaction
exchanges a deletion with an insertion, both keep their positions. `leads_compactScript` says that nothing
worse happens.
-/

namespace SharedWorkspace

open Diff

variable {α : Type} {xs ys : List α} {c d : Cut} {es fs : List Edit}

namespace Edit

def stop (e : Edit) (c : Cut) : Cut :=
  ⟨c.old + e.oldLength, c.new + e.newLength⟩

/--
From the point `c` on, the edit takes what it says that it takes, and that is something.
-/
def Fits (xs ys : List α) (c : Cut) : Edit → Prop
  | equal old new n => old = c.old ∧ new = c.new ∧ 0 < n ∧ slice xs old n = slice ys new n
  | delete old n _ => old = c.old ∧ 0 < n
  | insert _ new n => new = c.new ∧ 0 < n

theorem Fits.length_pos {e : Edit} (h : e.Fits xs ys c) : 0 < e.oldLength + e.newLength := by
  cases e with
  | equal => exact Nat.add_pos_left h.2.2.1 _
  | delete => exact h.2
  | insert => exact Nat.add_pos_right _ h.2

end Edit

namespace Diff

theorem drop_slice (xs : List α) (i n k : Nat) : (slice xs i n).drop k = slice xs (i + k) (n - k) := by
  unfold slice
  rw [List.drop_take, List.drop_drop]

theorem take_slice (xs : List α) (i n k : Nat) : (slice xs i n).take k = slice xs i (min k n) := by
  unfold slice
  rw [List.take_take]

theorem length_slice_le (xs : List α) (i n : Nat) : (slice xs i n).length ≤ n :=
  List.length_take_le n _

section Common

variable [DecidableEq α]

theorem commonSuffix_le_left (xs ys : List α) : commonSuffix xs ys ≤ xs.length := by
  have h := commonPrefix_le_left xs.reverse ys.reverse
  rwa [List.length_reverse] at h

theorem commonSuffix_le_right (xs ys : List α) : commonSuffix xs ys ≤ ys.length := by
  have h := commonPrefix_le_right xs.reverse ys.reverse
  rwa [List.length_reverse] at h

theorem drop_commonSuffix (xs ys : List α)
    : xs.drop (xs.length - commonSuffix xs ys) = ys.drop (ys.length - commonSuffix xs ys) := by
  have h := take_commonPrefix xs.reverse ys.reverse
  rw [List.take_reverse, List.take_reverse] at h
  exact List.reverse_inj.1 h

end Common

inductive Leads (xs ys : List α) : Cut → List Edit → Cut → Prop where
  | nil (c : Cut) : Leads xs ys c [] c
  | cons {e : Edit} {es : List Edit} {c d : Cut} (he : e.Fits xs ys c)
      (h : Leads xs ys (e.stop c) es d) : Leads xs ys c (e :: es) d

namespace Leads

theorem cons_iff {e : Edit}
    : Leads xs ys c (e :: es) d ↔ e.Fits xs ys c ∧ Leads xs ys (e.stop c) es d := by
  constructor
  . intro h
    cases h with
    | cons he h => exact ⟨he, h⟩
  . rintro ⟨he, h⟩
    exact .cons he h

theorem append_iff
    : Leads xs ys c (es ++ fs) d ↔ ∃ m, Leads xs ys c es m ∧ Leads xs ys m fs d := by
  constructor
  . intro h
    induction es generalizing c with
    | nil => exact ⟨c, .nil c, h⟩
    | cons e es ih =>
      cases h with
      | cons he h =>
        obtain ⟨m, h₁, h₂⟩ := ih h
        exact ⟨m, .cons he h₁, h₂⟩
  . rintro ⟨m, h₁, h₂⟩
    induction h₁ with
    | nil => exact h₂
    | cons he _ ih => exact .cons he (ih h₂)

theorem length_pos (h : Leads xs ys c es d) : ∀ e ∈ es, 0 < e.oldLength + e.newLength := by
  induction h with
  | nil => nofun
  | cons he _ ih => exact List.forall_mem_cons.2 ⟨he.length_pos, ih⟩

theorem le (h : Leads xs ys c es d) : c.old ≤ d.old ∧ c.new ≤ d.new := by
  induction h with
  | nil => exact ⟨Nat.le_refl _, Nat.le_refl _⟩
  | cons _ _ ih =>
    dsimp [Edit.stop] at ih
    omega

theorem shift {i j i' j' : Nat} (h : Leads xs ys ⟨i, j⟩ es d) (hi : i' = i) (hj : j' = j)
    : Leads xs ys ⟨i', j'⟩ es d := by
  subst hi hj
  exact h

theorem swap_iff {old length new iold inew ilength : Nat}
    : Leads xs ys c (.delete old length new :: .insert iold inew ilength :: es) d ↔
        Leads xs ys c (.insert iold inew ilength :: .delete old length new :: es) d := by
  simp only [cons_iff, Edit.Fits, Edit.stop, Edit.oldLength, Edit.newLength, Nat.add_zero]
  exact and_left_comm

theorem merge_delete {old length new old' length' new' : Nat}
    (h : Leads xs ys c (.delete old length new :: .delete old' length' new' :: es) d)
    : Leads xs ys c (.delete old (length + length') new :: es) d := by
  obtain ⟨⟨rfl, hpos⟩, h⟩ := cons_iff.1 h
  obtain ⟨_, h⟩ := cons_iff.1 h
  exact .cons ⟨rfl, Nat.add_pos_left hpos _⟩ (h.shift (Nat.add_assoc _ _ _).symm rfl)

theorem merge_insert {old new length old' new' length' : Nat}
    (h : Leads xs ys c (.insert old new length :: .insert old' new' length' :: es) d)
    : Leads xs ys c (.insert old new (length + length') :: es) d := by
  obtain ⟨⟨rfl, hpos⟩, h⟩ := cons_iff.1 h
  obtain ⟨_, h⟩ := cons_iff.1 h
  exact .cons ⟨rfl, Nat.add_pos_left hpos _⟩ (h.shift rfl (Nat.add_assoc _ _ _).symm)

theorem replace {gs : List Edit} {d' : Cut} (h : Leads xs ys c (es ++ fs) d)
    (hr : ∀ m, Leads xs ys m fs d → Leads xs ys m gs d') : Leads xs ys c (es ++ gs) d' := by
  obtain ⟨m, h₁, h₂⟩ := append_iff.1 h
  exact append_iff.2 ⟨m, h₁, hr m h₂⟩

end Leads

namespace Focus

def edits (f : Focus) : List Edit :=
  f.before.reverse ++ f.edit :: f.after

variable {p q s : Nat} {before after : List Edit} {edit : Edit}

theorem edits_cons (e : Edit) (before : List Edit) (edit : Edit) (after : List Edit)
    : edits ⟨e :: before, edit, after⟩ = before.reverse ++ e :: edit :: after := by
  simp [edits]

theorem leads_growAfter (hp : s ≤ p) (hq : s ≤ q) (hs : 0 < s)
    (hslice : slice xs (p - s) s = slice ys (q - s) s) (h : Leads xs ys ⟨p, q⟩ after d)
    : Leads xs ys ⟨p - s, q - s⟩ (growAfter p q s after) d := by
  unfold growAfter
  split
  . obtain ⟨⟨hold, hnew, _, hlength⟩, h⟩ := Leads.cons_iff.1 h
    dsimp at hold hnew
    subst hold hnew
    refine .cons ⟨rfl, rfl, by omega, ?_⟩ ?_
    . rw [Nat.add_comm, slice_add, slice_add, Nat.sub_add_cancel hp, Nat.sub_add_cancel hq, hslice,
        hlength]
    . apply h.shift
      . dsimp [Edit.oldLength]
        omega
      . dsimp [Edit.newLength]
        omega
  . refine .cons ⟨rfl, rfl, hs, hslice⟩ ?_
    exact h.shift (Nat.sub_add_cancel hp) (Nat.sub_add_cancel hq)

theorem leads_growBefore (hs : 0 < s) (hslice : slice xs p s = slice ys q s)
    (h : Leads xs ys c before.reverse ⟨p, q⟩)
    : Leads xs ys c (growBefore p q s before).reverse ⟨p + s, q + s⟩ := by
  unfold growBefore
  split
  . next old new length rest =>
    rw [List.reverse_cons] at h ⊢
    apply h.replace
    intro m hm
    obtain ⟨⟨rfl, rfl, _, hlength⟩, hm⟩ := Leads.cons_iff.1 hm
    cases hm
    refine .cons ⟨rfl, rfl, by omega, ?_⟩ ?_
    . rw [slice_add, slice_add, hlength]
      exact congrArg _ hslice
    . dsimp [Edit.stop, Edit.oldLength, Edit.newLength]
      rw [Nat.add_assoc, Nat.add_assoc]
      exact .nil _
  . rw [List.reverse_cons]
    exact Leads.append_iff.2 ⟨_, h, .cons ⟨rfl, rfl, hs, hslice⟩ (.nil _)⟩

section Moves

variable [DecidableEq α]

theorem slice_commonSuffix {i j m n : Nat} (hi : i + m ≤ xs.length) (hj : j + n ≤ ys.length)
    (hs : s = commonSuffix (slice xs i m) (slice ys j n))
    : slice xs (i + m - s) s = slice ys (j + n - s) s := by
  have hm : s ≤ m := by
    rw [hs]
    exact Nat.le_trans (commonSuffix_le_left _ _) (length_slice_le _ _ _)
  have hn : s ≤ n := by
    rw [hs]
    exact Nat.le_trans (commonSuffix_le_right _ _) (length_slice_le _ _ _)
  have h := drop_commonSuffix (slice xs i m) (slice ys j n)
  rw [← hs, drop_slice, drop_slice, length_slice hi, length_slice hj, Nat.sub_sub_self hm,
    Nat.sub_sub_self hn] at h
  rw [Nat.add_sub_assoc hm, Nat.add_sub_assoc hn, h]

theorem leads_slideUp {old new length iold inew ilength : Nat}
    (hd : d.old ≤ xs.length ∧ d.new ≤ ys.length)
    (hs : s = commonSuffix (slice xs old length) (slice ys inew ilength)) (hs' : 0 < s ∧ s ≤ length)
    (h : Leads xs ys c (.equal old new length :: .insert iold inew ilength :: after) d)
    : Leads xs ys c ((if length = s then [] else [.equal old new (length - s)]) ++
        .insert (iold - s) (inew - s) ilength :: growAfter (old + length) (inew + ilength) s after) d := by
  obtain ⟨⟨rfl, rfl, _, hlength⟩, h⟩ := Leads.cons_iff.1 h
  obtain ⟨⟨rfl, hpos⟩, h⟩ := Leads.cons_iff.1 h
  have hle := h.le
  dsimp [Edit.stop, Edit.oldLength, Edit.newLength] at hs hle ⊢
  have hslice := slice_commonSuffix (by omega) (by omega) hs
  have hgrown := leads_growAfter (by omega) (by omega) hs'.1 hslice h
  have hinsert : Leads xs ys ⟨c.old + (length - s), c.new + (length - s)⟩
      (.insert (iold - s) (c.new + length - s) ilength ::
        growAfter (c.old + length) (c.new + length + ilength) s after) d := by
    refine .cons ⟨Nat.add_sub_assoc hs'.2 _, hpos⟩ (hgrown.shift ?_ ?_)
    . dsimp [Edit.oldLength]
      omega
    . dsimp [Edit.newLength]
      omega
  split
  . exact hinsert.shift (by omega) (by omega)
  . refine .cons ⟨rfl, rfl, by omega, ?_⟩ hinsert
    have := congrArg (List.take (length - s)) hlength
    rw [take_slice, take_slice, Nat.min_eq_left (Nat.sub_le _ _)] at this
    exact this

theorem leads_slideDown {old new length iold inew ilength : Nat}
    (hs : s = commonPrefix (slice xs old length) (slice ys inew ilength)) (hs' : 0 < s ∧ s ≤ length)
    (h : Leads xs ys c (before.reverse ++ .insert iold inew ilength :: .equal old new length :: after) d)
    : Leads xs ys c ((growBefore old inew s before).reverse ++ .insert (iold + s) (inew + s) ilength ::
        ((if length = s then [] else [.equal (old + s) (new + s) (length - s)]) ++ after)) d := by
  obtain ⟨m, hbefore, h⟩ := Leads.append_iff.1 h
  obtain ⟨⟨rfl, hpos⟩, h⟩ := Leads.cons_iff.1 h
  obtain ⟨⟨rfl, rfl, _, hlength⟩, h⟩ := Leads.cons_iff.1 h
  dsimp [Edit.stop, Edit.oldLength, Edit.newLength] at hs hlength h ⊢
  have hslice : slice xs m.old s = slice ys m.new s := by
    have hle : s ≤ ilength := by
      rw [hs]
      exact Nat.le_trans (commonPrefix_le_right _ _) (length_slice_le _ _ _)
    have := take_commonPrefix (slice xs m.old length) (slice ys m.new ilength)
    rwa [← hs, take_slice, take_slice, Nat.min_eq_left hs'.2, Nat.min_eq_left hle] at this
  refine Leads.append_iff.2 ⟨_, leads_growBefore hs'.1 hslice hbefore, .cons ⟨rfl, hpos⟩ ?_⟩
  dsimp [Edit.stop, Edit.oldLength, Edit.newLength]
  split
  . next hs =>
    exact h.shift (by omega) (by omega)
  . refine .cons ⟨rfl, by dsimp; omega, by omega, ?_⟩ (h.shift ?_ ?_)
    . have := congrArg (List.drop s) hlength
      rw [drop_slice, drop_slice] at this
      exact this
    . dsimp [Edit.stop, Edit.oldLength]
      omega
    . dsimp [Edit.stop, Edit.newLength]
      omega

theorem leads_moveUp (hd : d.old ≤ xs.length ∧ d.new ≤ ys.length)
    (h : Leads xs ys c (edits ⟨before, edit, after⟩) d)
    : Leads xs ys c (moveUp xs ys before edit after).edits d := by
  fun_induction moveUp xs ys before edit after with
  | case1 after old new length before iold inew ilength s hs _ _ hall ih =>
    rw [edits_cons] at h
    have := h.replace fun m => leads_slideUp hd rfl hs
    rw [if_pos hall] at this
    exact ih this
  | case2 after old new length before iold inew ilength s hs _ _ hall ih =>
    apply ih
    rw [edits_cons] at h ⊢
    have := h.replace fun m => leads_slideUp hd rfl hs
    rw [if_neg hall] at this
    exact this
  | case3 => exact h
  | case4 _ _ _ _ _ _ _ _ ih =>
    rw [edits_cons] at h
    exact ih (h.replace fun m => Leads.swap_iff.1)
  | case5 _ _ _ _ _ _ _ _ ih =>
    rw [edits_cons] at h
    exact ih (h.replace fun m => Leads.swap_iff.2)
  | case6 _ _ _ _ _ _ _ _ ih =>
    rw [edits_cons] at h
    exact ih (h.replace fun m => Leads.merge_insert)
  | case7 _ _ _ _ _ _ _ _ ih =>
    rw [edits_cons] at h
    exact ih (h.replace fun m => Leads.merge_delete)
  | case8 => exact h

theorem leads_moveDown (h : Leads xs ys c (edits ⟨before, edit, after⟩) d)
    : Leads xs ys c (moveDown xs ys before edit after).edits d := by
  fun_induction moveDown xs ys before edit after with
  | case1 before old new length after iold inew ilength s hs _ _ hall ih =>
    have := leads_slideDown rfl hs h
    rw [if_pos hall] at this
    exact ih this
  | case2 before old new length after iold inew ilength s hs _ _ hall ih =>
    have := leads_slideDown rfl hs h
    rw [if_neg hall] at this
    exact ih this
  | case3 => exact h
  | case4 _ _ _ _ _ _ _ _ ih =>
    apply ih
    rw [edits_cons]
    exact h.replace fun m => Leads.swap_iff.2
  | case5 _ _ _ _ _ _ _ _ ih =>
    apply ih
    rw [edits_cons]
    exact h.replace fun m => Leads.swap_iff.1
  | case6 _ _ _ _ _ _ _ _ ih => exact ih (h.replace fun m => Leads.merge_insert)
  | case7 _ _ _ _ _ _ _ _ ih => exact ih (h.replace fun m => Leads.merge_delete)
  | case8 => exact h

theorem leads_settle (hd : d.old ≤ xs.length ∧ d.new ≤ ys.length) {f : Focus}
    (h : Leads xs ys c f.edits d) : Leads xs ys c (settle xs ys f).edits d := by
  unfold settle
  exact leads_moveDown (leads_moveUp hd h)

end Moves

end Focus

section Search

variable [DecidableEq α]

theorem leads_settleAll (hd : d.old ≤ xs.length ∧ d.new ≤ ys.length) {moves : Edit → Bool}
    {before : List Edit} (h : Leads xs ys c (before.reverse ++ es) d)
    : Leads xs ys c (settleAll xs ys moves before es) d := by
  fun_induction settleAll xs ys moves before es with
  | case1 before => rwa [List.append_nil] at h
  | case2 before edit after _ f _ ih =>
    apply ih
    rw [List.reverse_cons, List.append_assoc]
    exact Focus.leads_settle hd h
  | case3 before edit after _ f _ =>
    rw [List.reverse_cons, List.append_assoc]
    exact Focus.leads_settle hd h
  | case4 before edit after _ ih =>
    apply ih
    rwa [List.reverse_cons, List.append_assoc]

theorem leads_compact (hd : d.old ≤ xs.length ∧ d.new ≤ ys.length) (h : Leads xs ys c es d)
    : Leads xs ys c (compact xs ys es) d := by
  have hdeletes : Leads xs ys c (settleAll xs ys Edit.isDelete [] es) d := leads_settleAll hd h
  exact leads_settleAll hd hdeletes

end Search

section Script

variable {i j i' j' : Nat} {us us' vs vs' : List α}

theorem slice_length_append_iff
    : slice xs i (us ++ us').length = us ++ us' ↔
        slice xs i us.length = us ∧ slice xs (i + us.length) us'.length = us' := by
  rw [List.length_append, slice_add]
  constructor
  . intro h
    apply List.append_inj h
    have := congrArg List.length h
    rw [List.length_append, List.length_append] at this
    have := length_slice_le xs i us.length
    have := length_slice_le xs (i + us.length) us'.length
    omega
  . rintro ⟨h, h'⟩
    rw [h, h']

/--
Where the tokens `us` and `vs` stand, the script leads past them. It need not be told where that is on a side
on which there are none.
-/
def Turns (xs ys : List α) (i j : Nat) (us vs : List α) (es : List Edit) : Prop :=
  ∀ c : Cut, (us ≠ [] → c.old = i) → (vs ≠ [] → c.new = j) → slice xs c.old us.length = us →
    slice ys c.new vs.length = vs → Leads xs ys c es ⟨c.old + us.length, c.new + vs.length⟩

theorem Turns.append (h : Turns xs ys i j us vs es) (h' : Turns xs ys i' j' us' vs' fs)
    (hi' : us' ≠ [] → i' = i + us.length) (hj' : vs' ≠ [] → j' = j + vs.length)
    : Turns xs ys i j (us ++ us') (vs ++ vs') (es ++ fs) := by
  intro c hi hj hus hvs
  obtain ⟨hus, hus'⟩ := slice_length_append_iff.1 hus
  obtain ⟨hvs, hvs'⟩ := slice_length_append_iff.1 hvs
  have hi₀ : us ≠ [] ∨ us' ≠ [] → c.old = i := by
    intro hne
    exact hi (by rcases hne with hne | hne <;> simp [hne])
  have hj₀ : vs ≠ [] ∨ vs' ≠ [] → c.new = j := by
    intro hne
    exact hj (by rcases hne with hne | hne <;> simp [hne])
  have hes := h c (fun hne => hi₀ (.inl hne)) (fun hne => hj₀ (.inl hne)) hus hvs
  have hfs := h' ⟨c.old + us.length, c.new + vs.length⟩
    (fun hne => by rw [hi' hne, ← hi₀ (.inr hne)])
    (fun hne => by rw [hj' hne, ← hj₀ (.inr hne)]) hus' hvs'
  rw [List.length_append, List.length_append, ← Nat.add_assoc, ← Nat.add_assoc]
  exact Leads.append_iff.2 ⟨_, hes, hfs⟩

theorem length_take_of_drop_ne_nil {n : Nat} (h : us.drop n ≠ []) : (us.take n).length = n := by
  apply List.length_take_of_le
  have := List.length_pos_iff.2 h
  rw [List.length_drop] at this
  omega

theorem turns_keep {n : Nat} (h : us = vs) (hn : us.length = n)
    : Turns xs ys i j us vs (keep i j n) := by
  intro c hi hj hus hvs
  subst h hn
  unfold keep
  split
  . next h =>
    rw [h]
    exact .nil c
  . next h =>
    have hne : us ≠ [] := by simpa using h
    rw [← hi hne, ← hj hne]
    exact .cons ⟨rfl, rfl, Nat.pos_of_ne_zero h, hus.trans hvs.symm⟩ (.nil _)

theorem turns_replaceAll [DecidableEq α] : Turns xs ys i j us vs (replaceAll i j us vs) := by
  have hdelete : Turns xs ys i j us [] (if us = [] then [] else [.delete i us.length j]) := by
    intro c hi _ _ _
    split
    . next h =>
      subst h
      exact .nil c
    . next h => exact .cons ⟨(hi h).symm, List.length_pos_iff.2 h⟩ (.nil _)
  have hinsert : Turns xs ys (i + us.length) j [] vs (if vs = [] then [] else [.insert i j vs.length]) := by
    intro c _ hj _ _
    split
    . next h =>
      subst h
      exact .nil c
    . next h => exact .cons ⟨(hj h).symm, List.length_pos_iff.2 h⟩ (.nil _)
  have := hdelete.append hinsert (by simp) (by simp)
  rwa [List.append_nil, List.nil_append] at this

variable [DecidableEq α]

theorem turns_script : Turns xs ys i j us vs (script i j us vs) := by
  fun_induction script i j us vs with
  | case1 i j us vs p s old new i' j' core ih₂ ih₁ =>
    have hp : (us.take p).length = p := List.length_take_of_le (commonPrefix_le_left us vs)
    have hp' : (vs.take p).length = p := List.length_take_of_le (commonPrefix_le_right us vs)
    have hcore : Turns xs ys i' j' old new core := by
      unfold core
      split
      . exact turns_replaceAll
      . split
        . exact turns_replaceAll
        . next a _ =>
          split
          . next h =>
            -- The cut may lie beyond the end of a list; then nothing is left on that side.
            have := (ih₂ a h).append (ih₁ a h)
              (fun hne => by rw [length_take_of_drop_ne_nil hne])
              (fun hne => by rw [length_take_of_drop_ne_nil hne])
            rwa [List.take_append_drop, List.take_append_drop] at this
          . exact turns_replaceAll
    have hstart : us.take p = vs.take p := take_commonPrefix us vs
    have hend : (us.drop p).drop (us.length - p - s) = (vs.drop p).drop (vs.length - p - s) := by
      have := drop_commonSuffix (us.drop p) (vs.drop p)
      rwa [List.length_drop, List.length_drop] at this
    have hs : ((us.drop p).drop (us.length - p - s)).length = s := by
      have := commonSuffix_le_left (us.drop p) (vs.drop p)
      rw [List.length_drop] at this
      rw [List.length_drop, List.length_drop]
      omega
    have h := (turns_keep hstart hp).append hcore (fun _ => by rw [hp]) (fun _ => by rw [hp'])
    have h := h.append (turns_keep hend hs)
      (fun _ => by rw [List.length_append, hp, ← Nat.add_assoc])
      (fun _ => by rw [List.length_append, hp', ← Nat.add_assoc])
    rwa [List.append_assoc, List.append_assoc, List.take_append_drop, List.take_append_drop,
      List.take_append_drop, List.take_append_drop] at h

theorem leads_compactScript (xs ys : List α)
    : Leads xs ys ⟨0, 0⟩ (compactScript xs ys) ⟨xs.length, ys.length⟩ := by
  have hslice : ∀ us : List α, slice us 0 us.length = us := fun _ => List.take_length
  have hturns : Turns xs ys 0 0 xs ys (script 0 0 xs ys) := turns_script
  have h := hturns ⟨0, 0⟩ (fun _ => rfl) (fun _ => rfl) (hslice xs) (hslice ys)
  rw [Nat.zero_add, Nat.zero_add] at h
  exact leads_compact ⟨Nat.le_refl _, Nat.le_refl _⟩ h

theorem commonPrefix_self (xs : List α) : commonPrefix xs xs = xs.length := by
  induction xs with
  | nil => rfl
  | cons x xs ih => rw [commonPrefix, if_pos rfl, ih, List.length_cons]

theorem compactScript_self (xs : List α) : compactScript xs xs = keep 0 0 xs.length := by
  have hscript : script 0 0 xs xs = keep 0 0 xs.length := by
    unfold script
    simp [commonPrefix_self, commonSuffix, replaceAll, keep]
  unfold compactScript compact
  rw [hscript]
  unfold keep
  split
  . simp [settleAll]
  . simp [settleAll, Edit.isInsert, Edit.isDelete]

end Script

end Diff
end SharedWorkspace
