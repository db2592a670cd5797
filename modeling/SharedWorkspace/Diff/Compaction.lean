import SharedWorkspace.Diff.Edit

/-!
Compaction of scripts. A block of inserted tokens can often be moved over equal tokens without a
change of meaning; deletions and insertions are moved until they meet others of their kind, which
they are merged with. An edit in the middle of a script is seen together with the edits before it,
the nearest first, and the edits after it.
-/

namespace SharedWorkspace
namespace Diff

variable {α : Type} [DecidableEq α]

structure Focus where
  before : List Edit
  edit : Edit
  after : List Edit

def slice (xs : List α) (i length : Nat) : List α :=
  (xs.drop i).take length

namespace Focus

def weight (es : List Edit) : Nat :=
  es.foldr (fun e n => 1 + e.oldLength + n) 0

/--
The edits with `s` more equal tokens in front, which end at the given positions.
-/
def growAfter (oldEnd newEnd s : Nat) : List Edit → List Edit
  | .equal old new length :: rest => .equal (old - s) (new - s) (length + s) :: rest
  | rest => .equal (oldEnd - s) (newEnd - s) s :: rest

/--
The edits, the nearest first, with `p` more equal tokens at the near end, which start at the given
positions.
-/
def growBefore (old new p : Nat) : List Edit → List Edit
  | .equal old' new' length :: rest => .equal old' new' (length + p) :: rest
  | rest => .equal old new p :: rest

/--
Move the edit towards the beginning as far as it goes: past edits of the other kind, into edits of its
own kind, and over equal tokens if it is an insertion that they can be exchanged with.
-/
def moveUp (xs ys : List α) (before : List Edit) (edit : Edit) (after : List Edit) : Focus :=
  match before, edit with
  | .equal old new length :: before', .insert iold inew ilength =>
    let s := commonSuffix (slice xs old length) (slice ys inew ilength)
    if _h : 0 < s ∧ s ≤ length then
      let after := growAfter (old + length) (inew + ilength) s after
      let edit := Edit.insert (iold - s) (inew - s) ilength
      if length = s then
        moveUp xs ys before' edit after
      else
        moveUp xs ys (.equal old new (length - s) :: before') edit after
    else
      ⟨before, edit, after⟩
  | .delete old length new :: before', .insert iold inew ilength =>
    moveUp xs ys before' (.insert iold inew ilength) (.delete old length new :: after)
  | .insert old new length :: before', .delete dold dlength dnew =>
    moveUp xs ys before' (.delete dold dlength dnew) (.insert old new length :: after)
  | .insert old new length :: before', .insert _ _ ilength =>
    moveUp xs ys before' (.insert old new (length + ilength)) after
  | .delete old length new :: before', .delete _ dlength _ =>
    moveUp xs ys before' (.delete old (length + dlength) new) after
  | before, edit => ⟨before, edit, after⟩
termination_by weight before
decreasing_by
  all_goals
    simp only [weight, List.foldr_cons, Edit.oldLength]
    omega

def moveDown (xs ys : List α) (before : List Edit) (edit : Edit) (after : List Edit) : Focus :=
  match after, edit with
  | .equal old new length :: after', .insert iold inew ilength =>
    let p := commonPrefix (slice xs old length) (slice ys inew ilength)
    if _h : 0 < p ∧ p ≤ length then
      let before := growBefore old inew p before
      let edit := Edit.insert (iold + p) (inew + p) ilength
      if length = p then
        moveDown xs ys before edit after'
      else
        moveDown xs ys before edit (.equal (old + p) (new + p) (length - p) :: after')
    else
      ⟨before, edit, after⟩
  | .delete old length new :: after', .insert iold inew ilength =>
    moveDown xs ys (.delete old length new :: before) (.insert iold inew ilength) after'
  | .insert old new length :: after', .delete dold dlength dnew =>
    moveDown xs ys (.insert old new length :: before) (.delete dold dlength dnew) after'
  | .insert _ _ length :: after', .insert iold inew ilength =>
    moveDown xs ys before (.insert iold inew (ilength + length)) after'
  | .delete _ length _ :: after', .delete dold dlength dnew =>
    moveDown xs ys before (.delete dold (dlength + length) dnew) after'
  | after, edit => ⟨before, edit, after⟩
termination_by weight after
decreasing_by
  all_goals
    simp only [weight, List.foldr_cons, Edit.oldLength]
    omega

def settle (xs ys : List α) (f : Focus) : Focus :=
  let f := moveUp xs ys f.before f.edit f.after
  moveDown xs ys f.before f.edit f.after

end Focus

/--
Settle all edits that `moves` chooses, one after another. An edit that moves never leaves another
one of its kind behind, so there is always one less of them to come.
-/
def settleAll (xs ys : List α) (moves : Edit → Bool) (before : List Edit) :
    List Edit → List Edit
  | [] => before.reverse
  | edit :: after =>
    if _hm : moves edit = true then
      let f := Focus.settle xs ys ⟨before, edit, after⟩
      if _h : f.after.countP moves ≤ after.countP moves then
        settleAll xs ys moves (f.edit :: f.before) f.after
      else
        (f.edit :: f.before).reverse ++ f.after
    else
      settleAll xs ys moves (edit :: before) after
termination_by es => (es.countP moves, es.length)
decreasing_by
  . exact Prod.Lex.left _ _ (by rw [List.countP_cons_of_pos _hm]; exact Nat.lt_succ_of_le _h)
  . rw [List.countP_cons_of_neg _hm]
    exact Prod.Lex.right _ (Nat.lt_succ_self _)

def compact (xs ys : List α) (es : List Edit) : List Edit :=
  settleAll xs ys Edit.isInsert [] (settleAll xs ys Edit.isDelete [] es)

end Diff
end SharedWorkspace
