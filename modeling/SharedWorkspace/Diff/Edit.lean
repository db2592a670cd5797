/-!
Edits: the steps that turn one list of tokens into another. A script is a list of edits, in the order
of the tokens that they concern.
-/

namespace SharedWorkspace

/--
A step of a script. The positions are those of the first token concerned, in the old and in the new
list.
-/
inductive Edit where
  | equal (old new length : Nat)
  | delete (old length new : Nat)
  | insert (old new length : Nat)
  deriving DecidableEq

namespace Edit

def isDelete : Edit → Bool
  | delete _ _ _ => true
  | _ => false

def isInsert : Edit → Bool
  | insert _ _ _ => true
  | _ => false

def oldLength : Edit → Nat
  | equal _ _ length => length
  | delete _ length _ => length
  | insert _ _ _ => 0

def newLength : Edit → Nat
  | equal _ _ length => length
  | delete _ _ _ => 0
  | insert _ _ length => length

end Edit

namespace Diff

variable {α : Type} [DecidableEq α]

def commonPrefix : List α → List α → Nat
  | x :: xs, y :: ys => if x = y then commonPrefix xs ys + 1 else 0
  | _, _ => 0

def commonSuffix (xs ys : List α) : Nat :=
  commonPrefix xs.reverse ys.reverse

theorem take_commonPrefix (xs ys : List α) :
    xs.take (commonPrefix xs ys) = ys.take (commonPrefix xs ys) := by
  fun_induction commonPrefix xs ys <;> simp_all

theorem commonPrefix_le_left (xs ys : List α) : commonPrefix xs ys ≤ xs.length := by
  fun_induction commonPrefix xs ys <;> simp_all

theorem commonPrefix_le_right (xs ys : List α) : commonPrefix xs ys ≤ ys.length := by
  fun_induction commonPrefix xs ys <;> simp_all

end Diff
end SharedWorkspace
