import SharedWorkspace.Diff.Compaction
import SharedWorkspace.Diff.Search

/-!
Blocks: the runs of kept and of changed tokens that a script comes down to, and groups of blocks:
changes that lie close together, with a few kept tokens around them.
-/

namespace SharedWorkspace

structure Block where
  changed : Bool
  oldStart : Nat
  oldLength : Nat
  newStart : Nat
  newLength : Nat
  deriving DecidableEq

namespace Block

def kept (oldStart newStart length : Nat) : Block where
  changed := false
  oldStart
  oldLength := length
  newStart
  newLength := length

def ofEdit : Edit → Block
  | .equal old new length => kept old new length
  | .delete old length new => ⟨true, old, length, new, 0⟩
  | .insert old new length => ⟨true, old, 0, new, length⟩

def join (a b : Block) : Block where
  changed := true
  oldStart := if a.oldLength = 0 ∧ b.oldLength ≠ 0 then b.oldStart else a.oldStart
  oldLength := a.oldLength + b.oldLength
  newStart := if a.newLength = 0 ∧ b.newLength ≠ 0 then b.newStart else a.newStart
  newLength := a.newLength + b.newLength

/--
The blocks of a script: neighbours that are both kept, or both changed, make one block.
-/
def ofScript : List Edit → List Block
  | [] => []
  | e :: es => go (ofEdit e) es
where
  go (b : Block) : List Edit → List Block
    | [] => [b]
    | e :: es =>
      let next := ofEdit e
      if b.changed then
        if next.changed then go (b.join next) es else b :: go next es
      else
        if next.changed then
          b :: go next es
        else
          go { b with
            oldLength := b.oldLength + next.oldLength
            newLength := b.newLength + next.newLength } es

def lastPart (n : Nat) (b : Block) : Block :=
  let offset := b.oldLength - n
  kept (b.oldStart + offset) (b.newStart + offset) (b.oldLength - offset)

def firstPart (n : Nat) (b : Block) : Block :=
  kept b.oldStart b.newStart (min n b.oldLength)

def trimFirst (n : Nat) : List Block → List Block
  | b :: rest => if b.changed then b :: rest else b.lastPart n :: rest
  | [] => []

def trimLast (n : Nat) : List Block → List Block
  | [] => []
  | [b] => if b.changed then [b] else [b.firstPart n]
  | b :: b' :: rest => b :: trimLast n (b' :: rest)

/--
Groups of blocks: where more than `2 * n` tokens are kept, one group ends with the first `n` of them
and the next one begins with the last. `group` is the group that has been begun.
-/
def groups.go (n : Nat) (group : List Block) : List Block → List (List Block)
  | [] => if group.any changed then [group] else []
  | b :: rest =>
    if !b.changed && 2 * n < b.oldLength then
      (group ++ [b.firstPart n]) :: go n [b.lastPart n] rest
    else
      go n (group ++ [b]) rest

def groups (n : Nat) (bs : List Block) : List (List Block) :=
  groups.go n [] (trimLast n (trimFirst n bs))

end Block

namespace Diff

def compactScript {α : Type} [DecidableEq α] (xs ys : List α) : List Edit :=
  compact xs ys (script 0 0 xs ys)

end Diff
end SharedWorkspace
