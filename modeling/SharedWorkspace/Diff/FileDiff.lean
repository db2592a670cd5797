import SharedWorkspace.Diff.Block
import SharedWorkspace.Diff.Hunk
import SharedWorkspace.FileTree.Path
import SharedWorkspace.Text.Lines

/-!
What becomes of one file.
-/

namespace SharedWorkspace

inductive DiffType where
  | addition
  | deletion
  | change
  | opaqueChange
  deriving DecidableEq

namespace DiffType

def display : DiffType → String
  | addition => "Addition"
  | deletion => "Deletion"
  | change => "Change"
  | opaqueChange => "Opaque"

def reverse : DiffType → DiffType
  | addition => deletion
  | deletion => addition
  | t => t

end DiffType

structure FileDiff where
  /--
  The file before; it was not there if there is no path.
  -/
  oldPath : Option Path
  newPath : Option Path
  isOpaque : Bool := false
  hunks : List Hunk
  deriving DecidableEq

namespace FileDiff

def opaqueAt (p : Path) : FileDiff where
  oldPath := some p
  newPath := some p
  isOpaque := true
  hunks := []

def contextLines : Nat := 3

def blockLines (old new : List String) (b : Block) : List HunkLine :=
  let texts (kind : LineKind) (ls : List String) : List HunkLine :=
    ls.map fun l => ⟨kind, Text.trimLineEnd l⟩
  let oldSlice := Diff.slice old b.oldStart b.oldLength
  if b.changed then
    texts .removed oldSlice ++ texts .added (Diff.slice new b.newStart b.newLength)
  else
    texts .context oldSlice

/--
The hunk of a group of blocks. It starts where the first of them does.
-/
def hunkOfGroup? (old new : List String) : List Block → Option Hunk
  | [] => none
  | b :: rest =>
    some
      { oldStart := b.oldStart + 1
        newStart := b.newStart + 1
        lines := (b :: rest).flatMap (blockLines old new) }

def hunksBy (edits : List String → List String → List Edit) (old new : String) : List Hunk :=
  let old := Text.terminatedLines old
  let new := Text.terminatedLines new
  (Block.groups contextLines (Block.ofScript (edits old new))).filterMap (hunkOfGroup? old new)

/--
The difference between the contents of the file at `p` before and afterwards. A file that is not
there has no contents.
-/
def ofContentsBy (edits : List String → List String → List Edit) (p : Path)
    (old new : Option String) : FileDiff where
  oldPath := old.map fun _ => p
  newPath := new.map fun _ => p
  hunks := hunksBy edits (old.getD "") (new.getD "")

def ofContents : Path → Option String → Option String → FileDiff :=
  ofContentsBy Diff.compactScript

def type (d : FileDiff) (reversed : Bool) : DiffType :=
  if d.isOpaque then
    .opaqueChange
  else
    let forward : DiffType :=
      match d.oldPath, d.newPath with
      | none, some _ => .addition
      | some _, none => .deletion
      | _, _ => .change
    if reversed then forward.reverse else forward

def targetPath? (d : FileDiff) : Option Path :=
  d.newPath <|> d.oldPath

end FileDiff
end SharedWorkspace
