import SharedWorkspace.Diff.FileDiff
import SharedWorkspace.FileTree.Basic

/-!
Matching a diff with the file that it is to be applied to: for each hunk, whether the lines that it
expects are there.
-/

namespace SharedWorkspace

structure Matching where
  diff : FileDiff
  reversed : Bool
  flags : List Bool
  target : Option Path
  deriving DecidableEq

inductive MatchFailure where
  | file (path : Path) (fault : FileFault)
  | notText (path : Path)
  deriving DecidableEq

namespace MatchFailure

def message : MatchFailure → String
  | file path fault => "I/O error at " ++ path.text ++ ": " ++ fault.message
  | notText path => "target file " ++ path.text ++ " is not UTF-8 text"

end MatchFailure

namespace Matching

def occursIn (part : List String) : List String → Bool
  | [] => part.isEmpty
  | l :: lines => part.isPrefixOf (l :: lines) || occursIn part lines

/--
Whether the lines that a hunk expects stand in `lines`, the lines of a file; `present` tells whether
the file is there. A hunk that expects nothing matches an empty or missing file only.
-/
def hunkMatches (h : Hunk) (lines : List String) (reversed present : Bool) : Bool :=
  let expected := h.expectedLines reversed
  if expected = [] then
    !present || lines.isEmpty
  else
    occursIn expected lines

def ofFlags (d : FileDiff) (reversed : Bool) (flags : List Bool) : Matching where
  diff := d
  reversed
  flags
  target := d.targetPath?

def againstContents (d : FileDiff) (reversed : Bool) (contents : Option String) : Matching :=
  let lines := (contents.map Text.lines).getD []
  ofFlags d reversed (d.hunks.map fun h => hunkMatches h lines reversed contents.isSome)

def againstFile (t : FileTree) (d : FileDiff) (reversed : Bool) (p : Path) :
    Except MatchFailure Matching :=
  match t.readText p with
  | .ok text => .ok { againstContents d reversed (some text) with target := some p }
  | .error .notFound => .ok { againstContents d reversed none with target := some p }
  | .error .notText => .error (.notText p)
  | .error e => .error (.file p e)

def isMatched (m : Matching) (i : Nat) : Bool :=
  m.flags.getD i false

def count (m : Matching) : Nat :=
  m.flags.count true

def hasMatches (m : Matching) : Bool :=
  0 < m.count

def targetExists (t : FileTree) (m : Matching) : Bool :=
  m.target.any t.isFile

end Matching
end SharedWorkspace
