import SharedWorkspace.Text.Digits

/-!
Hunks: places where two texts differ, line by line, and how they are written.
-/

namespace SharedWorkspace

inductive LineKind where
  | context
  | removed
  | added
  deriving DecidableEq

namespace LineKind

def sign : LineKind → Char
  | context => ' '
  | removed => '-'
  | added => '+'

end LineKind

structure HunkLine where
  kind : LineKind
  text : String
  deriving DecidableEq

structure Hunk where
  /--
  The number of the first line in the old text; lines are counted from one.
  -/
  oldStart : Nat
  newStart : Nat
  lines : List HunkLine
  deriving DecidableEq

namespace Hunk

def linesExcept (h : Hunk) (k : LineKind) : List String :=
  (h.lines.filter (·.kind ≠ k)).map HunkLine.text

def oldLines (h : Hunk) : List String :=
  h.linesExcept .added

def newLines (h : Hunk) : List String :=
  h.linesExcept .removed

def expectedLines (h : Hunk) (reversed : Bool) : List String :=
  if reversed then h.newLines else h.oldLines

def rangeText (start length : Nat) : List Char :=
  Text.digits start ++ ',' :: Text.digits length

def header (h : Hunk) : List Char :=
  "@@ -".toList ++ rangeText h.oldStart h.oldLines.length ++ " +".toList ++
    rangeText h.newStart h.newLines.length ++ " @@\n".toList

def lineText (l : HunkLine) : List Char :=
  l.kind.sign :: l.text.toList ++ ['\n']

def unified (h : Hunk) : String :=
  String.ofList (h.header ++ h.lines.flatMap lineText)

end Hunk
end SharedWorkspace
