import SharedWorkspace.Yaml.Source

/-!
The blanks and line ends between two words of a scalar that need not stay in one line.
-/

namespace SharedWorkspace
namespace Yaml

structure Gap where
  blanks : List Char := []
  breaks : List Char := []
  /--
  A line end that does not count stands before the gap.
  -/
  afterBreak : Bool := false

namespace Gap

def isEmpty (g : Gap) : Bool :=
  g.blanks.isEmpty && g.breaks.isEmpty

def inLine (g : Gap) : Bool :=
  g.breaks.isEmpty && !g.afterBreak

def add (g : Gap) (c : Char) : Gap :=
  if isBreak c then { g with breaks := g.breaks ++ [c] }
  else if g.inLine then { g with blanks := g.blanks ++ [c] }
  else g

/--
What a gap contributes to a scalar. A single line end is as good as a space, and the first of
several ones counts for nothing.
-/
def text (g : Gap) : List Char :=
  if g.afterBreak then
    g.breaks
  else
    match g.breaks with
    | [] => g.blanks
    | ['\n'] => [' ']
    | '\n' :: breaks => breaks
    | breaks => breaks

end Gap
end Yaml
end SharedWorkspace
