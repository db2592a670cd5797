import SharedWorkspace.Yaml.Token.Gap

/-!
Plain scalars: words without quotes, ended by the characters that have a meaning of their own.
-/

namespace SharedWorkspace
namespace Yaml
namespace Plain

def startsHere (flow : Bool) : Source → Bool
  | [] => false
  | c :: rest =>
    if c.char = '-' then
      !isNextIn " \t" rest
    else if c.char = '?' ∨ c.char = ':' then
      !flow && !atWordEnd rest
    else
      !(isBlank c.char || isBreak c.char || ",[]\x7b\x7d#&*!|>'\"%@`".toList.contains c.char)

structure Reading where
  text : List Char
  crossed : Bool
  rest : Source

def endsBeforeWord (flow : Bool) (indent : Nat) (s : Source) : Bool :=
  atBoundary s || startsWith '#' s || (!flow && s.head?.any (·.column < indent))

def endsAt (flow : Bool) (c : Char) (rest : Source) : Bool :=
  (c = ':' && atWordEnd rest) || (flow && ",[]\x7b\x7d".toList.contains c)

/--
The rest of a scalar after the gap `g`. A tab is refused where a line has to be indented, and
between brackets a colon before a sign.
-/
def take (flow : Bool) (indent : Nat) (g : Gap) : Source → Option Reading
  | [] => some ⟨[], !g.breaks.isEmpty, []⟩
  | c :: rest =>
    if isBlank c.char || isBreak c.char then
      if c.char = '\t' && !g.inLine && c.column < indent then
        none
      else
        take flow indent (g.add c.char) rest
    else if !g.isEmpty && endsBeforeWord flow indent (c :: rest) then
      some ⟨[], !g.breaks.isEmpty, c :: rest⟩
    else if flow && c.char = ':' && isNextIn ",?[]\x7b\x7d" rest then
      none
    else if endsAt flow c.char rest then
      some ⟨[], !g.breaks.isEmpty, c :: rest⟩
    else
      (take flow indent {} rest).map fun r => { r with text := g.text ++ c.char :: r.text }

end Plain
end Yaml
end SharedWorkspace
