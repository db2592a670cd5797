import SharedWorkspace.Yaml.Source

/-!
Block scalars: the lines below a sign that are indented, either kept as they are or folded.
-/

namespace SharedWorkspace
namespace Yaml
namespace Block

/--
What becomes of the line ends after the last line: none, one or all of them stay.
-/
inductive Chomping where
  | strip
  | clip
  | keep
  deriving DecidableEq

structure Header where
  chomping : Chomping := .clip
  indentation : Nat := 0

namespace Header

def takeChomping (h : Header) (s : Source) : Header × Source :=
  if startsWith '+' s then ({ h with chomping := .keep }, s.drop 1)
  else if startsWith '-' s then ({ h with chomping := .strip }, s.drop 1)
  else (h, s)

def takeIndentation (h : Header) (s : Source) : Option (Header × Source) :=
  match s with
  | [] => some (h, [])
  | c :: rest =>
    if c.char = '0' then none
    else if c.char.isDigit then some ({ h with indentation := c.char.toNat - 48 }, rest)
    else some (h, c :: rest)

def take (s : Source) : Option (Header × Source) := do
  let (h, s) ←
    if isNextIn "+-" s then
      let (h, s) := takeChomping {} s
      h.takeIndentation s
    else
      (takeIndentation {} s).map fun (h, s) => h.takeChomping s
  let s ← nextLine? s
  return (h, s)

end Header

structure Margin where
  breaks : List Char := []
  deepest : Nat := 0
  rest : Source := []

/--
Lines are indented up to the column `indent`, or as far as they are if it is not known. No tab may
stand among the spaces of an indentation.
-/
def Margin.take (indent : Option Nat) : Source → Option Margin
  | [] => some {}
  | c :: rest =>
    let before := indent.all (c.column < ·)
    if before ∧ c.char = ' ' then
      take indent rest
    else if before ∧ c.char = '\t' then
      none
    else if isBreak c.char then
      (take indent rest).map fun m =>
        { m with breaks := c.char :: m.breaks, deepest := max c.column m.deepest }
    else
      some { deepest := c.column, rest := c :: rest }

/--
The line end and the empty lines between two lines of a scalar. `near` tells that one of both starts
with a blank; such lines are not folded.
-/
def joint (folded near : Bool) (lineEnd empty : List Char) : List Char :=
  if folded && !near && lineEnd = ['\n'] then
    if empty = [] then [' '] else empty
  else
    lineEnd ++ empty

/--
The lines that are indented up to the column `indent`, after a line with the end `lineEnd` and the
empty lines of `m`. `wasBlank` tells that the line before started with a blank.
-/
def takeLines (steps : Nat) (h : Header) (folded : Bool) (indent : Nat) (wasBlank : Bool)
    (lineEnd : List Char) (m : Margin) : Option (List Char × Source) :=
  match steps with
  | 0 => none
  | steps + 1 =>
    match m.rest with
    | [] => some (tail, [])
    | c :: rest =>
      if c.column = indent then do
        let (line, s) := takeChars (!isBreak ·) (c :: rest)
        let next ← Margin.take (some indent) (s.drop 1)
        let (text, s) ← takeLines steps h folded indent (isBlank c.char)
          ((s.take 1).map (·.char)) next
        return (joint folded (wasBlank || isBlank c.char) lineEnd m.breaks ++ line ++ text, s)
      else
        some (tail, c :: rest)
where
  tail : List Char :=
    match h.chomping with
    | .strip => []
    | .clip => lineEnd
    | .keep => lineEnd ++ m.breaks

def take (folded : Bool) (outer : Int) (s : Source) : Option (List Char × Source) := do
  let (h, s) ← Header.take s
  let m ← Margin.take (if h.indentation = 0 then none else some (inner h 0)) s
  takeLines (s.length + 1) h folded (inner h m.deepest) false [] m
where
  inner (h : Header) (deepest : Nat) : Nat :=
    if h.indentation = 0 then
      max deepest (max (outer + 1).toNat 1)
    else
      outer.toNat + h.indentation

end Block
end Yaml
end SharedWorkspace
