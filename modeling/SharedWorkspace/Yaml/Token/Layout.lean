import SharedWorkspace.Yaml.Token

/-!
How lines and columns become tokens. Block collections start where something is indented further
than what it stands in, and end where something is indented less. That something is a key shows only
at the colon after it; so each place where a key may start is kept, and the tokens of the key are
put there later.
-/

namespace SharedWorkspace
namespace Yaml

structure KeyPlace where
  place : Placed
  index : Nat
  required : Bool

/--
A key is in one line, and its colon comes at most 1024 bytes after its start.
-/
def KeyPlace.outdated (k : KeyPlace) (c : Placed) : Bool :=
  k.place.line < c.line || k.place.offset + 1024 < c.offset

structure Layout where
  tokens : Array Token := #[]
  indent : Int := -1
  outer : List Int := []
  keyAllowed : Bool := true
  keyPlace : Option KeyPlace := none
  around : List (Option KeyPlace) := []

namespace Layout

def inFlow (l : Layout) : Bool :=
  !l.around.isEmpty

def push (l : Layout) (t : Token) : Layout :=
  { l with tokens := l.tokens.push t }

def allowKey (l : Layout) (allowed : Bool) : Layout :=
  { l with keyAllowed := allowed }

/--
Make `column` the one of a new block collection if it is further than that of the innermost one. The
token `t` that starts it goes to the place `index`.
-/
def indentTo (l : Layout) (column index : Nat) (t : Token) : Layout :=
  if !l.inFlow && l.indent < column then
    { l with
      tokens := l.tokens.insertIdxIfInBounds index t
      indent := column
      outer := l.indent :: l.outer }
  else
    l

def dedentTo.go (column : Int) (tokens : Array Token) (indent : Int) :
    List Int → Array Token × Int × List Int
  | [] => (tokens, indent, [])
  | i :: outer =>
    if column < indent then go column (tokens.push .blockEnd) i outer
    else (tokens, indent, i :: outer)

def dedentTo (l : Layout) (column : Int) : Layout :=
  if l.inFlow then
    l
  else
    let (tokens, indent, outer) := dedentTo.go column l.tokens l.indent l.outer
    { l with tokens, indent, outer }

/--
Give up the place for a key, unless nothing else can stand there.
-/
def giveUpKey? (l : Layout) : Option Layout :=
  if l.keyPlace.any (·.required) then none else some { l with keyPlace := none }

def giveUpOutdated? (l : Layout) (c : Placed) : Option Layout :=
  let outdated (k : Option KeyPlace) : Bool := k.any (·.outdated c)
  let places := l.keyPlace :: l.around
  if places.any fun k => outdated k && k.any (·.required) then
    none
  else
    some { l with
      keyPlace := if outdated l.keyPlace then none else l.keyPlace
      around := l.around.map fun k => if outdated k then none else k }

def noteKey? (l : Layout) (c : Placed) : Option Layout :=
  if l.keyAllowed then do
    let l ← l.giveUpKey?
    return { l with
      keyPlace := some
        { place := c, index := l.tokens.size, required := !l.inFlow && l.indent = c.column } }
  else
    some l

def openFlow? (l : Layout) (c : Placed) (t : Token) : Option Layout := do
  let l ← l.noteKey? c
  return { l.push t with keyPlace := none, around := l.keyPlace :: l.around, keyAllowed := true }

def closeFlow? (l : Layout) (t : Token) : Option Layout := do
  let l ← l.giveUpKey?
  let l := match l.around with
    | [] => l
    | k :: around => { l with keyPlace := k, around }
  return (l.push t).allowKey false

def sign? (l : Layout) (c : Placed) (start t : Token) : Option Layout :=
  if l.inFlow || l.keyAllowed then do
    let l ← (l.indentTo c.column l.tokens.size start).giveUpKey?
    return l.push t
  else
    none

def value? (l : Layout) (c : Placed) : Option Layout :=
  match l.keyPlace with
  | some k =>
    let l := { l with tokens := l.tokens.insertIdxIfInBounds k.index .key, keyPlace := none }
    some (((l.indentTo k.place.column k.index .blockMappingStart).push .value).allowKey false)
  | none =>
    if l.inFlow || l.keyAllowed then
      let l := l.indentTo c.column l.tokens.size .blockMappingStart
      some ((l.push .value).allowKey (!l.inFlow))
    else
      none

end Layout
end Yaml
end SharedWorkspace
