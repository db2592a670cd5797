import SharedWorkspace.Yaml.Token.Block
import SharedWorkspace.Yaml.Token.Layout
import SharedWorkspace.Yaml.Token.Plain
import SharedWorkspace.Yaml.Token.Property
import SharedWorkspace.Yaml.Token.Quoted

/-!
The tokens that a text consists of.
-/

namespace SharedWorkspace
namespace Yaml
namespace Token

/--
Skip blanks, line ends and comments, and tell whether a key may start after them. It may after a
line end outside of brackets; where it may, tabs are not skipped.
-/
def skipIdle (flow keyAllowed inComment : Bool) : Source → Bool × Source
  | [] => (keyAllowed, [])
  | c :: rest =>
    if isBreak c.char then
      skipIdle flow (keyAllowed || !flow) false rest
    else if inComment then
      skipIdle flow keyAllowed true rest
    else if c.char = '#' then
      skipIdle flow keyAllowed true rest
    else if c.char = ' ' ∨ (c.char = '\t' ∧ (flow ∨ !keyAllowed)) ∨
        (c.char = '\ufeff' ∧ c.column = 0) then
      skipIdle flow keyAllowed false rest
    else
      (keyAllowed, c :: rest)

def leave? (l : Layout) : Option Layout :=
  ((l.dedentTo (-1)).giveUpKey?).map (·.allowKey false)

def takeBoundary? (l : Layout) (s : Source) : Option (Layout × Source) := do
  let l ← leave? l
  if startsWith '%' s then
    let (t, s) ← Directive.take (s.drop 1)
    return (l.push t, s)
  else
    return (l.push (if startsWith '-' s then .documentStart else .documentEnd), s.drop 3)

/--
An alias, an anchor, a tag or a scalar that is no block scalar: a token that a key may start with.
The answer also says whether a line end was passed after it.
-/
def content? (l : Layout) (c : Placed) (rest : Source) : Option (Token × Bool × Source) :=
  match c.char with
  | '*' => (takeName rest).map fun (name, s) => (.alias name, false, s)
  | '&' => (takeName rest).map fun (name, s) => (.anchor name, false, s)
  | '!' => (Tag.take l.inFlow rest).map fun (t, s) => (t, false, s)
  | '\'' => (Quoted.take '\'' rest).map fun (text, s) => (.scalar .singleQuoted text, false, s)
  | '"' => (Quoted.take '"' rest).map fun (text, s) => (.scalar .doubleQuoted text, false, s)
  | _ =>
    if Plain.startsHere l.inFlow (c :: rest) then
      (Plain.take l.inFlow (l.indent + 1).toNat {} (c :: rest)).map fun r =>
        (.scalar .plain r.text, r.crossed, r.rest)
    else
      none

def takeContent? (l : Layout) (c : Placed) (rest : Source) : Option (Layout × Source) := do
  let l ← l.noteKey? c
  let (t, crossed, s) ← content? l c rest
  return ((l.push t).allowKey crossed, s)

def takeBlock? (folded : Bool) (l : Layout) (rest : Source) : Option (Layout × Source) := do
  let l ← l.giveUpKey?
  let (text, s) ← Block.take folded l.indent rest
  return ((l.push (.scalar (if folded then .folded else .literal) text)).allowKey true, s)

def take? (l : Layout) (c : Placed) (rest : Source) : Option (Layout × Source) :=
  let s := c :: rest
  let apart := l.inFlow || atWordEnd rest
  if (c.column = 0 ∧ c.char = '%') ∨ atBoundary s then
    takeBoundary? l s
  else if c.char = '[' then
    (l.openFlow? c .flowSequenceStart).map fun l => (l, rest)
  else if c.char = '\x7b' then
    (l.openFlow? c .flowMappingStart).map fun l => (l, rest)
  else if c.char = ']' then
    (l.closeFlow? .flowSequenceEnd).map fun l => (l, rest)
  else if c.char = '\x7d' then
    (l.closeFlow? .flowMappingEnd).map fun l => (l, rest)
  else if c.char = ',' then
    l.giveUpKey?.map fun l => ((l.push .flowEntry).allowKey true, rest)
  else if c.char = '-' ∧ atWordEnd rest then
    (l.sign? c .blockSequenceStart .blockEntry).map fun l => (l.allowKey true, rest)
  else if c.char = '?' ∧ apart then
    (l.sign? c .blockMappingStart .key).map fun l => (l.allowKey (!l.inFlow), rest)
  else if c.char = ':' ∧ apart then
    (l.value? c).map fun l => (l, rest)
  else if (c.char = '|' ∨ c.char = '>') ∧ !l.inFlow then
    takeBlock? (c.char = '>') l rest
  else
    takeContent? l c rest

def takeAll? (steps : Nat) (l : Layout) (s : Source) : Option (List Token) :=
  match steps with
  | 0 => none
  | steps + 1 =>
    let (keyAllowed, s) := skipIdle l.inFlow l.keyAllowed false s
    match s with
    | [] => (leave? l).map (·.tokens.toList)
    | c :: rest => do
      let l ← (l.allowKey keyAllowed).giveUpOutdated? c
      let (l, s) ← take? (l.dedentTo c.column) c rest
      takeAll? steps l s

def ofSource? (s : Source) : Option (List Token) :=
  takeAll? (s.length + 1) {} s

end Token
end Yaml
end SharedWorkspace
