import SharedWorkspace.Json.Parser
import SharedWorkspace.Text.Digits
import SharedWorkspace.Yaml.Token

/-!
The names of anchors and the tags that may stand before a node, and the directives before a document
that tags depend on.
-/

namespace SharedWorkspace
namespace Yaml

def takeName (s : Source) : Option (List Char × Source) :=
  let (name, rest) := takeChars isNameChar s
  if !name.isEmpty && (atWordEnd rest || isNextIn "?:,]\x7d%@`" rest) then
    some (name, rest)
  else
    none

namespace Tag

def isTagChar (all : Bool) (c : Char) : Bool :=
  isNameChar c || ";/?:@&=+$.!~*'()".toList.contains c || (all && ",[]".toList.contains c)

def byteOf (c : Char) : UInt8 :=
  .ofNat c.toNat

def byte? (a b : Placed) : Option UInt8 := do
  let a ← Json.hexValue? a.char
  let b ← Json.hexValue? b.char
  return .ofNat (16 * a + b)

def followers? (b : UInt8) : Option Nat :=
  if b < 0x80 then some 0
  else if b < 0xC0 then none
  else if b < 0xE0 then some 1
  else if b < 0xF0 then some 2
  else if b < 0xF8 then some 3
  else none

def pendingAfter? (pending : Nat) (b : UInt8) : Option Nat :=
  if pending = 0 then followers? b
  else if 0x80 ≤ b ∧ b < 0xC0 then some (pending - 1)
  else none

/--
The bytes of a tag, and the text after it. A byte may be written as two digits after a percent sign;
those of one character are then all written so.
-/
def takeBytes (all : Bool) (pending : Nat) : Source → Option (List UInt8 × Source)
  | [] => if pending = 0 then some ([], []) else none
  | c :: rest =>
    if c.char = '%' then
      match rest with
      | a :: b :: rest => do
        let byte ← byte? a b
        let (bytes, s) ← takeBytes all (← pendingAfter? pending byte) rest
        return (byte :: bytes, s)
      | _ => none
    else if pending ≠ 0 then
      none
    else if isTagChar all c.char then
      (takeBytes all 0 rest).map fun (bytes, s) => (byteOf c.char :: bytes, s)
    else
      some ([], c :: rest)

def takeText (all : Bool) (start : List Char) (s : Source) : Option (List UInt8 × Source) := do
  let (bytes, rest) ← takeBytes all 0 s
  let text := start.map byteOf ++ bytes
  return (text.takeWhile (· ≠ 0), rest)

def takeNonempty (all : Bool) (s : Source) : Option (List UInt8 × Source) :=
  if isNextIn "%" s || s.head?.any (isTagChar all ·.char) then takeText all [] s else none

/--
A tag, where its exclamation mark has been read: a complete one in angle brackets, one with a handle
that ends in a second exclamation mark, or one with the plain handle. The exclamation mark alone is
a complete tag.
-/
def takeParts (s : Source) : Option (Token × Source) :=
  if startsWith '<' s then do
    let (text, s) ← takeNonempty true (s.drop 1)
    if startsWith '>' s then return (.tag [] text, s.drop 1) else none
  else
    let (name, rest) := takeChars isNameChar s
    if startsWith '!' rest then do
      let (text, s) ← takeNonempty false (rest.drop 1)
      return (.tag ('!' :: name ++ ['!']) text, s)
    else do
      let (text, s) ← takeText false name rest
      return (if text = [] then .tag [] [byteOf '!'] else .tag ['!'] text, s)

def take (flow : Bool) (s : Source) : Option (Token × Source) := do
  let (t, s) ← takeParts s
  if atWordEnd s || (flow && startsWith ',' s) then return (t, s) else none

end Tag

namespace Directive

def takeNumber (s : Source) : Option (Nat × Source) :=
  let (digits, rest) := takeChars Char.isDigit s
  if digits.isEmpty || 9 < digits.length then none else some (Text.readDigits digits, rest)

def takeVersion (s : Source) : Option (Token × Source) := do
  let (major, s) ← takeNumber (skipBlanks s)
  if !startsWith '.' s then
    none
  let (minor, s) ← takeNumber (s.drop 1)
  return (.version major minor, s)

def takeShorthand (s : Source) : Option (Token × Source) := do
  let s := skipBlanks s
  if !startsWith '!' s then
    none
  let (name, s) := takeChars isNameChar (s.drop 1)
  if !(startsWith '!' s || name.isEmpty) then
    none
  let (handle, s) := if startsWith '!' s then ('!' :: name ++ ['!'], s.drop 1) else (['!'], s)
  if !isNextIn " \t" s then
    none
  let (meaning, s) ← Tag.takeNonempty true (skipBlanks s)
  if atWordEnd s then return (.shorthand handle meaning, s) else none

def take (s : Source) : Option (Token × Source) := do
  let (name, s) := takeChars isNameChar s
  if !atWordEnd s then
    none
  let (t, s) ←
    if name = "YAML".toList then takeVersion s
    else if name = "TAG".toList then takeShorthand s
    else none
  return (t, ← nextLine? s)

end Directive
end Yaml
end SharedWorkspace
