/-!
The characters of a YAML text, each with its place. A carriage return, a line feed,
both together and a next-line character all end a line in the same way, and are told apart no
longer; a line separator and a paragraph separator end a line too and stay what they are.
-/

namespace SharedWorkspace
namespace Yaml

def isBreak (c : Char) : Bool :=
  c = '\n' ∨ c = '\r' ∨ c = '\u0085' ∨ c = '\u2028' ∨ c = '\u2029'

def isBlank (c : Char) : Bool :=
  c = ' ' ∨ c = '\t'

def isPrintable (c : Char) : Bool :=
  c = '\t' ∨ c = '\n' ∨ c = '\r' ∨ (' ' ≤ c ∧ c ≤ '~') ∨ c = '\u0085' ∨
    ('\u00a0' ≤ c ∧ c.toNat < 0xFFFE) ∨ 0x10000 ≤ c.toNat

def isNameChar (c : Char) : Bool :=
  c.isAlphanum ∨ c = '_' ∨ c = '-'

structure Placed where
  char : Char
  line : Nat
  column : Nat
  offset : Nat

abbrev Source := List Placed

def place (line column offset : Nat) : List Char → Source
  | [] => []
  | '\r' :: '\n' :: cs => ⟨'\n', line, column, offset⟩ :: place (line + 1) 0 0 cs
  | c :: cs =>
    if isBreak c then
      let c := if c = '\u2028' ∨ c = '\u2029' then c else '\n'
      ⟨c, line, column, offset⟩ :: place (line + 1) 0 0 cs
    else
      ⟨c, line, column, offset⟩ :: place line (column + 1) (offset + c.utf8Size) cs

def Source.ofText? (cs : List Char) : Option Source :=
  if cs.all isPrintable then some (place 0 0 0 cs) else none

def atLineEnd : Source → Bool
  | [] => true
  | c :: _ => isBreak c.char

def atWordEnd : Source → Bool
  | [] => true
  | c :: _ => isBlank c.char || isBreak c.char

def startsWith (c : Char) (s : Source) : Bool :=
  s.head?.any (·.char = c)

def isNextIn (cs : String) (s : Source) : Bool :=
  s.head?.any fun c => cs.toList.contains c.char

def atMark (mark : Char) : Source → Bool
  | a :: b :: c :: rest =>
    a.column = 0 ∧ a.char = mark ∧ b.char = mark ∧ c.char = mark ∧ atWordEnd rest
  | _ => false

def atBoundary (s : Source) : Bool :=
  atMark '-' s || atMark '.' s

def takeChars (f : Char → Bool) (s : Source) : List Char × Source :=
  ((s.takeWhile (f ·.char)).map (·.char), s.dropWhile (f ·.char))

def skipBlanks (s : Source) : Source :=
  s.dropWhile (isBlank ·.char)

def nextLine? (s : Source) : Option Source :=
  let s := skipBlanks s
  let s := if startsWith '#' s then s.dropWhile (!isBreak ·.char) else s
  if atLineEnd s then some (s.drop 1) else none

end Yaml
end SharedWorkspace
