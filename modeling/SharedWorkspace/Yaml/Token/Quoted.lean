import SharedWorkspace.Json.Parser
import SharedWorkspace.Yaml.Token.Gap

/-!
Scalars in single quotes, in which a quote is written twice, and in double quotes, with their
escapes.
-/

namespace SharedWorkspace
namespace Yaml
namespace Quoted

def escaped? : Char → Option Char
  | '0' => some '\x00'
  | 'a' => some '\x07'
  | 'b' => some '\x08'
  | 't' => some '\t'
  | '\t' => some '\t'
  | 'n' => some '\n'
  | 'v' => some '\x0b'
  | 'f' => some '\x0c'
  | 'r' => some '\r'
  | 'e' => some '\x1b'
  | ' ' => some ' '
  | '"' => some '"'
  | '/' => some '/'
  | '\\' => some '\\'
  | 'N' => some '\u0085'
  | '_' => some '\u00a0'
  | 'L' => some '\u2028'
  | 'P' => some '\u2029'
  | _ => none

def digitCount? : Char → Option Nat
  | 'x' => some 2
  | 'u' => some 4
  | 'U' => some 8
  | _ => none

def hexNumber? (cs : List Char) : Option Nat :=
  cs.foldlM (fun n c => (Json.hexValue? c).map (16 * n + ·)) 0

def charOfNat? (n : Nat) : Option Char :=
  if h : n.isValidChar then some (Char.ofNatAux n h) else none

def escape? (s : Source) : Option (Char × Nat) :=
  match s with
  | [] => none
  | e :: rest =>
    match digitCount? e.char with
    | some n =>
      let digits := (rest.take n).map (·.char)
      if digits.length < n then
        none
      else
        ((hexNumber? digits).bind charOfNat?).map fun c => (c, n + 1)
    | none => (escaped? e.char).map fun c => (c, 1)

/--
The characters up to the closing quote, and the text after it, where the gap `g` has been read and
the next `skip` characters do not count. A line end that is escaped counts for nothing, and neither
do the blanks after it.
-/
def takeUpTo (quote : Char) (skip : Nat) (g : Gap) : Source → Option (List Char × Source)
  | [] => none
  | c :: rest =>
    match skip with
    | skip + 1 => takeUpTo quote skip g rest
    | 0 =>
      let more (c : Char) : List Char × Source → List Char × Source :=
        fun (text, s) => (g.text ++ c :: text, s)
      if atBoundary (c :: rest) then
        none
      else if isBlank c.char || isBreak c.char then
        takeUpTo quote 0 (g.add c.char) rest
      else if c.char = quote then
        if quote = '\'' && startsWith quote rest then
          (takeUpTo quote 1 {} rest).map (more quote)
        else
          some (g.text, rest)
      else if c.char = '\\' && quote = '"' then
        if rest.head?.any (isBreak ·.char) then
          (takeUpTo quote 1 { afterBreak := true } rest).map fun (text, s) => (g.text ++ text, s)
        else
          match escape? rest with
          | some (e, n) => (takeUpTo quote n {} rest).map (more e)
          | none => none
      else
        (takeUpTo quote 0 {} rest).map (more c.char)

def take (quote : Char) (s : Source) : Option (List Char × Source) :=
  takeUpTo quote 0 {} s

end Quoted
end Yaml
end SharedWorkspace
