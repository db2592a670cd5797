import SharedWorkspace.Json.Value

/-!
Reading JSON. The reader is strict: a text has one value, blanks around it and nothing else.
-/

namespace SharedWorkspace
namespace Json

def isSpace (c : Char) : Bool :=
  c = ' ' ∨ c = '\n' ∨ c = '\r' ∨ c = '\t'

def skipSpace (cs : List Char) : List Char :=
  cs.dropWhile isSpace

def hexValue? (c : Char) : Option Nat :=
  if '0' ≤ c ∧ c ≤ '9' then some (c.toNat - 48)
  else if 'a' ≤ c ∧ c ≤ 'f' then some (c.toNat - 87)
  else if 'A' ≤ c ∧ c ≤ 'F' then some (c.toNat - 55)
  else none

def hexQuad? (a b c d : Char) : Option Nat := do
  let a ← hexValue? a
  let b ← hexValue? b
  let c ← hexValue? c
  let d ← hexValue? d
  some (4096 * a + 256 * b + 16 * c + d)

def isHighSurrogate (n : Nat) : Bool :=
  0xD800 ≤ n ∧ n < 0xDC00

def isLowSurrogate (n : Nat) : Bool :=
  0xDC00 ≤ n ∧ n < 0xE000

def shortEscape? : Char → Option Char
  | '"' => some '"'
  | '\\' => some '\\'
  | '/' => some '/'
  | 'b' => some '\x08'
  | 'f' => some '\x0c'
  | 'n' => some '\n'
  | 'r' => some '\r'
  | 't' => some '\t'
  | _ => none

/--
The characters of a quoted text whose opening quote has been read, and what follows its closing
quote. The characters are missing if an escape stands for none.
-/
def readText? : List Char → Option (Option (List Char) × List Char)
  | [] => none
  | '"' :: rest => some (some [], rest)
  | '\\' :: 'u' :: a :: b :: c :: d :: '\\' :: 'u' :: e :: f :: g :: h :: rest =>
    match hexQuad? a b c d with
    | none => none
    | some n =>
      if isHighSurrogate n then
        match hexQuad? e f g h with
        | none => none
        | some m =>
          if isLowSurrogate m then
            (readText? rest).map fun (cs, rest) =>
              (cs.map (Char.ofNat (0x10000 + 0x400 * (n - 0xD800) + (m - 0xDC00)) :: ·), rest)
          else
            (readText? ('\\' :: 'u' :: e :: f :: g :: h :: rest)).map fun (_, rest) => (none, rest)
      else
        (readText? ('\\' :: 'u' :: e :: f :: g :: h :: rest)).map fun (cs, rest) =>
          (if isLowSurrogate n then none else cs.map (Char.ofNat n :: ·), rest)
  | '\\' :: 'u' :: a :: b :: c :: d :: rest =>
    match hexQuad? a b c d with
    | none => none
    | some n =>
      (readText? rest).map fun (cs, rest) =>
        (if isHighSurrogate n ∨ isLowSurrogate n then none else cs.map (Char.ofNat n :: ·), rest)
  | '\\' :: c :: rest =>
    match shortEscape? c with
    | none => none
    | some c => (readText? rest).map fun (cs, rest) => (cs.map (c :: ·), rest)
  | c :: rest =>
    if c = '\\' ∨ c.toNat < 0x20 then
      none
    else
      (readText? rest).map fun (cs, rest) => (cs.map (c :: ·), rest)

def readWhole? (cs : List Char) : Option (List Char × List Char) :=
  match cs with
  | '0' :: rest =>
    match rest with
    | c :: _ => if c.isDigit then none else some (['0'], rest)
    | [] => some (['0'], rest)
  | _ =>
    let ds := cs.takeWhile Char.isDigit
    if ds = [] then none else some (ds, cs.dropWhile Char.isDigit)

def skipFraction? : List Char → Option (Bool × List Char)
  | '.' :: rest =>
    if rest.takeWhile Char.isDigit = [] then none else some (true, rest.dropWhile Char.isDigit)
  | cs => some (false, cs)

def skipExponent? : List Char → Option (Bool × List Char)
  | c :: rest =>
    if c = 'e' ∨ c = 'E' then
      let rest := match rest with
        | '+' :: rest => rest
        | '-' :: rest => rest
        | rest => rest
      if rest.takeWhile Char.isDigit = [] then none else some (true, rest.dropWhile Char.isDigit)
    else
      some (false, c :: rest)
  | [] => some (false, [])

def readNumber? (cs : List Char) : Option (Json × List Char) := do
  let (negative, cs) := match cs with
    | '-' :: cs => (true, cs)
    | cs => (false, cs)
  let (ds, cs) ← readWhole? cs
  let (hasFraction, cs) ← skipFraction? cs
  let (hasExponent, cs) ← skipExponent? cs
  let n := Text.readDigits ds
  if hasFraction ∨ hasExponent ∨ (negative ∧ n = 0) then
    some (.fraction, cs)
  else
    some (.integer (if negative then -(n : Int) else n), cs)

def readKey? (cs : List Char) : Option (Option String × List Char) :=
  match skipSpace cs with
  | '"' :: rest => (readText? rest).map fun (cs, rest) => (cs.map String.ofList, rest)
  | _ => none

mutual

/--
One value at the start of a text, and what follows it. Not more than `steps` parts of it are read.
-/
def readValue? (steps : Nat) (cs : List Char) : Option (Json × List Char) :=
  match steps with
  | 0 => none
  | steps + 1 =>
    match skipSpace cs with
    | 'n' :: 'u' :: 'l' :: 'l' :: rest => some (.null, rest)
    | 't' :: 'r' :: 'u' :: 'e' :: rest => some (.bool true, rest)
    | 'f' :: 'a' :: 'l' :: 's' :: 'e' :: rest => some (.bool false, rest)
    | '"' :: rest =>
      (readText? rest).map fun (cs, rest) =>
        (match cs with
          | some cs => .text (String.ofList cs)
          | none => .brokenText,
          rest)
    | '[' :: rest =>
      match skipSpace rest with
      | ']' :: rest => some (.array [], rest)
      | rest => (readItems? steps rest).map fun (js, rest) => (.array js, rest)
    | '\x7b' :: rest =>
      match skipSpace rest with
      | '\x7d' :: rest => some (.object [], rest)
      | rest => (readFields? steps rest).map fun (fs, rest) => (.object fs, rest)
    | cs => readNumber? cs

def readItems? (steps : Nat) (cs : List Char) : Option (List Json × List Char) :=
  match steps with
  | 0 => none
  | steps + 1 =>
    match readValue? steps cs with
    | none => none
    | some (j, rest) =>
      match skipSpace rest with
      | ',' :: rest => (readItems? steps rest).map fun (js, rest) => (j :: js, rest)
      | ']' :: rest => some ([j], rest)
      | _ => none

def readFields? (steps : Nat) (cs : List Char) :
    Option (List (Option String × Json) × List Char) :=
  match steps with
  | 0 => none
  | steps + 1 =>
    match readKey? cs with
    | none => none
    | some (k, rest) =>
      match skipSpace rest with
      | ':' :: rest =>
        match readValue? steps rest with
        | none => none
        | some (j, rest) =>
          match skipSpace rest with
          | ',' :: rest => (readFields? steps rest).map fun (fs, rest) => ((k, j) :: fs, rest)
          | '\x7d' :: rest => some ([(k, j)], rest)
          | _ => none
      | _ => none

end

def parse? (cs : List Char) : Option Json :=
  match readValue? (2 * cs.length + 2) cs with
  | some (j, rest) => if skipSpace rest = [] then some j else none
  | none => none

end Json
end SharedWorkspace
