import SharedWorkspace.Text.Blank
import SharedWorkspace.Text.Digits
import SharedWorkspace.Text.Split

/-!
Instants of time in UTC, to the nanosecond, as calendar fields: how they are written and read. A
written instant has the fewest of 0, 3, 6 or 9 fraction digits that are exact. A reader also accepts
other offsets than UTC, blanks between the parts and fields without their leading zeros.
-/

namespace SharedWorkspace

structure Instant where
  year : Int
  month : Nat
  day : Nat
  hour : Nat
  minute : Nat
  /--
  A sixtieth second stands for a leap second.
  -/
  second : Nat
  nano : Nat
  deriving DecidableEq

namespace Instant

def epoch : Instant := ⟨1970, 1, 1, 0, 0, 0, 0⟩

def isLeapYear (year : Int) : Bool :=
  (year % 4 = 0 ∧ year % 100 ≠ 0) ∨ year % 400 = 0

def daysInMonth (year : Int) : (month : Nat) → Nat
  | 2 => if isLeapYear year then 29 else 28
  | 4 | 6 | 9 | 11 => 30
  | _ => 31

def yearInRange (year : Int) : Bool :=
  -262143 ≤ year ∧ year ≤ 262142

def IsValid (t : Instant) : Prop :=
  yearInRange t.year ∧ 1 ≤ t.month ∧ t.month ≤ 12 ∧ 1 ≤ t.day ∧ t.day ≤ daysInMonth t.year t.month ∧
    t.hour < 24 ∧ t.minute < 60 ∧ t.second ≤ 60 ∧ t.nano < 1000000000

instance (t : Instant) : Decidable t.IsValid :=
  inferInstanceAs (Decidable (_ ∧ _))

def nextDay (t : Instant) : Instant :=
  if t.day < daysInMonth t.year t.month then
    { t with day := t.day + 1 }
  else if t.month < 12 then
    { t with month := t.month + 1, day := 1 }
  else
    { t with year := t.year + 1, month := 1, day := 1 }

def previousDay (t : Instant) : Instant :=
  if 1 < t.day then
    { t with day := t.day - 1 }
  else if 1 < t.month then
    { t with month := t.month - 1, day := daysInMonth t.year (t.month - 1) }
  else
    { t with year := t.year - 1, month := 12, day := 31 }

/--
The instant at which clocks that are `minutes` ahead of UTC show `t`, for less than a day's offset.
-/
def atOffset (t : Instant) (minutes : Int) : Instant :=
  let m : Int := 60 * t.hour + t.minute - minutes
  if m < 0 then
    let m := (m + 1440).toNat
    previousDay { t with hour := m / 60, minute := m % 60 }
  else if m < 1440 then
    let m := m.toNat
    { t with hour := m / 60, minute := m % 60 }
  else
    let m := (m - 1440).toNat
    nextDay { t with hour := m / 60, minute := m % 60 }

/--
A year has four digits, or a sign and at least four digits if it would not fit.
-/
def renderYear (year : Int) : List Char :=
  if 0 ≤ year ∧ year ≤ 9999 then
    Text.digitsPadded 4 year.toNat
  else
    (if year < 0 then '-' else '+') :: Text.digitsPadded 4 year.natAbs

def renderNano (nano : Nat) : List Char :=
  if nano = 0 then
    []
  else if nano % 1000000 = 0 then
    '.' :: Text.digitsPadded 3 (nano / 1000000)
  else if nano % 1000 = 0 then
    '.' :: Text.digitsPadded 6 (nano / 1000)
  else
    '.' :: Text.digitsPadded 9 nano

def render (t : Instant) : List Char :=
  renderYear t.year ++ ['-'] ++ Text.digitsPadded 2 t.month ++ ['-'] ++
    Text.digitsPadded 2 t.day ++ ['T'] ++ Text.digitsPadded 2 t.hour ++ [':'] ++
    Text.digitsPadded 2 t.minute ++ [':'] ++ Text.digitsPadded 2 t.second ++
    renderNano t.nano ++ ['Z']

def display (t : Instant) : String :=
  String.ofList t.render

def skipBlank (cs : List Char) : List Char :=
  cs.dropWhile Text.isBlank

def readNumber? (width : Nat) (cs : List Char) : Option (Nat × List Char) :=
  let ds := (cs.take width).takeWhile Char.isDigit
  if ds = [] then none else some (Text.readDigits ds, cs.drop ds.length)

def readField? (width : Nat) (cs : List Char) : Option (Nat × List Char) :=
  readNumber? width (skipBlank cs)

def readYear? (cs : List Char) : Option (Int × List Char) :=
  match skipBlank cs with
  | '-' :: cs => (readNumber? cs.length cs).map fun (n, cs) => (-(n : Int), cs)
  | '+' :: cs => (readNumber? cs.length cs).map fun (n, cs) => ((n : Int), cs)
  | cs => (readNumber? 4 cs).map fun (n, cs) => ((n : Int), cs)

def readMark? (c : Char) (cs : List Char) : Option (List Char) :=
  match skipBlank cs with
  | c' :: cs => if c = c' then some (skipBlank cs) else none
  | [] => none

def readNano? : List Char → Option (Nat × List Char)
  | '.' :: cs => do
    let (n, rest) ← readNumber? 9 cs
    let read := cs.length - rest.length
    some (n * Nat.pow 10 (9 - read), rest.dropWhile Char.isDigit)
  | cs => some (0, cs)

def readSign? : List Char → Option (Int × List Char)
  | '+' :: cs => some (1, cs)
  | '-' :: cs => some (-1, cs)
  | '\u2212' :: cs => some (-1, cs)
  | _ => none

def readOffset? (cs : List Char) : Option (Int × List Char) :=
  match skipBlank cs with
  | 'Z' :: cs => some (0, cs)
  | 'z' :: cs => some (0, cs)
  | u :: t :: c :: cs =>
    if u.toUpper = 'U' ∧ t.toUpper = 'T' ∧ c.toUpper = 'C' then
      some (0, cs)
    else do
      let (sign, cs) ← readSign? (u :: t :: c :: cs)
      let (hours, cs) ← readTwo? cs
      let (minutes, cs) ← readTwo? (cs.dropWhile fun c => c = ':' ∨ Text.isBlank c)
      if 60 ≤ minutes ∨ 24 ≤ hours then none else some (sign * (60 * hours + minutes : Nat), cs)
  | _ => none
where
  readTwo? : List Char → Option (Nat × List Char)
    | a :: b :: cs => if a.isDigit ∧ b.isDigit then some (Text.readDigits [a, b], cs) else none
    | _ => none

def readDayEnd? : List Char → Option (List Char)
  | c :: cs => if c = 'T' ∨ c = 't' ∨ c = ' ' then some cs else none
  | [] => none

def parse? (cs : List Char) : Option Instant := do
  let (year, cs) ← readYear? cs
  let cs ← readMark? '-' cs
  let (month, cs) ← readField? 2 cs
  let cs ← readMark? '-' cs
  let (day, cs) ← readField? 2 cs
  let cs ← readDayEnd? cs
  let (hour, cs) ← readField? 2 cs
  let cs ← readMark? ':' cs
  let (minute, cs) ← readField? 2 cs
  let cs ← readMark? ':' cs
  let (second, cs) ← readField? 2 cs
  let (nano, cs) ← readNano? cs
  let (offset, cs) ← readOffset? cs
  let t : Instant := ⟨year, month, day, hour, minute, second, nano⟩
  if t.IsValid ∧ (skipBlank cs).isEmpty then
    let t := t.atOffset offset
    if yearInRange t.year then some t else none
  else
    none

end Instant
end SharedWorkspace
