/-!
The characters that count as white space when the ends of a text are trimmed: the `White_Space`
property of Unicode.
-/

namespace SharedWorkspace
namespace Text

def blankRanges : List (Nat × Nat) :=
  [(0x0009, 0x000D), (0x0020, 0x0020), (0x0085, 0x0085), (0x00A0, 0x00A0), (0x1680, 0x1680),
   (0x2000, 0x200A), (0x2028, 0x2029), (0x202F, 0x202F), (0x205F, 0x205F), (0x3000, 0x3000)]

def isBlank (c : Char) : Bool :=
  blankRanges.any fun r => decide (r.1 ≤ c.toNat ∧ c.toNat ≤ r.2)

def allBlank (s : String) : Bool :=
  s.toList.all isBlank

example : isBlank '\u3000' = true ∧ isBlank '\ufeff' = false := by decide

end Text
end SharedWorkspace
