/-!
Texts as bytes and back. Bytes may also be read as UTF-8 whatever they are: where they are not well
formed, a replacement character stands for the longest part that might have become a character.
-/

namespace SharedWorkspace
namespace Text

def utf8 (s : String) : List UInt8 :=
  s.toUTF8.data.toList

def ofUtf8? (bytes : List UInt8) : Option String :=
  String.fromUTF8? ⟨bytes.toArray⟩

theorem ofUtf8?_utf8 (s : String) : ofUtf8? (utf8 s) = some s :=
  dif_pos s.isValidUTF8

/--
How long a sequence is that starts with the byte `b`, and the range of its second byte; the length
is zero if none starts so.
-/
def sequenceShape (b : UInt8) : Nat × UInt8 × UInt8 :=
  if b < 0x80 then (1, 0x80, 0xBF)
  else if b < 0xC2 then (0, 0x80, 0xBF)
  else if b < 0xE0 then (2, 0x80, 0xBF)
  else if b = 0xE0 then (3, 0xA0, 0xBF)
  else if b = 0xED then (3, 0x80, 0x9F)
  else if b < 0xF0 then (3, 0x80, 0xBF)
  else if b = 0xF0 then (4, 0x90, 0xBF)
  else if b < 0xF4 then (4, 0x80, 0xBF)
  else if b = 0xF4 then (4, 0x80, 0x8F)
  else (0, 0x80, 0xBF)

def continuation : (count : Nat) → (low high : UInt8) → List UInt8 → Nat
  | count + 1, low, high, b :: rest =>
    if low ≤ b ∧ b ≤ high then continuation count 0x80 0xBF rest + 1 else 0
  | _, _, _, _ => 0

def repair : List UInt8 → List Char
  | [] => []
  | b :: rest =>
    let (length, low, high) := sequenceShape b
    let more := continuation (length - 1) low high rest
    let head :=
      if 0 < length ∧ more = length - 1 then
        match ofUtf8? (b :: rest.take more) with
        | some s => s.toList
        | none => ['\ufffd']
      else
        ['\ufffd']
    head ++ repair (rest.drop more)
termination_by bytes => bytes.length
decreasing_by
  simp only [List.length_drop, List.length_cons]
  omega

def ofBytes (bytes : List UInt8) : String :=
  match ofUtf8? bytes with
  | some s => s
  | none => String.ofList (repair bytes)

end Text
end SharedWorkspace
