import SharedWorkspace.Json.Parser

/-!
The whole numbers that scalars stand for.
-/

namespace SharedWorkspace
namespace Yaml

def digitInBase? (base : Nat) (c : Char) : Option Nat :=
  (Json.hexValue? c).filter (· < base)

def wordInBase? (base : Nat) (cs : List Char) : Option UInt64 :=
  if cs = [] then
    none
  else
    match cs.foldlM (fun n c => (digitInBase? base c).map (base * n + ·)) 0 with
    | some n => if n < UInt64.size then some (.ofNat n) else none
    | none => none

/--
The number that a plain scalar stands for, with an optional plus sign: in decimal without leading
zeros, or in base 16, 8 or 2 after `0x`, `0o` or `0b`.
-/
def word? (text : String) : Option UInt64 :=
  let unsigned := match text.toList with
    | '+' :: cs => cs
    | cs => cs
  match unsigned with
  | '0' :: 'x' :: cs => wordInBase? 16 cs
  | '0' :: 'o' :: cs => wordInBase? 8 cs
  | '0' :: 'b' :: cs => wordInBase? 2 cs
  | ['0'] => some 0
  | '0' :: _ => none
  | cs => wordInBase? 10 cs

end Yaml
end SharedWorkspace
