import SharedWorkspace.Json.Parser

/-!
Values that have a JSON encoding. A record is written as an object with its fields in order; it is
read from such an object in any order, with unknown fields skipped, or from an array of its fields.
-/

namespace SharedWorkspace

class JsonCodec (α : Type) where
  encode : α → Json
  decode? : Json → Option α

namespace JsonCodec

def toText {α : Type} [JsonCodec α] (a : α) : String :=
  String.ofList (encode a).render

def toIndentedText {α : Type} [JsonCodec α] (a : α) : String :=
  String.ofList ((encode a).renderIndented 0)

def ofText? {α : Type} [JsonCodec α] (s : String) : Option α :=
  (Json.parse? s.toList).bind decode?

end JsonCodec

namespace Json

/--
What a record's encoding has for one of its fields: a value, nothing, or nothing because an array of
fields ended before it.
-/
inductive Slot where
  | given (j : Json)
  | absent
  | cutOff

namespace Slot

def required? {α : Type} [JsonCodec α] : Slot → Option α
  | given j => JsonCodec.decode? j
  | _ => none

def optional? {α : Type} [JsonCodec α] : Slot → Option (Option α)
  | given null => some none
  | given j => (JsonCodec.decode? j).map some
  | absent => some none
  | cutOff => none

def orElse? {α : Type} [JsonCodec α] (a : α) : Slot → Option α
  | given j => JsonCodec.decode? j
  | _ => some a

end Slot

def slot? (fields : List (Option String × Json)) (name : String) : Option Slot :=
  match fields.filter fun f => f.1 = some name with
  | [] => some .absent
  | [f] => some (.given f.2)
  | _ => none

def slotsOfItems : (count : Nat) → List Json → List Slot
  | 0, _ => []
  | n + 1, [] => .cutOff :: slotsOfItems n []
  | n + 1, j :: js => .given j :: slotsOfItems n js

def slots? (names : List String) : Json → Option (List Slot)
  | object fields => if fields.any (·.1.isNone) then none else names.mapM (slot? fields)
  | array items =>
    if names.length < items.length then none else some (slotsOfItems names.length items)
  | _ => none

def caseName? : Json → Option String
  | text s => some s
  | object [(some s, null)] => some s
  | _ => none

end Json

instance : JsonCodec String where
  encode := .text
  decode?
    | .text s => some s
    | _ => none

instance {α : Type} [JsonCodec α] : JsonCodec (List α) where
  encode as := .array (as.map JsonCodec.encode)
  decode?
    | .array items => items.mapM JsonCodec.decode?
    | _ => none

instance : JsonCodec UInt64 where
  encode n := .integer n.toNat
  decode?
    | .integer n => if 0 ≤ n ∧ n.toNat < UInt64.size then some (.ofNat n.toNat) else none
    | _ => none

instance : JsonCodec Int32 where
  encode n := .integer n.toInt
  decode?
    | .integer n => if Int32.minValue.toInt ≤ n ∧ n ≤ Int32.maxValue.toInt then some (.ofInt n) else none
    | _ => none

end SharedWorkspace
