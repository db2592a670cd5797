import SharedWorkspace.Yaml.Event

/-!
A document as far as a record of scalars can be read from it.
-/

namespace SharedWorkspace
namespace Yaml

/--
The anchors of a document. Each has a number, which is the number of names that have been used
before it; so a name that is used again may share its number with the next name.
-/
structure Anchors where
  numbers : List (List Char × Nat) := []
  nodes : List (Nat × Event Nat) := []

namespace Anchors

def number? (a : Anchors) (name : List Char) : Option Nat :=
  (a.numbers.find? (·.1 = name)).map (·.2)

def node? (a : Anchors) (n : Nat) : Option (Event Nat) :=
  (a.nodes.find? (·.1 = n)).map (·.2)

def declare (a : Anchors) (name : List Char) (e : Event Nat) : Anchors :=
  let n := a.numbers.length
  { numbers := (name, n) :: a.numbers.filter (·.1 ≠ name), nodes := (n, e) :: a.nodes }

def numbered? (a : Anchors) : Event (List Char) → Option (Event Nat)
  | .alias name => (a.number? name).map .alias
  | .scalar s => some (.scalar s)
  | .sequenceStart => some .sequenceStart
  | .mappingStart => some .mappingStart
  | .collectionEnd => some .collectionEnd

def read? (a : Anchors) : List Written → Option (Anchors × List (Event Nat))
  | [] => some (a, [])
  | w :: ws => do
    let e ← a.numbered? w.event
    let a := match w.anchor with
      | some name => a.declare name e
      | none => a
    let (a, es) ← read? a ws
    return (a, e :: es)

def scalar? (a : Anchors) : Event Nat → Option Scalar
  | .scalar s => some s
  | .alias n =>
    match a.node? n with
    | some (.scalar s) => some s
    | _ => none
  | _ => none

end Anchors

inductive Document where
  | none
  | scalar (s : Scalar)
  | sequence
  | mapping (fields : List (Option Scalar × Option Scalar))

namespace Document

/--
The events after a collection of which `depth + 1` starts have been seen.
-/
def skip (depth : Nat) : List (Event Nat) → List (Event Nat)
  | [] => []
  | .sequenceStart :: es => skip (depth + 1) es
  | .mappingStart :: es => skip (depth + 1) es
  | .collectionEnd :: es =>
    match depth with
    | 0 => es
    | depth + 1 => skip depth es
  | _ :: es => skip depth es

def nodes (steps : Nat) (a : Anchors) (es : List (Event Nat)) : List (Option Scalar) :=
  match steps, es with
  | 0, _ => []
  | _, [] => []
  | steps + 1, e :: es =>
    match e with
    | .collectionEnd => []
    | .sequenceStart => .none :: nodes steps a (skip 0 es)
    | .mappingStart => .none :: nodes steps a (skip 0 es)
    | e => a.scalar? e :: nodes steps a es

def pairs : List (Option Scalar) → List (Option Scalar × Option Scalar)
  | k :: v :: rest => (k, v) :: pairs rest
  | _ => []

def ofEvents? (ws : List Written) : Option Document := do
  let (a, es) ← Anchors.read? {} ws
  match es with
  | [] => some .none
  | .mappingStart :: es => some (.mapping (pairs (nodes es.length a es)))
  | .scalar s :: _ => some (.scalar s)
  | _ => some .sequence

end Document
end Yaml
end SharedWorkspace
