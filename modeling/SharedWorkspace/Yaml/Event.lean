import SharedWorkspace.Text.Utf8
import SharedWorkspace.Yaml.Token

/-!
The nodes of a document, one after the other. A collection is an event at its start, its nodes, and
an event at its end; the nodes of a mapping are its keys and values in turn.
-/

namespace SharedWorkspace
namespace Yaml

structure Scalar where
  style : Style
  tag : Option (List UInt8)
  text : List Char

inductive Event (α : Type) where
  | alias (target : α)
  | scalar (s : Scalar)
  | sequenceStart
  | mappingStart
  | collectionEnd

structure Written where
  anchor : Option (List Char) := none
  event : Event (List Char)

def Written.empty : Written :=
  ⟨none, .scalar ⟨.plain, none, []⟩⟩

inductive Goal where
  | document
  /--
  A node, where block collections are admitted only if `block` says so. Entries of a block sequence
  may stand in the column of the key before them if `under` says so.
  -/
  | node (block under : Bool)
  | blockEntries
  | entriesUnderKey
  | blockKeys
  | blockValue
  | flowEntries (first : Bool)
  | flowPairKey
  | flowPairValue
  | flowPairEnd
  | flowKeys (first : Bool)
  | flowValue
  | flowNoValue

structure Progress where
  events : List Written
  goals : List Goal
  rest : List Token

abbrev Handles := List (List Char × List UInt8)

namespace Handles

def common : Handles :=
  [(['!'], Text.utf8 "!"), (['!', '!'], Text.utf8 "tag:yaml.org,2002:")]

def tag? (hs : Handles) (handle : List Char) (suffix : List UInt8) : Option (List UInt8) :=
  if handle = [] then
    some suffix
  else
    (hs.find? (·.1 = handle)).map fun h => h.2 ++ suffix

end Handles

structure Properties where
  anchor : Option (List Char) := none
  tag : Option (List UInt8) := none

namespace Properties

def take? (hs : Handles) : List Token → Option (Properties × List Token)
  | .anchor a :: .tag h s :: ts => (hs.tag? h s).map fun t => (⟨some a, some t⟩, ts)
  | .tag h s :: .anchor a :: ts => (hs.tag? h s).map fun t => (⟨some a, some t⟩, ts)
  | .anchor a :: ts => some (⟨some a, none⟩, ts)
  | .tag h s :: ts => (hs.tag? h s).map fun t => (⟨none, some t⟩, ts)
  | ts => some ({}, ts)

def scalar (p : Properties) (style : Style) (text : List Char) : Written :=
  ⟨p.anchor, .scalar ⟨style, p.tag, text⟩⟩

def isEmpty (p : Properties) : Bool :=
  p.anchor.isNone && p.tag.isNone

end Properties

namespace Goal

/--
A node. Nothing at all is an empty scalar, but only after an anchor or a tag.
-/
def node? (hs : Handles) (block under : Bool) : List Token → Option Progress
  | .alias name :: ts => some ⟨[⟨none, .alias name⟩], [], ts⟩
  | ts => do
    let (p, ts) ← Properties.take? hs ts
    match ts with
    | .blockEntry :: _ =>
      if under then
        some ⟨[⟨p.anchor, .sequenceStart⟩], [entriesUnderKey], ts⟩
      else
        blank? p ts
    | .scalar style text :: ts => some ⟨[p.scalar style text], [], ts⟩
    | .flowSequenceStart :: ts => some ⟨[⟨p.anchor, .sequenceStart⟩], [flowEntries true], ts⟩
    | .flowMappingStart :: ts => some ⟨[⟨p.anchor, .mappingStart⟩], [flowKeys true], ts⟩
    | .blockSequenceStart :: rest =>
      if block then
        some ⟨[⟨p.anchor, .sequenceStart⟩], [blockEntries], rest⟩
      else
        blank? p ts
    | .blockMappingStart :: rest =>
      if block then
        some ⟨[⟨p.anchor, .mappingStart⟩], [blockKeys], rest⟩
      else
        blank? p ts
    | _ => blank? p ts
where
  blank? (p : Properties) (ts : List Token) : Option Progress :=
    if p.isEmpty then none else some ⟨[p.scalar .plain []], [], ts⟩

def isIn (kinds : Token → Bool) (ts : List Token) : Bool :=
  ts.head?.any kinds

def endsBlockNode (pair : Bool) : Token → Bool
  | .blockEnd => true
  | .blockEntry => !pair
  | .key => pair
  | .value => pair
  | _ => false

def endsEntryUnderKey : Token → Bool
  | .blockEnd => true
  | .blockEntry => true
  | .key => true
  | .value => true
  | _ => false

def endsPairKey : Token → Bool
  | .value => true
  | .flowEntry => true
  | .flowSequenceEnd => true
  | _ => false

def endsPairValue : Token → Bool
  | .flowEntry => true
  | .flowSequenceEnd => true
  | _ => false

def endsFlowKey : Token → Bool
  | .value => true
  | .flowEntry => true
  | .flowMappingEnd => true
  | _ => false

def endsFlowValue : Token → Bool
  | .flowEntry => true
  | .flowMappingEnd => true
  | _ => false

def nodeUnless (kinds : Token → Bool) (block under : Bool) (next : Goal) (ts : List Token) :
    Progress :=
  if isIn kinds ts then ⟨[.empty], [next], ts⟩ else ⟨[], [node block under, next], ts⟩

def close (ts : List Token) : Progress :=
  ⟨[⟨none, .collectionEnd⟩], [], ts⟩

def afterComma? (first : Bool) : List Token → Option (List Token)
  | .flowEntry :: ts => if first then some (.flowEntry :: ts) else some ts
  | ts => if first then some ts else none

def flowEntries? (first : Bool) : List Token → Option Progress
  | .flowSequenceEnd :: ts => some (close ts)
  | ts => do
    let ts ← afterComma? first ts
    match ts with
    | .key :: ts => some ⟨[⟨none, .mappingStart⟩], [flowPairKey, flowEntries false], ts⟩
    | .flowSequenceEnd :: ts => some (close ts)
    | ts => some ⟨[], [node false false, flowEntries false], ts⟩

def flowKeys? (first : Bool) : List Token → Option Progress
  | .flowMappingEnd :: ts => some (close ts)
  | ts => do
    let ts ← afterComma? first ts
    match ts with
    | .key :: ts => some (nodeUnless endsFlowKey false false flowValue ts)
    | .flowMappingEnd :: ts => some (close ts)
    | ts => some ⟨[], [node false false, flowNoValue], ts⟩

def document? : List Token → Option Progress
  | .documentStart :: [] => some ⟨[.empty], [], []⟩
  | .documentStart :: .documentEnd :: ts => some ⟨[.empty], [], .documentEnd :: ts⟩
  | .documentStart :: ts => some ⟨[], [node true false], ts⟩
  | ts => some ⟨[], [node true false], ts⟩

/--
One step towards the goal `g`. A pair between square brackets that starts with a question mark and
has no key swallows the token after it.
-/
def step? (hs : Handles) (g : Goal) (ts : List Token) : Option Progress :=
  match g, ts with
  | .document, ts => document? ts
  | .node block under, ts => node? hs block under ts
  | .blockEntries, .blockEntry :: ts =>
    some (nodeUnless (endsBlockNode false) true false blockEntries ts)
  | .blockEntries, .blockEnd :: ts => some (close ts)
  | .blockEntries, _ => none
  | .entriesUnderKey, .blockEntry :: ts =>
    some (nodeUnless endsEntryUnderKey true false entriesUnderKey ts)
  | .entriesUnderKey, ts => some (close ts)
  | .blockKeys, .key :: ts => some (nodeUnless (endsBlockNode true) true true blockValue ts)
  | .blockKeys, .blockEnd :: ts => some (close ts)
  | .blockKeys, _ => none
  | .blockValue, .value :: ts => some (nodeUnless (endsBlockNode true) true true blockKeys ts)
  | .blockValue, ts => some ⟨[.empty], [blockKeys], ts⟩
  | .flowEntries first, ts => flowEntries? first ts
  | .flowPairKey, ts =>
    if isIn endsPairKey ts then
      some ⟨[.empty], [flowPairValue], ts.drop 1⟩
    else
      some ⟨[], [node false false, flowPairValue], ts⟩
  | .flowPairValue, .value :: ts =>
    some (nodeUnless endsPairValue false false flowPairEnd ts)
  | .flowPairValue, ts => some ⟨[.empty], [flowPairEnd], ts⟩
  | .flowPairEnd, ts => some (close ts)
  | .flowKeys first, ts => flowKeys? first ts
  | .flowValue, .value :: ts => some (nodeUnless endsFlowValue false false (flowKeys false) ts)
  | .flowValue, ts => some ⟨[.empty], [flowKeys false], ts⟩
  | .flowNoValue, ts => some ⟨[.empty], [flowKeys false], ts⟩

/--
Reach all the goals, one after the other. The answer holds what is left of the tokens.
-/
def reach? (steps : Nat) (hs : Handles) (goals : List Goal) (ts : List Token)
    (events : Array Written) : Option (List Written × List Token) :=
  match steps, goals with
  | 0, _ => none
  | _, [] => some (events.toList, ts)
  | steps + 1, g :: goals => do
    let p ← step? hs g ts
    reach? steps hs (p.goals ++ goals) p.rest (events ++ p.events)

end Goal

/--
The directives before a document, as far as they tell what handles stand for. There must be at most
one that gives the version, and at most one for each handle.
-/
def Handles.take? (version : Bool) (hs : Handles) : List Token → Option (Handles × List Token)
  | .version major minor :: ts =>
    if !version && major = 1 && (minor = 1 || minor = 2) then take? true hs ts else none
  | .shorthand handle meaning :: ts =>
    if hs.any (·.1 = handle) then none else take? version (hs ++ [(handle, meaning)]) ts
  | ts => some (hs, ts)

def isDirective : Token → Bool
  | .version _ _ => true
  | .shorthand _ _ => true
  | _ => false

def isDocumentStart : Token → Bool
  | .documentStart => true
  | _ => false

def isDocumentEnd : Token → Bool
  | .documentEnd => true
  | _ => false

def eventsOf? (ts : List Token) : Option (List Written) :=
  if ts.isEmpty then
    some []
  else do
    let (hs, body) ← Handles.take? false [] ts
    if ts.head?.any isDirective && !body.head?.any isDocumentStart then
      none
    let (events, rest) ←
      Goal.reach? (8 * (body.length + 2)) (hs ++ .common) [.document] body #[]
    if (rest.dropWhile isDocumentEnd).isEmpty then some events else none

end Yaml
end SharedWorkspace
