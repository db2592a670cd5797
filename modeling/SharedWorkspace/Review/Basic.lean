import SharedWorkspace.Review.Channel
import SharedWorkspace.Review.EditCache
import SharedWorkspace.Review.Matching

/-!
The review of a patch. For each file there is a node, with the hunks of the file below it; hunks that
do not match can be edited by hand. An edit is told to the nodes that the hunk hangs on, and they
tell those who listen to them.
-/

namespace SharedWorkspace

inductive DiffKind where
  | noChange
  | addition
  | deletion
  | change
  deriving DecidableEq

namespace DiffKind

def ofType : DiffType → DiffKind
  | .addition => addition
  | .deletion => deletion
  | .change => change
  | .opaqueChange => change

def display : DiffKind → String
  | noChange => "NoChange"
  | addition => "Addition"
  | deletion => "Deletion"
  | change => "Change"

end DiffKind

inductive Direction where
  | incoming
  | outgoing
  deriving DecidableEq

namespace Direction

def ofReversed (reversed : Bool) : Direction :=
  if reversed then outgoing else incoming

def display : Direction → String
  | incoming => "Incoming"
  | outgoing => "Outgoing"

end Direction

structure Classification where
  kind : DiffKind
  direction : Direction
  deriving DecidableEq

namespace Classification

def display (c : Classification) : String :=
  c.kind.display ++ " (" ++ c.direction.display ++ ")"

end Classification

namespace Matching

def baseKind (m : Matching) : DiffKind :=
  if m.hasMatches then .ofType (m.diff.type m.reversed) else .noChange

/--
The classification of a file. One that no hunk applies to counts as changed while contents are kept
for it that were edited by hand.
-/
def classify (c : EditCache) (m : Matching) : Classification where
  kind :=
    if m.baseKind = .noChange ∧ c.hasCached m.diff then .change else m.baseKind
  direction := .ofReversed m.reversed

end Matching

abbrev NodeId := Nat

abbrev EditorId := Nat

abbrev ViewerId := Nat

structure HunkNode where
  hunk : Hunk
  matched : Bool
  editor : Option EditorId
  deriving DecidableEq

inductive ChannelId where
  | node (id : NodeId)
  | editor (id : EditorId)
  deriving DecidableEq

inductive Listener where
  | node (id : NodeId)
  | viewer (id : ViewerId)
  deriving DecidableEq

inductive Reaction where
  | subscribe (l : Listener)
  | unsubscribe (l : Listener)
  deriving DecidableEq

structure Node where
  matching : Matching
  children : List HunkNode := []
  channel : Channel Listener := {}

structure Editor where
  text : String
  channel : Channel Listener := {}

structure Review where
  nodes : OrderedMap NodeId Node := .empty
  editors : OrderedMap EditorId Editor := .empty
  viewers : OrderedMap ViewerId (List Reaction) := .empty
  nextId : Nat := 0
  cache : EditCache := {}
  journal : List (ChannelId × Listener) := []

namespace Review

def isAlive (r : Review) : Listener → Bool
  | .node id => r.nodes.contains id
  | .viewer id => r.viewers.contains id

def channel (r : Review) : ChannelId → Channel Listener
  | .node id => ((r.nodes.find? id).map Node.channel).getD {}
  | .editor id => ((r.editors.find? id).map Editor.channel).getD {}

def setChannel (r : Review) (id : ChannelId) (c : Channel Listener) : Review :=
  match id with
  | .node id =>
    match r.nodes.find? id with
    | some n => { r with nodes := r.nodes.insert id { n with channel := c } }
    | none => r
  | .editor id =>
    match r.editors.find? id with
    | some e => { r with editors := r.editors.insert id { e with channel := c } }
    | none => r

def subscribe (r : Review) (id : ChannelId) (l : Listener) : Review :=
  r.setChannel id ((r.channel id).subscribe l)

def unsubscribe (r : Review) (id : ChannelId) (l : Listener) : Review :=
  r.setChannel id ((r.channel id).unsubscribe l)

def listenerCount (r : Review) (id : ChannelId) : Nat :=
  (r.channel id).count r.isAlive

def react (id : ChannelId) (r : Review) : Reaction → Review
  | .subscribe l => r.subscribe id l
  | .unsubscribe l => r.unsubscribe id l

def tell (pass : ChannelId → Review → Option Review) (id : ChannelId) (r : Review) (l : Listener) :
    Option Review :=
  let r := { r with journal := r.journal ++ [(id, l)] }
  match l with
  | .node n => pass (.node n) r
  | .viewer v => some (((r.viewers.find? v).getD []).foldl (react id) r)

/--
Tell all listeners of a channel of a change: those who are there when it begins, in the order of
their subscriptions. No result if changes are passed on `depth` times.
-/
def notify : (depth : Nat) → ChannelId → Review → Option Review
  | 0, _, _ => none
  | depth + 1, id, r => (r.channel id).notify r.isAlive (r.setChannel id) (tell (notify depth) id)

def addEditor (r : Review) (h : Hunk) : EditorId × Review :=
  (r.nextId,
    { r with
      editors := r.editors.insert r.nextId { text := h.unified }
      nextId := r.nextId + 1 })

def setText (r : Review) (depth : Nat) (id : EditorId) (text : String) : Option Review :=
  match r.editors.find? id with
  | none => some r
  | some e =>
    notify depth (.editor id) { r with editors := r.editors.insert id { e with text } }

/--
Hang a hunk below a node. The node is told of edits, unless the hunk matches.
-/
def attach (r : Review) (id : NodeId) (h : HunkNode) : Review :=
  let r :=
    match h.matched, h.editor with
    | false, some editor => r.subscribe (.editor editor) (.node id)
    | _, _ => r
  match r.nodes.find? id with
  | some n => { r with nodes := r.nodes.insert id { n with children := n.children ++ [h] } }
  | none => r

def addNode (r : Review) (m : Matching) : NodeId × Review :=
  (r.nextId,
    { r with
      nodes := r.nodes.insert r.nextId { matching := m }
      nextId := r.nextId + 1 })

def attachHunk (id : NodeId) (r : Review) (h : Hunk) (matched : Bool) : Review :=
  if matched then
    r.attach id ⟨h, true, none⟩
  else
    let (editor, r) := r.addEditor h
    r.attach id ⟨h, false, some editor⟩

def addNodeWithHunks (r : Review) (m : Matching) : NodeId × Review :=
  let (id, r) := r.addNode m
  (id, m.diff.hunks.zipIdx.foldl (fun r (h, i) => attachHunk id r h (m.isMatched i)) r)

def dropNode (r : Review) (id : NodeId) : Review :=
  { r with nodes := r.nodes.erase id }

def addViewer (r : Review) (reactions : ViewerId → List Reaction) : ViewerId × Review :=
  (r.nextId,
    { r with
      viewers := r.viewers.insert r.nextId (reactions r.nextId)
      nextId := r.nextId + 1 })

def dropViewer (r : Review) (id : ViewerId) : Review :=
  { r with viewers := r.viewers.erase id }

def classify? (r : Review) (id : NodeId) : Option Classification :=
  (r.nodes.find? id).map fun n => n.matching.classify r.cache

end Review
end SharedWorkspace
