import SharedWorkspace.Review.Basic

/-!
A desk for rehearsals of a review: nodes, editors and viewers are kept under names.
-/

namespace SharedWorkspace
namespace Rehearsal

structure ReviewDesk where
  tree : FileTree
  review : Review := {}
  nodes : OrderedMap String NodeId := .empty
  editors : OrderedMap String EditorId := .empty
  viewers : OrderedMap String ViewerId := .empty
  names : List (ViewerId × String) := []

abbrev OnReview := StateM ReviewDesk

def passes : Nat := 1000

def change (f : Review → Review) : OnReview Unit :=
  modify fun d => { d with review := f d.review }

def change? (f : Review → Option Review) : OnReview Unit :=
  change fun r => (f r).getD r

def dropNode (name : String) : OnReview Bool :=
  modifyGet fun d =>
    match d.nodes.find? name with
    | some id => (true, { d with review := d.review.dropNode id, nodes := d.nodes.erase name })
    | none => (false, d)

def addNode (name : String) (m : Matching) (withHunks : Bool) : OnReview Unit := do
  let id ← modifyGet fun d =>
    let (id, review) := if withHunks then d.review.addNodeWithHunks m else d.review.addNode m
    (id, { d with review })
  let _ ← dropNode name
  modify fun d => { d with nodes := d.nodes.insert name id }

def node? (name : String) : OnReview (Option Node) := do
  let d ← get
  return (d.nodes.find? name).bind d.review.nodes.find?

def keepEditor (name : String) (id : EditorId) : OnReview Unit :=
  modify fun d => { d with editors := d.editors.insert name id }

/--
Hang a hunk below the node of a name, once or twice, with an editor that is kept under the name
`editor` or without one.
-/
def addHunk (node : String) (h : Hunk) (matched editable twice : Bool) (editor : Option String) :
    OnReview Unit := do
  let some id := (← get).nodes.find? node | return ()
  let e ← modifyGet fun d =>
    if editable then
      (some (d.review.addEditor h).1, { d with review := (d.review.addEditor h).2 })
    else
      (none, d)
  change fun r => r.attach id ⟨h, matched, e⟩
  if twice then
    change fun r => r.attach id ⟨h, matched, e⟩
  if let (some name, some e) := (editor, e) then
    keepEditor name e

def edit (name text : String) : OnReview Unit := do
  if let some id := (← get).editors.find? name then
    change? fun r => r.setText passes id text

def text? (name : String) : OnReview (Option String) := do
  let d ← get
  return ((d.editors.find? name).bind d.review.editors.find?).map Editor.text

def viewer (name : String) (once : Bool) : OnReview ViewerId :=
  modifyGet fun d =>
    match d.viewers.find? name with
    | some id => (id, d)
    | none =>
      let (id, review) := d.review.addViewer fun id =>
        if once then [.unsubscribe (.viewer id)] else []
      (id, { d with review, viewers := d.viewers.insert name id, names := (id, name) :: d.names })

def dropViewer (name : String) : OnReview Bool :=
  modifyGet fun d =>
    match d.viewers.find? name with
    | some id => (true, { d with review := d.review.dropViewer id, viewers := d.viewers.erase name })
    | none => (false, d)

def unlisten (c : ChannelId) (l : Listener) : OnReview Bool := do
  let was := ((← get).review.channel c).isSubscribed l
  change (·.unsubscribe c l)
  return was

def ReviewDesk.toldViewers (d : ReviewDesk) : List String :=
  d.review.journal.filterMap fun
    | (_, .viewer v) => d.names.lookup v
    | _ => none

end Rehearsal
end SharedWorkspace
