import SharedWorkspace.Remote.Reader
import SharedWorkspace.Remote.Session

/-!
Files at a revision. A revision starts without contents; they are fetched on first use and kept
until they are cleared.
-/

namespace SharedWorkspace

inductive WorkspaceState where
  | none
  | added
  | deleted
  | modified
  deriving DecidableEq

namespace WorkspaceState

def display : WorkspaceState → String
  | none => "None"
  | added => "Added"
  | deleted => "Deleted"
  | modified => "Modified"

end WorkspaceState

structure Revision where
  parent : RemoteFolder
  info : SyncInfo
  workspaceState : WorkspaceState := .none
  contents : Option (List UInt8) := none
  deriving DecidableEq

namespace Revision

def new (parent : RemoteFolder) (name revision : String) (tag : Option Tag) : Revision where
  parent
  info := SyncInfo.new name revision tag

def base? (parent : RemoteFolder) (info : Option SyncInfo) : Option Revision :=
  match info with
  | some info => if info.isAdded then none else some { parent, info }
  | none => none

def name (r : Revision) : String :=
  r.info.name

def revision (r : Revision) : String :=
  r.info.revision

def repositoryPath (r : Revision) : String :=
  RemoteFolder.joinPath r.parent.path r.name

def relativeTo (r : Revision) (ancestor : RemoteFolder) : String :=
  RemoteFolder.relativePath r.repositoryPath ancestor.path

def location (r : Revision) : String :=
  r.parent.location ++ "/" ++ r.name

def display (r : Revision) : String :=
  r.location ++ " " ++ r.revision

def isModified (_ : Revision) : Bool :=
  true

def isDirty (_ : Revision) : Bool :=
  false

def isFetched (r : Revision) : Bool :=
  r.contents.isSome

def size (r : Revision) : Nat :=
  match r.contents with
  | some bytes => bytes.length
  | none => 0

/--
The same file under the same folder at the same revision. All else is disregarded.
-/
def same (r s : Revision) : Bool :=
  r.parent = s.parent ∧ r.name = s.name ∧ r.revision = s.revision

def toRevision (r : Revision) (revision : String) : Revision where
  parent := RemoteFolder.new r.parent.repository r.parent.path r.parent.tag
  info := SyncInfo.new r.name revision none
  workspaceState := r.workspaceState

/--
Keep `bytes` as the contents. Without bytes the file is taken to be empty, unless its contents are
known already.
-/
def setContents (r : Revision) (bytes : Option (List UInt8)) : Revision :=
  match bytes, r.contents with
  | some bytes, _ => { r with contents := some bytes }
  | none, none => { r with contents := some [] }
  | none, some _ => r

def clearContents (r : Revision) : Revision :=
  { r with contents := none }

def contentsRequest (r : Revision) : Request where
  kind := .update
  localOptions := [.tag (.version r.revision), .ignoreLocalChanges]
  arguments := [r.name]

def takeContents (r : Revision) (items : List ResponseItem) : Revision :=
  items.foldl
    (fun r item =>
      match item with
      | .contents name bytes => if name = r.name then r.setContents bytes else r
      | _ => r)
    r

/--
The contents, fetched if need be, and the revision after that. It keeps what was fetched; if nothing
was, it is what it was before.
-/
def fetch (r : Revision) : RemoteWork (Except Failure Reader × Revision) := do
  match r.contents with
  | some bytes => return (.ok { bytes }, r)
  | none =>
    match ← Session.exchange r.parent.repository r.parent r.contentsRequest with
    | .error e => return (.error e, r)
    | .ok items =>
      let r := r.takeContents items
      match r.contents with
      | some bytes => return (.ok { bytes }, r)
      | none => return (.error (.contentUnavailable r.location), r)

def latestRequest (name : String) (tag : Option Tag) : Request where
  kind := .update
  globalOptions := [.doNotChangeFiles]
  localOptions := (tag.map LocalOption.tag).toList
  arguments := [name]

def reported? (name : String) (items : List ResponseItem) : Option String :=
  go none items
where
  go (found : Option String) : List ResponseItem → Option String
    | [] => found
    | .removed name' :: items => if name' = name then none else go found items
    | .revision name' revision :: items =>
      go (if name' = name then some revision else found) items
    | _ :: items => go found items

/--
Ask the server for the newest revision of a file on `tag`. There is none if the file was only added,
or if the server reports it as removed or not at all.
-/
def latest (parent : RemoteFolder) (info : SyncInfo) (tag : Option Tag) :
    RemoteWork (Except Failure (Option Revision)) := do
  if info.isAdded then
    return .ok none
  match ← Session.exchange parent.repository parent (latestRequest info.name tag) with
  | .error e => return .error e
  | .ok items =>
    return .ok ((reported? info.name items).map fun revision =>
      { parent, info := { info.withRevision revision with tag } })

def logRequest (r : Revision) : Request where
  kind := .log
  arguments := [r.name]

def log (r : Revision) : RemoteWork (Except Failure (List LogEntry)) := do
  match ← Session.exchange r.parent.repository r.parent r.logRequest with
  | .error e => return .error e
  | .ok items =>
    return .ok (items.filterMap fun
      | .log entry => some entry
      | _ => none)

end Revision

inductive RemoteMember where
  | file (r : Revision)
  | folder (f : RemoteFolder)

namespace RemoteFolder

def listRequest (f : RemoteFolder) : Request where
  kind := .list
  localOptions := (f.tag.map LocalOption.tag).toList
  arguments := ["."]

def member? (f : RemoteFolder) : ResponseItem → Option RemoteMember
  | .entry name true _ => some (.folder (f.child name))
  | .entry name false revision =>
    some (.file { parent := f, info := SyncInfo.new name (revision.getD "") none })
  | _ => none

def members (f : RemoteFolder) : RemoteWork (Except Failure (List RemoteMember)) := do
  match ← Session.exchange f.repository f f.listRequest with
  | .error e => return .error e
  | .ok items => return .ok (items.filterMap f.member?)

end RemoteFolder
end SharedWorkspace
