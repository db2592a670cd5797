import SharedWorkspace.Handle
import SharedWorkspace.Rehearsal.Scene

/-!
A desk for rehearsals with a server and with files: sessions, revisions, readers and handles that
were made in the course of it are kept under names.
-/

namespace SharedWorkspace
namespace Rehearsal

structure Desk where
  scene : Scene
  tree : FileTree
  sessions : OrderedMap String SessionId := .empty
  revisions : OrderedMap String (Revision × Nat) := .empty
  readers : OrderedMap String Reader := .empty
  handles : OrderedMap String Handle := .empty
  parents : Nat := 0
  current : Option String := none

abbrev OnDesk := StateM Desk

def perform {α : Type} (a : RemoteWork α) : OnDesk α :=
  modifyGet fun d => (((playRemote a).run d.scene).1, { d with scene := ((playRemote a).run d.scene).2 })

def dropSession (name : String) : OnDesk Bool := do
  match (← get).sessions.find? name with
  | none => return false
  | some id =>
    perform (OpenSession.drop ⟨some id⟩)
    modify fun d => { d with sessions := d.sessions.erase name }
    return true

/--
Open a session and keep it under a name; then the session that had the name is closed.
-/
def openNamed (name : String) (location : RepositoryLocation) (root : RemoteFolder) :
    OnDesk (Except Failure Unit) := do
  match ← perform (Session.connect location root) with
  | .error e => return .error e
  | .ok id =>
    let _ ← dropSession name
    modify fun d => { d with sessions := d.sessions.insert name id }
    return .ok ()

def closeNamed (name : String) : OnDesk (Except Failure Unit) := do
  match (← get).sessions.find? name with
  | none => return .ok ()
  | some id =>
    modify fun d => { d with sessions := d.sessions.erase name }
    return (← perform (OpenSession.close ⟨some id⟩)).1

def keepRevision (name : String) (r : Revision) (parent : Option Nat) : OnDesk Unit :=
  modify fun d =>
    { d with
      revisions := d.revisions.insert name (r, parent.getD d.parents)
      parents := d.parents + 1
      current := some name }

def keepMade (name : String) (r : Option Revision) : OnDesk Bool := do
  if let some r := r then
    keepRevision name r none
  return r.isSome

def fetchNamed (name : String) (r : Revision) (parent : Nat) (reader : Option String) :
    OnDesk (Except Failure Reader) := do
  let (fetched, r) ← perform r.fetch
  keepRevision name r (some parent)
  if let (.ok f, some key) := (fetched, reader) then
    modify fun d => { d with readers := d.readers.insert key f }
  return fetched

def onReader {α : Type} (name : String) (f : Reader → α × Reader) : OnDesk (Option α) :=
  modifyGet fun d =>
    match d.readers.find? name with
    | some r => (some (f r).1, { d with readers := d.readers.insert name (f r).2 })
    | none => (none, d)

def keepHandle (name : String) (h : Handle) : OnDesk Unit :=
  modify fun d => { d with handles := d.handles.insert name h }

def keepChildren (name : String) (hs : List Handle) : OnDesk Unit :=
  hs.zipIdx.forM fun (h, i) => keepHandle (name ++ String.ofList (Text.digits i)) h

end Rehearsal
end SharedWorkspace
