import SharedWorkspace.Progress.Share
import SharedWorkspace.Remote.Folder
import SharedWorkspace.Remote.Request
import SharedWorkspace.Remote.Response

/-!
Sessions with a repository server. A server is known by its answers alone: what it does on the
monitor that it is handed, and how opening, a command or closing ends. A session that was opened is
closed again, whatever happens in between.
-/

namespace SharedWorkspace

abbrev SessionId := Nat

namespace Session

inductive Call where
  | connect (location : RepositoryLocation) (root : RemoteFolder)
  | opened (session : SessionId)
  | execute (session : SessionId) (request : Request)
  | close (session : SessionId)
  deriving DecidableEq

@[reducible]
def Call.Answer : Call → Type
  | connect _ _ => Work (Except Failure SessionId)
  | opened _ => Unit
  | execute _ _ => Work (Except Failure Response)
  | close _ => Except Failure Unit

def calls : Interface where
  Call := Call
  Answer := Call.Answer

end Session

abbrev RemoteWork (α : Type) :=
  Activity Session.calls α

namespace Session

def connect (location : RepositoryLocation) (root : RemoteFolder) :
    RemoteWork (Except Failure SessionId) := do
  if ← Activity.isCancelled then
    return .error .cancelled
  let work ← Activity.perform (E := calls) (Call.connect location root)
  match ← Activity.ofWork work with
  | .error e => return .error e
  | .ok session =>
    Activity.perform (E := calls) (Call.opened session)
    return .ok session

def execute (session : SessionId) (request : Request) : RemoteWork (Except Failure Response) := do
  if ← Activity.isCancelled then
    return .error .cancelled
  let work ← Activity.perform (E := calls) (Call.execute session request)
  Activity.ofWork work

def close (session : SessionId) : RemoteWork (Except Failure Unit) :=
  Activity.perform (E := calls) (Call.close session)

end Session

/--
A session that is closed at the latest when it is dropped. There is none inside once it was closed.
-/
structure OpenSession where
  inner : Option SessionId

namespace OpenSession

def execute (s : OpenSession) (request : Request) : RemoteWork (Except Failure Response) :=
  match s.inner with
  | some session => Session.execute session request
  | none => do
    if ← Activity.isCancelled then
      return .error .cancelled
    return .error (.client "session already closed")

def close (s : OpenSession) : RemoteWork (Except Failure Unit × OpenSession) :=
  match s.inner with
  | some session => do
    let closed ← Session.close session
    return (closed, ⟨none⟩)
  | none => return (.ok (), s)

/--
Close the session that may still be inside. Nobody is told if that fails.
-/
def drop (s : OpenSession) : RemoteWork Unit :=
  match s.inner with
  | some session => do
    let _ ← Session.close session
    return ()
  | none => return ()

def command (s : OpenSession) (request : Request) :
    RemoteWork (Except Failure (List ResponseItem) × OpenSession) := do
  match (← s.execute request) >>= Response.toItems with
  | .error e => return (.error e, s)
  | .ok items =>
    let (closed, s) ← s.close
    return (closed.map fun () => items, s)

end OpenSession

namespace Session

def exchange (location : RepositoryLocation) (root : RemoteFolder) (request : Request) :
    RemoteWork (Except Failure (List ResponseItem)) := do
  match ← connect location root with
  | .error e => return .error e
  | .ok session =>
    let (items, s) ← OpenSession.command ⟨some session⟩ request
    s.drop
    return items

end Session
end SharedWorkspace
