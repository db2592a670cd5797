import SharedWorkspace.Failure
import SharedWorkspace.Remote.SyncInfo

/-!
What a server answers to a command: how the command ended, and the items it sent.
-/

namespace SharedWorkspace

inductive Outcome where
  | ok
  | serverError (status : ServerStatus)
  | clientError (message : String)
  deriving DecidableEq

inductive ResponseItem where
  /--
  The contents of a file; without bytes the file exists but nothing was sent.
  -/
  | contents (name : String) (bytes : Option (List UInt8))
  | revision (name revision : String)
  | removed (name : String)
  | log (entry : LogEntry)
  | entry (name : String) (isFolder : Bool) (revision : Option String)
  | message (text : String)
  deriving DecidableEq

structure Response where
  outcome : Outcome
  items : List ResponseItem
  deriving DecidableEq

namespace Response

def toItems (r : Response) : Except Failure (List ResponseItem) :=
  match r.outcome with
  | .ok => .ok r.items
  | .serverError status => .error (.serverProtocol status)
  | .clientError message => .error (.client message)

end Response
end SharedWorkspace
