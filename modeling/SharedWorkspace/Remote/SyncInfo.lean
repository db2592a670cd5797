import SharedWorkspace.Instant
import SharedWorkspace.Remote.Tag

/-!
What a workspace remembers about a file that it shares with a repository, and the entries of a
file's history.
-/

namespace SharedWorkspace

structure SyncInfo where
  name : String
  revision : String
  timestamp : Option Instant
  /--
  How keywords are replaced in the file; empty if that is left to the server.
  -/
  keywordMode : String
  tag : Option Tag
  deriving DecidableEq

namespace SyncInfo

def addedRevision : String := "0"

def new (name revision : String) (tag : Option Tag) : SyncInfo where
  name
  revision
  timestamp := none
  keywordMode := ""
  tag

def isAdded (i : SyncInfo) : Bool :=
  i.revision = addedRevision

def withRevision (i : SyncInfo) (revision : String) : SyncInfo :=
  { i with revision }

end SyncInfo

structure LogEntry where
  revision : String
  author : String
  date : Instant
  comment : String
  state : String
  tags : List Tag
  deriving DecidableEq

namespace LogEntry

def isDeletion (e : LogEntry) : Bool :=
  e.state = "dead"

end LogEntry
end SharedWorkspace
