import SharedWorkspace.OrderedMap
import SharedWorkspace.Remote.SyncInfo

/-!
What a folder of the workspace remembers about its files, by their names.
-/

namespace SharedWorkspace

structure Entries where
  syncedAt : Instant
  infos : OrderedMap String SyncInfo
  deriving DecidableEq

namespace Entries

def empty (now : Instant) : Entries :=
  ⟨now, .empty⟩

def get? (e : Entries) (name : String) : Option SyncInfo :=
  e.infos.find? name

def insert (e : Entries) (info : SyncInfo) : Entries :=
  { e with infos := e.infos.insert info.name info }

def remove (e : Entries) (name : String) : Entries :=
  { e with infos := e.infos.erase name }

end Entries
end SharedWorkspace
