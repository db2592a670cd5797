import SharedWorkspace.OrderedMap
import SharedWorkspace.Progress.Board

/-!
Rehearsals with monitors that go by names.
-/

namespace SharedWorkspace
namespace Rehearsal

structure Monitors where
  board : Progress.Board := {}
  places : OrderedMap String Nat := .empty
  tokens : Nat := 0

namespace Monitors

def place (m : Monitors) (name : String) : Nat :=
  (m.places.find? name).getD m.board.monitors.length

def add (m : Monitors) (name : String) (x : Progress.Monitor) : Monitors where
  board := m.board.add x
  places := m.places.insert name m.board.monitors.length
  tokens := m.tokens + 1

def addRecording (m : Monitors) (name : String) (shared : Option String) : Monitors :=
  let token := (shared.bind fun other => m.board.token? (m.place other)).getD m.tokens
  m.add name (.recording token {})

def addQuiet (m : Monitors) (name : String) : Monitors :=
  m.add name (.quiet m.tokens)

def addShare (m : Monitors) (name parent : String) (units : Nat) : Monitors :=
  m.add name (.share (m.place parent) { allotment := units })

def records (m : Monitors) : List (String × Progress.Record) :=
  m.places.entries.filterMap fun (name, i) => (m.board.record? i).map (name, ·)

end Monitors
end Rehearsal
end SharedWorkspace
