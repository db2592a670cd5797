import SharedWorkspace.Progress.Share

/-!
Monitors that stand for themselves: ones that record what they are told, ones that keep quiet, and
shares of other monitors. A board holds a growing list of them; a share is added after its parent,
so that what is told to a monitor travels to ever smaller positions.
-/

namespace SharedWorkspace
namespace Progress

structure Record where
  total : Nat := 0
  worked : Nat := 0
  taskNames : List String := []
  done : Bool := false
  deriving DecidableEq

namespace Record

def beginTask (r : Record) (name : String) (total : Nat) : Record :=
  { r with
    total
    taskNames := if name = "" then r.taskNames else r.taskNames ++ [name] }

def setTaskName (r : Record) (name : String) : Record :=
  { r with taskNames := r.taskNames ++ [name] }

def addWorked (r : Record) (units : Nat) : Record :=
  { r with worked := r.worked + units }

def finish (r : Record) : Record :=
  { r with done := true }

end Record

/--
A monitor. The first two kinds know the token that cancels them, a share knows its parent.
-/
inductive Monitor where
  | recording (token : Nat) (record : Record)
  | quiet (token : Nat)
  | share (parent : Nat) (share : Share)
  deriving DecidableEq

structure Board where
  monitors : List Monitor := []
  cancelled : List Nat := []
  deriving DecidableEq

namespace Board

def add (b : Board) (m : Monitor) : Board :=
  { b with monitors := b.monitors ++ [m] }

def put (b : Board) (i : Nat) (m : Monitor) : Board :=
  { b with monitors := b.monitors.set i m }

/--
Tell a monitor that `units` are done. A share passes on to its parent what it charges.
-/
def worked (b : Board) (i : Nat) (units : Nat) : Board :=
  match b.monitors[i]? with
  | some (.recording token record) => b.put i (.recording token (record.addWorked units))
  | some (.share parent s) =>
    let (charge, s) := s.work units
    let b := b.put i (.share parent s)
    if charge = 0 then
      b
    else if parent < i then
      worked b parent charge
    else
      b
  | _ => b
termination_by i

def done (b : Board) (i : Nat) : Board :=
  match b.monitors[i]? with
  | some (.recording token record) => b.put i (.recording token record.finish)
  | some (.share parent s) =>
    let (charge, s) := s.finish
    let b := b.put i (.share parent s)
    if charge = 0 then b else b.worked parent charge
  | _ => b

def beginTask (b : Board) (i : Nat) (name : String) (total : Nat) : Board :=
  match b.monitors[i]? with
  | some (.recording token record) => b.put i (.recording token (record.beginTask name total))
  | some (.share parent s) => b.put i (.share parent (s.beginTask total))
  | _ => b

def setTaskName (b : Board) (i : Nat) (name : String) : Board :=
  match b.monitors[i]? with
  | some (.recording token record) => b.put i (.recording token (record.setTaskName name))
  | some (.share parent _) => if parent < i then setTaskName b parent name else b
  | _ => b
termination_by i

def token? (b : Board) (i : Nat) : Option Nat :=
  match b.monitors[i]? with
  | some (.recording token _) => some token
  | some (.quiet token) => some token
  | some (.share parent _) => if parent < i then token? b parent else none
  | none => none
termination_by i

def isCancelled (b : Board) (i : Nat) : Bool :=
  (b.token? i).any b.cancelled.contains

def cancel (b : Board) (i : Nat) : Board :=
  match b.token? i with
  | some token => { b with cancelled := token :: b.cancelled }
  | none => b

def record? (b : Board) (i : Nat) : Option Record :=
  match b.monitors[i]? with
  | some (.recording _ record) => some record
  | _ => none

end Board
end Progress
end SharedWorkspace
