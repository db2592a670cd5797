import SharedWorkspace.Operation.Command

/-!
Scripts for rehearsals: what each call of a server, a cache or an operation is to come to.
-/

namespace SharedWorkspace
namespace Rehearsal

inductive Report where
  | beginTask (name : String) (total : Nat)
  | worked (units : Nat)
  | done
  deriving DecidableEq

namespace Report

def toWork : Report → Work Unit
  | beginTask name total => Activity.beginTask name total
  | worked units => Activity.worked units
  | done => Activity.done

end Report

structure Part (α : Type) where
  reports : List Report := []
  cancels : Bool := false
  outcome : Except Failure α

namespace Part

def toWork {α : Type} (p : Part α) : Work (Except Failure α) := do
  p.reports.forM Report.toWork
  if p.cancels then
    Activity.cancel
  return p.outcome

end Part

/--
What becomes of one session. Commands beyond those of the script succeed and send nothing.
-/
structure SessionScript where
  opening : Part Unit := { outcome := .ok () }
  commands : List (Part Response) := []
  closing : Except Failure Unit := .ok ()

def batchCalls : Interface where
  Call := Provider × BatchKind × List Resource
  Answer := fun _ => Work (Except Failure Unit)

def operation (name : String) (taskName : Provider → String) (scope : Provider → ScopeKey) :
    Operation batchCalls where
  name
  taskName
  scope
  executeBatch p rs recurse := do
    let work ← Activity.perform (E := batchCalls) (p, if recurse then .deep else .shallow, rs)
    Activity.ofWork work
  handleNontraversed p rs := do
    let work ← Activity.perform (E := batchCalls) (p, .nontraversed, rs)
    Activity.ofWork work

end Rehearsal
end SharedWorkspace
