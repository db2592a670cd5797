import SharedWorkspace.Rehearsal.Script
import SharedWorkspace.Scope.LockTable

/-!
Rehearsals: work is played in a scene that answers all of its calls. The monitor of a scene can be
cancelled beforehand, at a question or after a report; its server, its cache and the batches of its
operation follow a script; its table of scopes may have holders that never give way. All that
happens is recorded.
-/

namespace SharedWorkspace
namespace Rehearsal

inductive Occurrence where
  | begun (name : String) (total : Nat)
  | named (name : String)
  | worked (units : Nat) (held : List ScopeKey)
  | done
  | opened (location : RepositoryLocation) (root : RemoteFolder)
  | executed (request : Request)
  | closed
  | refreshed (p : Provider) (folder : Resource) (deep : Bool)
  | batch (p : Provider) (kind : BatchKind) (resources : List Resource) (held : List ScopeKey)

structure Scene where
  cancelled : Bool := false
  polls : Nat := 0
  cancelAtPoll : Option Nat := none
  cancelAtOccurrence : Option Nat := none
  log : Array Occurrence := #[]
  script : List SessionScript := []
  sessions : List (SessionId × SessionScript) := []
  nextSession : SessionId := 0
  onRefresh : Resource → Part Unit := fun _ => { outcome := .ok () }
  onBatch : Provider → BatchKind → Part Unit := fun _ _ => { outcome := .ok () }
  locks : LockTable := {}
  watched : List ScopeKey := []

namespace Scene

def held (s : Scene) : List ScopeKey :=
  s.watched.filter s.locks.isHeld

def record (s : Scene) (o : Occurrence) : Scene :=
  let log := s.log.push o
  { s with log, cancelled := s.cancelled || s.cancelAtOccurrence == some log.size }

def poll (s : Scene) : Bool × Scene :=
  let polls := s.polls + 1
  let cancelled := s.cancelled || s.cancelAtPoll == some polls
  (cancelled, { s with polls, cancelled })

def restart (s monitor : Scene) : Scene :=
  { s with
    cancelled := monitor.cancelled
    polls := 0
    cancelAtPoll := monitor.cancelAtPoll
    cancelAtOccurrence := monitor.cancelAtOccurrence
    log := #[] }

end Scene

abbrev Play :=
  StateM Scene

def record (o : Occurrence) : Play Unit :=
  modify (·.record o)

def onMonitor : (c : Progress.Call) → Play c.Answer
  | .beginTask name total => record (.begun name total)
  | .setTaskName name => record (.named name)
  | .worked units => modify fun s => s.record (.worked units s.held)
  | .done => record .done
  | .isCancelled => modifyGet Scene.poll
  | .cancel => modify fun s => { s with cancelled := true }

def onActivity {E : Interface} (outside : (c : E.Call) → Play (E.Answer c)) :
    (c : (Progress.calls.sum E).Call) → Play ((Progress.calls.sum E).Answer c)
  | .inl c => onMonitor c
  | .inr c => outside c

def play {E : Interface} {α : Type} (outside : (c : E.Call) → Play (E.Answer c))
    (a : Activity E α) : Play α :=
  a.runM (onActivity outside)

def openSession : Play (Part SessionId) :=
  modifyGet fun s =>
    let entry := s.script.headD {}
    let opening := entry.opening
    ({ opening with outcome := opening.outcome.map fun _ => s.nextSession },
      { s with
        script := s.script.tail
        sessions := (s.nextSession, entry) :: s.sessions
        nextSession := s.nextSession + 1 })

def takeCommand (id : SessionId) : Play (Part Response) :=
  modifyGet fun s =>
    let commands := ((s.sessions.lookup id).map SessionScript.commands).getD []
    let advance := fun ((other, entry) : SessionId × SessionScript) =>
      if other = id then (other, { entry with commands := commands.tail }) else (other, entry)
    (commands.headD { outcome := .ok ⟨.ok, []⟩ },
      { s with sessions := s.sessions.map advance })

def onServer : (c : Session.Call) → Play c.Answer
  | .connect location root => do
    record (.opened location root)
    return (← openSession).toWork
  | .opened _ => return ()
  | .execute id request => do
    record (.executed request)
    return (← takeCommand id).toWork
  | .close id => do
    record .closed
    return (((← get).sessions.lookup id).map SessionScript.closing).getD (.ok ())

def onCache : (c : RemoteCache.Call) → Play c.Answer
  | .refresh p folder deep => do
    record (.refreshed p folder deep)
    return ((← get).onRefresh folder).toWork

def onBatches : (c : batchCalls.Call) → Play (batchCalls.Answer c)
  | (p, kind, resources) => do
    modify fun s => s.record (.batch p kind resources s.held)
    return ((← get).onBatch p kind).toWork

def onUpdate : (c : Operation.updateCalls.Call) → Play (Operation.updateCalls.Answer c)
  | .inl c => onServer c
  | .inr c => onCache c

def acquire (patience : Nat) (scope : ScopeKey) : Play Bool :=
  modifyGet fun s =>
    match s.locks.acquire Scene.poll scope patience s with
    | (some (.ok locks), s) => (true, { s with locks })
    | (_, s) => (false, s)

/--
The calls of a dispatch. A wait that takes more than `patience` attempts counts as cancelled.
-/
def onDispatch {E : Interface} (patience : Nat) (outside : (c : E.Call) → Play (E.Answer c)) :
    (c : Dispatch.Call E) → Play c.Answer
  | .turn _ => return ()
  | .acquire scope => acquire patience scope
  | .release scope => modify fun s => { s with locks := s.locks.release scope }
  | .started _ _ => return ()
  | .finished _ _ _ => return ()
  | .ofOperation c => outside c

def dispatch {E : Interface} (patience : Nat) (outside : (c : E.Call) → Play (E.Answer c))
    (c : DispatchConfig) (op : Operation E) (g : Groups) : Play (Except Failure DispatchReport) :=
  play (E := Dispatch.calls E) (onDispatch patience outside) (Dispatch.execute c op g)

def playRemote {α : Type} (a : RemoteWork α) : Play α :=
  play (E := Session.calls) onServer a

end Rehearsal
end SharedWorkspace
