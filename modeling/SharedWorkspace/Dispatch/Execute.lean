import SharedWorkspace.Dispatch.Plan
import SharedWorkspace.Progress.Share

/-!
Dispatches: an operation is applied to the resources of several providers, one provider after
another, each within a scope that nobody else may hold meanwhile. Every provider is worth the same
share of the progress, and every batch its units within that. The first failure ends the dispatch,
and so does the wish to stop, which is asked for before each provider, while waiting for its scope,
and before each batch.
-/

namespace SharedWorkspace

structure Operation (E : Interface) where
  name : String
  taskName : Provider → String
  scope : Provider → ScopeKey := Provider.projectScope
  executeBatch : Provider → List Resource → (recurse : Bool) → Activity E (Except Failure Unit)
  handleNontraversed : Provider → List Resource → Activity E (Except Failure Unit) :=
    fun _ _ => pure (.ok ())

namespace Operation

variable {E : Interface}

def onBatch (op : Operation E) (p : Provider) (b : Batch) : Activity E (Except Failure Unit) :=
  match b.kind with
  | .deep => op.executeBatch p b.resources true
  | .shallow => op.executeBatch p b.resources false
  | .nontraversed => op.handleNontraversed p b.resources

end Operation

namespace Dispatch

inductive Call (E : Interface) where
  | turn (p : Provider)
  /--
  Wait for a scope. Nobody holds it besides, once it is granted; the wait may be cancelled.
  -/
  | acquire (scope : ScopeKey)
  | release (scope : ScopeKey)
  | started (p : Provider) (b : Batch)
  | finished (p : Provider) (b : Batch) (result : Except Failure Unit)
  | ofOperation (c : E.Call)

@[reducible]
def Call.Answer {E : Interface} : Call E → Type
  | acquire _ => Bool
  | ofOperation c => E.Answer c
  | _ => Unit

def calls (E : Interface) : Interface where
  Call := Call E
  Answer := Call.Answer

variable {E : Interface}

def turn (p : Provider) : Activity (calls E) Unit :=
  Activity.perform (E := calls E) (.turn p)

def acquire (scope : ScopeKey) : Activity (calls E) Bool :=
  Activity.perform (E := calls E) (.acquire scope)

def release (scope : ScopeKey) : Activity (calls E) Unit :=
  Activity.perform (E := calls E) (.release scope)

def started (p : Provider) (b : Batch) : Activity (calls E) Unit :=
  Activity.perform (E := calls E) (.started p b)

def finished (p : Provider) (b : Batch) (result : Except Failure Unit) : Activity (calls E) Unit :=
  Activity.perform (E := calls E) (.finished p b result)

def ofOperation {α : Type} (a : Activity E α) : Activity (calls E) α :=
  Activity.embed (fun c => Activity.perform (E := calls E) (.ofOperation c)) a

def runBatch (op : Operation E) (p : Provider) (b : Batch) :
    Activity (calls E) (Except Failure Unit) := do
  if ← Activity.isCancelled then
    return .error .cancelled
  Activity.share b.units do
    started p b
    let result ← ofOperation (op.onBatch p b)
    finished p b result
    return result

def runBatches (op : Operation E) (p : Provider) :
    List Batch → Activity (calls E) (Except Failure (List Batch))
  | [] => return .ok []
  | b :: rest => do
    match ← runBatch op p b with
    | .error e => return .error e
    | .ok () => return (← runBatches op p rest).map (b :: ·)

def runProvider (op : Operation E) (run : ProviderRun) :
    Activity (calls E) (Except Failure ProviderRun) := do
  let task := op.taskName run.provider
  Activity.beginTask task run.units
  Activity.setTaskName task
  let scope := op.scope run.provider
  if ← acquire scope then
    let ran ← runBatches op run.provider run.batches
    release scope
    Activity.done
    return ran.map fun batches => { run with batches }
  else
    return .error .cancelled

def runProviders (op : Operation E) (budget : Nat) :
    List ProviderRun → Activity (calls E) (Except Failure DispatchReport)
  | [] => return .ok []
  | run :: rest => do
    if ← Activity.isCancelled then
      return .error .cancelled
    turn run.provider
    match ← Activity.share budget (runProvider op run) with
    | .error e => return .error e
    | .ok ran => return (← runProviders op budget rest).map (ran :: ·)

def execute (c : DispatchConfig) (op : Operation E) (g : Groups) :
    Activity (calls E) (Except Failure DispatchReport) := do
  Activity.beginTask op.name (g.size * c.providerBudget.toNat)
  let report ← runProviders op c.providerBudget.toNat (g.plan c)
  Activity.done
  return report

end Dispatch
end SharedWorkspace
