import SharedWorkspace.Dispatch.Execute
import SharedWorkspace.Operation.Arguments
import SharedWorkspace.Operation.Refresh
import SharedWorkspace.Remote.Session

/-!
The operations that send a command to a server: update, commit and tag. Each batch is one command in
a session of its own, opened at the root of its provider.
-/

namespace SharedWorkspace
namespace Operation

def rootFolder (p : Provider) (tag : Option Tag) : RemoteFolder :=
  RemoteFolder.new p.location p.rootPath tag

def commandUnits : Nat := 100

def runCommand (p : Provider) (request : Request) :
    RemoteWork (Except Failure (List ResponseItem)) :=
  Session.exchange p.location (rootFolder p none) request

def commandBatch (p : Provider) (request : Request) : RemoteWork (Except Failure Unit) := do
  Activity.beginTask "" commandUnits
  match ← runCommand p request with
  | .error e => return .error e
  | .ok _ =>
    Activity.done
    return .ok ()

def commit (message : String) : Operation Session.calls where
  name := "commit"
  taskName p := "Committing " ++ p.project
  executeBatch p rs recurse :=
    commandBatch p
      { kind := .commit
        localOptions := localOptions recurse ++ [.message message]
        arguments := pathArguments rs }

def tag (t : Tag) : Operation Session.calls where
  name := "tag"
  taskName p := "Tagging " ++ p.project ++ " as " ++ t.name
  executeBatch p rs recurse :=
    commandBatch p
      { kind := .tag
        localOptions := localOptions recurse
        arguments := t.name :: pathArguments rs }

structure UpdateOptions where
  tag : Option Tag := none
  ignoreLocalChanges : Bool := false
  refreshCache : Bool := false
  deriving DecidableEq

namespace UpdateOptions

def request (o : UpdateOptions) (rs : List Resource) (recurse : Bool) : Request where
  kind := .update
  localOptions :=
    localOptions recurse ++ (o.tag.map LocalOption.tag).toList ++
      if o.ignoreLocalChanges then [.ignoreLocalChanges] else []
  arguments := pathArguments rs

end UpdateOptions

def updateCalls : Interface :=
  Session.calls.sum RemoteCache.calls

def update (o : UpdateOptions) : Operation updateCalls where
  name := "update"
  taskName p := "Updating " ++ p.project
  executeBatch p rs recurse := do
    Activity.beginTask "" (commandUnits * 2)
    let items ← Activity.share commandUnits
      (Activity.embed (fun c => Activity.perform (E := updateCalls) (.inl c))
        (runCommand p (o.request rs recurse)))
    match items with
    | .error e => return .error e
    | .ok _ =>
      Activity.share commandUnits
        (if o.refreshCache then
          Activity.embed (fun c => Activity.perform (E := updateCalls) (.inr c))
            (RemoteCache.refreshAfterUpdate p rs)
        else
          pure ())
      Activity.done
      return .ok ()

end Operation
end SharedWorkspace
