import SharedWorkspace.Progress.Share
import SharedWorkspace.Provider
import SharedWorkspace.Failure

/-!
Remembered remote state. After an update the folders concerned are looked at afresh, with all that
lies below them: what is remembered may be out of date at any depth. That this fails is of no
consequence for the update.
-/

namespace SharedWorkspace

namespace RemoteCache

inductive Call where
  | refresh (p : Provider) (folder : Resource) (deep : Bool)
  deriving DecidableEq

@[reducible]
def Call.Answer : Call → Type
  | refresh _ _ _ => Work (Except Failure Unit)

def calls : Interface where
  Call := Call
  Answer := Call.Answer

def unitsPerResource : Nat := 100

def refreshOne (p : Provider) (r : Resource) : Activity calls Unit := do
  if r.isContainer then
    let work ← Activity.perform (E := calls) (Call.refresh p r true)
    Activity.share unitsPerResource do
      let _ ← Activity.ofWork work
      return ()
  else
    Activity.worked unitsPerResource

def refreshEach (p : Provider) : List Resource → Activity calls Unit
  | [] => return ()
  | r :: rest => do
    refreshOne p r
    refreshEach p rest

def refreshAfterUpdate (p : Provider) (rs : List Resource) : Activity calls Unit := do
  Activity.beginTask "" (unitsPerResource * rs.length)
  refreshEach p rs
  Activity.done

end RemoteCache
end SharedWorkspace
