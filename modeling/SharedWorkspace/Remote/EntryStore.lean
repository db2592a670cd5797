import SharedWorkspace.FileTree.Save
import SharedWorkspace.Json.Remote

/-!
The file in which a folder keeps its entries from one run to the next.
-/

namespace SharedWorkspace
namespace EntryStore

def path (folder : Path) : Path :=
  (folder.join ⟨".teamsync"⟩).join ⟨"entries.json"⟩

def load (t : FileTree) (now : Instant) (folder : Path) : Except Failure Entries :=
  if t.exists? (path folder) then
    match t.readText (path folder) with
    | .error e => .error (.file (path folder) e)
    | .ok text =>
      match JsonCodec.ofText? text with
      | some entries => .ok entries
      | none => .error .malformedJson
  else
    .ok (.empty now)

def save (t : FileTree) (folder : Path) (entries : Entries) (disk : Disk := {}) :
    Except Failure Unit × FileTree :=
  t.save (path folder) ((path folder).withExtension "json.tmp") (JsonCodec.toIndentedText entries) disk

end EntryStore
end SharedWorkspace
