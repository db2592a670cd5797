import SharedWorkspace.FileTree.Basic

/-!
Saving a text in one step as seen by readers: it is written to a neighbouring file first, which is
then moved into place.
-/

namespace SharedWorkspace
namespace FileTree

/--
Write `text` to the file at `p` by way of the file at `temporary`, in a directory that is created if
need be. After a failure the temporary file may stay behind, with a part of the text only.
-/
def save (t : FileTree) (p temporary : Path) (text : String) (disk : Disk := {}) :
    Except Failure Unit × FileTree :=
  let create := match p.parent? with
    | some dir => (dir, t.createDirectories dir disk)
    | none => (p, (.ok (), t))
  match create with
  | (dir, .error e, t) => (.error (.file dir e), t)
  | (_, .ok (), t) =>
    match t.write temporary (Text.utf8 text) disk with
    | (.error e, t) => (.error (.file temporary e), t)
    | (.ok (), t) =>
      match t.rename temporary p disk with
      | .error e => (.error (.file p e), t)
      | .ok t => (.ok (), t)

end FileTree
end SharedWorkspace
