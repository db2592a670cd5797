import SharedWorkspace.Provider
import SharedWorkspace.Remote.Tag
import SharedWorkspace.Text.Split

/-!
Folders of a repository, addressed by the repository and a path in it.
-/

namespace SharedWorkspace

structure RemoteFolder where
  repository : RepositoryLocation
  /--
  The path in the repository, without separators at its ends; empty for the root.
  -/
  path : String
  tag : Option Tag
  deriving DecidableEq

namespace RemoteFolder

def new (repository : RepositoryLocation) (path : String) (tag : Option Tag) : RemoteFolder where
  repository
  path := String.ofList (Text.trimEnds (· = '/') path.toList)
  tag

def name (f : RemoteFolder) : String :=
  (Text.pieces '/' f.path).getLast?.getD ""

def location (f : RemoteFolder) : String :=
  if f.path = "" then f.repository else f.repository ++ "/" ++ f.path

def joinPath (parent name : String) : String :=
  if parent = "" then name else parent ++ "/" ++ name

/--
What is left of `path` below the path `base`: a dot if they are the same, and the whole path if it
does not lie below. The root lies above everything.
-/
def relativePath (path base : String) : String :=
  if base = "" then
    path
  else
    match Text.dropStart? base.toList path.toList with
    | some [] => "."
    | some ('/' :: rest) => String.ofList (rest.dropWhile (· = '/'))
    | _ => path

def relativeTo (f ancestor : RemoteFolder) : String :=
  relativePath f.path ancestor.path

def child (f : RemoteFolder) (name : String) : RemoteFolder :=
  new f.repository (joinPath f.path name) f.tag

end RemoteFolder
end SharedWorkspace
