import SharedWorkspace.FileTree.Basic
import SharedWorkspace.Remote.Revision

/-!
Handles: files and folders that are looked at alike, whether they are on disk or in a repository.
-/

namespace SharedWorkspace

inductive Handle where
  | localFile (p : Path)
  | localFolder (p : Path)
  | remoteFile (r : Revision)
  | remoteFolder (f : RemoteFolder)

namespace Handle

/--
The handle for a path on disk. Whatever is not a directory, or is not there, counts as a file.
-/
def ofPath (t : FileTree) (p : Path) : Handle :=
  if t.isDirectory p then .localFolder p else .localFile p

def ofMember : RemoteMember → Handle
  | .file r => .remoteFile r
  | .folder f => .remoteFolder f

def isContainer : Handle → Bool
  | localFile _ => false
  | localFolder _ => true
  | remoteFile _ => false
  | remoteFolder _ => true

def name : Handle → String
  | localFile p => p.caption
  | localFolder p => p.caption
  | remoteFile r => r.name
  | remoteFolder f => f.name

def kind : Handle → String
  | localFile _ => "local_file"
  | localFolder _ => "local_folder"
  | remoteFile _ => "remote_file"
  | remoteFolder _ => "remote_folder"

def same : Handle → Handle → Bool
  | localFile p, localFile q => p.components = q.components
  | localFolder p, localFolder q => p.components = q.components
  | remoteFile r, remoteFile s => r.same s
  | remoteFolder f, remoteFolder g => f = g
  | _, _ => false

def fetchContents (t : FileTree) : Handle → RemoteWork (Except Failure (Option Reader) × Handle)
  | localFile p =>
    match t.read p with
    | .error e => return (.error (.file p e), .localFile p)
    | .ok bytes => return (.ok (some { bytes }), .localFile p)
  | remoteFile r => do
    let (reader, r) ← r.fetch
    return (reader.map some, .remoteFile r)
  | h => return (.ok none, h)

/--
What is directly in a folder: by name if it is on disk, and in the order of the server if it is in a
repository. Nothing is in a file.
-/
def children (t : FileTree) : Handle → RemoteWork (Except Failure (List Handle))
  | localFolder p =>
    match t.list p with
    | .error e => return .error (.file p e)
    | .ok names => return .ok (names.map fun name => ofPath t (p.join ⟨name⟩))
  | remoteFolder f => do
    match ← f.members with
    | .error e => return .error e
    | .ok members => return .ok (members.map ofMember)
  | _ => return .ok []

end Handle
end SharedWorkspace
