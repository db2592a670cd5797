import SharedWorkspace.Text.Split

/-!
Resources of a workspace: files, folders and projects, addressed by a project and a path relative to
it, and the requests to visit them at some depth.
-/

namespace SharedWorkspace

abbrev ProjectName := String

inductive Depth where
  | item
  | oneLevel
  | fullSubtree
  deriving DecidableEq

namespace Depth

def default : Depth := fullSubtree

/--
The depth of a raw level. Levels that are not known reach all the way down.
-/
def ofRaw (raw : Int) : Depth :=
  if raw = 0 then item else if raw = 1 then oneLevel else fullSubtree

def toNat : Depth → Nat
  | item => 0
  | oneLevel => 1
  | fullSubtree => 2

instance : LE Depth := ⟨fun a b => a.toNat ≤ b.toNat⟩

instance (a b : Depth) : Decidable (a ≤ b) := inferInstanceAs (Decidable (a.toNat ≤ b.toNat))

def display : Depth → String
  | item => "item"
  | oneLevel => "one_level"
  | fullSubtree => "full_subtree"

end Depth

inductive ResourceKind where
  | file
  | folder
  | project
  deriving DecidableEq

namespace ResourceKind

def rank : ResourceKind → Nat
  | file => 0
  | folder => 1
  | project => 2

def display : ResourceKind → String
  | file => "file"
  | folder => "folder"
  | project => "project"

instance : Ord ResourceKind := ⟨compareOn rank⟩

end ResourceKind

/--
A resource of a workspace. The path of the project itself is empty.
-/
structure Resource where
  project : ProjectName
  path : String
  kind : ResourceKind
  deriving DecidableEq

namespace Resource

/--
The segments of a path that lead somewhere: neither empty nor a dot.
-/
def pathSegments (path : String) : List String :=
  (Text.pieces '/' path).filter fun s => s ≠ "" ∧ s ≠ "."

def normalize (path : String) : String :=
  Text.joined '/' (pathSegments path)

def file (project : ProjectName) (path : String) : Resource :=
  ⟨project, normalize path, .file⟩

def folder (project : ProjectName) (path : String) : Resource :=
  ⟨project, normalize path, .folder⟩

def ofProject (project : ProjectName) : Resource :=
  ⟨project, "", .project⟩

def isContainer (r : Resource) : Bool :=
  r.kind ≠ .file

def name (r : Resource) : String :=
  match (Text.pieces '/' r.path).getLast? with
  | some s => if s = "" then r.project else s
  | none => r.project

def segments (r : Resource) : List String :=
  (Text.pieces '/' r.path).filter (· ≠ "")

def fullPath (r : Resource) : String :=
  if r.path = "" then "/" ++ r.project else "/" ++ r.project ++ "/" ++ r.path

instance : Ord Resource :=
  ⟨compareLex (compareOn project) (compareLex (compareOn path) (compareOn kind))⟩

def le (a b : Resource) : Bool :=
  (compare a b).isLE

end Resource

structure Traversal where
  resources : List Resource
  depth : Depth
  deriving DecidableEq

namespace Traversal

def distinct {α : Type} [DecidableEq α] (xs : List α) : List α :=
  xs.foldl (fun seen x => if x ∈ seen then seen else seen ++ [x]) []

def projects (t : Traversal) : List ProjectName :=
  distinct (t.resources.map Resource.project)

def roots (ts : List Traversal) : List Resource :=
  ts.flatMap resources

end Traversal
end SharedWorkspace
